import SignalBoard.Node.Basic
import SignalBoard.Wire
/-!
# Boards

A board is a set of nodes and a list of wires. Its outside ports are not among the nodes: they are
numbered, and how many there are is either declared or read off the connection points that the board
mentions.
-/

namespace SignalBoard

/-- What has been put together on a board. -/
structure Board where
  nodes : NodeMap
  wires : List Wire
deriving DecidableEq

/-- How many outside ports there are. -/
structure PortCounts where
  inputs : UInt64
  outputs : UInt64
deriving DecidableEq

namespace PortCounts

def none : PortCounts := ⟨0, 0⟩

/-- The least counts that also cover an id, if it is a connection point. -/
def cover (counts : PortCounts) (id : NodeId) : PortCounts :=
  match id.connectionPoint? with
  -- after the largest index comes zero, which leaves the counts as they are
  | some (.input n) => { counts with inputs := max counts.inputs (n + 1) }
  | some (.output n) => { counts with outputs := max counts.outputs (n + 1) }
  | Option.none => counts

end PortCounts

namespace Board

/-- The ids that a board mentions: the keys of its nodes and the ends of its wires. -/
def mentioned (board : Board) : List NodeId :=
  board.nodes.keys ++ board.wires.flatMap fun wire => [wire.source.node, wire.target.node]

/-- The least counts that cover every connection point that the board mentions. -/
def inferredPorts (board : Board) : PortCounts :=
  board.mentioned.foldl PortCounts.cover .none

/-- The declared counts, or else the inferred ones. -/
def portsOr (board : Board) (declared : Option PortCounts) : PortCounts :=
  declared.getD board.inferredPorts

end Board

/-- All ids that take part in running a board: outside inputs, nodes, outside outputs. -/
def NodeMap.ids (nodes : NodeMap) (ports : PortCounts) : List NodeId :=
  (List.range ports.inputs.toNat).map (fun n => .input (UInt64.ofNat n)) ++
    -- keys that are connection points come in by the counts alone
    nodes.keys.filter (fun id => !id.isConnectionPoint) ++
    (List.range ports.outputs.toNat).map (fun n => .output (UInt64.ofNat n))

end SignalBoard
