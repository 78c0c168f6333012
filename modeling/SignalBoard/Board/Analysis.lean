import SignalBoard.Board.Basic
import SignalBoard.Digraph.Depth
import SignalBoard.Digraph.Reach
/-!
# Analysing a board

A board can be run if its wires have no loop. The analysis then holds the order in which to go
through the ids, how deep every id sits and which ids are live, that is, lie on a way from an
outside input to an outside output.
-/

namespace SignalBoard

/-- The wires of a board form a loop. -/
structure LoopError where
  /-- The loop, whose first id comes once more at the end. -/
  path : List NodeId
deriving DecidableEq

namespace LoopError

/-- The text of the error. -/
def message (e : LoopError) : String :=
  if e.path.isEmpty then "cycle detected"
  else "cycle detected: " ++ String.intercalate " -> " (e.path.map NodeId.text)

end LoopError

namespace Digraph

/-- The ids on the ways from outside inputs to outside outputs. -/
def liveIds (g : Digraph NodeId) : List NodeId :=
  g.live NodeId.isInput NodeId.isOutput

end Digraph

/-- What is known about a board without loops. -/
structure Analysis where
  /-- All ids, in an order in which every wire leads forward. -/
  order : List NodeId
  depths : OrderedMap NodeId Nat
  maxDepth : Nat
  /-- The live ids, in the same order. -/
  live : List NodeId
  ports : PortCounts

namespace Analysis

def depth? (a : Analysis) (id : NodeId) : Option Nat :=
  a.depths.get? id

def isLive (a : Analysis) (id : NodeId) : Bool :=
  id ∈ a.live

/-- Whether both ends of a wire are live. -/
def isLiveWire (a : Analysis) (wire : Wire) : Bool :=
  a.isLive wire.source.node && a.isLive wire.target.node

end Analysis

namespace Board

/-- The graph of a board's ids and wires. -/
def digraph (board : Board) (ports : PortCounts) : Digraph NodeId :=
  .ofLists (board.nodes.ids ports) (board.wires.map Wire.ends)

/-- Analyses a board with the given numbers of outside ports. -/
def analyse (board : Board) (ports : PortCounts) : Except LoopError Analysis :=
  match (board.digraph ports).layers with
  | .error loop => .error ⟨loop⟩
  | .ok layers =>
    .ok {
      order := layers.order
      depths := layers.depths
      maxDepth := layers.maxDepth
      -- over the sorted vertices, so that the live ids come out sorted too
      live := (Digraph.ofLists layers.order (board.wires.map Wire.ends)).liveIds
      ports }

end Board
end SignalBoard
