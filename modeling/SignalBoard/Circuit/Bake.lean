import SignalBoard.Circuit.Basic
import SignalBoard.Board.Analysis
/-!
# Baking a board

Baking sorts a board and copies what is needed to run it into a circuit. A composite node takes
along the circuit that the library holds under its type text; where there is none it will give
zeros.
-/

namespace SignalBoard

/-- Baked circuits by the type text of the composite nodes that stand for them. -/
abbrev Library := OrderedMap String Circuit

namespace Part

/-- The part for a node of a board, with the circuit behind it if it is a composite one. -/
def resolve (library : Library) (node : Node) : Part :=
  let part := Part.ofNode node
  if node.kind.isComposite then { part with nested := library.get? node.kind.text } else part

end Part

namespace Board

/-- Bakes a board with the given numbers of outside ports. Nodes whose id is a connection point have
no part, and wires of which an end is not on the board have no edge. -/
def bake (board : Board) (ports : PortCounts) (library : Library) : Except LoopError Circuit :=
  (board.analyse ports).map fun analysis => {
    order := analysis.order
    parts :=
      (board.nodes.values.filter fun node => !node.id.isConnectionPoint).map (Part.resolve library)
    edges := (board.wires.filter fun wire =>
      wire.source.node ∈ analysis.order && wire.target.node ∈ analysis.order).map Edge.ofWire
    inputCount := ports.inputs
    outputCount := ports.outputs }

end Board
end SignalBoard
