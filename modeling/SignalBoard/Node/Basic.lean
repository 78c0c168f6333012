import SignalBoard.Node.Id
import SignalBoard.Node.Kind
import SignalBoard.Node.Param
/-!
# Nodes

A node as it was placed on a board.
-/

namespace SignalBoard

/-- A place on the canvas. Nothing that runs a board looks at it. -/
structure Position where
  x : Binary64
  y : Binary64
deriving DecidableEq

namespace Position

def origin : Position := ⟨.zero, .zero⟩

end Position

/-- A node of a board. -/
structure Node where
  id : NodeId
  kind : NodeKind
  position : Position
  params : Params
  inputCount : UInt64
  outputCount : UInt64
deriving DecidableEq

/-- The nodes of a board. The key of a node need not be its id. -/
abbrev NodeMap := OrderedMap NodeId Node

namespace Node

/-- A node without parameters and with the default ports of its kind. -/
def ofKind (id : NodeId) (kind : NodeKind) : Node :=
  ⟨id, kind, .origin, .empty, kind.defaultInputs, kind.defaultOutputs⟩

def withParam (node : Node) (key : String) (value : ParamValue) : Node :=
  { node with params := node.params.insert key value }

def withPorts (node : Node) (inputs outputs : UInt64) : Node :=
  { node with inputCount := inputs, outputCount := outputs }

def movedTo (node : Node) (position : Position) : Node :=
  { node with position }

end Node
end SignalBoard
