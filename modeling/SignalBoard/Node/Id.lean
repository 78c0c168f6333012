import SignalBoard.Decimal.Digits
/-!
# Node ids and connection points

The outside ports of a board take part in it as virtual nodes with reserved ids: `cp:input:n` feeds
input `n` into the board and `cp:output:n` collects output `n`. An id is such a connection point
exactly if an index can be read after one of the two beginnings.
-/

namespace SignalBoard

/-- The name of a node on a board. -/
structure NodeId where
  text : String
deriving DecidableEq

/-- An outside port of a board. -/
inductive ConnectionPoint where
  /-- Outside input: one output port, no input ports. -/
  | input (index : UInt64)
  /-- Outside output: one input port, no output ports. -/
  | output (index : UInt64)
deriving DecidableEq

namespace ConnectionPoint

/-- How the ids of outside inputs begin. -/
def inputMark : String := "cp:input:"

/-- How the ids of outside outputs begin. -/
def outputMark : String := "cp:output:"

/-- Reads an index: digits, possibly after one plus sign, of a number that fits into a word. -/
def index? (cs : List Char) : Option UInt64 :=
  let ds := match cs with
    | '+' :: ds => ds
    | ds => ds
  -- leading zeros are read over: one index has many spellings
  ((Decimal.natural? ds).filter (· < UInt64.size)).map UInt64.ofNat

/-- The id of a connection point. -/
def id : ConnectionPoint → NodeId
  | .input n => ⟨inputMark ++ String.ofList (Decimal.digits n.toNat)⟩
  | .output n => ⟨outputMark ++ String.ofList (Decimal.digits n.toNat)⟩

end ConnectionPoint

namespace NodeId

/-- The id of the connection point for outside input `n`. -/
def input (n : UInt64) : NodeId := (ConnectionPoint.input n).id

/-- The id of the connection point for outside output `n`. -/
def output (n : UInt64) : NodeId := (ConnectionPoint.output n).id

/-- The connection point that an id stands for, none for an ordinary id. -/
def connectionPoint? (id : NodeId) : Option ConnectionPoint :=
  match ConnectionPoint.inputMark.toList.isPrefixOf? id.text.toList with
  -- a mark without an index makes an ordinary id
  | some cs => (ConnectionPoint.index? cs).map .input
  | none =>
    match ConnectionPoint.outputMark.toList.isPrefixOf? id.text.toList with
    | some cs => (ConnectionPoint.index? cs).map .output
    | none => none

/-- Whether an id stands for an outside input. -/
def isInput (id : NodeId) : Bool :=
  id.connectionPoint? matches some (.input _)

/-- Whether an id stands for an outside output. -/
def isOutput (id : NodeId) : Bool :=
  id.connectionPoint? matches some (.output _)

/-- Whether an id stands for a connection point. -/
def isConnectionPoint (id : NodeId) : Bool :=
  id.connectionPoint?.isSome

end NodeId
end SignalBoard
