import SignalBoard.Node.Basic
import SignalBoard.Value.Fields
/-!
# Nodes as values

Ids and kinds are stored as texts and parameters as a map. A node is a record in which the position
and the parameters may be missing.
-/

namespace SignalBoard

namespace NodeId

def toValue (id : NodeId) : Value :=
  .text id.text

def ofValue? (v : Value) : Option NodeId :=
  v.text?.map NodeId.mk

end NodeId

namespace NodeKind

def toValue (kind : NodeKind) : Value :=
  .text kind.text

def ofValue? (v : Value) : Option NodeKind :=
  v.text?.map ofText

end NodeKind

namespace ParamValue

def toValue : ParamValue → Value
  | bool b => .bool b
  | number x => .real x
  | text s => .text s
  | null => .null

def ofValue? : Value → Option ParamValue
  | .bool b => some (bool b)
  | .int n => some (number (.ofInt n))
  | .real x => some (number x)
  | .null => some null
  | v => v.text?.map text

end ParamValue

namespace Params

def toValue (params : Params) : Value :=
  .record (params.entries.map fun (key, v) => (key, v.toValue))

/-- Reads one parameter. -/
def entry? (entry : Value × Value) : Option (String × ParamValue) := do
  return (← entry.1.text?, ← ParamValue.ofValue? entry.2)

/-- Reads a map of parameters. A key that comes again replaces the value and keeps its place. -/
def ofValue? : Value → Option Params
  | .map entries => (entries.mapM entry?).map OrderedMap.ofList
  | _ => none

end Params

namespace Position

def toValue (position : Position) : Value :=
  .record [("x", .real position.x), ("y", .real position.y)]

def ofValue? (v : Value) : Option Position := do
  let fields ← v.fields? ["x", "y"]
  return ⟨← fields.required "x" Value.number?, ← fields.required "y" Value.number?⟩

end Position

namespace Node

def toValue (node : Node) : Value :=
  .record [("id", node.id.toValue), ("type", node.kind.toValue),
    ("position", node.position.toValue), ("params", node.params.toValue),
    ("inputCount", .ofWord64 node.inputCount), ("outputCount", .ofWord64 node.outputCount)]

def fieldNames : List String :=
  ["id", "type", "position", "params", "inputCount", "outputCount"]

def ofValue? (v : Value) : Option Node := do
  let fields ← v.fields? fieldNames
  return {
    id := ← fields.required "id" NodeId.ofValue?
    kind := ← fields.required "type" NodeKind.ofValue?
    position := ← fields.withDefault "position" .origin Position.ofValue?
    params := ← fields.withDefault "params" .empty Params.ofValue?
    inputCount := ← fields.required "inputCount" Value.word64?
    outputCount := ← fields.required "outputCount" Value.word64? }

end Node
end SignalBoard
