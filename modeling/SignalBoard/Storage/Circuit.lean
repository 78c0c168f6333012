import SignalBoard.Circuit.Basic
import SignalBoard.Storage.Node
/-!
# Circuits as values

A circuit is a record that holds its parts, and a part of a composite node holds a circuit again.
Formats limit how deep lists and maps may be nested. The limit is counted where a value is used: a
circuit stands three levels below the circuit that it belongs to, and values of fields that are not
known do not count.
-/

namespace SignalBoard

namespace Edge

/-- The field for the delay, if there is one. -/
def delayFields : Option UInt32 → List (String × Value)
  | none => []
  | some delay => [("wtsDelay", .ofWord32 delay)]

def toValue (edge : Edge) : Value :=
  .record ([("fromNodeId", edge.source.toValue), ("fromPort", .ofWord64 edge.sourcePort),
    ("toNodeId", edge.target.toValue), ("toPort", .ofWord64 edge.targetPort)] ++
    delayFields edge.delay)

def fieldNames : List String :=
  ["fromNodeId", "fromPort", "toNodeId", "toPort", "wtsDelay"]

def ofValue? (v : Value) : Option Edge := do
  let fields ← v.fields? fieldNames
  return {
    source := ← fields.required "fromNodeId" NodeId.ofValue?
    sourcePort := ← fields.required "fromPort" Value.word64?
    target := ← fields.required "toNodeId" NodeId.ofValue?
    targetPort := ← fields.required "toPort" Value.word64?
    delay := ← fields.withDefault "wtsDelay" none (Value.option? Value.word32?) }

end Edge

mutual

def Part.toValue : Part → Value
  | ⟨id, kind, params, inputCount, outputCount, nested⟩ =>
    .record ([("id", id.toValue), ("type", kind.toValue), ("params", params.toValue),
      ("inputCount", .ofWord64 inputCount), ("outputCount", .ofWord64 outputCount)] ++
      Part.nestedFields nested)

/-- The field for the circuit behind a part, if there is one. -/
def Part.nestedFields : Option Circuit → List (String × Value)
  | none => []
  | some c => [("baked", c.toValue)]

def Circuit.toValue : Circuit → Value
  | ⟨order, parts, edges, inputCount, outputCount⟩ =>
    .record [("topoOrder", .list (order.map NodeId.toValue)),
      ("nodeConfigs", .list (Circuit.partValues parts)),
      ("edges", .list (edges.map Edge.toValue)), ("inputCount", .ofWord64 inputCount),
      ("outputCount", .ofWord64 outputCount)]

def Circuit.partValues : List Part → List Value
  | [] => []
  | p :: rest => p.toValue :: Circuit.partValues rest

end

namespace Part

def fieldNames : List String :=
  ["id", "type", "params", "inputCount", "outputCount", "baked"]

/-- Reads a part that stands below `levels` further levels, its own one among them. -/
def ofValue? (levels : Nat) (nested? : Value → Option Circuit) (v : Value) : Option Part := do
  guard (1 ≤ levels)
  let fields ← v.fields? fieldNames
  return {
    id := ← fields.required "id" NodeId.ofValue?
    kind := ← fields.required "type" NodeKind.ofValue?
    -- a map of parameters takes a level of its own
    params := ← fields.withDefault "params" .empty fun v =>
      if 2 ≤ levels then Params.ofValue? v else none
    inputCount := ← fields.required "inputCount" Value.word64?
    outputCount := ← fields.required "outputCount" Value.word64?
    nested := ← fields.withDefault "baked" none (Value.option? nested?) }

end Part

namespace Circuit

def fieldNames : List String :=
  ["topoOrder", "nodeConfigs", "edges", "inputCount", "outputCount"]

/-- Reads a circuit within the given number of levels. The circuits behind its parts are read by
`nested?`. -/
def ofValueWith? (levels : Nat) (nested? : Value → Option Circuit) (v : Value) :
    Option Circuit := do
  guard (2 ≤ levels)
  let fields ← v.fields? fieldNames
  return {
    order := ← fields.required "topoOrder" (Value.list? NodeId.ofValue?)
    parts := ← fields.required "nodeConfigs" (Value.list? (Part.ofValue? (levels - 2) nested?))
    -- the circuit, the list and the edge take a level each
    edges := ← fields.required "edges"
      (Value.list? fun v => if 3 ≤ levels then Edge.ofValue? v else none)
    inputCount := ← fields.required "inputCount" Value.word64?
    outputCount := ← fields.required "outputCount" Value.word64? }

/-- Reads a circuit from a value of a format that nests at most `levels` deep. -/
def ofValue? : (levels : Nat) → Value → Option Circuit
  -- a circuit stands three levels below the one around it: circuit, list, part
  | levels + 3 => ofValueWith? (levels + 3) (ofValue? levels)
  | levels => ofValueWith? levels fun _ => none

end Circuit
end SignalBoard
