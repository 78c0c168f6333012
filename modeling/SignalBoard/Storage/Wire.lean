import SignalBoard.Wire
import SignalBoard.Storage.Node
/-!
# Wires as values

A wire is a record in which the delay may be missing, one transit step then, and in which no signals
are listed where none is under way.
-/

namespace SignalBoard

namespace WireId

def toValue (id : WireId) : Value :=
  .text id.text

def ofValue? (v : Value) : Option WireId :=
  v.text?.map WireId.mk

end WireId

namespace PortSide

def text : PortSide → String
  | input => "input"
  | output => "output"

def ofText? (s : String) : Option PortSide :=
  if s = "input" then some input else if s = "output" then some output else none

def toValue (side : PortSide) : Value :=
  .text side.text

/-- Reads a side: its name, or a map from its name to null. -/
def ofValue? : Value → Option PortSide
  | .map [(side, .null)] => side.text?.bind ofText?
  | v => v.text?.bind ofText?

end PortSide

namespace PortRef

def toValue (ref : PortRef) : Value :=
  .record [("nodeId", ref.node.toValue), ("portIndex", .ofWord64 ref.port),
    ("side", ref.side.toValue)]

def ofValue? (v : Value) : Option PortRef := do
  let fields ← v.fields? ["nodeId", "portIndex", "side"]
  return {
    node := ← fields.required "nodeId" NodeId.ofValue?
    port := ← fields.required "portIndex" Value.word64?
    side := ← fields.required "side" PortSide.ofValue? }

end PortRef

namespace InFlightSignal

def toValue (signal : InFlightSignal) : Value :=
  .record [("value", .real signal.value), ("ticksRemaining", .ofWord32 signal.ticksRemaining)]

def ofValue? (v : Value) : Option InFlightSignal := do
  let fields ← v.fields? ["value", "ticksRemaining"]
  return {
    value := ← fields.required "value" Value.number?
    ticksRemaining := ← fields.required "ticksRemaining" Value.word32? }

end InFlightSignal

namespace Wire

/-- The field for the signals under way, if there are any. -/
def signalFields (signals : List InFlightSignal) : List (String × Value) :=
  if signals.isEmpty then [] else [("signals", .list (signals.map InFlightSignal.toValue))]

def toValue (wire : Wire) : Value :=
  .record ([("id", wire.id.toValue), ("source", wire.source.toValue),
    ("target", wire.target.toValue), ("wtsDelay", .ofWord32 wire.delay)] ++
    signalFields wire.signals)

def fieldNames : List String :=
  ["id", "source", "target", "wtsDelay", "signals"]

def ofValue? (v : Value) : Option Wire := do
  let fields ← v.fields? fieldNames
  return {
    id := ← fields.required "id" WireId.ofValue?
    source := ← fields.required "source" PortRef.ofValue?
    target := ← fields.required "target" PortRef.ofValue?
    delay := ← fields.withDefault "wtsDelay" ticksPerStep Value.word32?
    signals := ← fields.withDefault "signals" [] (Value.list? InFlightSignal.ofValue?) }

end Wire
end SignalBoard
