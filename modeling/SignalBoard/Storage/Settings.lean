import SignalBoard.Storage.Node
import SignalBoard.Tick.Session
/-!
# Port counts and settings as values

The numbers of outside ports and the settings of a session are records. A setting that is missing
has its default.
-/

namespace SignalBoard

namespace PortCounts

def toValue (counts : PortCounts) : Value :=
  .record [("inputs", .ofWord64 counts.inputs), ("outputs", .ofWord64 counts.outputs)]

def ofValue? (v : Value) : Option PortCounts := do
  let fields ← v.fields? ["inputs", "outputs"]
  return ⟨← fields.required "inputs" Value.word64?, ← fields.required "outputs" Value.word64?⟩

end PortCounts

namespace SessionConfig

def toValue (config : SessionConfig) : Value :=
  .record [("skipDeadNodes", .bool config.skipDeadNodes)]

def ofValue? (v : Value) : Option SessionConfig := do
  let fields ← v.fields? ["skipDeadNodes"]
  return ⟨← fields.withDefault "skipDeadNodes" default.skipDeadNodes Value.bool?⟩

end SessionConfig
end SignalBoard
