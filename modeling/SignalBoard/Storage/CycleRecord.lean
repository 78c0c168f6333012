import SignalBoard.Circuit.CycleRun
import SignalBoard.Storage.Memory
import SignalBoard.Storage.Node
/-!
# Cycle records as values

What has been seen in a run is stored as one record. It is written to be looked at and never read
back.
-/

namespace SignalBoard
namespace CycleRecord

/-- A list of numbers. -/
def reals (xs : List Binary64) : Value :=
  .list (xs.map .real)

def toValue (r : CycleRecord) : Value :=
  .record [("outputValues", .list (r.outputValues.map reals)),
    ("wireValues", .record (r.wireValues.entries.map fun (id, xs) => (id.text, reals xs))),
    ("processingOrder", .list (r.processingOrder.map NodeId.toValue)),
    ("nodeDepths", .record (r.depths.entries.map fun (id, depth) => (id.text, .int depth))),
    ("maxDepth", .int r.maxDepth),
    ("liveNodeIds", .list (r.live.map NodeId.toValue)),
    ("crossCycleState", .record (r.memories.map fun (id, memory) => (id.text, memory.toValue)))]

end CycleRecord
end SignalBoard
