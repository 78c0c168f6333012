import SignalBoard.Circuit.Bake
import SignalBoard.Circuit.Evaluator
/-!
# Running a board cycle by cycle

A board is run over a whole sequence of inputs, and what every wire carried in every cycle is
recorded. Only the live part of the board is run; wires of which an end is not live carry zero.
-/

namespace SignalBoard

/-- What has been seen while a board was run. -/
structure CycleRecord where
  /-- The outside outputs, cycle by cycle. -/
  outputValues : List (List Binary64)
  /-- What was on every wire, cycle by cycle. Wires of one id share an entry. -/
  wireValues : OrderedMap WireId (List Binary64)
  processingOrder : List NodeId
  depths : OrderedMap NodeId Nat
  maxDepth : Nat
  live : List NodeId
  /-- The memory of the nodes after the last cycle. -/
  memories : List (NodeId × NodeMemory)

namespace CycleRecord

/-- Appends a value to the entry of a wire. -/
def note (values : OrderedMap WireId (List Binary64)) (id : WireId) (value : Binary64) :
    OrderedMap WireId (List Binary64) :=
  values.insert id ((values.get? id).getD [] ++ [value])

/-- What a wire carried in the last cycle of an evaluator. -/
def carried (analysis : Analysis) (e : Evaluator) (wire : Wire) : Binary64 :=
  if analysis.isLiveWire wire then (e.portValue? wire.source.node wire.source.port).getD .zero
  else .zero

/-- How far a run has come. -/
structure Run where
  evaluator : Evaluator
  outputValues : List (List Binary64)
  wireValues : OrderedMap WireId (List Binary64)

/-- One cycle. -/
def Run.cycle (analysis : Analysis) (wires : List Wire) (run : Run) (inputs : List Binary64) :
    Run :=
  let (outputs, e) := run.evaluator.evaluate inputs
  { evaluator := e
    outputValues := run.outputValues ++ [outputs]
    -- dead wires are noted as well; wires of one id append to one entry, in their order
    wireValues := wires.foldl
      (fun values wire => note values wire.id (carried analysis e wire)) run.wireValues }

end CycleRecord

namespace Board

/-- The board without what is not live. -/
def livePart (board : Board) (analysis : Analysis) : Board where
  nodes := board.nodes.filter fun id _ => analysis.isLive id
  wires := board.wires.filter analysis.isLiveWire

/-- Runs the live part of a board over a sequence of inputs. -/
def runCycles (board : Board) (ports : PortCounts) (library : Library)
    (sequence : List (List Binary64)) : Except LoopError CycleRecord := do
  let analysis ← board.analyse ports
  -- the live part has no loop where the board has none, and it keeps the counts of the board
  let circuit ← (board.livePart analysis).bake ports library
  let start : CycleRecord.Run :=
    ⟨.ofCircuit circuit, [], .ofList (board.wires.map fun wire => (wire.id, []))⟩
  let run := sequence.foldl (CycleRecord.Run.cycle analysis board.wires) start
  return {
    outputValues := run.outputValues
    wireValues := run.wireValues
    processingOrder := run.evaluator.processingOrder
    depths := analysis.depths
    maxDepth := analysis.maxDepth
    live := analysis.live
    memories := run.evaluator.memories }

end Board
end SignalBoard
