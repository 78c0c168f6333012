import SignalBoard.Circuit.Basic
import SignalBoard.Digraph.Basic
import SignalBoard.Node.Evaluate
/-!
# Running a circuit

An evaluator is a circuit laid out as a list of steps. A call takes one value per outside input and
gives one per outside output: the steps run one after the other, each from the outputs of the steps
that feed it. What a step reads of a step that has not run yet in the call is left over from the
call before. Building never fails: ids without a part have no step, and edges to unknown ids or
ports are dropped.
-/

namespace SignalBoard

namespace Evaluator

/-- What a step does. The evaluators behind composite nodes are of type `ε`. -/
inductive Action (ε : Type) where
  /-- Gives out an outside input. -/
  | input (index : UInt64)
  /-- Publishes the value on its input port as an outside output. -/
  | output (index : UInt64)
  /-- Computes what the kind of a part says. -/
  | builtin (part : Part)
  /-- Calls the evaluator behind a part. -/
  | nested (part : Part) (inner : ε)

/-- One step of the plan. -/
structure Step (ε : Type) where
  id : NodeId
  action : Action ε
  /-- For every input port the step and output port that feed it. -/
  sources : List (Option (Nat × UInt64))
  memory : NodeMemory

end Evaluator

/-- A circuit that can be called. -/
structure Evaluator where
  circuit : Circuit
  steps : List (Evaluator.Step Evaluator)
  /-- The output ports of every step after the last call. -/
  outputs : List (List Binary64)

namespace Evaluator

/-! ## Building -/

/-- The step for an id, taken from a list of parts with the evaluators behind them. The last part
with the id counts. -/
def planStep? (parts : List (Part × Option Evaluator)) (id : NodeId) : Option (Step Evaluator) :=
  match id.connectionPoint? with
  | some (.input n) => some ⟨id, .input n, [], .stateless⟩
  | some (.output n) => some ⟨id, .output n, [none], .stateless⟩
  | none =>
    (parts.reverse.find? fun (part, _) => part.id = id).map fun (part, inner) => {
      id
      action := match inner with
        | some e => .nested part e
        | none => .builtin part
      sources := List.replicate part.inputCount.toNat none
      memory := .fresh part.kind part.params }

/-- The place of an id among the steps. -/
def indexOf? (steps : List (Step Evaluator)) (id : NodeId) : Option Nat :=
  steps.findIdx? (·.id = id)

/-- Makes an edge the source of the input port that it leads into. -/
def connect (steps : List (Step Evaluator)) (edge : Edge) : List (Step Evaluator) :=
  match indexOf? steps edge.source, indexOf? steps edge.target with
  | some source, some target =>
    -- there is nothing to set where the target has no such port
    steps.modify target fun step =>
      { step with
        sources := step.sources.set edge.targetPort.toNat (some (source, edge.sourcePort)) }
  | _, _ => steps

mutual

/-- Lays out a circuit. Of an id that the order repeats the first place counts. -/
def ofCircuit : Circuit → Evaluator
  | ⟨order, parts, edges, inputCount, outputCount⟩ =>
    let steps := edges.foldl connect ((distinct order).filterMap (planStep? (layOut parts)))
    ⟨⟨order, parts, edges, inputCount, outputCount⟩, steps, steps.map fun _ => []⟩

/-- Parts with the evaluators behind them. -/
def layOut : List Part → List (Part × Option Evaluator)
  | [] => []
  | ⟨id, kind, params, inputCount, outputCount, nested⟩ :: rest =>
    (⟨id, kind, params, inputCount, outputCount, nested⟩,
      if kind.isComposite then behind nested else none) :: layOut rest

/-- The evaluator of the circuit behind a part. -/
def behind : Option Circuit → Option Evaluator
  | none => none
  | some c => some (ofCircuit c)

end

/-! ## Calling -/

/-- What the steps of a call leave behind. -/
structure Progress where
  outputs : List (List Binary64)
  results : List Binary64

/-- The values on the input ports of a step. A port without a source, or whose source has no such
output port, reads zero. -/
def gather (outputs : List (List Binary64)) (sources : List (Option (Nat × UInt64))) :
    List Binary64 :=
  sources.map fun
    | some (step, port) => Signal.valueAt (outputs.getD step []) port.toNat
    | none => .zero

mutual

/-- One call: the outside outputs, and the evaluator afterwards. -/
def evaluate : Evaluator → List Binary64 → List Binary64 × Evaluator
  | ⟨circuit, steps, outputs⟩, inputs =>
    -- outputs that no step publishes stay zero
    let results := List.replicate circuit.outputCount.toNat .zero
    let (steps, progress) := runSteps inputs steps 0 ⟨outputs, results⟩
    (progress.results, ⟨circuit, steps, progress.outputs⟩)

/-- Runs the steps from a place in the plan on. -/
def runSteps (inputs : List Binary64) :
    List (Step Evaluator) → Nat → Progress → List (Step Evaluator) × Progress
  | [], _, progress => ([], progress)
  | step :: rest, index, progress =>
    let gathered := gather progress.outputs step.sources
    let (produced, results, step) := runStep inputs gathered progress.results step
    let (rest, progress) :=
      -- steps further on read these outputs in this call, those before only in the next one
      runSteps inputs rest (index + 1) ⟨progress.outputs.set index produced, results⟩
    (step :: rest, progress)

/-- Runs one step on the values of its input ports: its output ports, the outside outputs and the
step afterwards. -/
def runStep (inputs gathered results : List Binary64) :
    Step Evaluator → List Binary64 × List Binary64 × Step Evaluator
  | ⟨id, .input n, sources, memory⟩ =>
    ([Signal.clamp (Signal.valueAt inputs n.toNat)], results, ⟨id, .input n, sources, memory⟩)
  | ⟨id, .output n, sources, memory⟩ =>
    let value := Signal.valueAt gathered 0
    -- wires may lead on from an outside output, so it has its value on a port as well
    ([value], results.set n.toNat value, ⟨id, .output n, sources, memory⟩)
  | ⟨id, .builtin part, sources, memory⟩ =>
    let (produced, memory) := part.kind.evaluate part.params gathered part.outputCount.toNat memory
    (produced, results, ⟨id, .builtin part, sources, memory⟩)
  | ⟨id, .nested part inner, sources, memory⟩ =>
    let (produced, inner) := inner.evaluate gathered
    -- the circuit may have more or fewer outputs than the part has ports
    (Signal.fit part.outputCount.toNat (produced.map Signal.clamp), results,
      ⟨id, .nested part inner, sources, memory⟩)

end

mutual

/-- Forgets everything that calls have left behind. -/
def reset : Evaluator → Evaluator
  | ⟨circuit, steps, outputs⟩ => ⟨circuit, resetSteps steps, outputs.map fun _ => []⟩

def resetSteps : List (Step Evaluator) → List (Step Evaluator)
  | [] => []
  | step :: rest => resetStep step :: resetSteps rest

def resetStep : Step Evaluator → Step Evaluator
  | ⟨id, .nested part inner, sources, memory⟩ =>
    ⟨id, .nested part inner.reset, sources, memory.reset⟩
  | ⟨id, .builtin part, sources, memory⟩ => ⟨id, .builtin part, sources, memory.reset⟩
  | ⟨id, .input n, sources, memory⟩ => ⟨id, .input n, sources, memory.reset⟩
  | ⟨id, .output n, sources, memory⟩ => ⟨id, .output n, sources, memory.reset⟩

end

/-! ## Looking inside -/

/-- The ids in the order in which they are run. -/
def processingOrder (e : Evaluator) : List NodeId :=
  e.steps.map (·.id)

/-- What an output port gave on the last call. -/
def portValue? (e : Evaluator) (id : NodeId) (port : UInt64) : Option Binary64 :=
  (indexOf? e.steps id).bind fun index => (e.outputs.getD index [])[port.toNat]?

/-- The memory of every node that has one. -/
def memories (e : Evaluator) : List (NodeId × NodeMemory) :=
  (e.steps.filter fun step => !step.memory.isStateless).map fun step => (step.id, step.memory)

end Evaluator
end SignalBoard
