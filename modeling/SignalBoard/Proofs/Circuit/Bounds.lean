import SignalBoard.Proofs.Circuit.Call
import SignalBoard.Proofs.Circuit.Plan
import SignalBoard.Proofs.Node.Memory

/-!
# Evaluators stay within bounds

A circuit that comes out of a document can be anything, and so can the numbers that an evaluator is
called on. Whatever they are, and in whatever order the evaluator is called and reset (`Reachable`),
a step reads slots that exist, its part is one of the circuit's, a ring is written and read at its
slots, and nothing but signals is given out or kept; that holds of the evaluators inside it as well,
however deep (`Contains`). What the nodes compute plays no part in it: a result is clamped before it
is kept or given out, and clamping only compares.

```lean
theorem Reachable.bounded (h : Reachable c e) :
    e.circuit = c ∧ ∀ inner, e.Contains inner → inner.InBounds ∧ …
```

* `Reachable.of_contains`: an evaluator inside another one is itself one that has been built from a
  circuit and then called and reset. So it is enough to look at one level.
* `Step.Furnished`: what a step has at hand. Neither running nor resetting a step changes that.
* `midway_lengths`, `InRange.midway`: slots and outside outputs throughout a call, step by step.
-/

namespace SignalBoard

open Signal

namespace Evaluator

/-! ## Evaluators in use -/

/-- What becomes of the evaluator of a circuit when it is called and reset. -/
inductive Reachable (c : Circuit) : Evaluator → Prop
  | built : Reachable c (ofCircuit c)
  | evaluate {e : Evaluator} (inputs : List Binary64) :
    Reachable c e → Reachable c (e.evaluate inputs).2
  | reset {e : Evaluator} : Reachable c e → Reachable c e.reset

/-- What can be asked of an evaluator. -/
inductive Request where
  | evaluate (inputs : List Binary64)
  | reset

/-- What is answered to a request, nothing to a reset, and the evaluator afterwards. -/
def serve (e : Evaluator) : Request → Option (List Binary64) × Evaluator
  | .evaluate inputs => (some (e.evaluate inputs).1, (e.evaluate inputs).2)
  | .reset => (none, e.reset)

/-- An evaluator after a sequence of requests. -/
def afterAll (e : Evaluator) (requests : List Request) : Evaluator :=
  requests.foldl (fun e request => (e.serve request).2) e

/-- What is answered to a sequence of requests. -/
def answersTo (e : Evaluator) : List Request → List (Option (List Binary64))
  | [] => []
  | request :: rest => (e.serve request).1 :: (e.serve request).2.answersTo rest

/-- An evaluator and those inside it. -/
inductive Contains : Evaluator → Evaluator → Prop
  | self (e : Evaluator) : Contains e e
  | behind {e next inner : Evaluator} {step : Step Evaluator} {part : Part} :
    step ∈ e.steps → step.action = .nested part next → Contains next inner → Contains e inner

variable {c : Circuit} {e : Evaluator}

/-- Requests lead from an evaluator in use to an evaluator in use. -/
theorem Reachable.afterAll (h : Reachable c e) (requests : List Request) :
    Reachable c (e.afterAll requests) := by
  induction requests generalizing e with
  | nil => exact h
  | cons request rest ih =>
    cases request with
    | evaluate inputs => exact ih (h.evaluate inputs)
    | reset => exact ih h.reset

theorem circuit_evaluate (e : Evaluator) (inputs : List Binary64) :
    (e.evaluate inputs).2.circuit = e.circuit := by
  rw [evaluate_eq]

/-- What a step becomes by a reset. -/
theorem resetSteps_eq_map (steps : List (Step Evaluator)) :
    resetSteps steps = steps.map resetStep := by
  induction steps with
  | nil => rw [resetSteps, List.map_nil]
  | cons step rest ih => rw [resetSteps, ih, List.map_cons]

/-- A reset puts back every step and empties every slot, but keeps the slots. -/
theorem reset_eq (e : Evaluator) :
    e.reset = ⟨e.circuit, e.steps.map resetStep, e.outputs.map fun _ => []⟩ := by
  obtain ⟨circuit, steps, outputs⟩ := e
  rw [reset, resetSteps_eq_map]

/-- An evaluator in use has the circuit that it was built from. -/
theorem Reachable.circuit_eq (h : Reachable c e) : e.circuit = c := by
  induction h with
  | built =>
    obtain ⟨order, parts, edges, inputCount, outputCount⟩ := c
    rfl
  | evaluate inputs _ ih => rw [circuit_evaluate, ih]
  | reset _ ih => rw [reset_eq, ih]

/-- The steps of a call, as they are afterwards. -/
theorem exists_outcome_of_mem_evaluate {inputs : List Binary64} {after : Step Evaluator}
    (h : after ∈ (e.evaluate inputs).2.steps) :
    ∃ step ∈ e.steps, ∃ gathered, after = (step.outcome inputs gathered).2 := by
  rw [evaluate_eq] at h
  exact (runSteps_frame inputs e.steps 0 _).2 after h

/-- The planned step that a step of a newly built evaluator comes from. -/
theorem exists_planned_of_mem {step : Step Evaluator} (h : step ∈ (ofCircuit c).steps) :
    ∃ start ∈ planned c, step = c.edges.foldl (Step.attach ((planned c).map (·.id))) start := by
  rw [steps_eq_map_planned] at h
  obtain ⟨start, hstart, rfl⟩ := List.mem_map.mp h
  exact ⟨start, hstart, rfl⟩

/-- Behind a step is an evaluator that has been built, called and reset like any other. -/
theorem Reachable.behind (h : Reachable c e) {step : Step Evaluator} {part : Part}
    {next : Evaluator} (hstep : step ∈ e.steps) (haction : step.action = .nested part next) :
    ∃ d, part.nested = some d ∧ Reachable d next := by
  -- the evaluator behind a step is built with its own and is called and reset together with it
  induction h generalizing step next with
  | built =>
    obtain ⟨start, hstart, rfl⟩ := exists_planned_of_mem hstep
    rw [(foldl_attach_frame _ _ start).2.1] at haction
    rcases planStep?_cases (mem_planned hstart) with ⟨n, -, heq⟩ | ⟨n, -, heq⟩ | ⟨part', -, -, -, heq⟩
    · rw [heq] at haction
      cases haction
    · rw [heq] at haction
      cases haction
    · rw [heq] at haction
      obtain ⟨rfl, d, hd, rfl⟩ := nested_of_action_stepOf haction
      exact ⟨d, hd, .built⟩
  | evaluate inputs _ ih =>
    obtain ⟨before, hbefore, gathered, rfl⟩ := exists_outcome_of_mem_evaluate hstep
    obtain ⟨id, action, sources, memory⟩ := before
    cases action with
    | nested part' inner =>
      obtain ⟨rfl, rfl⟩ := Action.nested.inj haction
      obtain ⟨d, hd, hinner⟩ := ih hbefore rfl
      exact ⟨d, hd, hinner.evaluate gathered⟩
    | _ => cases haction
  | reset _ ih =>
    rw [reset_eq] at hstep
    obtain ⟨before, hbefore, rfl⟩ := List.mem_map.mp hstep
    obtain ⟨id, action, sources, memory⟩ := before
    cases action with
    | nested part' inner =>
      obtain ⟨rfl, rfl⟩ := Action.nested.inj haction
      obtain ⟨d, hd, hinner⟩ := ih hbefore rfl
      exact ⟨d, hd, hinner.reset⟩
    | _ => cases haction

/-- So is every evaluator inside, however deep. -/
theorem Reachable.of_contains (h : Reachable c e) {inner : Evaluator} (hin : e.Contains inner) :
    ∃ d, Reachable d inner := by
  -- one level at a time, each with a circuit of its own
  induction hin generalizing c with
  | self e => exact ⟨c, h⟩
  | behind hstep haction _ ih =>
    obtain ⟨d, -, hnext⟩ := h.behind hstep haction
    exact ih hnext

/-! ## Places -/

/-- The part of a step, unless it is the step of a connection point. -/
def Action.part? : Action Evaluator → Option Part
  | .builtin part => some part
  | .nested part _ => some part
  | .input _ => none
  | .output _ => none

/-- What a step has at hand: a part out of a list and memory that belongs to it. -/
def Step.Furnished (parts : List Part) (step : Step Evaluator) : Prop :=
  match step.action.part? with
  | some part => part ∈ parts ∧ step.memory.BelongsTo part.kind part.params
  | none => step.memory = .stateless

/-- A step has the same part after a run, and memory of the same kind and size. -/
theorem Step.Furnished.outcome {parts : List Part} {step : Step Evaluator}
    (h : step.Furnished parts) (inputs gathered : List Binary64) :
    (step.outcome inputs gathered).2.Furnished parts := by
  obtain ⟨id, action, sources, memory⟩ := step
  cases action with
  | input n => exact h
  | output n => exact h
  -- only the memory of a node changes in a run; what an inner evaluator keeps is not in the memory
  | builtin part =>
    exact ⟨h.1, part.kind.evaluate_belongsTo part.params gathered part.outputCount.toNat (.inr h.2)⟩
  | nested part inner => exact h

/-- A reset step has the same part and memory of the same kind and size. -/
theorem Step.Furnished.reset {parts : List Part} {step : Step Evaluator}
    (h : step.Furnished parts) : (resetStep step).Furnished parts := by
  obtain ⟨id, action, sources, memory⟩ := step
  cases action with
  | input n =>
    obtain rfl : memory = .stateless := h
    rfl
  | output n =>
    obtain rfl : memory = .stateless := h
    rfl
  | builtin part => exact ⟨h.1, NodeMemory.BelongsTo.reset h.2⟩
  | nested part inner => exact ⟨h.1, NodeMemory.BelongsTo.reset h.2⟩

/-- A planned step has a part of the circuit and the fresh memory of its kind. -/
theorem planned_furnished {step : Step Evaluator} (h : step ∈ planned c) :
    step.Furnished c.parts := by
  -- an external input, an external output, or a part
  rcases planStep?_cases (mem_planned h) with ⟨n, -, heq⟩ | ⟨n, -, heq⟩ | ⟨part, hpart, -, -, heq⟩
  · rw [heq]
    rfl
  · rw [heq]
    rfl
  · have hmemory := NodeMemory.fresh_belongsTo part.kind part.params
    rw [heq, stepOf, Step.Furnished]
    cases innerOf part with
    | none => exact ⟨hpart, hmemory⟩
    | some inner => exact ⟨hpart, hmemory⟩

/-- An edge only ever brings in the place of an id of the plan. -/
theorem readsBelow_foldl_attach (ids : List NodeId) (edges : List Edge) {step : Step Evaluator}
    (h : step.ReadsBelow ids.length) :
    (edges.foldl (Step.attach ids) step).ReadsBelow ids.length := by
  induction edges generalizing step with
  | nil => exact h
  | cons edge rest ih =>
    refine ih ?_
    unfold Step.attach
    -- an edge is attached if it ends here and its source is in the plan; its place is then below
    -- the length
    split
    · next hends =>
      intro i port hmem
      rcases List.mem_or_eq_of_mem_set hmem with hmem | heq
      · exact h i port hmem
      · obtain ⟨rfl, -⟩ := Prod.mk.inj (Option.some.inj heq)
        exact List.idxOf_lt_length_of_mem hends.1
    · exact h

/-- A planned step reads nothing yet: its sources come with the edges. -/
theorem planned_reads {step : Step Evaluator} (h : step ∈ planned c) (place : Nat) :
    step.ReadsBelow place := by
  intro i port hmem
  rcases planStep?_cases (mem_planned h) with ⟨n, -, heq⟩ | ⟨n, -, heq⟩ | ⟨part, -, -, -, heq⟩
  · rw [heq] at hmem
    cases hmem
  · rw [heq] at hmem
    simp at hmem
  · rw [heq] at hmem
    cases (List.mem_replicate.mp hmem).2

/-- Every step has a slot and reads slots of steps, and has a part of the circuit and memory that
belongs to it. -/
structure InBounds (e : Evaluator) : Prop where
  slots : e.outputs.length = e.steps.length
  reads : ∀ step ∈ e.steps, step.ReadsBelow e.steps.length
  furnished : ∀ step ∈ e.steps, step.Furnished e.circuit.parts

/-- A newly built evaluator is in bounds, whatever the order, the parts and the edges of the
circuit. -/
theorem inBounds_ofCircuit (c : Circuit) : (ofCircuit c).InBounds := by
  have hcircuit : (ofCircuit c).circuit = c := Reachable.built.circuit_eq
  have hlength : (ofCircuit c).steps.length = ((planned c).map (·.id)).length := by
    rw [← ids_ofCircuit, List.length_map]
  constructor
  · obtain ⟨order, parts, edges, inputCount, outputCount⟩ := c
    exact List.length_map _
  · intro step hstep
    obtain ⟨start, hstart, rfl⟩ := exists_planned_of_mem hstep
    rw [hlength]
    exact readsBelow_foldl_attach _ _ (planned_reads hstart _)
  · intro step hstep
    obtain ⟨start, hstart, rfl⟩ := exists_planned_of_mem hstep
    -- attaching edges changes sources only
    obtain ⟨-, haction, hmemory, -⟩ := foldl_attach_frame ((planned c).map (·.id)) c.edges start
    rw [Step.Furnished, haction, hmemory, hcircuit]
    exact planned_furnished hstart

/-- Throughout a call there are as many slots and outside outputs as before it. -/
theorem midway_lengths (e : Evaluator) (inputs : List Binary64) (n : Nat) :
    (e.midway inputs n).outputs.length = e.outputs.length ∧
      (e.midway inputs n).results.length = e.circuit.outputCount.toNat := by
  -- the invariant of the steps of one call: both lists keep their lengths
  refine midway_induction (P := fun progress => progress.outputs.length = e.outputs.length ∧
    progress.results.length = e.circuit.outputCount.toNat) ⟨rfl, List.length_replicate⟩ ?_ n
  rintro n step hstep ⟨houtputs, hresults⟩
  rw [midway_succ hstep]
  exact ⟨List.length_set.trans houtputs, (step.length_publish _ _).trans hresults⟩

theorem length_steps_evaluate (e : Evaluator) (inputs : List Binary64) :
    (e.evaluate inputs).2.steps.length = e.steps.length := by
  rw [evaluate_eq]
  have hids := congrArg List.length (runSteps_frame inputs e.steps 0
    ⟨e.outputs, List.replicate e.circuit.outputCount.toNat .zero⟩).1
  simpa using hids

/-- One value per outside output, whatever the circuit and the inputs. -/
theorem length_evaluate (e : Evaluator) (inputs : List Binary64) :
    (e.evaluate inputs).1.length = e.circuit.outputCount.toNat := by
  have hresults := (midway_lengths e inputs e.steps.length).2
  rwa [midway_of_length_le (Nat.le_refl _)] at hresults

/-- A call keeps an evaluator in bounds, whatever it is called on. -/
theorem InBounds.evaluate (h : e.InBounds) (inputs : List Binary64) :
    (e.evaluate inputs).2.InBounds := by
  constructor
  · have houtputs := (midway_lengths e inputs e.steps.length).1
    rw [midway_of_length_le (Nat.le_refl _)] at houtputs
    rw [length_steps_evaluate]
    exact houtputs.trans h.slots
  · intro after hafter
    obtain ⟨step, hstep, gathered, rfl⟩ := exists_outcome_of_mem_evaluate hafter
    intro i port hmem
    rw [Step.outcome_sources] at hmem
    rw [length_steps_evaluate]
    exact h.reads step hstep i port hmem
  · intro after hafter
    obtain ⟨step, hstep, gathered, rfl⟩ := exists_outcome_of_mem_evaluate hafter
    rw [circuit_evaluate]
    exact (h.furnished step hstep).outcome inputs gathered

/-- A reset leaves the sources of a step alone. -/
theorem sources_resetStep (step : Step Evaluator) : (resetStep step).sources = step.sources := by
  obtain ⟨id, action, sources, memory⟩ := step
  cases action <;> rfl

theorem InBounds.reset (h : e.InBounds) : e.reset.InBounds := by
  rw [reset_eq]
  constructor
  · simpa using h.slots
  · intro after hafter
    obtain ⟨step, hstep, rfl⟩ := List.mem_map.mp hafter
    intro i port hmem
    rw [sources_resetStep] at hmem
    simpa using h.reads step hstep i port hmem
  · intro after hafter
    obtain ⟨step, hstep, rfl⟩ := List.mem_map.mp hafter
    exact (h.furnished step hstep).reset

/-! ## Values -/

/-- From slots with signals a step gathers signals, with a zero for what has no source. -/
theorem allSignals_gather {outputs : List (List Binary64)}
    (h : ∀ ports ∈ outputs, AllSignals ports) (sources : List (Option (Nat × UInt64))) :
    AllSignals (gather outputs sources) := by
  intro x hx
  rcases mem_gather hx with rfl | ⟨ports, hports, port, rfl⟩
  · exact clamp_zero
  · exact (h ports hports).clamp_valueAt port

/-- Nothing but signals in the slots and the memories. -/
structure InRange (e : Evaluator) : Prop where
  slots : ∀ ports ∈ e.outputs, AllSignals ports
  memories : ∀ step ∈ e.steps, AllSignals step.memory.values

/-- A step gives out signals: what a node computes is clamped, and so is what is behind a part. -/
theorem Step.outcome_allSignals (step : Step Evaluator) (inputs : List Binary64)
    {gathered : List Binary64} (h : AllSignals gathered) :
    AllSignals (step.outcome inputs gathered).1 := by
  obtain ⟨id, action, sources, memory⟩ := step
  cases action with
  | input n => exact allSignals_map_clamp [_]
  | output n =>
    intro x hx
    rw [List.mem_singleton.mp hx, h.clamp_valueAt 0]
  | builtin part => exact part.kind.evaluate_allSignals _ _ _ _
  | nested part inner => exact allSignals_fit _ (allSignals_map_clamp _)

/-- The step of an output puts a signal among the results, any other step nothing. -/
theorem Step.publish_allSignals (step : Step Evaluator) {gathered results : List Binary64}
    (hgathered : AllSignals gathered) (hresults : AllSignals results) :
    AllSignals (step.publish gathered results) := by
  unfold Step.publish
  split
  · exact hresults.set _ (hgathered.clamp_valueAt 0)
  · exact hresults

theorem Step.outcome_values {step : Step Evaluator} (h : AllSignals step.memory.values)
    (inputs gathered : List Binary64) :
    AllSignals (step.outcome inputs gathered).2.memory.values := by
  obtain ⟨id, action, sources, memory⟩ := step
  cases action with
  | builtin part => exact part.kind.evaluate_values _ _ _ h
  | _ => exact h

/-- Throughout a call there are signals in the slots and on the outside outputs, also where a step
reads what is left of an earlier call. -/
theorem InRange.midway (h : e.InRange) (inputs : List Binary64) (n : Nat) :
    (∀ ports ∈ (e.midway inputs n).outputs, AllSignals ports) ∧
      AllSignals (e.midway inputs n).results := by
  refine midway_induction (P := fun progress => (∀ ports ∈ progress.outputs, AllSignals ports) ∧
    AllSignals progress.results) ⟨h.slots, (allZero_replicate _).allSignals⟩ ?_ n
  rintro n step hstep ⟨hslots, hresults⟩
  have hgathered := allSignals_gather hslots step.sources
  rw [midway_succ hstep]
  refine ⟨fun ports hports => ?_, step.publish_allSignals hgathered hresults⟩
  -- either a slot from before or the one that this step fills
  rcases List.mem_or_eq_of_mem_set hports with hports | rfl
  · exact hslots ports hports
  · exact step.outcome_allSignals inputs hgathered

/-- Nothing but signals is given out. -/
theorem InRange.results (h : e.InRange) (inputs : List Binary64) :
    AllSignals (e.evaluate inputs).1 := by
  have hresults := (h.midway inputs e.steps.length).2
  rwa [midway_of_length_le (Nat.le_refl _)] at hresults

/-- A call keeps an evaluator in range, whatever it is called on. -/
theorem InRange.evaluate (h : e.InRange) (inputs : List Binary64) :
    (e.evaluate inputs).2.InRange := by
  constructor
  · have hslots := (h.midway inputs e.steps.length).1
    rwa [midway_of_length_le (Nat.le_refl _)] at hslots
  · intro after hafter
    obtain ⟨step, hstep, gathered, rfl⟩ := exists_outcome_of_mem_evaluate hafter
    exact Step.outcome_values (h.memories step hstep) inputs gathered

/-- What a reset does to the memory of a step. -/
theorem memory_resetStep (step : Step Evaluator) :
    (resetStep step).memory = step.memory.reset := by
  obtain ⟨id, action, sources, memory⟩ := step
  cases action <;> rfl

/-- After a reset there are only zeros in the memories and nothing in the slots. -/
theorem inRange_reset (e : Evaluator) : e.reset.InRange := by
  rw [reset_eq]
  constructor
  · intro ports hports
    obtain ⟨-, -, rfl⟩ := List.mem_map.mp hports
    exact fun x hx => absurd hx List.not_mem_nil
  · intro after hafter
    obtain ⟨step, -, rfl⟩ := List.mem_map.mp hafter
    rw [memory_resetStep]
    exact NodeMemory.reset_values step.memory

/-- A newly built evaluator has only zeros in its memories and nothing in its slots. -/
theorem inRange_ofCircuit (c : Circuit) : (ofCircuit c).InRange := by
  constructor
  · intro ports hports
    obtain ⟨order, parts, edges, inputCount, outputCount⟩ := c
    obtain ⟨-, -, rfl⟩ := List.mem_map.mp hports
    exact fun x hx => absurd hx List.not_mem_nil
  · intro step hstep
    obtain ⟨start, hstart, rfl⟩ := exists_planned_of_mem hstep
    rw [(foldl_attach_frame _ _ start).2.2.1]
    rcases planStep?_cases (mem_planned hstart) with ⟨n, -, heq⟩ | ⟨n, -, heq⟩ | ⟨part, -, -, -, heq⟩
    · rw [heq]
      exact fun x hx => absurd hx List.not_mem_nil
    · rw [heq]
      exact fun x hx => absurd hx List.not_mem_nil
    · rw [heq]
      exact NodeMemory.fresh_values part.kind part.params

/-- What can be read at a port is a signal. -/
theorem InRange.portValue (h : e.InRange) {id : NodeId} {port : UInt64} {x : Binary64}
    (hx : e.portValue? id port = some x) : IsSignal x := by
  obtain ⟨i, -, hport⟩ := Option.bind_eq_some_iff.mp hx
  rw [List.getD_eq_getElem?_getD] at hport
  cases hslot : e.outputs[i]? with
  | none =>
    rw [hslot] at hport
    cases hport
  | some ports =>
    rw [hslot] at hport
    exact allSignals_iff.mp (h.slots ports (List.mem_of_getElem? hslot)) x
      (List.mem_of_getElem? hport)

/-! ## Any calls on any circuit -/

/-- An evaluator in use is in bounds, by induction on how it came about. -/
theorem Reachable.inBounds (h : Reachable c e) : e.InBounds := by
  induction h with
  | built => exact inBounds_ofCircuit c
  | evaluate inputs _ ih => exact ih.evaluate inputs
  | reset _ ih => exact ih.reset

/-- An evaluator in use is in range, by induction on how it came about. -/
theorem Reachable.inRange (h : Reachable c e) : e.InRange := by
  induction h with
  | built => exact inRange_ofCircuit c
  | evaluate inputs _ ih => exact ih.evaluate inputs
  | reset _ _ => exact inRange_reset _

/-- The cursor of a ring is at one of its slots. -/
theorem InBounds.ring (h : e.InBounds) {step : Step Evaluator} (hstep : step ∈ e.steps)
    {buffer : List Binary64} {cursor : UInt64} (hmemory : step.memory = .delay buffer cursor) :
    cursor.toNat < buffer.length := by
  have hfurnished := h.furnished step hstep
  rw [Step.Furnished, hmemory] at hfurnished
  split at hfurnished
  · exact hfurnished.2.2.2
  · cases hfurnished

/-- **Any circuit, any calls.** An evaluator and those inside it read and write at places that
exist, answer with one value per outside output, and give out and keep nothing but signals. -/
theorem Reachable.bounded (h : Reachable c e) :
    e.circuit = c ∧ ∀ inner, e.Contains inner →
      inner.InBounds ∧
      (∀ inputs n, (inner.midway inputs n).outputs.length = inner.steps.length) ∧
      (∀ step ∈ inner.steps, ∀ buffer cursor, step.memory = .delay buffer cursor →
        cursor.toNat < buffer.length) ∧
      (∀ inputs, (inner.evaluate inputs).1.length = inner.circuit.outputCount.toNat ∧
        ∀ x ∈ (inner.evaluate inputs).1, IsSignal x) ∧
      (∀ id port x, inner.portValue? id port = some x → IsSignal x) ∧
      ∀ step ∈ inner.steps, ∀ x ∈ step.memory.values, IsSignal x := by
  refine ⟨h.circuit_eq, fun inner hin => ?_⟩
  obtain ⟨d, hinner⟩ := h.of_contains hin
  have hbounds := hinner.inBounds
  have hrange := hinner.inRange
  refine ⟨hbounds, fun inputs n => ?_, fun step hstep buffer cursor hmemory => ?_,
    fun inputs => ⟨?_, ?_⟩, fun id port x => hrange.portValue, fun step hstep => ?_⟩
  · rw [(midway_lengths inner inputs n).1, hbounds.slots]
  · exact hbounds.ring hstep hmemory
  · exact inner.length_evaluate inputs
  · exact allSignals_iff.mp (hrange.results inputs)
  · exact allSignals_iff.mp (hrange.memories step hstep)

/-- A delay that is fed by itself and by a port that a box does not have. The order repeats one id
and has one without a part, and edges lead from and to what is not there. The circuit in the box
delays, too. -/
def tangled : Circuit where
  order := [.output 3, ⟨"lag"⟩, ⟨"box"⟩, ⟨"lag"⟩, ⟨"gone"⟩, .input 7, .output 0]
  parts := [
    .ofNode (((Node.ofKind ⟨"lag"⟩ .delay).withParam "subdivisions" (.number 2)).withPorts 2 3),
    { Part.ofNode ((Node.ofKind ⟨"box"⟩ (.puzzle "knot")).withPorts 1 4) with
      nested := some {
        order := [.output 0, ⟨"slow"⟩, .input 0]
        parts := [.ofNode (.ofKind ⟨"slow"⟩ .delay)]
        edges := [⟨.input 0, 0, ⟨"slow"⟩, 0, none⟩, ⟨⟨"slow"⟩, 0, .output 0, 0, none⟩]
        inputCount := 1
        outputCount := 1 } },
    .ofNode (.ofKind ⟨"idle"⟩ (.unknown "what"))]
  edges := [⟨⟨"lag"⟩, 0, ⟨"lag"⟩, 0, none⟩, ⟨.input 7, 0, ⟨"box"⟩, 0, none⟩,
    ⟨⟨"box"⟩, 9, ⟨"lag"⟩, 1, none⟩, ⟨⟨"box"⟩, 0, .output 0, 5, none⟩,
    ⟨⟨"idle"⟩, 0, .output 0, 0, none⟩, ⟨⟨"box"⟩, 0, .output 0, 0, some 3⟩]
  inputCount := 0
  outputCount := 2

/-- The evaluator in the box, after a call on what is no signal and a reset. -/
theorem bounded_tangled :
    let e := (((ofCircuit tangled).evaluate [.nan, .infinity]).2.reset.evaluate [.negZero]).2
    Reachable tangled e ∧ e.circuit = tangled ∧
      ∃ step ∈ e.steps, ∃ part inner, step.action = .nested part inner ∧ inner.InBounds ∧
        ∀ inputs, ∀ x ∈ (inner.evaluate inputs).1, IsSignal x := by
  intro e
  have hreachable : Reachable tangled e := ((Reachable.built.evaluate _).reset).evaluate _
  -- there is a step with a circuit behind it; the general theorem says the rest
  have hbox : (e.steps.any fun step => match step.action with
      | .nested _ _ => true
      | _ => false) = true := by decide +kernel
  obtain ⟨step, hstep, haction⟩ := List.any_eq_true.mp hbox
  obtain ⟨hcircuit, hinside⟩ := hreachable.bounded
  split at haction
  · next part inner hnested =>
    obtain ⟨hbounds, -, -, hanswers, -⟩ := hinside inner (.behind hstep hnested (.self inner))
    exact ⟨hreachable, hcircuit, step, hstep, part, inner, hnested, hbounds,
      fun inputs => (hanswers inputs).2⟩
  · cases haction

end Evaluator
end SignalBoard
