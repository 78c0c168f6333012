import SignalBoard.Proofs.Circuit.Call
import SignalBoard.Proofs.Node.Evaluate

/-!
# Silent evaluators

An evaluator is quiet if neither its memories nor its slots hold anything but zeros, those of the
evaluators inside it included. A newly built evaluator is quiet, and a call on zeros gives zeros and
leaves it quiet, whatever its circuit looks like: steps may read slots of earlier calls, for these
hold zeros as well.

```lean
theorem quiet_ofCircuit (c : Circuit) : (ofCircuit c).Quiet
theorem evaluate_quiet (h : e.Quiet) (hin : AllZero inputs) :
    AllZero (e.evaluate inputs).1 ∧ (e.evaluate inputs).2.Quiet
```

Evaluators nest, so both are by mutual induction, with one statement each for an evaluator, its
steps and a single step.
-/

namespace SignalBoard
namespace Evaluator

open Signal

mutual

/-- Neither memories nor slots hold anything but zeros, however deep inside. -/
def Quiet : Evaluator → Prop
  | ⟨_, steps, outputs⟩ => StepsQuiet steps ∧ ∀ ports ∈ outputs, AllZero ports

/-- All steps are quiet. -/
def StepsQuiet : List (Step Evaluator) → Prop
  | [] => True
  | step :: rest => StepQuiet step ∧ StepsQuiet rest

/-- The memory of a step holds zeros, and the evaluator behind it is quiet. Connection points keep
nothing. -/
def StepQuiet : Step Evaluator → Prop
  | ⟨_, .nested _ inner, _, memory⟩ => memory.Quiet ∧ inner.Quiet
  | ⟨_, .builtin _, _, memory⟩ => memory.Quiet
  | ⟨_, .input _, _, _⟩ => True
  | ⟨_, .output _, _, _⟩ => True

end

/-- The recursion over the steps asks each of them. -/
theorem stepsQuiet_iff {steps : List (Step Evaluator)} :
    StepsQuiet steps ↔ ∀ step ∈ steps, StepQuiet step := by
  induction steps with
  | nil => simp [StepsQuiet]
  | cons step rest ih => simp [StepsQuiet, ih]

/-! ## Reading zeros -/

/-- From slots with zeros a step gathers zeros. -/
theorem allZero_gather {outputs : List (List Binary64)} (h : ∀ ports ∈ outputs, AllZero ports)
    (sources : List (Option (Nat × UInt64))) : AllZero (gather outputs sources) := by
  intro x hx
  rcases mem_gather hx with rfl | ⟨ports, hports, port, rfl⟩
  · rfl
  · exact (h ports hports).valueAt port

/-- A zero that is put on a port leaves all values zero. -/
theorem allZero_set {results : List Binary64} (h : AllZero results) (place : Nat) {x : Binary64}
    (hx : x = .zero) : AllZero (results.set place x) := by
  intro y hy
  exact (List.mem_or_eq_of_mem_set hy).elim (h y) fun heq => heq.trans hx

/-! ## Calling -/

mutual

/-- **Zeros in, zeros out**, for a whole circuit. -/
theorem evaluate_quiet : ∀ (e : Evaluator) {inputs : List Binary64}, e.Quiet → AllZero inputs →
    AllZero (e.evaluate inputs).1 ∧ (e.evaluate inputs).2.Quiet
  | ⟨circuit, steps, outputs⟩, inputs, h, hin => by
    obtain ⟨hsteps, hslots⟩ := h
    obtain ⟨hafter, hdone, hresults⟩ := runSteps_quiet steps 0
      ⟨outputs, List.replicate circuit.outputCount.toNat .zero⟩ hsteps hin hslots
      (allZero_replicate _)
    exact ⟨hresults, hafter, hdone⟩

/-- The pass over the steps keeps memories, slots and results zero. -/
theorem runSteps_quiet : ∀ (steps : List (Step Evaluator)) {inputs : List Binary64} (place : Nat)
    (start : Progress), StepsQuiet steps → AllZero inputs →
    (∀ ports ∈ start.outputs, AllZero ports) → AllZero start.results →
    StepsQuiet (runSteps inputs steps place start).1 ∧
      (∀ ports ∈ (runSteps inputs steps place start).2.outputs, AllZero ports) ∧
      AllZero (runSteps inputs steps place start).2.results
  | [], _, _, _, _, _, hslots, hresults => ⟨trivial, hslots, hresults⟩
  | step :: rest, inputs, place, start, h, hin, hslots, hresults => by
    obtain ⟨hstep, hrest⟩ := h
    -- the first step writes zeros into its slot, so the rest reads zeros, too
    obtain ⟨hproduced, hpublished, hkept⟩ := runStep_quiet step hstep hin
      (allZero_gather hslots step.sources) hresults
    obtain ⟨hafter, hdone, hfinal⟩ := runSteps_quiet rest (place + 1)
      ⟨start.outputs.set place
          (runStep inputs (gather start.outputs step.sources) start.results step).1,
        (runStep inputs (gather start.outputs step.sources) start.results step).2.1⟩
      hrest hin
      (fun ports hports => (List.mem_or_eq_of_mem_set hports).elim (hslots ports)
        fun heq => heq ▸ hproduced)
      hpublished
    exact ⟨⟨hkept, hafter⟩, hdone, hfinal⟩

/-- One step gives out zeros if zeros are gathered, and keeps zeros. -/
theorem runStep_quiet : ∀ (step : Step Evaluator) {inputs gathered results : List Binary64},
    StepQuiet step → AllZero inputs → AllZero gathered → AllZero results →
    AllZero (runStep inputs gathered results step).1 ∧
      AllZero (runStep inputs gathered results step).2.1 ∧
      StepQuiet (runStep inputs gathered results step).2.2
  | ⟨id, .input n, sources, memory⟩, inputs, _, _, _, hin, _, hresults => by
    refine ⟨fun x hx => ?_, hresults, trivial⟩
    rw [List.mem_singleton.mp hx, hin.valueAt, clamp_zero]
  | ⟨id, .output n, sources, memory⟩, _, _, _, _, _, hgathered, hresults => by
    have hvalue := hgathered.valueAt 0
    refine ⟨fun x hx => ?_, allZero_set hresults n.toNat hvalue, trivial⟩
    rw [List.mem_singleton.mp hx, hvalue]
  | ⟨id, .builtin part, sources, memory⟩, _, _, _, h, _, hgathered, hresults => by
    -- whatever the kind, a node turns zeros into zeros
    obtain ⟨hproduced, hmemory⟩ := part.kind.evaluate_quiet part.params hgathered
      part.outputCount.toNat h
    exact ⟨hproduced, hresults, hmemory⟩
  | ⟨id, .nested part inner, sources, memory⟩, _, _, _, h, _, hgathered, hresults => by
    -- a whole circuit does so by the mutual induction
    obtain ⟨hmemory, hinner⟩ := h
    obtain ⟨hproduced, hafter⟩ := evaluate_quiet inner hinner hgathered
    refine ⟨allZero_fit _ ?_, hresults, hmemory, hafter⟩
    rw [hproduced.map_clamp]
    exact hproduced

end

/-! ## Building -/

/-- What a step reads is not what it holds. -/
theorem stepQuiet_sources {step : Step Evaluator} (h : StepQuiet step)
    (sources : List (Option (Nat × UInt64))) : StepQuiet { step with sources := sources } := by
  obtain ⟨id, action, _, memory⟩ := step
  cases action <;> exact h

/-- An edge changes what a step reads and nothing of what it holds. -/
theorem connect_quiet {steps : List (Step Evaluator)} (h : StepsQuiet steps) (edge : Edge) :
    StepsQuiet (connect steps edge) := by
  rw [stepsQuiet_iff] at h ⊢
  rw [connect]
  split
  · intro step hstep
    obtain ⟨k, hk⟩ := List.mem_iff_getElem?.mp hstep
    rw [List.getElem?_modify] at hk
    obtain ⟨before, hbefore, rfl⟩ := Option.map_eq_some_iff.mp hk
    have hquiet := h before (List.mem_of_getElem? hbefore)
    split
    · exact stepQuiet_sources hquiet _
    · exact hquiet
  · exact h

theorem foldl_connect_quiet (edges : List Edge) {steps : List (Step Evaluator)}
    (h : StepsQuiet steps) : StepsQuiet (edges.foldl connect steps) := by
  induction edges generalizing steps with
  | nil => exact h
  | cons edge rest ih => exact ih (connect_quiet h edge)

/-- The step of a part is quiet if the evaluator behind the part is. -/
theorem planStep?_quiet {parts : List (Part × Option Evaluator)}
    (h : ∀ entry ∈ parts, ∀ inner, entry.2 = some inner → inner.Quiet) {id : NodeId}
    {step : Step Evaluator} (hstep : planStep? parts id = some step) : StepQuiet step := by
  rw [planStep?] at hstep
  -- an external input, an external output, or the last part with the id
  split at hstep
  · cases hstep; trivial
  · cases hstep; trivial
  · obtain ⟨⟨part, inner⟩, hfound, rfl⟩ := Option.map_eq_some_iff.mp hstep
    have hmem := List.mem_reverse.mp (List.mem_of_find?_eq_some hfound)
    have hmemory := NodeMemory.fresh_quiet part.kind part.params
    cases inner with
    | none => exact hmemory
    | some inner => exact ⟨hmemory, h _ hmem inner rfl⟩

mutual

/-- **A newly built evaluator is quiet.** -/
theorem quiet_ofCircuit : ∀ c : Circuit, (ofCircuit c).Quiet
  | ⟨order, parts, edges, inputCount, outputCount⟩ => by
    have hplan : StepsQuiet ((distinct order).filterMap (planStep? (layOut parts))) := by
      rw [stepsQuiet_iff]
      intro step hstep
      obtain ⟨id, -, hid⟩ := List.mem_filterMap.mp hstep
      exact planStep?_quiet (layOut_quiet parts) hid
    refine ⟨foldl_connect_quiet edges hplan, fun ports hports => ?_⟩
    obtain ⟨-, -, rfl⟩ := List.mem_map.mp hports
    intro x hx
    cases hx

theorem layOut_quiet : ∀ parts : List Part,
    ∀ entry ∈ layOut parts, ∀ inner, entry.2 = some inner → inner.Quiet
  | [] => fun _ hentry => by cases hentry
  | ⟨id, kind, params, inputCount, outputCount, nested⟩ :: rest => by
    intro entry hentry inner hinner
    rcases List.mem_cons.mp hentry with rfl | hentry
    · -- an evaluator is built behind composite parts only
      by_cases hcomposite : kind.isComposite = true
      · exact behind_quiet nested inner (by simpa [hcomposite] using hinner)
      · simp [hcomposite] at hinner
    · exact layOut_quiet rest entry hentry inner hinner

/-- The evaluator of a nested circuit is quiet. -/
theorem behind_quiet : ∀ (nested : Option Circuit) (inner : Evaluator),
    behind nested = some inner → inner.Quiet
  | none, _, h => by cases h
  | some c, _, h => by
    cases h
    exact quiet_ofCircuit c

end

end Evaluator
end SignalBoard
