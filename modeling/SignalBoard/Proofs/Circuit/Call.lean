import SignalBoard.Circuit.Evaluator

/-!
# What one call of an evaluator does

The steps of an evaluator write their outputs one after the other into slots that still hold what
the call before has left. A step only reads slots, so as long as every step reads slots that come
before its own (`ReadsBelow`), what it reads has been written in this call and is not written
again. The slots after the call then satisfy the equation of every step at once:

```lean
theorem evaluate_outputs (h : e.Ordered) (hstep : e.steps[k]? = some step) :
    (e.evaluate inputs).2.outputs[k]?
      = some (step.outcome inputs (gather (e.evaluate inputs).2.outputs step.sources)).1
```

* `Step.outcome`: the output ports of a step and the step afterwards.
* `Step.publish`: what a step does to the outside outputs.
* `runSteps_settles`: the equations above for a part of the plan, by induction on the steps.
* `evaluate_stale`: a call gives the same whatever the slots hold before it.

Where steps read against the order, a call can still be followed step by step (`midway_succ`).
-/

namespace SignalBoard
namespace Evaluator

/-! ## One step -/

/-- The output ports of a step that has run on the given values, and the step afterwards. -/
def Step.outcome (step : Step Evaluator) (inputs gathered : List Binary64) :
    List Binary64 × Step Evaluator :=
  let (produced, _, after) := runStep inputs gathered [] step
  (produced, after)

/-- The outside outputs after a step has run on the given values. -/
def Step.publish (step : Step Evaluator) (gathered results : List Binary64) : List Binary64 :=
  match step.action with
  | .output n => results.set n.toNat (Signal.valueAt gathered 0)
  | _ => results

/-- A step acts in two ways that do not depend on each other: it makes output ports and a new step,
and it may set an outside output. -/
theorem runStep_eq (step : Step Evaluator) (inputs gathered results : List Binary64) :
    runStep inputs gathered results step
      = ((step.outcome inputs gathered).1, step.publish gathered results,
          (step.outcome inputs gathered).2) := by
  obtain ⟨id, action, sources, memory⟩ := step
  cases action <;> rfl

/-- No step makes or loses an outside output. -/
@[simp] theorem Step.length_publish (step : Step Evaluator) (gathered results : List Binary64) :
    (step.publish gathered results).length = results.length := by
  unfold Step.publish
  split
  · exact List.length_set
  · rfl

/-- What a step is, apart from what it keeps from call to call, stays as it is. -/
theorem Step.outcome_id (step : Step Evaluator) (inputs gathered : List Binary64) :
    (step.outcome inputs gathered).2.id = step.id := by
  obtain ⟨id, action, sources, memory⟩ := step
  cases action <;> rfl

theorem Step.outcome_sources (step : Step Evaluator) (inputs gathered : List Binary64) :
    (step.outcome inputs gathered).2.sources = step.sources := by
  obtain ⟨id, action, sources, memory⟩ := step
  cases action <;> rfl

/-! ## Reading slots -/

/-- All slots that a step reads come before a place. -/
def Step.ReadsBelow (place : Nat) (step : Step Evaluator) : Prop :=
  ∀ i port, some (i, port) ∈ step.sources → i < place

/-- Reading only depends on the slots that are read. -/
theorem gather_congr {outputs outputs' : List (List Binary64)}
    {sources : List (Option (Nat × UInt64))}
    (h : ∀ i port, some (i, port) ∈ sources → outputs[i]? = outputs'[i]?) :
    gather outputs sources = gather outputs' sources := by
  refine List.map_congr_left fun source hsource => ?_
  match source with
  | none => rfl
  | some (i, port) =>
    show Signal.valueAt (outputs.getD i []) port.toNat = Signal.valueAt (outputs'.getD i []) port.toNat
    rw [List.getD_eq_getElem?_getD, List.getD_eq_getElem?_getD, h i port hsource]

/-- What is read is zero or the value on a port of a slot. -/
theorem mem_gather {outputs : List (List Binary64)} {sources : List (Option (Nat × UInt64))}
    {x : Binary64} (h : x ∈ gather outputs sources) :
    x = .zero ∨ ∃ ports ∈ outputs, ∃ port, x = Signal.valueAt ports port := by
  obtain ⟨source, -, rfl⟩ := List.mem_map.mp h
  match source with
  | none => exact .inl rfl
  | some (i, port) =>
    show Signal.valueAt (outputs.getD i []) port.toNat = .zero ∨
      ∃ ports ∈ outputs, ∃ p, Signal.valueAt (outputs.getD i []) port.toNat = Signal.valueAt ports p
    rw [List.getD_eq_getElem?_getD]
    cases hslot : outputs[i]? with
    | none => exact .inl rfl
    | some ports => exact .inr ⟨ports, List.mem_of_getElem? hslot, port.toNat, rfl⟩

/-! ## All steps -/

/-- A call changes nothing of the steps that running a step leaves alone. -/
theorem map_runSteps {β : Type} {f : Step Evaluator → β} {inputs : List Binary64}
    {steps : List (Step Evaluator)}
    (h : ∀ step ∈ steps, ∀ gathered, f (step.outcome inputs gathered).2 = f step) (place : Nat)
    (start : Progress) : (runSteps inputs steps place start).1.map f = steps.map f := by
  -- by induction on the steps; what the slots hold does not matter here
  induction steps generalizing place start with
  | nil => rfl
  | cons step rest ih =>
    rw [List.forall_mem_cons] at h
    simp only [runSteps, runStep_eq]
    rw [List.map_cons, List.map_cons, h.1, ih h.2]

/-- Every step has run once, whatever it has read. -/
theorem runSteps_frame (inputs : List Binary64) (steps : List (Step Evaluator)) (place : Nat)
    (start : Progress) :
    (runSteps inputs steps place start).1.map (·.id) = steps.map (·.id) ∧
      ∀ after ∈ (runSteps inputs steps place start).1,
        ∃ step ∈ steps, ∃ gathered, after = (step.outcome inputs gathered).2 := by
  refine ⟨map_runSteps (fun step _ gathered => Step.outcome_id step inputs gathered) place start, ?_⟩
  induction steps generalizing place start with
  | nil => exact fun _ h => absurd h List.not_mem_nil
  | cons step rest ih =>
    intro after hafter
    simp only [runSteps, runStep_eq] at hafter
    rcases List.mem_cons.mp hafter with rfl | hafter
    · exact ⟨step, List.mem_cons_self, _, rfl⟩
    · obtain ⟨other, hother, hran⟩ := ih _ _ after hafter
      exact ⟨other, List.mem_cons_of_mem _ hother, hran⟩

/-- Steps run one after the other. -/
theorem runSteps_append (inputs : List Binary64) (steps later : List (Step Evaluator)) :
    ∀ (place : Nat) (start : Progress),
      runSteps inputs (steps ++ later) place start =
        let (after, progress) := runSteps inputs steps place start
        let (afterLater, progress) := runSteps inputs later (place + steps.length) progress
        (after ++ afterLater, progress) := by
  induction steps with
  | nil => exact fun _ _ => rfl
  | cons step rest ih =>
    intro place start
    simp only [List.cons_append, runSteps, List.length_cons, ih, Nat.add_right_comm,
      ← Nat.add_assoc]

/-- What running the steps from a place on has come to: the slots before the place are untouched,
every step has run on what the slots hold in the end, and the outside outputs are what the steps
have published one after the other. -/
structure Settled (inputs : List Binary64) (steps : List (Step Evaluator)) (place : Nat)
    (start : Progress) (after : List (Step Evaluator)) (done : Progress) : Prop where
  length : done.outputs.length = start.outputs.length
  untouched : ∀ i < place, done.outputs[i]? = start.outputs[i]?
  produced : ∀ k step, steps[k]? = some step →
    done.outputs[place + k]? = some (step.outcome inputs (gather done.outputs step.sources)).1
  after : after = steps.map fun step =>
    (step.outcome inputs (gather done.outputs step.sources)).2
  results : done.results = steps.foldl
    (fun results step => step.publish (gather done.outputs step.sources) results) start.results

/-- Steps that read below their own places settle. By induction on the steps: the first one writes
its slot, and the rest leave that slot and all before it alone. -/
theorem runSteps_settles (inputs : List Binary64) (steps : List (Step Evaluator)) :
    ∀ (place : Nat) (start : Progress), place + steps.length ≤ start.outputs.length →
      (∀ k (step : Step Evaluator), steps[k]? = some step → step.ReadsBelow (place + k)) →
      Settled inputs steps place start (runSteps inputs steps place start).1
        (runSteps inputs steps place start).2 := by
  -- by induction on the steps, for every place and every progress, since the rest starts one place
  -- later and with one slot written
  induction steps with
  | nil =>
    intro place start _ _
    refine ⟨rfl, fun _ _ => rfl, ?_, rfl, rfl⟩
    intro k step h
    simp at h
  | cons step rest ih =>
    intro place start hlength hreads
    rw [List.length_cons] at hlength
    let gathered := gather start.outputs step.sources
    let next : Progress := ⟨start.outputs.set place (step.outcome inputs gathered).1,
      step.publish gathered start.results⟩
    have hrun : runSteps inputs (step :: rest) place start
        = ((step.outcome inputs gathered).2 :: (runSteps inputs rest (place + 1) next).1,
            (runSteps inputs rest (place + 1) next).2) := by
      simp only [runSteps, runStep_eq, gathered, next]
    have hrest := ih (place + 1) next (by simp only [next, List.length_set]; omega) <| by
      intro k later hk
      have hbelow := hreads (k + 1) later (by simpa using hk)
      rwa [show place + (k + 1) = place + 1 + k by omega] at hbelow
    rw [hrun]
    generalize runSteps inputs rest (place + 1) next = ran at hrest
    obtain ⟨after, done⟩ := ran
    -- the first step writes at `place`, the rest after it
    have huntouched : ∀ i < place, done.outputs[i]? = start.outputs[i]? := by
      intro i hi
      rw [hrest.untouched i (by omega), List.getElem?_set_ne (by omega)]
    -- what the first step has read is still there in the end
    have hgathered : gather done.outputs step.sources = gathered :=
      gather_congr fun i port hmem => huntouched i (hreads 0 step rfl i port hmem)
    refine ⟨?_, huntouched, ?_, ?_, ?_⟩
    · -- the number of slots, then what is in them, the steps and the outside outputs
      rw [hrest.length, List.length_set]
    · intro k later hk
      cases k with
      | zero =>
        rw [List.getElem?_cons_zero, Option.some.injEq] at hk
        subst hk
        rw [hgathered, Nat.add_zero, hrest.untouched place (by omega),
          List.getElem?_set_self (by omega)]
      | succ k =>
        rw [show place + (k + 1) = place + 1 + k by omega]
        exact hrest.produced k later (by simpa using hk)
    · rw [List.map_cons, hgathered, hrest.after]
    · rw [List.foldl_cons, hgathered, hrest.results]

/-! ## A call -/

/-- Every step has a slot and reads slots before its own. -/
structure Ordered (e : Evaluator) : Prop where
  length : e.outputs.length = e.steps.length
  reads : ∀ k (step : Step Evaluator), e.steps[k]? = some step → step.ReadsBelow k

variable {e : Evaluator}

/-- A call runs all steps, on the slots of the call before and on outside outputs that are all
zero. -/
theorem evaluate_eq (e : Evaluator) (inputs : List Binary64) :
    e.evaluate inputs =
      let start : Progress := ⟨e.outputs, List.replicate e.circuit.outputCount.toNat .zero⟩
      ((runSteps inputs e.steps 0 start).2.results,
        ⟨e.circuit, (runSteps inputs e.steps 0 start).1,
          (runSteps inputs e.steps 0 start).2.outputs⟩) := by
  obtain ⟨circuit, steps, outputs⟩ := e
  rfl

/-- What the first steps of a call leave behind. -/
def midway (e : Evaluator) (inputs : List Binary64) (n : Nat) : Progress :=
  (runSteps inputs (e.steps.take n) 0
    ⟨e.outputs, List.replicate e.circuit.outputCount.toNat .zero⟩).2

/-- The next step reads what the steps before it have left behind, and writes its own slot. -/
theorem midway_succ {inputs : List Binary64} {n : Nat} {step : Step Evaluator}
    (hstep : e.steps[n]? = some step) :
    e.midway inputs (n + 1) =
      let before := e.midway inputs n
      let gathered := gather before.outputs step.sources
      ⟨before.outputs.set n (step.outcome inputs gathered).1,
        step.publish gathered before.results⟩ := by
  have hlength : (e.steps.take n).length = n :=
    List.length_take_of_le (Nat.le_of_lt (List.getElem?_eq_some_iff.mp hstep).1)
  -- the first steps and one more are run by running the first and then the one
  rw [midway, List.take_add_one, hstep, Option.toList_some, runSteps_append, hlength, Nat.zero_add]
  simp only [runSteps, runStep_eq, midway]

/-- Once all steps have run, the call is over. -/
theorem midway_of_length_le {inputs : List Binary64} {n : Nat} (h : e.steps.length ≤ n) :
    e.midway inputs n = ⟨(e.evaluate inputs).2.outputs, (e.evaluate inputs).1⟩ := by
  rw [midway, List.take_of_length_le h, evaluate_eq]

/-- What holds when a call begins, and is left to hold by every step, holds throughout the call. -/
theorem midway_induction {P : Progress → Prop} {inputs : List Binary64}
    (start : P (e.midway inputs 0))
    (next : ∀ n step, e.steps[n]? = some step → P (e.midway inputs n) →
      P (e.midway inputs (n + 1))) (n : Nat) : P (e.midway inputs n) := by
  induction n with
  | zero => exact start
  | succ n ih =>
    cases hstep : e.steps[n]? with
    | some step => exact next n step hstep ih
    | none =>
      -- the call is over
      rw [List.getElem?_eq_none_iff] at hstep
      rw [midway_of_length_le (Nat.le_succ_of_le hstep), ← midway_of_length_le hstep]
      exact ih

/-- In a plan that is in order a whole call settles. -/
theorem Ordered.settled (h : e.Ordered) (inputs : List Binary64) :
    Settled inputs e.steps 0 ⟨e.outputs, List.replicate e.circuit.outputCount.toNat .zero⟩
      (e.evaluate inputs).2.steps ⟨(e.evaluate inputs).2.outputs, (e.evaluate inputs).1⟩ := by
  rw [evaluate_eq]
  refine runSteps_settles inputs e.steps 0 _ ?_ ?_
  · simp [h.length]
  · simpa using h.reads

/-- **The equation of a step.** After a call the slot of a step holds what the step makes of the
slots that it reads, as they are after the call. -/
theorem evaluate_outputs (h : e.Ordered) (inputs : List Binary64) {k : Nat}
    {step : Step Evaluator} (hstep : e.steps[k]? = some step) :
    (e.evaluate inputs).2.outputs[k]?
      = some (step.outcome inputs (gather (e.evaluate inputs).2.outputs step.sources)).1 := by
  simpa using (h.settled inputs).produced k step hstep

/-- After a call every step is what it becomes on the slots that it reads, as they are after the
call. -/
theorem evaluate_steps (h : e.Ordered) (inputs : List Binary64) :
    (e.evaluate inputs).2.steps = e.steps.map fun step =>
      (step.outcome inputs (gather (e.evaluate inputs).2.outputs step.sources)).2 :=
  (h.settled inputs).after

/-- The outside outputs of a call are published by the steps one after the other, from the slots as
they are after the call. -/
theorem evaluate_results (h : e.Ordered) (inputs : List Binary64) :
    (e.evaluate inputs).1 = e.steps.foldl
      (fun results step =>
        step.publish (gather (e.evaluate inputs).2.outputs step.sources) results)
      (List.replicate e.circuit.outputCount.toNat .zero) :=
  (h.settled inputs).results

/-- A call leaves the plan in order. -/
theorem Ordered.evaluate (h : e.Ordered) (inputs : List Binary64) :
    (e.evaluate inputs).2.Ordered := by
  constructor
  · rw [(h.settled inputs).length, evaluate_steps h, List.length_map]
    exact h.length
  · intro k step hk
    rw [evaluate_steps h, List.getElem?_map, Option.map_eq_some_iff] at hk
    obtain ⟨before, hbefore, rfl⟩ := hk
    intro i port hmem
    rw [Step.outcome_sources] at hmem
    exact h.reads k before hbefore i port hmem

/-- Two runs of the same steps that settle agree, whatever the slots held before: by strong
induction on the place, every slot is made of slots before it. -/
theorem Settled.outputs_eq {inputs : List Binary64} {steps : List (Step Evaluator)}
    {start start' done done' : Progress} {after after' : List (Step Evaluator)}
    (h : Settled inputs steps 0 start after done)
    (h' : Settled inputs steps 0 start' after' done')
    (hreads : ∀ k (step : Step Evaluator), steps[k]? = some step → step.ReadsBelow k)
    (hlength : start.outputs.length = steps.length)
    (hlength' : start'.outputs.length = steps.length) : done.outputs = done'.outputs := by
  -- slot by slot
  refine List.ext_getElem? fun i => ?_
  induction i using Nat.strongRecOn with
  | ind i ih =>
    -- either there is no slot at this place, or a step makes it of slots before it
    cases hstep : steps[i]? with
    | none =>
      rw [List.getElem?_eq_none_iff] at hstep
      rw [List.getElem?_eq_none (by rw [h.length]; omega),
        List.getElem?_eq_none (by rw [h'.length]; omega)]
    | some step =>
      have hslot := h.produced i step hstep
      have hslot' := h'.produced i step hstep
      rw [Nat.zero_add] at hslot hslot'
      rw [hslot, hslot', gather_congr fun j port hmem => ih j (hreads i step hstep j port hmem)]

/-- **Nothing is left over.** A call gives the same whatever the slots hold before it. -/
theorem evaluate_stale (h : e.Ordered) (inputs : List Binary64) (stale : List (List Binary64))
    (hstale : stale.length = e.outputs.length) :
    ({ e with outputs := stale } : Evaluator).evaluate inputs = e.evaluate inputs := by
  -- the slots before a call are not part of what makes a plan ordered, only their number is
  have h' : ({ e with outputs := stale } : Evaluator).Ordered :=
    ⟨hstale.trans h.length, h.reads⟩
  have houtputs := (h'.settled inputs).outputs_eq (h.settled inputs) h.reads
    (hstale.trans h.length) h.length
  have hresults := (h'.settled inputs).results
  have hsteps := (h'.settled inputs).after
  simp only at houtputs hresults hsteps
  rw [houtputs] at hresults hsteps
  refine Prod.ext (hresults.trans (h.settled inputs).results.symm) ?_
  have hcircuit : (({ e with outputs := stale } : Evaluator).evaluate inputs).2.circuit
      = (e.evaluate inputs).2.circuit := by
    rw [evaluate_eq, evaluate_eq]
  have hsame := hsteps.trans (h.settled inputs).after.symm
  -- the evaluators after the two calls have the same circuit, steps and slots
  generalize (({ e with outputs := stale } : Evaluator).evaluate inputs).2 = a at *
  generalize (e.evaluate inputs).2 = b at *
  obtain ⟨ca, sa, oa⟩ := a
  obtain ⟨cb, sb, ob⟩ := b
  simp only at houtputs hcircuit hsame
  rw [houtputs, hcircuit, hsame]

end Evaluator
end SignalBoard
