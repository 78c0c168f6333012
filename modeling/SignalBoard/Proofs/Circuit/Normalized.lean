import SignalBoard.Proofs.Circuit.Bounds

/-!
# Numbers that documents cannot hold

A document puts nothing in the place of an infinity or NaN. Nodes take what they cannot read as a
finite number for missing anyway, so to an evaluator it makes no difference whether this has been
done to the parameters of its circuit and of the circuits behind its parts. Building, calling and
resetting an evaluator all go past it:

```lean
theorem ofCircuit_normalized (c : Circuit) : ofCircuit c.normalized = (ofCircuit c).normalized
theorem evaluate_normalized (e : Evaluator) (inputs : List Binary64) :
    e.normalized.evaluate inputs = ((e.evaluate inputs).1, (e.evaluate inputs).2.normalized)
theorem reset_normalized (e : Evaluator) : e.normalized.reset = e.reset.normalized
```

* `answersTo_normalized`, `afterAll_normalized`: so do requests in any order.
* `portValue?_normalized`, `memories_normalized`: what can be seen inside does not hold any
  parameters.
-/

namespace SignalBoard

/-! ## Circuits -/

mutual

/-- The part as a document can hold it, and so the circuit behind it. -/
def Part.normalized (p : Part) : Part :=
  match p with
  | ⟨id, kind, params, inputCount, outputCount, nested⟩ =>
    ⟨id, kind, params.normalized, inputCount, outputCount, Part.nestedNormalized nested⟩
  termination_by structural p

/-- The circuit behind a part as a document can hold it. -/
def Part.nestedNormalized (c? : Option Circuit) : Option Circuit :=
  match c? with
  | none => none
  | some c => some c.normalized
  termination_by structural c?

/-- The circuit with nothing in the place of infinities and NaNs, however deep. -/
def Circuit.normalized (c : Circuit) : Circuit :=
  match c with
  | ⟨order, parts, edges, inputCount, outputCount⟩ =>
    ⟨order, Circuit.partsNormalized parts, edges, inputCount, outputCount⟩
  termination_by structural c

/-- The parts of a circuit one by one. -/
def Circuit.partsNormalized (parts : List Part) : List Part :=
  match parts with
  | [] => []
  | p :: rest => p.normalized :: Circuit.partsNormalized rest
  termination_by structural parts

end

namespace Part

/-- A normalized part differs in its parameters and in what is behind it. -/
theorem normalized_eq (p : Part) : p.normalized =
    { p with params := p.params.normalized, nested := p.nested.map Circuit.normalized } := by
  obtain ⟨id, kind, params, inputCount, outputCount, nested⟩ := p
  cases nested <;> rfl

@[simp] theorem id_normalized (p : Part) : p.normalized.id = p.id := by
  rw [normalized_eq]

end Part

/-- A normalized circuit differs in its parts only. -/
theorem Circuit.normalized_eq (c : Circuit) :
    c.normalized = { c with parts := c.parts.map Part.normalized } := by
  obtain ⟨order, parts, edges, inputCount, outputCount⟩ := c
  -- the structural recursion goes through the list of parts; outside of it this is a map
  have hparts : partsNormalized parts = parts.map Part.normalized := by
    induction parts with
    | nil => rfl
    | cons p rest ih => rw [partsNormalized, ih, List.map_cons]
  rw [normalized, hparts]

namespace Evaluator

/-! ## Evaluators -/

mutual

/-- The evaluator with nothing in the place of infinities and NaNs in the parameters of its parts
and of those further inside. What it keeps from call to call is left alone. -/
def normalized : Evaluator → Evaluator
  | ⟨circuit, steps, outputs⟩ => ⟨circuit.normalized, stepsNormalized steps, outputs⟩

/-- The steps of an evaluator one by one. -/
def stepsNormalized : List (Step Evaluator) → List (Step Evaluator)
  | [] => []
  | step :: rest => stepNormalized step :: stepsNormalized rest

/-- A step with other parameters; its sources and its memory stay. -/
def stepNormalized : Step Evaluator → Step Evaluator
  | ⟨id, .nested part inner, sources, memory⟩ =>
    ⟨id, .nested part.normalized inner.normalized, sources, memory⟩
  | ⟨id, .builtin part, sources, memory⟩ => ⟨id, .builtin part.normalized, sources, memory⟩
  | ⟨id, .input n, sources, memory⟩ => ⟨id, .input n, sources, memory⟩
  | ⟨id, .output n, sources, memory⟩ => ⟨id, .output n, sources, memory⟩

end

theorem stepsNormalized_eq_map (steps : List (Step Evaluator)) :
    stepsNormalized steps = steps.map stepNormalized := by
  induction steps with
  | nil => rw [stepsNormalized, List.map_nil]
  | cons step rest ih => rw [stepsNormalized, ih, List.map_cons]

/-- A normalized evaluator keeps the outputs of its steps. -/
theorem normalized_eq (e : Evaluator) :
    e.normalized = ⟨e.circuit.normalized, e.steps.map stepNormalized, e.outputs⟩ := by
  obtain ⟨circuit, steps, outputs⟩ := e
  rw [normalized, stepsNormalized_eq_map]

@[simp] theorem id_stepNormalized (step : Step Evaluator) : (stepNormalized step).id = step.id := by
  obtain ⟨id, action, sources, memory⟩ := step
  cases action <;> rfl

@[simp] theorem sources_stepNormalized (step : Step Evaluator) :
    (stepNormalized step).sources = step.sources := by
  obtain ⟨id, action, sources, memory⟩ := step
  cases action <;> rfl

@[simp] theorem memory_stepNormalized (step : Step Evaluator) :
    (stepNormalized step).memory = step.memory := by
  obtain ⟨id, action, sources, memory⟩ := step
  cases action <;> rfl

/-! ## Building -/

/-- Which sources a step gets does not depend on parameters. -/
theorem stepNormalized_attach (ids : List NodeId) (edge : Edge) (step : Step Evaluator) :
    stepNormalized (step.attach ids edge) = (stepNormalized step).attach ids edge := by
  unfold Step.attach
  rw [id_stepNormalized]
  split
  · obtain ⟨id, action, sources, memory⟩ := step
    cases action <;> rfl
  · rfl

theorem stepNormalized_foldl_attach (ids : List NodeId) (edges : List Edge)
    (step : Step Evaluator) :
    stepNormalized (edges.foldl (Step.attach ids) step)
      = edges.foldl (Step.attach ids) (stepNormalized step) := by
  induction edges generalizing step with
  | nil => rfl
  | cons edge rest ih => rw [List.foldl_cons, ih, stepNormalized_attach, List.foldl_cons]

/-- The evaluator behind a part, if this is how circuits behind the part are built. -/
theorem innerOf_normalized {part : Part}
    (h : ∀ d, part.nested = some d → ofCircuit d.normalized = (ofCircuit d).normalized) :
    innerOf part.normalized = (innerOf part).map normalized := by
  rw [innerOf, innerOf, Part.normalized_eq]
  split
  · cases hd : part.nested with
    | none => rfl
    | some d => exact congrArg some (h d hd)
  · rfl

/-- A planned step. The memory of a part depends on its parameters, but not on numbers that are not
finite. -/
theorem planStep?_normalized {parts : List Part}
    (h : ∀ part ∈ parts, innerOf part.normalized = (innerOf part).map normalized) (id : NodeId) :
    planStep? (layOut (parts.map Part.normalized)) id
      = (planStep? (layOut parts) id).map stepNormalized := by
  have hlayOut : layOut (parts.map Part.normalized)
      = (layOut parts).map fun entry => (entry.1.normalized, entry.2.map normalized) := by
    rw [layOut_eq, layOut_eq, List.map_map, List.map_map]
    exact List.map_congr_left fun part hpart => congrArg (Prod.mk _) (h part hpart)
  rw [planStep?, planStep?]
  split
  · rfl
  · rfl
  · -- the last part with the id is still the last one
    rw [hlayOut, ← List.map_reverse, List.find?_map]
    simp only [Function.comp_def, Part.id_normalized, Option.map_map]
    congr 1
    funext entry
    obtain ⟨part, inner⟩ := entry
    cases inner <;> simp [Part.normalized_eq, stepNormalized]

/-- **Building.** The evaluator of a circuit as a document can hold it is that of the circuit, with
other parameters. -/
theorem ofCircuit_normalized (c : Circuit) : ofCircuit c.normalized = (ofCircuit c).normalized := by
  induction c using Circuit.induction with
  | step c ih =>
    -- the induction is on the nesting: `ih` speaks of the circuits behind the parts
    have hplanned : planned c.normalized = (planned c).map stepNormalized := by
      rw [planned, planned, Circuit.normalized_eq, List.map_filterMap]
      exact List.filterMap_congr fun id _ =>
        planStep?_normalized (fun part hpart => innerOf_normalized (ih part hpart)) id
    -- edges are attached by id, and the ids of the planned steps are the same
    have hids : (planned c.normalized).map (·.id) = (planned c).map (·.id) := by
      rw [hplanned, List.map_map]
      exact List.map_congr_left fun step _ => id_stepNormalized step
    have hsteps : (ofCircuit c.normalized).steps = (ofCircuit c).steps.map stepNormalized := by
      rw [steps_eq_map_planned, steps_eq_map_planned, hids, hplanned, List.map_map, List.map_map]
      refine List.map_congr_left fun step _ => ?_
      rw [Circuit.normalized_eq]
      exact (stepNormalized_foldl_attach _ c.edges step).symm
    -- in both there is an empty slot for every step
    rw [ofCircuit_eq, hsteps, List.map_map, ofCircuit_eq c, normalized_eq]
    rfl

/-! ## Calling -/

mutual

/-- **Calling.** A call gives the same, and its circuit is all that tells the evaluator from the
other one afterwards. -/
theorem evaluate_normalized : ∀ (e : Evaluator) (inputs : List Binary64),
    e.normalized.evaluate inputs = ((e.evaluate inputs).1, (e.evaluate inputs).2.normalized)
  | ⟨circuit, steps, outputs⟩, inputs => by
    -- as many result slots, so both passes start from the same progress
    have hresults : circuit.normalized.outputCount = circuit.outputCount := by
      rw [Circuit.normalized_eq]
    have hsteps := runSteps_normalized inputs steps 0
      ⟨outputs, List.replicate circuit.outputCount.toNat .zero⟩
    simp only [normalized, evaluate, hresults, hsteps]

/-- The pass over the steps leaves the same progress behind. -/
theorem runSteps_normalized (inputs : List Binary64) : ∀ (steps : List (Step Evaluator))
    (place : Nat) (start : Progress),
    runSteps inputs (stepsNormalized steps) place start
      = (stepsNormalized (runSteps inputs steps place start).1,
          (runSteps inputs steps place start).2)
  | [], _, _ => rfl
  | step :: rest, place, start => by
    have hstep := runStep_normalized inputs (gather start.outputs step.sources) start.results step
    simp only [stepsNormalized, runSteps, sources_stepNormalized, hstep,
      runSteps_normalized inputs rest]

/-- One step computes the same outputs and results and keeps the same memory. -/
theorem runStep_normalized (inputs gathered results : List Binary64) :
    ∀ step : Step Evaluator,
      runStep inputs gathered results (stepNormalized step)
        = ((runStep inputs gathered results step).1, (runStep inputs gathered results step).2.1,
            stepNormalized (runStep inputs gathered results step).2.2)
  | ⟨id, .input n, sources, memory⟩ => rfl
  | ⟨id, .output n, sources, memory⟩ => rfl
  | ⟨id, .builtin part, sources, memory⟩ => by
    -- a node computes the same from either parameters
    simp only [stepNormalized, runStep, Part.normalized_eq, NodeKind.evaluate_normalized]
  | ⟨id, .nested part inner, sources, memory⟩ => by
    simp only [stepNormalized, runStep, Part.normalized_eq, evaluate_normalized inner]

end

mutual

/-- **Resetting.** A reset puts back memories and outputs, which hold no parameters. -/
theorem reset_normalized : ∀ e : Evaluator, e.normalized.reset = e.reset.normalized
  | ⟨circuit, steps, outputs⟩ => by
    simp only [normalized, reset, resetSteps_normalized steps]

theorem resetSteps_normalized : ∀ steps : List (Step Evaluator),
    resetSteps (stepsNormalized steps) = stepsNormalized (resetSteps steps)
  | [] => rfl
  | step :: rest => by
    simp only [stepsNormalized, resetSteps, resetStep_normalized step, resetSteps_normalized rest]

/-- One step is reset alike, and so is the evaluator behind it. -/
theorem resetStep_normalized : ∀ step : Step Evaluator,
    resetStep (stepNormalized step) = stepNormalized (resetStep step)
  | ⟨id, .input n, sources, memory⟩ => rfl
  | ⟨id, .output n, sources, memory⟩ => rfl
  | ⟨id, .builtin part, sources, memory⟩ => rfl
  | ⟨id, .nested part inner, sources, memory⟩ => by
    simp only [stepNormalized, resetStep, reset_normalized inner]

end

/-! ## Any requests -/

theorem serve_normalized (e : Evaluator) (request : Request) :
    e.normalized.serve request = ((e.serve request).1, (e.serve request).2.normalized) := by
  cases request with
  | evaluate inputs => simp only [serve, evaluate_normalized]
  | reset => simp only [serve, reset_normalized]

/-- After any requests the two evaluators still differ in parameters only. -/
theorem afterAll_normalized (e : Evaluator) (requests : List Request) :
    e.normalized.afterAll requests = (e.afterAll requests).normalized := by
  induction requests generalizing e with
  | nil => rfl
  | cons request rest ih =>
    have hafter : (e.normalized.serve request).2 = (e.serve request).2.normalized := by
      rw [serve_normalized]
    show (e.normalized.serve request).2.afterAll rest = _
    rw [hafter, ih]
    rfl

theorem answersTo_normalized (e : Evaluator) (requests : List Request) :
    e.normalized.answersTo requests = e.answersTo requests := by
  induction requests generalizing e with
  | nil => rfl
  -- the answer is the same and leaves evaluators of which `ih` speaks
  | cons request rest ih => rw [answersTo, serve_normalized, ih, answersTo]

/-! ## Looking inside -/

theorem portValue?_normalized (e : Evaluator) (id : NodeId) (port : UInt64) :
    e.normalized.portValue? id port = e.portValue? id port := by
  have hindex : indexOf? (e.steps.map stepNormalized) id = indexOf? e.steps id := by
    rw [indexOf?_eq, indexOf?_eq, List.map_map]
    simp only [Function.comp_def, id_stepNormalized]
  rw [normalized_eq, portValue?, portValue?, hindex]

theorem memories_normalized (e : Evaluator) : e.normalized.memories = e.memories := by
  rw [normalized_eq, memories, memories, List.filter_map, List.map_map]
  simp only [Function.comp_def, id_stepNormalized, memory_stepNormalized]

end Evaluator
end SignalBoard
