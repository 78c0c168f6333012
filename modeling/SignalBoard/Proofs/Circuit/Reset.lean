import SignalBoard.Proofs.Circuit.Bounds

/-!
# A reset is as good as a new evaluator

A reset builds nothing. It clears the slots and the memories in place, where a ring keeps its size,
and passes itself on to the evaluators inside. What comes out is the evaluator of the circuit as it
was built, whatever the circuit looks like and whatever has been asked of the evaluator before:

```lean
theorem Reachable.reset_eq (h : Reachable c e) : e.reset = ofCircuit c
```

* `NodeMemory.BelongsTo.reset_eq`: memory in the shape that its node keeps is fresh once it has been
  reset.
* `reset_evaluate`: a call leaves no trace that a reset would not clear.
* `reset_ofCircuit`: there is nothing to clear in a new evaluator.
* `reset_rebuilds`: so nothing that can be asked of an evaluator after a reset tells it from a new
  one.
-/

namespace SignalBoard

/-- Memory in the shape that its node keeps is fresh once it has been reset. A ring keeps its
length, and this is the one that the parameters ask for. -/
theorem NodeMemory.BelongsTo.reset_eq {kind : NodeKind} {params : Params} {m : NodeMemory}
    (h : m.BelongsTo kind params) : m.reset = fresh kind params := by
  cases m with
  | stateless =>
    have hkind : kind.isStateful = false := h
    cases kind <;> first | rfl | cases hkind
  | latch value =>
    obtain rfl : kind = .memory := h
    rfl
  | delay buffer cursor =>
    obtain ⟨rfl, hlength, -⟩ := h
    show delay (List.replicate buffer.length .zero) 0 = fresh .delay params
    rw [hlength]
    rfl

namespace Evaluator

variable {c : Circuit} {e : Evaluator}

/-! ## Calls -/

/-- What a step becomes by a reset does not depend on what it has been run on, if this holds of the
evaluator behind it. -/
theorem resetStep_outcome {parts : List Part} {step : Step Evaluator}
    (hfurnished : step.Furnished parts)
    (hinner : ∀ part next, step.action = .nested part next →
      ∀ gathered, (next.evaluate gathered).2.reset = next.reset)
    (inputs gathered : List Binary64) :
    resetStep (step.outcome inputs gathered).2 = resetStep step := by
  have hafter := hfurnished.outcome inputs gathered
  obtain ⟨id, action, sources, memory⟩ := step
  cases action with
  | input n => rfl
  | output n => rfl
  | builtin part =>
    -- the memory may be another one now, but it is still that of the part
    have hmemory : (part.kind.evaluate part.params gathered part.outputCount.toNat memory).2.reset
        = memory.reset := hafter.2.reset_eq.trans hfurnished.2.reset_eq.symm
    exact congrArg (Step.mk id (.builtin part) sources) hmemory
  | nested part next =>
    have hnext := hinner part next rfl gathered
    exact congrArg (fun next => Step.mk id (.nested part next) sources memory.reset) hnext

/-- A call leaves no trace that a reset would not clear, if this holds of the evaluators inside. -/
theorem reset_evaluate (h : e.InBounds)
    (hinner : ∀ step ∈ e.steps, ∀ part next, step.action = .nested part next →
      ∀ gathered, (next.evaluate gathered).2.reset = next.reset)
    (inputs : List Binary64) : (e.evaluate inputs).2.reset = e.reset := by
  have hsteps : (e.evaluate inputs).2.steps.map resetStep = e.steps.map resetStep := by
    rw [evaluate_eq]
    apply map_runSteps
    intro step hstep gathered
    exact resetStep_outcome (h.furnished step hstep) (hinner step hstep) inputs gathered
  -- all slots are emptied, and there are as many as before
  have hslots : (e.evaluate inputs).2.outputs.length = e.outputs.length := by
    rw [(h.evaluate inputs).slots, length_steps_evaluate, h.slots]
  rw [reset_eq, reset_eq, circuit_evaluate, hsteps, List.map_const', List.map_const', hslots]

/-! ## New evaluators -/

/-- A step with nothing to clear in its own memory and behind it stays as it is. -/
theorem resetStep_eq_self {step : Step Evaluator} (hmemory : step.memory.reset = step.memory)
    (hinner : ∀ part next, step.action = .nested part next → next.reset = next) :
    resetStep step = step := by
  obtain ⟨id, action, sources, memory⟩ := step
  cases action with
  | nested part next =>
    show Step.mk id (.nested part next.reset) sources memory.reset = _
    rw [hinner part next rfl, show memory.reset = memory from hmemory]
  | _ => exact congrArg (Step.mk id _ sources) hmemory

/-- A planned step has nothing to clear, if the evaluators of the circuits behind the parts have
nothing to clear. -/
theorem planned_cleared {start : Step Evaluator} (hstart : start ∈ planned c)
    (hparts : ∀ part ∈ c.parts, ∀ d, part.nested = some d → (ofCircuit d).reset = ofCircuit d) :
    start.memory.reset = start.memory ∧
      ∀ part next, start.action = .nested part next → next.reset = next := by
  -- the step of an outside input, of an outside output, or of a part
  rcases planStep?_cases (mem_planned hstart) with ⟨n, -, heq⟩ | ⟨n, -, heq⟩ | ⟨part, hpart, -, -, heq⟩
  · rw [heq]
    exact ⟨rfl, nofun⟩
  · rw [heq]
    exact ⟨rfl, nofun⟩
  · rw [heq]
    refine ⟨(NodeMemory.fresh_belongsTo part.kind part.params).reset_eq, fun part' next haction => ?_⟩
    obtain ⟨-, d, hd, rfl⟩ := nested_of_action_stepOf haction
    exact hparts part hpart d hd

/-- There is nothing to clear in a new evaluator. -/
theorem reset_ofCircuit (c : Circuit) : (ofCircuit c).reset = ofCircuit c := by
  -- by induction on the circuit, the circuits behind its parts first
  induction c using Circuit.induction with
  | step c ih =>
    have hstep : ∀ step ∈ (ofCircuit c).steps, resetStep step = step := by
      intro step hstep
      obtain ⟨start, hstart, rfl⟩ := exists_planned_of_mem hstep
      obtain ⟨-, haction, hmemory, -⟩ :=
        foldl_attach_frame ((planned c).map (·.id)) c.edges start
      obtain ⟨hcleared, hinner⟩ := planned_cleared hstart ih
      apply resetStep_eq_self
      · rw [hmemory, hcleared]
      · rwa [haction]
    have hsteps : (ofCircuit c).steps.map resetStep = (ofCircuit c).steps := by
      rw [List.map_congr_left hstep, List.map_id']
    rw [reset_eq, hsteps]
    obtain ⟨order, parts, edges, inputCount, outputCount⟩ := c
    -- the slots of a new evaluator are empty from the start
    exact congrArg (Evaluator.mk _ _) List.map_map

/-! ## Any requests -/

/-- **A reset rebuilds.** Whatever has been asked of the evaluator of a circuit, a reset turns it
into the evaluator that is built from the circuit. -/
theorem Reachable.reset_eq (h : Reachable c e) : e.reset = ofCircuit c := by
  -- by induction on the circuit and, for one circuit, on the requests so far: the evaluators inside
  -- have been asked something as well, so the outer induction is about all of their states
  induction c using Circuit.induction generalizing e with
  | step c ih =>
    induction h with
    | built => exact reset_ofCircuit c
    | @evaluate e inputs h ihe =>
      rw [← ihe]
      apply reset_evaluate h.inBounds
      intro step hstep part next haction gathered
      obtain ⟨d, hd, hnext⟩ := h.behind hstep haction
      have hpart : part ∈ c.parts := by
        have hfurnished := h.inBounds.furnished step hstep
        rw [h.circuit_eq, Step.Furnished, haction] at hfurnished
        exact hfurnished.1
      rw [ih part hpart d hd (hnext.evaluate gathered), ih part hpart d hd hnext]
    | reset h ihe => rw [ihe, reset_ofCircuit]

/-- **Reset equals rebuild.** After any requests and a reset an evaluator answers all further
requests as a new evaluator of the same circuit does, and what can be seen inside is the same. -/
theorem reset_rebuilds (c : Circuit) (past further : List Request) :
    let cleared := ((ofCircuit c).afterAll past).reset
    let new := ofCircuit c
    cleared.answersTo further = new.answersTo further ∧
      (∀ id port, (cleared.afterAll further).portValue? id port
        = (new.afterAll further).portValue? id port) ∧
      (cleared.afterAll further).memories = (new.afterAll further).memories := by
  intro cleared new
  have hsame : cleared = new := (Reachable.built.afterAll past).reset_eq
  rw [hsame]
  exact ⟨rfl, fun _ _ => rfl, rfl⟩

end Evaluator
end SignalBoard
