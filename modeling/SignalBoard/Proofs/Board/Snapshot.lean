import SignalBoard.Proofs.Board.Bake

/-!
# What the memories of an evaluator show

An evaluator lists the memory of every step that has one (`memories`). In an evaluator that has been
built from a circuit, whatever the circuit looks like, only the steps of built-in nodes have any: a
connection point keeps nothing, and what a composite node keeps is inside the evaluator behind it.
So the list shows what the ids keep and nothing else.

* `Regular`: what every evaluator has that comes from a circuit, now and after any call.
* `Regular.mem_memories`: what is listed is what is kept.
-/

namespace SignalBoard
namespace Evaluator

/-- Connection points have the steps of connection points, and memory is with built-in nodes
alone. -/
def Step.Regular (step : Step Evaluator) : Prop :=
  match step.action with
  | .input _ => step.id.isConnectionPoint ∧ step.memory = .stateless
  | .output _ => step.id.isConnectionPoint ∧ step.memory = .stateless
  | .builtin _ => ¬ step.id.isConnectionPoint
  | .nested _ _ => ¬ step.id.isConnectionPoint ∧ step.memory = .stateless

/-- What every evaluator has that comes from a circuit: no id twice, and memory only where a node
computes. -/
structure Regular (e : Evaluator) : Prop where
  nodup : (e.steps.map (·.id)).Nodup
  steps : ∀ step ∈ e.steps, step.Regular

/-! ## Building -/

/-- A composite node has no memory of its own. -/
theorem fresh_of_isComposite {kind : NodeKind} (h : kind.isComposite = true) (params : Params) :
    NodeMemory.fresh kind params = .stateless := by
  match kind, h with
  | .puzzle _, _ => rfl
  | .utility _, _ => rfl

theorem planStep?_regular {parts : List Part} {id : NodeId} {step : Step Evaluator}
    (h : planStep? (layOut parts) id = some step) : step.Regular := by
  -- an external input, an external output, or a part with an ordinary id
  rcases planStep?_cases h with ⟨n, hcp, rfl⟩ | ⟨n, hcp, rfl⟩ | ⟨part, -, rfl, hcp, rfl⟩
  · exact ⟨by simp [NodeId.isConnectionPoint, hcp], rfl⟩
  · exact ⟨by simp [NodeId.isConnectionPoint, hcp], rfl⟩
  · have hordinary : ¬ part.id.isConnectionPoint := by simp [NodeId.isConnectionPoint, hcp]
    unfold stepOf Step.Regular
    cases hinner : innerOf part with
    | none => exact hordinary
    | some inner =>
      -- there is an evaluator behind composite parts alone
      exact ⟨hordinary, fresh_of_isComposite (innerOf_eq_some hinner).1 part.params⟩

/-- A newly built evaluator is regular, whatever the circuit looks like. -/
theorem regular_ofCircuit (c : Circuit) : (ofCircuit c).Regular := by
  constructor
  · rw [ids_ofCircuit]
    exact nodup_planned c
  · rw [steps_eq_map_planned]
    intro step hstep
    obtain ⟨start, hstart, rfl⟩ := List.mem_map.mp hstep
    obtain ⟨hid, haction, hmemory, -⟩ := foldl_attach_frame ((planned c).map (·.id)) c.edges start
    rw [Step.Regular, hid, haction, hmemory]
    exact planStep?_regular (mem_planned hstart)

/-! ## Calling -/

theorem Step.Regular.outcome {step : Step Evaluator} (h : step.Regular)
    (inputs gathered : List Binary64) : (step.outcome inputs gathered).2.Regular := by
  obtain ⟨id, action, sources, memory⟩ := step
  cases action <;> exact h

/-- An evaluator stays regular when it is called. -/
theorem Regular.evaluate {e : Evaluator} (h : e.Regular) (inputs : List Binary64) :
    (e.evaluate inputs).2.Regular := by
  obtain ⟨hids, hran⟩ := runSteps_frame inputs e.steps 0
    ⟨e.outputs, List.replicate e.circuit.outputCount.toNat .zero⟩
  rw [evaluate_eq]
  refine ⟨?_, fun after hafter => ?_⟩
  · show (List.map _ _).Nodup
    rw [hids]
    exact h.nodup
  · obtain ⟨step, hstep, gathered, rfl⟩ := hran after hafter
    exact (h.steps step hstep).outcome inputs gathered

theorem regular_after (c : Circuit) (past : List (List Binary64)) :
    ((ofCircuit c).after past).Regular := by
  induction past using List.reverseRecOn with
  | nil => exact regular_ofCircuit c
  | append_singleton past inputs ih =>
    rw [after_concat]
    exact ih.evaluate inputs

/-! ## What is kept and what is listed -/

namespace Regular

variable {e : Evaluator} {id : NodeId}

theorem holdingOf_connectionPoint (h : e.Regular) (hid : id.isConnectionPoint) :
    e.holdingOf id = .memory .stateless := by
  rw [holdingOf]
  cases hfound : e.steps.find? (·.id = id) with
  | none => rfl
  | some step =>
    have hsame : step.id = id := by simpa using List.find?_some hfound
    have hregular := h.steps step (List.mem_of_find?_eq_some hfound)
    rw [← hsame] at hid
    obtain ⟨id, action, sources, memory⟩ := step
    cases action with
    | input n => exact congrArg Holding.memory hregular.2
    | output n => exact congrArg Holding.memory hregular.2
    | builtin part => exact absurd hid hregular
    | nested part inner => exact absurd hid hregular.1

/-- **What is listed is what is kept.** -/
theorem mem_memories (h : e.Regular) {m : NodeMemory} :
    (id, m) ∈ e.memories ↔ e.holdingOf id = .memory m ∧ m.isStateless = false := by
  rw [memories, List.mem_map]
  constructor
  · rintro ⟨step, hstep, heq⟩
    obtain ⟨rfl, rfl⟩ := Prod.mk.inj heq
    obtain ⟨hmem, hlisted⟩ := List.mem_filter.mp hstep
    have hmemory : step.memory.isStateless = false := by simpa using hlisted
    refine ⟨?_, hmemory⟩
    rw [holdingOf_of_mem h.nodup hmem]
    have hregular := h.steps step hmem
    obtain ⟨id, action, sources, memory⟩ := step
    cases action with
    | input n => rfl
    | output n => rfl
    | builtin part => rfl
    -- a composite node has no memory that could be listed
    | nested part inner =>
      obtain rfl : memory = .stateless := hregular.2
      cases hmemory
  · rintro ⟨hkept, hmemory⟩
    rw [holdingOf] at hkept
    cases hfound : e.steps.find? (·.id = id) with
    | none =>
      rw [hfound] at hkept
      cases hkept
      cases hmemory
    | some step =>
      rw [hfound] at hkept
      have hsame : step.id = id := by simpa using List.find?_some hfound
      -- the step that is found by the id is the one that is listed
      obtain ⟨id', action, sources, memory⟩ := step
      have hm : memory = m := by
        cases action with
        | input n => exact Holding.memory.inj hkept
        | output n => exact Holding.memory.inj hkept
        | builtin part => exact Holding.memory.inj hkept
        | nested part inner => cases hkept
      subst hsame hm
      exact ⟨_, List.mem_filter.mpr ⟨List.mem_of_find?_eq_some hfound, by simp [hmemory]⟩, rfl⟩

end Regular
end Evaluator
end SignalBoard
