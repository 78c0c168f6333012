import SignalBoard.Proofs.Circuit.Plan
import SignalBoard.Proofs.Storage.Document

/-!
# Which part an id stands for

A circuit that comes out of a document may have several parts with one id. Looking an id up gives
the first of them (`Circuit.part?`), while its step works with the last one (`Circuit.lastPart?`),
so that what is displayed for a node need not be what is computed:

```lean
theorem workings_lastPart (hid : id ∈ c.order) (hordinary : id.connectionPoint? = none)
    (hfirst : c.part? id = some first) :
    ∃ last step, c.lastPart? id = some last ∧ … ∧ step.workings? = some (workingsOf last) ∧ …
```

* `lastPart?_eq_part?`: the two agree about an id whose parts are all the same, which is so wherever
  no id comes twice.
* `exists_step_of_lastPart?`: the step of an ordinary id, whatever the edges are.
-/

namespace SignalBoard

namespace Circuit

/-- The last part with a given id. -/
def lastPart? (c : Circuit) (id : NodeId) : Option Part :=
  c.parts.reverse.find? (·.id = id)

variable {c : Circuit} {id : NodeId} {first last : Part}

/-- What is found first is a part with the id. -/
theorem part?_eq_some (h : c.part? id = some first) : first ∈ c.parts ∧ first.id = id :=
  ⟨List.mem_of_find?_eq_some h, by simpa using List.find?_some h⟩

/-- What is found last is a part with the id, too. -/
theorem lastPart?_eq_some (h : c.lastPart? id = some last) : last ∈ c.parts ∧ last.id = id :=
  ⟨List.mem_reverse.mp (List.mem_of_find?_eq_some h), by simpa using List.find?_some h⟩

/-- Where there is a first part with an id, there is a last one. -/
theorem exists_lastPart? (h : c.part? id = some first) : ∃ last, c.lastPart? id = some last := by
  obtain ⟨hmem, hid⟩ := part?_eq_some h
  rw [← Option.isSome_iff_exists, lastPart?, List.find?_isSome]
  exact ⟨first, List.mem_reverse.mpr hmem, by simpa using hid⟩

/-- If all parts with an id are the same, it does not matter which of them counts. -/
theorem lastPart?_eq_part? (hfirst : c.part? id = some first) (hlast : c.lastPart? id = some last)
    (hsame : ∀ p ∈ c.parts, ∀ q ∈ c.parts, p.id = id → q.id = id → p = q) : last = first := by
  obtain ⟨hfirstMem, hfirstId⟩ := part?_eq_some hfirst
  obtain ⟨hlastMem, hlastId⟩ := lastPart?_eq_some hlast
  exact hsame last hlastMem first hfirstMem hlastId hfirstId

end Circuit

namespace Evaluator

/-- What a node is run by. -/
structure Workings where
  kind : NodeKind
  params : Params
  inputCount : Nat
  outputCount : Nat
  /-- What is called in its place, if there is a circuit behind it. -/
  inner : Option Evaluator

/-- What a part says that its node is to be run by. -/
def workingsOf (part : Part) : Workings :=
  ⟨part.kind, part.params, part.inputCount.toNat, part.outputCount.toNat, innerOf part⟩

/-- What a step runs its node by; nothing for a connection point. -/
def Step.workings? (step : Step Evaluator) : Option Workings :=
  match step.action with
  | .input _ => none
  | .output _ => none
  | .builtin part =>
    some ⟨part.kind, part.params, step.sources.length, part.outputCount.toNat, none⟩
  | .nested part inner =>
    some ⟨part.kind, part.params, step.sources.length, part.outputCount.toNat, some inner⟩

/-- The step that is planned for a part works as the part says. -/
theorem workings?_stepOf (part : Part) : (stepOf part).workings? = some (workingsOf part) := by
  unfold Step.workings? stepOf workingsOf
  cases innerOf part <;> simp

/-- Edges only say from where a step reads. -/
theorem workings?_foldl_attach (ids : List NodeId) (edges : List Edge) (step : Step Evaluator) :
    (edges.foldl (Step.attach ids) step).workings? = step.workings? := by
  obtain ⟨-, haction, -, hlength⟩ := foldl_attach_frame ids edges step
  unfold Step.workings?
  rw [haction, hlength]

variable {c : Circuit} {id : NodeId} {first last : Part}

/-- The one step of an ordinary id is that of the last part with this id. -/
theorem exists_step_of_lastPart? (hid : id ∈ c.order) (hordinary : id.connectionPoint? = none)
    (hlast : c.lastPart? id = some last) :
    ∃ step, (∀ other, other ∈ (ofCircuit c).steps ∧ other.id = id ↔ other = step) ∧
      step.workings? = some (workingsOf last) ∧ step.memory = .fresh last.kind last.params := by
  -- the parts are laid out in a map by id, where the last one replaces those before it
  have hplanned : stepOf last ∈ planned c := by
    refine List.mem_filterMap.mpr ⟨id, mem_distinct.mpr hid, ?_⟩
    rw [planStep?_ordinary hordinary]
    exact congrArg (Option.map stepOf) hlast
  let step := c.edges.foldl (Step.attach ((planned c).map (·.id))) (stepOf last)
  have hstep : step ∈ (ofCircuit c).steps := by
    rw [steps_eq_map_planned]
    exact List.mem_map_of_mem hplanned
  obtain ⟨hstepId, -, hmemory, -⟩ :=
    foldl_attach_frame ((planned c).map (·.id)) c.edges (stepOf last)
  have hsame : step.id = id := hstepId.trans (Circuit.lastPart?_eq_some hlast).2
  have hnodup : ((ofCircuit c).steps.map (·.id)).Nodup := by
    rw [ids_ofCircuit]
    exact nodup_planned c
  refine ⟨step, fun other => ⟨fun ⟨hother, hotherId⟩ => ?_, ?_⟩, ?_, hmemory⟩
  · -- no id has two steps, because the order is gone through without repetitions
    exact List.inj_on_of_nodup_map hnodup hother hstep (hotherId.trans hsame.symm)
  · rintro rfl
    exact ⟨hstep, hsame⟩
  · exact (workings?_foldl_attach _ _ _).trans (workings?_stepOf last)

/-- **The plan runs the last part of an id.** Whatever circuit has been loaded, an ordinary id of
its order that has a part has one step, and this works with the kind, the parameters, the port
counts and the circuit of the last part with the id. Looking the id up gives the first one: what it
says is what is run if and only if the two say the same, in particular if the parts with the id are
all the same. -/
theorem workings_lastPart (hid : id ∈ c.order) (hordinary : id.connectionPoint? = none)
    (hfirst : c.part? id = some first) :
    ∃ last step, c.lastPart? id = some last ∧
      (∀ other, other ∈ (ofCircuit c).steps ∧ other.id = id ↔ other = step) ∧
      step.workings? = some (workingsOf last) ∧ step.memory = .fresh last.kind last.params ∧
      (step.workings? = (c.part? id).map workingsOf ↔ workingsOf last = workingsOf first) ∧
      ((∀ p ∈ c.parts, ∀ q ∈ c.parts, p.id = id → q.id = id → p = q) → last = first) := by
  obtain ⟨last, hlast⟩ := Circuit.exists_lastPart? hfirst
  obtain ⟨step, hsteps, hworkings, hmemory⟩ := exists_step_of_lastPart? hid hordinary hlast
  refine ⟨last, step, hlast, hsteps, hworkings, hmemory, ?_,
    Circuit.lastPart?_eq_part? hfirst hlast⟩
  -- whether the two agree is a matter of the first part and the last one alone
  rw [hworkings, hfirst, Option.map_some, Option.some_inj]

/-- An inverter, and behind it a polarizer under the same id. -/
def twofold : Circuit where
  order := [.input 0, ⟨"n"⟩, .output 0]
  parts := [⟨⟨"n"⟩, .invert, .empty, 1, 1, none⟩, ⟨⟨"n"⟩, .polarizer, .empty, 1, 1, none⟩]
  edges := [⟨.input 0, 0, ⟨"n"⟩, 0, none⟩, ⟨⟨"n"⟩, 0, .output 0, 0, none⟩]
  inputCount := 1
  outputCount := 1

/-- The circuit with two parts of one id can be written down, so it can also be loaded. -/
theorem storable_twofold : twofold.Storable := by
  have hkinds : ∀ p ∈ twofold.parts, p.kind = NodeKind.ofText p.kind.text := by decide +kernel
  refine .mk (fun p hp => ⟨p.kind.text, hkinds p hp⟩) ?_ ?_
  · exact List.forall_mem_cons.mpr
      ⟨Params.storable_empty, List.forall_mem_singleton.mpr Params.storable_empty⟩
  · exact List.forall_mem_cons.mpr ⟨nofun, List.forall_mem_singleton.mpr nofun⟩

/-- The id is looked up as an inverter and run as a polarizer. -/
theorem workings_lastPart_twofold :
    ⟨"n"⟩ ∈ twofold.order ∧ NodeId.connectionPoint? ⟨"n"⟩ = none ∧
      (twofold.part? ⟨"n"⟩).map (·.kind) = some .invert ∧
      ∃ step ∈ (ofCircuit twofold).steps, step.id = ⟨"n"⟩ ∧
        step.workings?.map (·.kind) = some .polarizer := by
  have hordinary : NodeId.connectionPoint? ⟨"n"⟩ = none := by decide +kernel
  have hid : ⟨"n"⟩ ∈ twofold.order := by decide +kernel
  obtain ⟨last, step, hlast, hsteps, hworkings, -⟩ := workings_lastPart hid hordinary rfl
  obtain ⟨hmem, hstepId⟩ := (hsteps step).mpr rfl
  have hpolarizer : (twofold.lastPart? ⟨"n"⟩).map (·.kind) = some .polarizer := rfl
  rw [hlast] at hpolarizer
  refine ⟨hid, hordinary, rfl, step, hmem, hstepId, ?_⟩
  rw [hworkings]
  exact hpolarizer

/-- The look-up says that the node inverts, but what is run polarizes. The circuit is one that can
be loaded. -/
theorem lookup_twofold :
    Circuit.ofJson? twofold.toJson = some twofold ∧
      ⟨"n"⟩ ∈ twofold.order ∧ NodeId.connectionPoint? ⟨"n"⟩ = none ∧
      (twofold.part? ⟨"n"⟩).map (·.kind) = some .invert ∧
      ¬ (∃ step ∈ (ofCircuit twofold).steps, step.id = ⟨"n"⟩ ∧
        step.workings? = (twofold.part? ⟨"n"⟩).map workingsOf) ∧
      ((ofCircuit twofold).evaluate [50]).1 = [100] := by
  have hdepth : twofold.toValue.nesting ≤ Json.maxNesting := by decide +kernel
  have hrun : ∀ step ∈ (ofCircuit twofold).steps, step.id = ⟨"n"⟩ →
      step.workings?.map (·.kind) = some .polarizer := by decide +kernel
  refine ⟨?_, by decide +kernel, by decide +kernel, rfl, ?_, by decide +kernel⟩
  · rw [Circuit.ofJson?_toJson storable_twofold, if_pos hdepth]
  · rintro ⟨step, hstep, hid, hsame⟩
    have hkind := hrun step hstep hid
    rw [hsame] at hkind
    exact absurd hkind (by decide)

end Evaluator
end SignalBoard
