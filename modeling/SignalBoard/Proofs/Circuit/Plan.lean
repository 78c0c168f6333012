import SignalBoard.Circuit.Evaluator
import SignalBoard.Proofs.Digraph.Order

/-!
# The plan of a circuit

How the steps of an evaluator come out of a circuit. The edges are worked in one after the other
and each sets one source of one step, so a port ends up with the last edge into it:

```lean
theorem sources_foldl_attach :
    (edges.foldl (Step.attach ids) step).sources[port]?
      = some (match (edges.filter (intoPort ids step.id port)).getLast? with …)
```

* `layOut_eq`, `planStep?_cases`, `planStep?_ordinary`: the step of an id before the edges.
* `connect_eq_map`: with distinct ids, an edge acts on every step by itself (`Step.attach`).
* `foldl_connect`, `steps_eq_map_planned`: so do all edges together, in whatever circuit.
-/

namespace SignalBoard
namespace Evaluator

/-! ## Steps before the edges -/

/-- The evaluator of a nested circuit is built like any other. -/
theorem behind_eq (nested : Option Circuit) : behind nested = nested.map ofCircuit := by
  cases nested <;> rfl

/-- The evaluator behind a part: there is one if the part is composite and its circuit is known. -/
def innerOf (part : Part) : Option Evaluator :=
  if part.kind.isComposite then part.nested.map ofCircuit else none

/-- Parts are laid out one by one, each with the evaluator behind it. -/
theorem layOut_eq (parts : List Part) :
    layOut parts = parts.map fun part => (part, innerOf part) := by
  induction parts with
  | nil => rfl
  | cons part rest ih =>
    obtain ⟨id, kind, params, inputCount, outputCount, nested⟩ := part
    rw [layOut, ih, behind_eq]
    rfl

/-- The step of an ordinary id with exactly one part. -/
def stepOf (part : Part) : Step Evaluator where
  id := part.id
  action := match innerOf part with
    | some e => .nested part e
    | none => .builtin part
  sources := List.replicate part.inputCount.toNat none
  memory := .fresh part.kind part.params

/-- A part is a node that computes by itself or one with a circuit behind it. -/
theorem action_stepOf (part : Part) : (stepOf part).action = .builtin part ∨
    ∃ inner, (stepOf part).action = .nested part inner := by
  unfold stepOf
  cases innerOf part with
  | none => exact .inl rfl
  | some inner => exact .inr ⟨inner, rfl⟩

/-- Where there is an evaluator, the part is composite and has a circuit. -/
theorem innerOf_eq_some {part : Part} {inner : Evaluator} (h : innerOf part = some inner) :
    part.kind.isComposite = true ∧ ∃ d, part.nested = some d ∧ ofCircuit d = inner := by
  unfold innerOf at h
  split at h
  · next hcomposite => exact ⟨hcomposite, Option.map_eq_some_iff.mp h⟩
  · cases h

/-- The evaluator behind the step of a part is that of the circuit behind the part. -/
theorem nested_of_action_stepOf {part part' : Part} {inner : Evaluator}
    (h : (stepOf part).action = .nested part' inner) :
    part' = part ∧ ∃ d, part.nested = some d ∧ ofCircuit d = inner := by
  unfold stepOf at h
  cases hinner : innerOf part with
  | none =>
    rw [hinner] at h
    cases h
  | some e =>
    rw [hinner] at h
    obtain ⟨rfl, rfl⟩ := Action.nested.inj h
    exact ⟨rfl, (innerOf_eq_some hinner).2⟩

/-- What the step of an id can be: that of a connection point, or that of a part. -/
theorem planStep?_cases {parts : List Part} {id : NodeId} {step : Step Evaluator}
    (h : planStep? (layOut parts) id = some step) :
    (∃ n, id.connectionPoint? = some (.input n) ∧ step = ⟨id, .input n, [], .stateless⟩) ∨
    (∃ n, id.connectionPoint? = some (.output n) ∧ step = ⟨id, .output n, [none], .stateless⟩) ∨
    ∃ part ∈ parts, part.id = id ∧ id.connectionPoint? = none ∧ step = stepOf part := by
  rw [planStep?] at h
  split at h
  · next n hcp => exact .inl ⟨n, hcp, (Option.some.inj h).symm⟩
  · next n hcp => exact .inr (.inl ⟨n, hcp, (Option.some.inj h).symm⟩)
  · next hcp =>
    -- an ordinary id gets its part; without one it has no step
    obtain ⟨⟨part, inner⟩, hfound, rfl⟩ := Option.map_eq_some_iff.mp h
    have hid : part.id = id := by simpa using List.find?_some hfound
    have hmem := List.mem_reverse.mp (List.mem_of_find?_eq_some hfound)
    rw [layOut_eq] at hmem
    obtain ⟨part', hpart, heq⟩ := List.mem_map.mp hmem
    obtain ⟨rfl, rfl⟩ := Prod.mk.inj heq
    subst hid
    refine .inr (.inr ⟨part', hpart, rfl, hcp, ?_⟩)
    unfold stepOf
    cases innerOf part' <;> rfl

/-- A planned step has the id that it was planned for. -/
theorem planStep?_id {parts : List Part} {id : NodeId} {step : Step Evaluator}
    (h : planStep? (layOut parts) id = some step) : step.id = id := by
  rcases planStep?_cases h with ⟨n, -, rfl⟩ | ⟨n, -, rfl⟩ | ⟨part, -, rfl, -, rfl⟩ <;> rfl

/-- Where no key comes twice, what has a key is what is found under it. -/
theorem find?_of_nodup_map {α : Type} {key : α → NodeId} {xs : List α} (hn : (xs.map key).Nodup)
    {x : α} (hx : x ∈ xs) : xs.find? (fun y => key y = key x) = some x := by
  cases hfound : xs.find? (fun y => key y = key x) with
  | none =>
    rw [List.find?_eq_none] at hfound
    exact absurd (hfound x hx) (by simp)
  | some found =>
    have hsame : key found = key x := by simpa using List.find?_some hfound
    rw [List.inj_on_of_nodup_map hn (List.mem_of_find?_eq_some hfound) hx hsame]

/-- The last part with an ordinary id decides about its step. -/
theorem planStep?_ordinary {id : NodeId} (hid : id.connectionPoint? = none) (parts : List Part) :
    planStep? (layOut parts) id = (parts.reverse.find? (·.id = id)).map stepOf := by
  have hfind : (layOut parts).reverse.find? (fun p => p.1.id = id)
      = (parts.reverse.find? (·.id = id)).map fun part => (part, innerOf part) := by
    rw [layOut_eq, ← List.map_reverse, List.find?_map]
    rfl
  rw [planStep?, hid]
  refine (congrArg (Option.map _) hfind).trans ?_
  cases hfound : parts.reverse.find? (·.id = id) with
  | none => rfl
  | some part =>
    have hsame : part.id = id := by simpa using List.find?_some hfound
    subst hsame
    unfold stepOf
    cases innerOf part <;> rfl

/-- Where no id comes twice, the step of a part is planned for its id. -/
theorem planStep?_of_mem {parts : List Part} (hn : (parts.map (·.id)).Nodup) {part : Part}
    (hpart : part ∈ parts) (hid : part.id.connectionPoint? = none) :
    planStep? (layOut parts) part.id = some (stepOf part) := by
  -- no other part has the id, so it does not matter from which end one looks
  have hreverse : (parts.reverse.map (·.id)).Nodup := by rwa [List.map_reverse, List.nodup_reverse]
  rw [planStep?_ordinary hid, find?_of_nodup_map hreverse (List.mem_reverse.mpr hpart),
    Option.map_some]

/-! ## Places -/

/-- An id that is there is found at its first place. -/
theorem findIdx?_of_mem {ids : List NodeId} {id : NodeId} (h : id ∈ ids) :
    ids.findIdx? (· = id) = some (ids.idxOf id) := by
  rw [List.findIdx?_eq_some_iff_findIdx_eq]
  exact ⟨List.findIdx_lt_length_of_exists ⟨id, h, by simp⟩, rfl⟩

theorem findIdx?_of_not_mem {ids : List NodeId} {id : NodeId} (h : id ∉ ids) :
    ids.findIdx? (· = id) = none := by
  rw [List.findIdx?_eq_none_iff]
  rintro other hother
  simpa using fun heq : other = id => h (heq ▸ hother)

theorem indexOf?_eq (steps : List (Step Evaluator)) (id : NodeId) :
    indexOf? steps id = (steps.map (·.id)).findIdx? (· = id) := by
  rw [indexOf?, List.findIdx?_map]
  rfl

/-! ## Edges -/

/-- What an edge does to a step of a plan with the given ids. -/
def Step.attach (ids : List NodeId) (step : Step Evaluator) (edge : Edge) : Step Evaluator :=
  if edge.source ∈ ids ∧ edge.target = step.id then
    { step with
      sources :=
        step.sources.set edge.targetPort.toNat (some (ids.idxOf edge.source, edge.sourcePort)) }
  else step

@[simp] theorem Step.id_attach (ids : List NodeId) (step : Step Evaluator) (edge : Edge) :
    (step.attach ids edge).id = step.id := by
  unfold attach
  split <;> rfl

/-- An edge that leads to another step, or into a port that the step does not have. -/
theorem Step.attach_eq_self {ids : List NodeId} {step : Step Evaluator} {edge : Edge}
    (h : edge.target = step.id → step.sources.length ≤ edge.targetPort.toNat) :
    step.attach ids edge = step := by
  unfold attach
  split
  · next hends => rw [List.set_eq_of_length_le (h hends.2)]
  · rfl

/-- An edge acts on every step by itself. Ids are distinct, so there is one step at most that it
leads into. -/
theorem connect_eq_map {steps : List (Step Evaluator)} (hn : (steps.map (·.id)).Nodup)
    (edge : Edge) : connect steps edge = steps.map (Step.attach (steps.map (·.id)) · edge) := by
  rw [connect, indexOf?_eq, indexOf?_eq]
  by_cases hsource : edge.source ∈ steps.map (·.id)
  · by_cases htarget : edge.target ∈ steps.map (·.id)
    · rw [findIdx?_of_mem hsource, findIdx?_of_mem htarget]
      refine List.ext_getElem? fun k => ?_
      rw [List.getElem?_modify, List.getElem?_map]
      cases hk : steps[k]? with
      | none => rfl
      | some step =>
        have hid : (steps.map (·.id))[k]? = some step.id := by rw [List.getElem?_map, hk]; rfl
        obtain ⟨hlt, hget⟩ := List.getElem?_eq_some_iff.mp hid
        -- the place that is looked up is that of the step with the target id, and of no other
        have hplace : (steps.map (·.id)).idxOf edge.target = k ↔ edge.target = step.id := by
          constructor
          · rintro rfl
            rw [← hget, List.getElem_idxOf]
          · intro heq
            rw [heq, ← hget, hn.idxOf_getElem]
        show some (if (steps.map (·.id)).idxOf edge.target = k then _ else step)
          = some (Step.attach (steps.map (·.id)) step edge)
        by_cases htid : edge.target = step.id
        · rw [if_pos (hplace.mpr htid), Step.attach, if_pos ⟨hsource, htid⟩]
        · rw [if_neg fun h => htid (hplace.mp h), Step.attach, if_neg fun h => htid h.2]
    · rw [findIdx?_of_mem hsource, findIdx?_of_not_mem htarget]
      -- no step has the id that the edge leads into
      have hsame : ∀ step ∈ steps, Step.attach (steps.map (·.id)) step edge = step := by
        intro step hstep
        have hne : edge.target ≠ step.id := fun heq =>
          htarget (List.mem_map.mpr ⟨step, hstep, heq.symm⟩)
        simp only [Step.attach, hne, and_false, if_false]
      exact (List.map_id _).symm.trans (List.map_congr_left fun step h => (hsame step h).symm)
  · rw [findIdx?_of_not_mem hsource]
    have hsame : ∀ step ∈ steps, Step.attach (steps.map (·.id)) step edge = step := by
      intro step _
      simp only [Step.attach, hsource, false_and, if_false]
    exact (List.map_id _).symm.trans (List.map_congr_left fun step h => (hsame step h).symm)

theorem ids_map_attach (ids : List NodeId) (steps : List (Step Evaluator)) (edge : Edge) :
    (steps.map (Step.attach ids · edge)).map (·.id) = steps.map (·.id) := by
  rw [List.map_map]
  exact List.map_congr_left fun step _ => Step.id_attach ids step edge

/-- All edges together act on every step by itself. -/
theorem foldl_connect (edges : List Edge) {steps : List (Step Evaluator)}
    (hn : (steps.map (·.id)).Nodup) :
    edges.foldl connect steps
      = steps.map fun step => edges.foldl (Step.attach (steps.map (·.id))) step := by
  induction edges generalizing steps with
  | nil => exact (List.map_id _).symm
  | cons edge edges ih =>
    -- an edge leaves the ids alone, so the next edge finds the same places
    have hids := ids_map_attach (steps.map (·.id)) steps edge
    rw [List.foldl_cons, connect_eq_map hn, ih (by rw [hids]; exact hn), hids, List.map_map]
    rfl

/-- What the edges leave alone. -/
theorem foldl_attach_frame (ids : List NodeId) (edges : List Edge) (step : Step Evaluator) :
    (edges.foldl (Step.attach ids) step).id = step.id ∧
      (edges.foldl (Step.attach ids) step).action = step.action ∧
      (edges.foldl (Step.attach ids) step).memory = step.memory ∧
      (edges.foldl (Step.attach ids) step).sources.length = step.sources.length := by
  induction edges generalizing step with
  | nil => exact ⟨rfl, rfl, rfl, rfl⟩
  | cons edge edges ih =>
    obtain ⟨hid, haction, hmemory, hlength⟩ := ih (step.attach ids edge)
    rw [List.foldl_cons, hid, haction, hmemory, hlength, Step.attach]
    split
    · exact ⟨rfl, rfl, rfl, List.length_set⟩
    · exact ⟨rfl, rfl, rfl, rfl⟩

/-- The steps of a circuit before the edges. -/
def planned (c : Circuit) : List (Step Evaluator) :=
  (distinct c.order).filterMap (planStep? (layOut c.parts))

/-- Look-ups that all succeed, with the id that was looked up. -/
theorem map_id_filterMap {f : NodeId → Option (Step Evaluator)} {ids : List NodeId}
    (h : ∀ id ∈ ids, ∃ step, f id = some step ∧ step.id = id) :
    (ids.filterMap f).map (·.id) = ids := by
  induction ids with
  | nil => rfl
  | cons id rest ih =>
    obtain ⟨step, hstep, hid⟩ := h id List.mem_cons_self
    rw [List.filterMap_cons_some hstep, List.map_cons, hid,
      ih fun other hother => h other (List.mem_cons_of_mem _ hother)]

/-- A planned step is the one that is planned for its id. -/
theorem mem_planned {c : Circuit} {step : Step Evaluator} (h : step ∈ planned c) :
    planStep? (layOut c.parts) step.id = some step := by
  obtain ⟨id, -, hid⟩ := List.mem_filterMap.mp h
  rw [planStep?_id hid]
  exact hid

/-- No two planned steps have the same id, although parts may. -/
theorem nodup_planned (c : Circuit) : ((planned c).map (·.id)).Nodup := by
  rw [planned, List.map_filterMap]
  refine (nodup_distinct c.order).filterMap fun id id' found hfound hfound' => ?_
  obtain ⟨step, hstep, rfl⟩ := Option.map_eq_some_iff.mp hfound
  obtain ⟨step', hstep', heq⟩ := Option.map_eq_some_iff.mp hfound'
  -- the order is gone through without repetition, and a step tells its id
  rw [← planStep?_id hstep, ← planStep?_id hstep', heq]

/-- The steps of an evaluator are the planned ones with the edges worked in. -/
theorem steps_eq_foldl_connect (c : Circuit) :
    (ofCircuit c).steps = c.edges.foldl connect (planned c) := by
  obtain ⟨order, parts, edges, inputCount, outputCount⟩ := c
  rfl

/-- The steps of a circuit, whatever it looks like: the edges act on every planned step by
itself. -/
theorem steps_eq_map_planned (c : Circuit) :
    (ofCircuit c).steps
      = (planned c).map fun step => c.edges.foldl (Step.attach ((planned c).map (·.id))) step := by
  rw [steps_eq_foldl_connect]
  exact foldl_connect c.edges (nodup_planned c)

/-- The edges add no step and change no id. -/
theorem ids_ofCircuit (c : Circuit) :
    (ofCircuit c).steps.map (·.id) = (planned c).map (·.id) := by
  rw [steps_eq_map_planned, List.map_map]
  exact List.map_congr_left fun step _ => (foldl_attach_frame _ _ step).1

/-- A new evaluator has an empty slot for every step. -/
theorem ofCircuit_eq (c : Circuit) :
    ofCircuit c = ⟨c, (ofCircuit c).steps, (ofCircuit c).steps.map fun _ => []⟩ := by
  obtain ⟨order, parts, edges, inputCount, outputCount⟩ := c
  rfl

/-- Whether an edge leads from one of the ids into a given port. -/
def intoPort (ids : List NodeId) (id : NodeId) (port : Nat) (edge : Edge) : Bool :=
  edge.source ∈ ids && edge.target = id && edge.targetPort.toNat = port

/-- **The last edge counts.** By induction on the edges, the last one first. -/
theorem sources_foldl_attach (ids : List NodeId) (edges : List Edge) (step : Step Evaluator)
    {port : Nat} (hport : step.sources[port]? = some none) :
    (edges.foldl (Step.attach ids) step).sources[port]?
      = some ((edges.filter (intoPort ids step.id port)).getLast?.map fun edge =>
          (ids.idxOf edge.source, edge.sourcePort)) := by
  induction edges using List.reverseRecOn with
  | nil => exact hport
  | append_singleton edges edge ih =>
    obtain ⟨hid, -, -, hlength⟩ := foldl_attach_frame ids edges step
    have hlt : port < step.sources.length := (List.getElem?_eq_some_iff.mp hport).1
    rw [List.foldl_append, List.foldl_cons, List.foldl_nil, Step.attach, hid, List.filter_append]
    -- the last edge sets the port if it leads into it, and else leaves it to those before
    by_cases hinto : edge.source ∈ ids ∧ edge.target = step.id
    · rw [if_pos hinto]
      by_cases htp : edge.targetPort.toNat = port
      · have hyes : intoPort ids step.id port edge = true := by simp [intoPort, hinto, htp]
        rw [List.filter_cons_of_pos hyes, List.filter_nil, List.getLast?_concat, htp,
          List.getElem?_set_self (by rw [hlength]; exact hlt)]
        rfl
      · have hno : ¬ intoPort ids step.id port edge = true := by simp [intoPort, htp]
        rw [List.filter_cons_of_neg hno, List.filter_nil, List.append_nil,
          List.getElem?_set_ne htp]
        exact ih
    · have hno : ¬ intoPort ids step.id port edge = true := by
        simp only [intoPort, Bool.and_eq_true, decide_eq_true_eq]
        exact fun h => hinto h.1
      rw [if_neg hinto, List.filter_cons_of_neg hno, List.filter_nil, List.append_nil]
      exact ih

end Evaluator
end SignalBoard
