import SignalBoard.Proofs.Board.Bake
import SignalBoard.Proofs.Circuit.Bounds

/-!
# Composite nodes have a circuit to themselves

Behind a composite node there is an evaluator that belongs to its step and that nothing else gets
at: in every call of the evaluator around it, it is called once, on what has been gathered on the
ports of the node. So what becomes of it can be told from these vectors alone, as for an evaluator
on its own. The same goes for the evaluators inside it, however deep.

```lean
theorem Embeds.after (h : e.Embeds id part inner) … : (e.after sequence).Embeds id part
    (inner.after ((e.record id sequence).map Prod.fst)) ∧ …
```

* `gatheredAt`, `record`: what a node is called on in a call, and what it gives out.
* `Circuit.Plays`: what is given out is what one evaluator of a circuit answers.
* `Circuit.composite?`: the composite nodes of a circuit, whatever it looks like; `embeds_ofCircuit`
  finds the evaluator behind each of them.
* `innerAt?_after`: the evaluators inside those inside an evaluator.
-/

namespace SignalBoard

open Signal

namespace Evaluator

variable {e inner : Evaluator} {id : NodeId} {part : Part} {k : Nat} {step : Step Evaluator}

/-! ## One step in a call -/

/-- A step becomes what it makes of the values that it finds when its turn comes. -/
theorem getElem?_steps_evaluate (hstep : e.steps[k]? = some step) (inputs : List Binary64) :
    (e.evaluate inputs).2.steps[k]?
      = some (step.outcome inputs (gather (e.midway inputs k).outputs step.sources)).2 := by
  obtain ⟨hlt, hget⟩ := List.getElem?_eq_some_iff.mp hstep
  have hsplit : e.steps = e.steps.take k ++ step :: e.steps.drop (k + 1) := by
    rw [← hget, ← List.drop_eq_getElem_cons hlt, List.take_append_drop]
  let start : Progress := ⟨e.outputs, List.replicate e.circuit.outputCount.toNat .zero⟩
  have hrun := runSteps_append inputs (e.steps.take k) (step :: e.steps.drop (k + 1)) 0 start
  rw [← hsplit] at hrun
  -- the steps before it are as many as its place says, so it comes next
  have hbefore : (runSteps inputs (e.steps.take k) 0 start).1.length = k := by
    have hlength := congrArg List.length (runSteps_frame inputs (e.steps.take k) 0 start).1
    rw [List.length_map, List.length_map, List.length_take_of_le (Nat.le_of_lt hlt)] at hlength
    exact hlength
  rw [evaluate_eq]
  show (runSteps inputs e.steps 0 start).1[k]? = _
  rw [hrun, List.getElem?_append_right (by rw [hbefore]), hbefore, Nat.sub_self]
  simp only [runSteps, runStep_eq, List.getElem?_cons_zero]
  rfl

/-- What a step has written stays in its slot for the rest of the call. -/
theorem midway_written {m n : Nat} (h : m < n) (inputs : List Binary64) :
    (e.midway inputs n).outputs[m]? = (e.evaluate inputs).2.outputs[m]? := by
  -- later steps write into later slots
  have hlater : ∀ more, (e.midway inputs n).outputs[m]? = (e.midway inputs (n + more)).outputs[m]? := by
    intro more
    induction more with
    | zero => rfl
    | succ more ih =>
      rw [ih, ← Nat.add_assoc]
      cases hnext : e.steps[n + more]? with
      | some next =>
        rw [midway_succ hnext]
        exact (List.getElem?_set_ne (by omega)).symm
      | none =>
        -- the call is over
        rw [List.getElem?_eq_none_iff] at hnext
        rw [midway_of_length_le hnext, midway_of_length_le (Nat.le_succ_of_le hnext)]
  rw [hlater e.steps.length, midway_of_length_le (by omega)]

/-- The slot of a step holds what the step has made of the values that it found. -/
theorem getElem?_outputs_evaluate (hslots : e.outputs.length = e.steps.length)
    (hstep : e.steps[k]? = some step) (inputs : List Binary64) :
    (e.evaluate inputs).2.outputs[k]?
      = some (step.outcome inputs (gather (e.midway inputs k).outputs step.sources)).1 := by
  have hlt : k < (e.midway inputs k).outputs.length := by
    rw [(midway_lengths e inputs k).1, hslots]
    exact (List.getElem?_eq_some_iff.mp hstep).1
  rw [← midway_written (Nat.lt_succ_self k), midway_succ hstep]
  exact List.getElem?_set_self hlt

theorem indexOf?_evaluate (e : Evaluator) (inputs : List Binary64) (id : NodeId) :
    indexOf? (e.evaluate inputs).2.steps id = indexOf? e.steps id := by
  rw [indexOf?_eq, indexOf?_eq, evaluate_eq]
  exact congrArg (List.findIdx? (· = id)) (runSteps_frame inputs e.steps 0 _).1

/-- After a call there is still a slot for every step. -/
theorem slots_evaluate (hslots : e.outputs.length = e.steps.length) (inputs : List Binary64) :
    (e.evaluate inputs).2.outputs.length = (e.evaluate inputs).2.steps.length := by
  have hlength := (midway_lengths e inputs e.steps.length).1
  rw [midway_of_length_le le_rfl] at hlength
  rw [length_steps_evaluate]
  exact hlength.trans hslots

/-! ## The evaluator behind a node -/

/-- What the node with an id is called on in a call: the values on its ports when its turn comes. -/
def gatheredAt (e : Evaluator) (id : NodeId) (inputs : List Binary64) : List Binary64 :=
  match indexOf? e.steps id with
  | some k => gather (e.midway inputs k).outputs ((e.steps[k]?.map (·.sources)).getD [])
  | none => []

/-- What a node is called on and gives out, call by call. -/
def record (e : Evaluator) (id : NodeId) :
    List (List Binary64) → List (List Binary64 × List Binary64)
  | [] => []
  | inputs :: rest =>
    (e.gatheredAt id inputs, (e.evaluate inputs).2.portsOf id)
      :: (e.evaluate inputs).2.record id rest

/-- Behind the node with an id there is an evaluator, and the node has the ports of its part. -/
def Embeds (e : Evaluator) (id : NodeId) (part : Part) (inner : Evaluator) : Prop :=
  ∃ k step, indexOf? e.steps id = some k ∧ e.steps[k]? = some step ∧
    step.action = .nested part inner ∧ step.sources.length = part.inputCount.toNat

namespace Embeds

/-- What the node keeps is the evaluator behind it. -/
theorem holdingOf (h : e.Embeds id part inner) : e.holdingOf id = .inner inner := by
  obtain ⟨k, step, hplace, hstep, haction, -⟩ := h
  obtain ⟨hlt, hid, hfirst⟩ := List.findIdx?_eq_some_iff_getElem.mp hplace
  obtain ⟨hlt', hget⟩ := List.getElem?_eq_some_iff.mp hstep
  have hfind : e.steps.find? (·.id = id) = some step := by
    rw [List.find?_eq_some_iff_getElem]
    refine ⟨hget ▸ hid, k, hlt, hget, fun j hj => ?_⟩
    simpa using hfirst j hj
  rw [Evaluator.holdingOf, hfind]
  simp only [Step.holding, haction]

/-- The node is called on a value for each of its ports. -/
theorem length_gatheredAt (h : e.Embeds id part inner) (inputs : List Binary64) :
    (e.gatheredAt id inputs).length = part.inputCount.toNat := by
  obtain ⟨k, step, hplace, hstep, -, hsources⟩ := h
  rw [gatheredAt, hplace]
  simp only [hstep, Option.map_some, Option.getD_some]
  rw [gather, List.length_map, hsources]

/-- **A call of an evaluator is one call of the evaluator behind a node**, on what has been gathered
on the ports of the node. -/
theorem evaluate (h : e.Embeds id part inner) (inputs : List Binary64) :
    (e.evaluate inputs).2.Embeds id part (inner.evaluate (e.gatheredAt id inputs)).2 := by
  obtain ⟨k, step, hplace, hstep, haction, hsources⟩ := h
  obtain ⟨id', action, sources, memory⟩ := step
  obtain rfl : action = _ := haction
  refine ⟨k, _, (indexOf?_evaluate e inputs id).trans hplace, getElem?_steps_evaluate hstep inputs,
    ?_, hsources⟩
  rw [gatheredAt, hplace]
  simp only [hstep, Option.map_some, Option.getD_some]
  rfl

/-- What the node gives out is what the evaluator behind it answers, as far as its ports go. -/
theorem portsOf_evaluate (h : e.Embeds id part inner) (hslots : e.outputs.length = e.steps.length)
    (inputs : List Binary64) : (e.evaluate inputs).2.portsOf id
      = fit part.outputCount.toNat ((inner.evaluate (e.gatheredAt id inputs)).1.map clamp) := by
  obtain ⟨k, step, hplace, hstep, haction, hsources⟩ := h
  obtain ⟨id', action, sources, memory⟩ := step
  obtain rfl : action = _ := haction
  rw [portsOf, indexOf?_evaluate, gatheredAt, hplace]
  simp only [List.getD_eq_getElem?_getD, getElem?_outputs_evaluate hslots hstep inputs, hstep,
    Option.map_some, Option.getD_some]
  rfl

/-- **An evaluator behind a node goes its own way**: after any calls it is where calls on what has
been gathered for it have brought it, and the node has given out its answers. -/
theorem after (h : e.Embeds id part inner) (hslots : e.outputs.length = e.steps.length)
    (sequence : List (List Binary64)) :
    let gathered := (e.record id sequence).map Prod.fst
    (e.after sequence).Embeds id part (inner.after gathered) ∧
      (e.record id sequence).map Prod.snd
        = (inner.answers gathered).map fun outputs =>
            fit part.outputCount.toNat (outputs.map clamp) := by
  induction sequence generalizing e inner with
  | nil => exact ⟨h, rfl⟩
  | cons inputs rest ih =>
    -- the rest of the calls goes to the evaluators as the first call has left them
    obtain ⟨hrest, hgiven⟩ := ih (h.evaluate inputs) (slots_evaluate hslots inputs)
    refine ⟨hrest, ?_⟩
    simp only [record, List.map_cons, answers]
    rw [h.portsOf_evaluate hslots, hgiven]

theorem length_record (h : e.Embeds id part inner) (sequence : List (List Binary64)) :
    ∀ v ∈ (e.record id sequence).map Prod.fst, v.length = part.inputCount.toNat := by
  induction sequence generalizing e inner with
  | nil => exact fun v hv => absurd hv List.not_mem_nil
  | cons inputs rest ih =>
    intro v hv
    rcases List.mem_cons.mp hv with rfl | hv
    · exact h.length_gatheredAt inputs
    · exact ih (h.evaluate inputs) v hv

end Embeds
end Evaluator

/-! ## The composite nodes of a circuit -/

open Evaluator

namespace Circuit

/-- What has been given out on some calls, cut to a number of ports or filled up with zeros, is what
one evaluator of a circuit answers to them. -/
def Plays (c : Circuit) (count : Nat) (log : List (List Binary64 × List Binary64)) : Prop :=
  log.map Prod.snd = ((ofCircuit c).answers (log.map Prod.fst)).map fun outputs =>
    fit count (outputs.map clamp)

instance (c : Circuit) (count : Nat) (log : List (List Binary64 × List Binary64)) :
    Decidable (c.Plays count log) :=
  inferInstanceAs (Decidable (_ = _))

/-- The part for an id and the circuit behind it, if the id stands for a composite node. -/
def composite? (c : Circuit) (id : NodeId) : Option (Part × Circuit) :=
  if id ∈ c.order ∧ ¬ id.isConnectionPoint then
    (c.parts.reverse.find? (·.id = id)).bind fun part =>
      if part.kind.isComposite then part.nested.map fun d => (part, d) else none
  else none

/-- The circuit behind a composite node of the circuit behind a composite node, and so on. -/
def at? (c : Circuit) : List NodeId → Option Circuit
  | [] => some c
  | id :: path => (c.composite? id).bind fun (_, d) => d.at? path

end Circuit

namespace Evaluator

variable {c d : Circuit} {id : NodeId} {part : Part}

/-- A newly built evaluator has a slot for every step. -/
theorem slots_ofCircuit (c : Circuit) : (ofCircuit c).outputs.length = (ofCircuit c).steps.length := by
  rw [ofCircuit_eq]
  exact List.length_map _

/-- What a composite node of a circuit is: in the order, ordinary, and the last part with its id. -/
theorem exists_of_composite? (h : c.composite? id = some (part, d)) :
    id ∈ c.order ∧ ¬ id.isConnectionPoint ∧ c.parts.reverse.find? (·.id = id) = some part ∧
      part.kind.isComposite = true ∧ part.nested = some d := by
  unfold Circuit.composite? at h
  split at h
  · next hid =>
    obtain ⟨part', hfound, hpart⟩ := Option.bind_eq_some_iff.mp h
    split at hpart
    · next hcomposite =>
      obtain ⟨d', hnested, heq⟩ := Option.map_eq_some_iff.mp hpart
      obtain ⟨rfl, rfl⟩ := Prod.mk.inj heq
      exact ⟨hid.1, hid.2, hfound, hcomposite, hnested⟩
    · cases hpart
  · cases h

/-- What is planned stands where its id is looked up, with the edges of the circuit attached to it:
there is no other step with the id. -/
theorem exists_place {step : Step Evaluator} (h : step ∈ planned c) :
    ∃ k, indexOf? (ofCircuit c).steps step.id = some k ∧ (ofCircuit c).steps[k]?
      = some (c.edges.foldl (Step.attach ((planned c).map (·.id))) step) := by
  have hmem : c.edges.foldl (Step.attach ((planned c).map (·.id))) step ∈ (ofCircuit c).steps := by
    rw [steps_eq_map_planned]
    exact List.mem_map_of_mem h
  have hthere : step.id ∈ (planned c).map (·.id) := List.mem_map_of_mem h
  obtain ⟨found, hget, hfound⟩ := exists_step (ids_ofCircuit c) hthere
  have hnodup : ((ofCircuit c).steps.map (·.id)).Nodup := by
    rw [ids_ofCircuit]
    exact nodup_planned c
  obtain ⟨hid, -⟩ := foldl_attach_frame ((planned c).map (·.id)) c.edges step
  -- two steps of one evaluator with the same id are the same
  have hsame := List.inj_on_of_nodup_map hnodup (List.mem_of_getElem? hget) hmem
    (hfound.trans hid.symm)
  rw [hsame] at hget
  exact ⟨_, indexOf?_of_mem (ids_ofCircuit c) hthere, hget⟩

/-- **Behind each composite node of a circuit there is an evaluator of its own**, newly built from
the circuit behind the node. -/
theorem embeds_ofCircuit (h : c.composite? id = some (part, d)) :
    (ofCircuit c).Embeds id part (ofCircuit d) := by
  obtain ⟨horder, hordinary, hfound, hcomposite, hnested⟩ := exists_of_composite? h
  have hplan : planStep? (layOut c.parts) id = some (stepOf part) := by
    rw [planStep?_ordinary (NodeId.connectionPoint?_eq_none hordinary), hfound, Option.map_some]
  have hplanned : stepOf part ∈ planned c :=
    List.mem_filterMap.mpr ⟨id, mem_distinct.mpr horder, hplan⟩
  obtain ⟨k, hplace, hget⟩ := exists_place hplanned
  obtain ⟨-, haction, -, hlength⟩ :=
    foldl_attach_frame ((planned c).map (·.id)) c.edges (stepOf part)
  rw [planStep?_id hplan] at hplace
  refine ⟨k, _, hplace, hget, ?_, ?_⟩
  · rw [haction, stepOf, innerOf, if_pos hcomposite, hnested]
    rfl
  · rw [hlength]
    exact List.length_replicate

/-! ## Evaluators inside those inside an evaluator -/

/-- The evaluator behind a node of the evaluator behind a node, and so on. -/
def innerAt? (e : Evaluator) : List NodeId → Option Evaluator
  | [] => some e
  | id :: path =>
    match e.holdingOf id with
    | .inner inner => inner.innerAt? path
    | .memory _ => none

/-- What an evaluator inside another one is called on while that one is called. -/
def gatheredAlong (e : Evaluator) : List NodeId → List (List Binary64) → List (List Binary64)
  | [], sequence => sequence
  | id :: path, sequence =>
    match e.holdingOf id with
    | .inner inner => inner.gatheredAlong path ((e.record id sequence).map Prod.fst)
    | .memory _ => []

/-- **However deep it is, an evaluator goes its own way**, on what has been gathered for it at the
nodes on the way there. -/
theorem innerAt?_after {path : List NodeId} (h : c.at? path = some d)
    (sequence : List (List Binary64)) : ((ofCircuit c).after sequence).innerAt? path
      = some ((ofCircuit d).after ((ofCircuit c).gatheredAlong path sequence)) := by
  induction path generalizing c sequence with
  | nil =>
    obtain rfl : c = d := Option.some.inj h
    rfl
  | cons id path ih =>
    obtain ⟨⟨part, next⟩, hcomposite, hpath⟩ := Option.bind_eq_some_iff.mp h
    have hembeds := embeds_ofCircuit hcomposite
    -- one level down, on what is gathered at the first node of the path
    have hafter := (hembeds.after (slots_ofCircuit c) sequence).1
    rw [innerAt?, hafter.holdingOf, gatheredAlong, hembeds.holdingOf]
    exact ih hpath _

end Evaluator

/-! ## The composite nodes of a board -/

namespace Board

variable {board : Board} {ports : PortCounts} {library : Library} {analysis : Analysis}

/-- A composite node of a board is one of the circuit that the board bakes to, if its id is an
ordinary one and no node after it says that it has the same id. -/
theorem composite?_circuitOf (h : board.analyse ports = .ok analysis) {id : NodeId} {node : Node}
    {c : Circuit} (hnode : board.nodes.get? id = some node)
    (hcircuit : node.resolved? library = some c) (hordinary : ¬ id.isConnectionPoint)
    (hlast : (board.nodes.values.filter (·.id = id)).getLast? = some node) :
    (board.circuitOf library analysis ports).composite? id
      = some (Part.resolve library node, c) := by
  have horder : id ∈ analysis.order := (mem_order h).mpr (NodeMap.mem_ids_of_get? hnode hordinary)
  obtain ⟨hcomposite, hfound⟩ : node.kind.isComposite = true ∧
      library.get? node.kind.text = some c := by
    unfold Node.resolved? at hcircuit
    split at hcircuit
    · next hcomposite => exact ⟨hcomposite, hcircuit⟩
    · cases hcircuit
  have hnested : (Part.resolve library node).nested = some c := by
    rw [Part.resolve, if_pos hcomposite]
    exact hfound
  -- a node with the id is an ordinary one, so it has a part
  have hsame : ∀ other : Node, ((!other.id.isConnectionPoint) = true ∧ decide (other.id = id) = true)
      ↔ other.id = id := by
    intro other
    rw [decide_eq_true_eq]
    exact and_iff_right_of_imp fun hid => by simpa [hid] using hordinary
  have hpart : (board.circuitOf library analysis ports).parts.reverse.find? (·.id = id)
      = some (Part.resolve library node) := by
    rw [List.getLast?_filter] at hlast
    rw [circuitOf, ← List.map_reverse, ← List.filter_reverse, List.find?_map, List.find?_filter]
    simp only [Function.comp_apply, id_resolve, hsame]
    rw [hlast, Option.map_some]
  rw [Circuit.composite?, if_pos ⟨horder, hordinary⟩, hpart, Option.bind_some,
    (resolve_ports library node).1, if_pos hcomposite, hnested, Option.map_some]

end Board
end SignalBoard
