import SignalBoard.Proofs.Circuit.Plan
import SignalBoard.Proofs.Node.Id

/-!
# Well-formed circuits lose nothing

A circuit is well formed if its order holds its outside ports and the ids of its parts, each once,
and every edge leads forward in it. Building an evaluator never fails, but what it cannot use it
leaves out. Of a well-formed circuit it uses everything but the edges into ports that do not exist:

```lean
theorem Circuit.WellFormed.complete (h : c.WellFormed) : Complete c
```

* `WellFormed.exists_planStep`: every id of the order has a step, with as many input ports as the
  circuit says.
* `WellFormed.sourceOf?_foldl_connect`: what the ports read once some of the edges have been worked
  in, whichever these are.
-/

namespace SignalBoard

namespace Circuit

/-- How many input ports the step of an id has. -/
def inputPorts (c : Circuit) (id : NodeId) : Nat :=
  match id.connectionPoint? with
  | some (.input _) => 0
  | some (.output _) => 1
  | none => ((c.part? id).map fun part => part.inputCount.toNat).getD 0

/-- The order of a circuit, its outside ports, its parts and its edges fit together. -/
structure WellFormed (c : Circuit) : Prop where
  nodup : c.order.Nodup
  /-- The order consists of the outside inputs, the outside outputs and the ids of the parts. -/
  mem_order : ∀ id, id ∈ c.order ↔
    (∃ n < c.inputCount, id = .input n) ∨ (∃ n < c.outputCount, id = .output n) ∨
      id ∈ c.parts.map (·.id)
  nodup_parts : (c.parts.map (·.id)).Nodup
  /-- No part is taken for an outside port. -/
  ordinary : ∀ part ∈ c.parts, part.id.connectionPoint? = none
  /-- Every edge leads from an id of the order to a later one. -/
  forward : ∀ edge ∈ c.edges, edge.source ∈ c.order ∧ edge.target ∈ c.order ∧
    c.order.idxOf edge.source < c.order.idxOf edge.target

end Circuit

namespace Evaluator

/-- What an input port reads: the place of a step and one of its output ports, or nothing. There may
be no such port at all. -/
def sourceOf? (steps : List (Step Evaluator)) (id : NodeId) (port : Nat) :
    Option (Option (Nat × UInt64)) :=
  (steps.find? (·.id = id)).bind fun step => step.sources[port]?

/-- Whether an edge leads into a port. -/
def leadsInto (id : NodeId) (port : Nat) (edge : Edge) : Bool :=
  edge.target = id && edge.targetPort.toNat = port

/-- What the port at the end of an edge reads if it reads the edge. -/
def sourceVia (c : Circuit) (edge : Edge) : Nat × UInt64 :=
  (c.order.idxOf edge.source, edge.sourcePort)

/-- All of a circuit that can be used is used when its evaluator is built. -/
structure Complete (c : Circuit) : Prop where
  /-- No id is left out. -/
  processingOrder : (ofCircuit c).processingOrder = c.order
  /-- Every edge sets the port that it leads into when it is worked in, if there is such a port, and
  else changes nothing. -/
  taken : ∀ before edge after, c.edges = before ++ edge :: after →
    if edge.targetPort.toNat < c.inputPorts edge.target then
      sourceOf? (connect (before.foldl connect (planned c)) edge) edge.target edge.targetPort.toNat
        = some (some (sourceVia c edge))
    else connect (before.foldl connect (planned c)) edge = before.foldl connect (planned c)
  /-- In the end every port reads the last edge into it. -/
  sources : ∀ id ∈ c.order, ∀ port, sourceOf? (ofCircuit c).steps id port =
    if port < c.inputPorts id then
      some ((c.edges.filter (leadsInto id port)).getLast?.map (sourceVia c))
    else none

/-- Changing steps but not their ids changes what is found at an id by just this. -/
theorem sourceOf?_map {f : Step Evaluator → Step Evaluator} (hf : ∀ step, (f step).id = step.id)
    (steps : List (Step Evaluator)) (id : NodeId) (port : Nat) :
    sourceOf? (steps.map f) id port
      = (steps.find? (·.id = id)).bind fun step => (f step).sources[port]? := by
  have hsame : ((fun step => decide (step.id = id)) ∘ f) = fun step => decide (step.id = id) := by
    funext step
    rw [Function.comp_apply, hf]
  rw [sourceOf?, List.find?_map, hsame, Option.bind_map]
  rfl

end Evaluator

namespace Circuit.WellFormed

open Evaluator

variable {c : Circuit} {id : NodeId}

/-! ## Steps -/

theorem part?_eq (h : c.WellFormed) {part : Part} (hpart : part ∈ c.parts) :
    c.part? part.id = some part :=
  find?_of_nodup_map h.nodup_parts hpart

/-- The step of an id of the order. None of its ports reads anything yet. -/
theorem exists_planStep (h : c.WellFormed) (hid : id ∈ c.order) :
    ∃ step, planStep? (layOut c.parts) id = some step ∧ step.id = id ∧
      step.sources = List.replicate (c.inputPorts id) none := by
  unfold Circuit.inputPorts
  -- an outside input, an outside output or a part: the order holds nothing else
  rcases (h.mem_order id).mp hid with ⟨n, -, rfl⟩ | ⟨n, -, rfl⟩ | hpart
  · refine ⟨⟨.input n, .input n, [], .stateless⟩, ?_, rfl, ?_⟩
    · rw [planStep?, NodeId.connectionPoint?_input]
    · rw [NodeId.connectionPoint?_input]
      rfl
  · refine ⟨⟨.output n, .output n, [none], .stateless⟩, ?_, rfl, ?_⟩
    · rw [planStep?, NodeId.connectionPoint?_output]
    · rw [NodeId.connectionPoint?_output]
      rfl
  · obtain ⟨part, hmem, rfl⟩ := List.mem_map.mp hpart
    have hordinary := h.ordinary part hmem
    refine ⟨stepOf part, planStep?_of_mem h.nodup_parts hmem hordinary, rfl, ?_⟩
    rw [hordinary, h.part?_eq hmem]
    rfl

/-- Every id of the order gets a step, and no other step is planned. -/
theorem ids_planned (h : c.WellFormed) : (planned c).map (·.id) = c.order := by
  rw [planned, distinct_of_nodup h.nodup]
  refine map_id_filterMap fun id hid => ?_
  obtain ⟨step, hstep, hsame, -⟩ := h.exists_planStep hid
  exact ⟨step, hstep, hsame⟩

/-- A planned step has the input ports that the circuit says, and none of them reads anything. -/
theorem sources_planned (h : c.WellFormed) {start : Step Evaluator} (hstart : start ∈ planned c) :
    start.sources = List.replicate (c.inputPorts start.id) none := by
  have hid : start.id ∈ c.order := h.ids_planned ▸ List.mem_map.mpr ⟨start, hstart, rfl⟩
  obtain ⟨step, hstep, -, hsources⟩ := h.exists_planStep hid
  obtain rfl : step = start := Option.some.inj (hstep.symm.trans (mem_planned hstart))
  exact hsources

/-! ## Edges -/

/-- The steps once some edges have been worked in. -/
theorem foldl_connect_planned (h : c.WellFormed) (edges : List Edge) :
    edges.foldl connect (planned c)
      = (planned c).map fun start => edges.foldl (Step.attach c.order) start := by
  rw [foldl_connect edges (nodup_planned c), h.ids_planned]

/-- **What the ports read** once some edges between ids of the order have been worked in. -/
theorem sourceOf?_foldl_connect (h : c.WellFormed) {edges : List Edge}
    (hedges : ∀ edge ∈ edges, edge.source ∈ c.order) (hid : id ∈ c.order) (port : Nat) :
    sourceOf? (edges.foldl connect (planned c)) id port =
      if port < c.inputPorts id then
        some ((edges.filter (leadsInto id port)).getLast?.map (sourceVia c))
      else none := by
  obtain ⟨start, hstart, rfl⟩ := List.mem_map.mp (h.ids_planned.symm ▸ hid)
  have hsources := h.sources_planned hstart
  rw [h.foldl_connect_planned,
    sourceOf?_map (fun step => (foldl_attach_frame c.order edges step).1),
    find?_of_nodup_map (nodup_planned c) hstart, Option.bind_some]
  split
  · next hport =>
    have hfree : start.sources[port]? = some none := by
      rw [hsources, List.getElem?_replicate, if_pos hport]
    -- all the edges come from ids of the order, so it is enough to look where they lead
    have hfilter : edges.filter (intoPort c.order start.id port)
        = edges.filter (leadsInto start.id port) := by
      refine List.filter_congr fun edge hedge => ?_
      simp [intoPort, leadsInto, hedges edge hedge]
    rw [sources_foldl_attach c.order edges start hfree, hfilter]
    rfl
  · next hport =>
    -- a step has the ports that it was planned with, and no edge gives it another one
    have hlength := (foldl_attach_frame c.order edges start).2.2.2
    rw [List.getElem?_eq_none]
    rw [hlength, hsources, List.length_replicate]
    omega

/-- An edge into a port that does not exist changes nothing. -/
theorem connect_eq_self (h : c.WellFormed) (edges : List Edge) {edge : Edge}
    (hport : ¬ edge.targetPort.toNat < c.inputPorts edge.target) :
    connect (edges.foldl connect (planned c)) edge = edges.foldl connect (planned c) := by
  have hids : (edges.foldl connect (planned c)).map (·.id) = c.order := by
    rw [h.foldl_connect_planned, List.map_map, ← h.ids_planned]
    exact List.map_congr_left fun step _ => (foldl_attach_frame _ edges step).1
  have hsame : ∀ step ∈ edges.foldl connect (planned c), step.attach c.order edge = step := by
    intro step hstep
    rw [h.foldl_connect_planned] at hstep
    obtain ⟨start, hstart, rfl⟩ := List.mem_map.mp hstep
    obtain ⟨hid, -, -, hlength⟩ := foldl_attach_frame c.order edges start
    apply Step.attach_eq_self
    intro htarget
    rw [hlength, h.sources_planned hstart, List.length_replicate, ← hid, ← htarget]
    exact Nat.le_of_not_lt hport
  rw [connect_eq_map (by rw [hids]; exact h.nodup), hids]
  exact (List.map_congr_left hsame).trans (List.map_id _)

/-- **A well-formed circuit loses nothing** but the edges into ports that do not exist. -/
theorem complete (h : c.WellFormed) : Complete c := by
  refine ⟨?_, fun before edge after hsplit => ?_, fun id hid port => ?_⟩
  · -- the ids, then each edge at its turn, then all edges together
    rw [processingOrder, ids_ofCircuit, h.ids_planned]
  · split
    · next hport =>
      have hmem : edge ∈ c.edges := by rw [hsplit]; simp
      have hedges : ∀ other ∈ before ++ [edge], other.source ∈ c.order := by
        intro other hother
        have hall : other ∈ c.edges := by
          rw [hsplit, ← List.singleton_append, ← List.append_assoc]
          exact List.mem_append_left after hother
        exact (h.forward other hall).1
      have hconcat : connect (before.foldl connect (planned c)) edge
          = (before ++ [edge]).foldl connect (planned c) := by
        rw [List.foldl_append]
        rfl
      -- of the edges so far this is the last one
      rw [hconcat, h.sourceOf?_foldl_connect hedges (h.forward edge hmem).2.1, if_pos hport,
        List.filter_append]
      simp [leadsInto]
    · next hport => exact h.connect_eq_self before hport
  · rw [steps_eq_foldl_connect]
    exact h.sourceOf?_foldl_connect (fun edge hedge => (h.forward edge hedge).1) hid port

end Circuit.WellFormed
end SignalBoard
