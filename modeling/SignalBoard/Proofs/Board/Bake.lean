import SignalBoard.Proofs.Board.Layout

/-!
# Baking is correct

A baked board does in every cycle what the dataflow equations of the board say:

```lean
theorem bake_cycles (hkeyed : board.nodes.KeyedById) (hacyclic : (board.digraph ports).Acyclic) :
    ∃ circuit, board.bake ports library = .ok circuit ∧ … ∧
      ∀ past inputs, board.Cycle ports inputs …
```

It is put together from three layers. The layout of a baked board (`laidOut_ofCircuit`) says where
each step reads; the equations of a call (`evaluate_outputs`, `evaluate_results`) say what the slots
hold afterwards; and `gather_slots` turns slots into ids.

* `LaidOut.cycle`: one call of an evaluator that is laid out for a board is one cycle of the board.
* `exists_laidOut`: a board without loops bakes, and stays laid out after any calls.
* `RunBy.agree`: where two boards read alike, their runs agree.
-/

namespace SignalBoard

open Signal

namespace Evaluator

/-- An evaluator after calls on a sequence of inputs. -/
def after (e : Evaluator) (past : List (List Binary64)) : Evaluator :=
  past.foldl (fun e inputs => (e.evaluate inputs).2) e

/-- The outside outputs of calls on a sequence of inputs. -/
def answers (e : Evaluator) : List (List Binary64) → List (List Binary64)
  | [] => []
  | inputs :: rest => (e.evaluate inputs).1 :: (e.evaluate inputs).2.answers rest

variable {e e' : Evaluator}

theorem after_concat (e : Evaluator) (past : List (List Binary64)) (inputs : List Binary64) :
    e.after (past ++ [inputs]) = ((e.after past).evaluate inputs).2 := by
  rw [after, List.foldl_append]
  rfl

/-- Evaluators that answer alike after the same calls give the same answers. -/
theorem answers_eq
    (h : ∀ past inputs, ((e.after past).evaluate inputs).1 = ((e'.after past).evaluate inputs).1)
    (sequence : List (List Binary64)) : e.answers sequence = e'.answers sequence := by
  induction sequence generalizing e e' with
  | nil => rfl
  | cons inputs rest ih =>
    rw [answers, answers, ih fun past later => h (inputs :: past) later]
    exact congrArg (· :: _) (h [] inputs)

end Evaluator

open Evaluator

namespace Board

variable {board : Board} {ports : PortCounts} {library : Library} {order : List NodeId}
  {e : Evaluator}

/-! ## Slots and ids -/

/-- What a step reads from the slots is what its id reads from the ids. -/
theorem gather_slots (hids : e.steps.map (·.id) = order)
    (hmem : ∀ id, id ∈ order ↔ id ∈ board.nodes.ids ports) (id : NodeId) (count : Nat) :
    gather e.outputs ((List.range count).map fun port =>
        (board.feed? ports id port).map fun wire =>
          (order.idxOf wire.source.node, wire.source.port))
      = board.gathered ports e.portsOf id count := by
  rw [gather, gathered, List.map_map]
  refine List.map_congr_left fun port _ => ?_
  rw [Function.comp_apply]
  -- a port without a wire reads zero on either side
  cases hwire : board.feed? ports id port with
  | none => rw [portIn_of_feed?_none hwire]; rfl
  | some wire =>
    have hsource := (hmem wire.source.node).mpr (mem_of_feed? hwire).2.1
    rw [portIn_of_feed? hwire, portsOf_of_mem hids hsource]
    rfl

/-! ## Outside outputs -/

/-- A step that publishes another outside output leaves this one alone. -/
theorem getElem?_foldl_publish {G : Step Evaluator → List Binary64} {n : Nat}
    {steps : List (Step Evaluator)} {results : List Binary64}
    (h : ∀ step ∈ steps, ∀ m, step.action = .output m → m.toNat ≠ n) :
    (steps.foldl (fun results step => step.publish (G step) results) results)[n]? = results[n]? := by
  induction steps generalizing results with
  | nil => rfl
  | cons step rest ih =>
    rw [List.foldl_cons, ih fun later hlater => h later (List.mem_cons_of_mem _ hlater),
      Step.publish]
    split
    · next m hm => rw [List.getElem?_set_ne (h step List.mem_cons_self m hm)]
    · rfl

theorem length_foldl_publish {G : Step Evaluator → List Binary64} {steps : List (Step Evaluator)}
    {results : List Binary64} :
    (steps.foldl (fun results step => step.publish (G step) results) results).length
      = results.length := by
  induction steps generalizing results with
  | nil => rfl
  | cons step rest ih => rw [List.foldl_cons, ih, Step.length_publish]

namespace LaidOut

/-- Among the ids that take part, an outside output is published by its own id alone. -/
theorem id_of_output (h : board.LaidOut ports library order e)
    (hmem : ∀ id, id ∈ order ↔ id ∈ board.nodes.ids ports) {step : Step Evaluator}
    (hstep : step ∈ e.steps) {n : UInt64} (haction : step.action = .output n) :
    step.id = .output n := by
  have hid : step.id ∈ board.nodes.ids ports :=
    (hmem _).mp (h.ids ▸ List.mem_map.mpr ⟨step, hstep, rfl⟩)
  have hperforms := h.performs step hstep
  rw [Performs, haction] at hperforms
  -- the step of an input does something else, and so does that of an ordinary id
  rcases NodeMap.mem_ids.mp hid with ⟨m, -, heq⟩ | ⟨-, hordinary⟩ | ⟨m, -, heq⟩
  · rw [heq, NodeId.connectionPoint?_input] at hperforms
    cases hperforms
  · rw [NodeId.connectionPoint?_eq_none hordinary] at hperforms
    obtain ⟨node, _, hfalse | ⟨inner, hfalse⟩⟩ := hperforms <;> cases hfalse
  · rw [heq, NodeId.connectionPoint?_output] at hperforms
    cases hperforms
    exact heq

/-- What has been published of an outside output is what its step has read. -/
theorem getElem?_results (h : board.LaidOut ports library order e) (hn : order.Nodup)
    (hmem : ∀ id, id ∈ order ↔ id ∈ board.nodes.ids ports) (hordered : e.Ordered)
    (inputs : List Binary64) {n : UInt64} (hlt : n < ports.outputs) :
    (e.evaluate inputs).1[n.toNat]?
      = some (board.portIn ports (e.evaluate inputs).2.portsOf (.output n) 0) := by
  have hout : NodeId.output n ∈ order := (hmem _).mpr (NodeMap.output_mem_ids.mpr hlt)
  obtain ⟨step, hget, hid⟩ := exists_step h.ids hout
  have hstep := List.mem_of_getElem? hget
  obtain ⟨before, rest, hsplit⟩ := List.append_of_mem hstep
  -- no later step has the same id, so none publishes the same output
  have hrest : ∀ later ∈ rest, ∀ m, later.action = .output m → m.toNat ≠ n.toNat := by
    intro later hlater m hm heq
    have hlaterid := h.id_of_output hmem (by rw [hsplit]; simp [hlater]) hm
    obtain rfl : m = n := UInt64.toNat_inj.mp heq
    rw [← h.ids, hsplit, List.map_append, List.map_cons] at hn
    have htail := (List.nodup_cons.mp hn.of_append_right).1
    exact htail (List.mem_map.mpr ⟨later, hlater, hlaterid.trans hid.symm⟩)
  have hperforms := h.performs step hstep
  rw [Performs, hid, NodeId.connectionPoint?_output] at hperforms
  have hids := (h.evaluate hordered inputs).ids
  -- the results are published step by step, so what the step of the output publishes is what is
  -- left at the end
  rw [evaluate_results hordered, h.outputCount, hsplit, List.foldl_append, List.foldl_cons,
    getElem?_foldl_publish hrest, Step.publish]
  simp only [hperforms]
  rw [List.getElem?_set_self]
  · rw [h.sources step hstep, hid, gather_slots hids hmem, portCount_output]
    rfl
  · rw [length_foldl_publish, List.length_replicate]
    exact UInt64.lt_iff_toNat_lt.mp hlt

/-- A call gives a value for each outside output. -/
theorem length_results (h : board.LaidOut ports library order e) (hordered : e.Ordered)
    (inputs : List Binary64) : (e.evaluate inputs).1.length = ports.outputs.toNat := by
  rw [evaluate_results hordered, length_foldl_publish, List.length_replicate, h.outputCount]

/-! ## Cycles -/

/-- After a call the output ports of an id are what its step has made of what the id reads. -/
theorem portsOf_evaluate (h : board.LaidOut ports library order e)
    (hmem : ∀ id, id ∈ order ↔ id ∈ board.nodes.ids ports) (hordered : e.Ordered)
    (inputs : List Binary64) {id : NodeId} (hid : id ∈ order) :
    ∃ step ∈ e.steps, step.id = id ∧
      (e.evaluate inputs).2.portsOf id = (step.outcome inputs
        (board.gathered ports (e.evaluate inputs).2.portsOf id (board.portCount id))).1 ∧
      (step.outcome inputs
        (board.gathered ports (e.evaluate inputs).2.portsOf id (board.portCount id))).2
          ∈ (e.evaluate inputs).2.steps := by
  obtain ⟨step, hget, hsame⟩ := exists_step h.ids hid
  have hstep := List.mem_of_getElem? hget
  have hids := (h.evaluate hordered inputs).ids
  have hgathered : gather (e.evaluate inputs).2.outputs step.sources
      = board.gathered ports (e.evaluate inputs).2.portsOf id (board.portCount id) := by
    rw [h.sources step hstep, gather_slots hids hmem, hsame]
  refine ⟨step, hstep, hsame, ?_, ?_⟩
  · rw [portsOf_of_mem hids hid, List.getD_eq_getElem?_getD, evaluate_outputs hordered inputs hget,
      Option.getD_some, hgathered]
  · rw [evaluate_steps hordered, ← hgathered]
    exact List.mem_map.mpr ⟨step, hstep, rfl⟩

/-- **One call is one cycle** of the board that an evaluator is laid out for. -/
theorem cycle (h : board.LaidOut ports library order e) (hn : order.Nodup)
    (hforward : (board.digraph ports).Forward order)
    (hmem : ∀ id, id ∈ order ↔ id ∈ board.nodes.ids ports) (inputs : List Binary64) :
    board.Cycle ports inputs e.holdingOf (e.evaluate inputs).2.portsOf
      (e.evaluate inputs).2.holdingOf (e.evaluate inputs).1 := by
  have hordered := h.ordered hn hforward
  have hafter := h.evaluate hordered inputs
  -- one equation for each sort of id, and one for the outside outputs
  refine ⟨fun n hlt => ?_, fun id node hnode hordinary => ?_, fun n hlt => ?_, ?_⟩
  · obtain ⟨step, hstep, hid, hports, -⟩ := h.portsOf_evaluate hmem hordered inputs
      ((hmem _).mpr (NodeMap.input_mem_ids.mpr hlt))
    have hperforms := h.performs step hstep
    rw [Performs, hid, NodeId.connectionPoint?_input] at hperforms
    obtain ⟨id, action, sources, memory⟩ := step
    obtain rfl : action = .input n := hperforms
    rw [hports]
    rfl
  · obtain ⟨step, hstep, hid, hports, hkept⟩ := h.portsOf_evaluate hmem hordered inputs
      ((hmem _).mpr (NodeMap.mem_ids_of_get? hnode hordinary))
    rw [portCount_node hordinary hnode] at hports hkept
    -- what the node keeps is found under its id, before the call and after it
    have hafterholding := holdingOf_of_mem (by rw [hafter.ids]; exact hn) hkept
    have hbefore := holdingOf_of_mem (by rw [h.ids]; exact hn) hstep
    rw [Step.outcome_id, hid] at hafterholding
    rw [hid] at hbefore
    rw [hports, hafterholding, hbefore]
    exact outcome_node (h.performs step hstep) (by rw [hid]; exact hordinary)
      (by rw [hid]; exact hnode) _ _
  · obtain ⟨step, hstep, hid, hports, -⟩ := h.portsOf_evaluate hmem hordered inputs
      ((hmem _).mpr (NodeMap.output_mem_ids.mpr hlt))
    have hperforms := h.performs step hstep
    rw [Performs, hid, NodeId.connectionPoint?_output] at hperforms
    obtain ⟨id, action, sources, memory⟩ := step
    obtain rfl : action = .output n := hperforms
    rw [hports, portCount_output]
    rfl
  · refine List.ext_getElem? fun n => ?_
    rw [List.getElem?_map]
    -- there are as many results as outside outputs, and each is what its step has read
    by_cases hlt : n < ports.outputs.toNat
    · obtain ⟨w, hw, heq, hval⟩ := exists_word_lt hlt
      rw [List.getElem?_range hlt, Option.map_some, heq, ← hval]
      exact h.getElem?_results hn hmem hordered inputs hw
    · rw [List.getElem?_eq_none (by rw [h.length_results hordered]; omega),
        List.getElem?_eq_none (by rw [List.length_range]; omega)]
      rfl

/-- An evaluator stays laid out through any calls. -/
theorem after (h : board.LaidOut ports library order e) (hn : order.Nodup)
    (hforward : (board.digraph ports).Forward order) (past : List (List Binary64)) :
    board.LaidOut ports library order (e.after past) := by
  induction past generalizing e with
  | nil => exact h
  | cons inputs rest ih => exact ih (h.evaluate (h.ordered hn hforward) inputs)

end LaidOut

/-! ## Whole runs -/

/-- An evaluator goes through the cycles of a board, from what its nodes keep before the first. -/
structure RunBy (board : Board) (ports : PortCounts) (library : Library) (e : Evaluator) :
    Prop where
  start : ∀ id node, board.nodes.get? id = some node → ¬ id.isConnectionPoint →
    e.holdingOf id = node.firstHolding library
  cycle : ∀ past inputs, board.Cycle ports inputs (e.after past).holdingOf
    ((e.after past).evaluate inputs).2.portsOf ((e.after past).evaluate inputs).2.holdingOf
    ((e.after past).evaluate inputs).1

/-- **Two runs agree on a set of ids** if its members are the same nodes on both boards and read
alike. By induction on the calls, the last one first, they keep the same. -/
theorem RunBy.agree {board' : Board} {ports' : PortCounts} {e' : Evaluator}
    (h : board.RunBy ports library e) (h' : board'.RunBy ports' library e')
    (hacyclic : (board.digraph ports).Acyclic) {C : NodeId → Prop}
    (hmem : ∀ id, C id → id ∈ board.nodes.ids ports)
    (hpoints : ∀ id, C id → id.isConnectionPoint → id ∈ board'.nodes.ids ports')
    (hnodes : ∀ id, C id → ¬ id.isConnectionPoint → board.nodes.get? id = board'.nodes.get? id)
    (hfeed : ∀ past inputs id port, C id → port < board.portCount id →
      (∃ origin, board.origin? ports id port = some origin ∧
        board'.origin? ports' id port = some origin ∧ C origin.1) ∨
      (board.portIn ports ((e.after past).evaluate inputs).2.portsOf id port = .zero ∧
        board'.portIn ports' ((e'.after past).evaluate inputs).2.portsOf id port = .zero))
    (past : List (List Binary64)) :
    (∀ id, C id → ¬ id.isConnectionPoint →
      (e.after past).holdingOf id = (e'.after past).holdingOf id) ∧
    ∀ inputs id, C id → ((e.after past).evaluate inputs).2.portsOf id
      = ((e'.after past).evaluate inputs).2.portsOf id := by
  -- if the nodes keep the same before a call, the solutions of its cycle agree
  have hcall : ∀ past, (∀ id, C id → ¬ id.isConnectionPoint →
      (e.after past).holdingOf id = (e'.after past).holdingOf id) → ∀ inputs id, C id →
      ((e.after past).evaluate inputs).2.portsOf id
          = ((e'.after past).evaluate inputs).2.portsOf id ∧
        (¬ id.isConnectionPoint → ((e.after past).evaluate inputs).2.holdingOf id
          = ((e'.after past).evaluate inputs).2.holdingOf id) :=
    fun past hkept inputs id hC => (h.cycle past inputs).agree (h'.cycle past inputs) hacyclic
      hpoints hnodes hkept (hfeed past inputs) id (hmem id hC) hC
  have hkept : ∀ past, ∀ id, C id → ¬ id.isConnectionPoint →
      (e.after past).holdingOf id = (e'.after past).holdingOf id := by
    intro past
    induction past using List.reverseRecOn with
    | nil =>
      intro id hC hordinary
      rcases NodeMap.mem_ids.mp (hmem id hC) with ⟨n, -, rfl⟩ | ⟨hkey, -⟩ | ⟨n, -, rfl⟩
      · exact absurd (NodeId.isConnectionPoint_input n) hordinary
      · -- before the first call a node keeps what its own kind and the library say
        obtain ⟨node, hnode⟩ := OrderedMap.exists_get?_of_mem_keys hkey
        have hnode' : board'.nodes.get? id = some node := by rw [← hnodes id hC hordinary, hnode]
        show e.holdingOf id = e'.holdingOf id
        rw [h.start id node hnode hordinary, h'.start id node hnode' hordinary]
      · exact absurd (NodeId.isConnectionPoint_output n) hordinary
    | append_singleton past inputs ih =>
      intro id hC hordinary
      rw [Evaluator.after_concat, Evaluator.after_concat]
      exact (hcall past ih inputs id hC).2 hordinary
  exact ⟨hkept past, fun inputs id hC => (hcall past (hkept past) inputs id hC).1⟩

/-- A board without loops bakes, and what it bakes to is laid out for it, now and after any
calls. -/
theorem exists_laidOut (hkeyed : board.nodes.KeyedById)
    (hacyclic : (board.digraph ports).Acyclic) (library : Library) :
    ∃ circuit, board.bake ports library = .ok circuit ∧
      board.RunBy ports library (ofCircuit circuit) ∧
      ∀ past, ((ofCircuit circuit).after past).Ordered := by
  obtain ⟨analysis, hanalysis⟩ := exists_analyse_iff.mpr hacyclic
  obtain ⟨hlaid, hstart⟩ := laidOut_ofCircuit library hkeyed hanalysis
  have hn := nodup_order hanalysis
  have hforward := forward_order hanalysis
  -- the layout holds after any calls, so every one of them is a cycle
  refine ⟨_, bake_of_analyse hanalysis, ⟨hstart, fun past inputs => ?_⟩, fun past => ?_⟩
  · exact (hlaid.after hn hforward past).cycle hn hforward (fun id => mem_order hanalysis) inputs
  · exact (hlaid.after hn hforward past).ordered hn hforward

/-- **A baked board satisfies its dataflow equations in every cycle of every run.** Nothing of it
comes from the slots of earlier cycles: a call is the same whatever they hold. -/
theorem bake_cycles (hkeyed : board.nodes.KeyedById) (hacyclic : (board.digraph ports).Acyclic)
    (library : Library) :
    ∃ circuit, board.bake ports library = .ok circuit ∧
      (∀ id node, board.nodes.get? id = some node → ¬ id.isConnectionPoint →
        (ofCircuit circuit).holdingOf id = node.firstHolding library) ∧
      ∀ past inputs,
        let e := (ofCircuit circuit).after past
        let done := e.evaluate inputs
        board.Cycle ports inputs e.holdingOf done.2.portsOf done.2.holdingOf done.1 ∧
          ∀ stale, stale.length = e.outputs.length →
            ({ e with outputs := stale } : Evaluator).evaluate inputs = done := by
  obtain ⟨circuit, hbake, hrun, hordered⟩ := exists_laidOut hkeyed hacyclic library
  refine ⟨circuit, hbake, hrun.start, fun past inputs => ⟨hrun.cycle past inputs, ?_⟩⟩
  exact fun stale hstale => evaluate_stale (hordered past) inputs stale hstale

/-- An input that is held back by one cycle and then added to itself; the first wire into the sum is
overruled by the last one. -/
def heldBack : Board where
  nodes := .ofList [
    (⟨"hold"⟩, .ofKind ⟨"hold"⟩ .memory),
    (⟨"sum"⟩, .ofKind ⟨"sum"⟩ .offset)]
  wires := [
    .between ⟨"w1"⟩ (.input 0) 0 ⟨"hold"⟩ 0,
    .between ⟨"w2"⟩ (.input 0) 0 ⟨"sum"⟩ 0,
    .between ⟨"w3"⟩ ⟨"hold"⟩ 0 ⟨"sum"⟩ 0,
    .between ⟨"w4"⟩ ⟨"hold"⟩ 0 ⟨"sum"⟩ 1,
    .between ⟨"w5"⟩ ⟨"sum"⟩ 0 (.output 0) 0]

/-- Such a board bakes, and its cycles solve the equations. -/
theorem bake_cycles_heldBack :
    heldBack.nodes.KeyedById ∧ (heldBack.digraph ⟨1, 1⟩).Acyclic ∧
      ∃ circuit, heldBack.bake ⟨1, 1⟩ .empty = .ok circuit ∧
        ∀ past inputs, heldBack.Cycle ⟨1, 1⟩ inputs ((ofCircuit circuit).after past).holdingOf
          (((ofCircuit circuit).after past).evaluate inputs).2.portsOf
          (((ofCircuit circuit).after past).evaluate inputs).2.holdingOf
          (((ofCircuit circuit).after past).evaluate inputs).1 := by
  have hkeyed : heldBack.nodes.KeyedById := by decide +kernel
  have hacyclic : (heldBack.digraph ⟨1, 1⟩).Acyclic := by decide +kernel
  obtain ⟨circuit, hbake, -, hcycles⟩ := bake_cycles hkeyed hacyclic .empty
  exact ⟨hkeyed, hacyclic, circuit, hbake, fun past inputs => (hcycles past inputs).1⟩

end Board
end SignalBoard
