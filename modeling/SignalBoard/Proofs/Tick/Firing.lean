import SignalBoard.Proofs.Tick.Skipping
import SignalBoard.Proofs.Tick.Timing

/-!
# Who is called in a tick

The visits of a tick change the set of triggered ids while they go through the order: an id is
called if it has been triggered by the time of its turn, and its wires without delay trigger others.
In an order in which wires lead forward (`TickOrder`) nobody is triggered too late, so that the ids
that are called can be told beforehand. They are the least set that has everything which waits or at
which something arrives, and with an id everything that a wire without delay leads to from there.

```lean
theorem isLeast_called (hformed : now.state.fanout.WellFormed) (horder : TickOrder order now.wires) :
    IsLeast {ids | CallClosed nodes order now ids} {id | id ∈ now.called nodes order}
```

* `Walked`: what visiting some ids comes to, said by the list of calls alone. Who has been called
  has made its call on the inputs that it has in the end, for nothing comes back to it (`not_back`).
* `walked_visitAll`: the visits, the last one first.
* `runtime_advance`, `wires_advance`: a whole tick, for every id and every wire by itself.
* `TickState.Pending`: what waits for a tick are the injections since the last one.
-/

namespace SignalBoard

open NodeRuntime

/-! ## Orders -/

/-- An order for the ids at some wires: no id comes twice, and a wire between two of its ids leads
to the later one. -/
structure TickOrder (order : List NodeId) (wires : List Wire) : Prop where
  nodup : order.Nodup
  forward : ∀ wire ∈ wires, wire.source.node ∈ order → wire.target.node ∈ order →
    order.idxOf wire.source.node < order.idxOf wire.target.node

instance (order : List NodeId) (wires : List Wire) : Decidable (TickOrder order wires) :=
  decidable_of_iff (order.Nodup ∧ ∀ wire ∈ wires, wire.source.node ∈ order →
    wire.target.node ∈ order → order.idxOf wire.source.node < order.idxOf wire.target.node)
    ⟨fun ⟨hnodup, hforward⟩ => ⟨hnodup, hforward⟩, fun h => ⟨h.nodup, h.forward⟩⟩

namespace TickOrder

variable {order visited rest : List NodeId} {wires wires' : List Wire} {id : NodeId}

/-- What is on the wires does not matter. -/
theorem of_ends (h : TickOrder order wires) (hends : wires'.map Wire.ends = wires.map Wire.ends) :
    TickOrder order wires' := by
  -- a wire of the one list has a counterpart with the same ends in the other
  refine ⟨h.nodup, fun wire' hwire' => ?_⟩
  have hmem : wire'.ends ∈ wires.map Wire.ends := by
    rw [← hends]
    exact List.mem_map_of_mem hwire'
  obtain ⟨wire, hwire, heq⟩ := List.mem_map.mp hmem
  have hsource : wire.source.node = wire'.source.node := congrArg Prod.fst heq
  have htarget : wire.target.node = wire'.target.node := congrArg Prod.snd heq
  rw [← hsource, ← htarget]
  exact h.forward wire hwire

theorem not_mem_visited (h : TickOrder order wires) (hsplit : order = visited ++ id :: rest) :
    id ∉ visited := by
  have hnodup := h.nodup
  rw [hsplit] at hnodup
  exact fun hmem => List.disjoint_of_nodup_append hnodup hmem List.mem_cons_self

/-- The members of an order stand by their places. -/
theorem pairwise_idxOf (h : TickOrder order wires) :
    order.Pairwise fun id id' => order.idxOf id < order.idxOf id' := by
  rw [List.pairwise_iff_getElem]
  intro i j hi hj hij
  rw [h.nodup.idxOf_getElem i hi, h.nodup.idxOf_getElem j hj]
  exact hij

/-- Nothing comes back to where the order has been already. -/
theorem not_back (h : TickOrder order wires) (hsplit : order = visited ++ id :: rest) {wire : Wire}
    (hwire : wire ∈ wires) (hsource : wire.source.node = id) :
    wire.target.node ∉ visited ++ [id] := by
  intro htarget
  have hsplit' : order = (visited ++ [id]) ++ rest := by
    rw [hsplit, List.append_assoc, List.singleton_append]
  have hlt := h.forward wire hwire (by rw [hsource, hsplit]; simp)
    (by rw [hsplit']; exact List.mem_append_left _ htarget)
  rw [hsource] at hlt
  exact hlt.not_ge (Digraph.idxOf_le_of_mem h.nodup hsplit htarget)

end TickOrder

namespace NodeRuntime

/-- Deliveries are taken one after the other. -/
theorem received_append (id : NodeId) (front back : List (PortRef × Binary64))
    (inputs : List Binary64) :
    received id (front ++ back) inputs = received id back (received id front inputs) :=
  List.foldl_append

/-- What is delivered elsewhere. -/
theorem received_of_ne {id : NodeId} {deliveries : List (PortRef × Binary64)}
    (h : ∀ d ∈ deliveries, d.1.node ≠ id) (inputs : List Binary64) :
    received id deliveries inputs = inputs :=
  received_eq_self fun d hd hnode => absurd hnode (h d hd)

end NodeRuntime

namespace WireTime

open TickState

variable {nodes : NodeMap} {order visited : List NodeId} {start now : WireTime}

/-! ## The calls of some visits -/

/-- The last visit adds a call if its id has been triggered by then. -/
theorem calls_concat (nodes : NodeMap) (visited : List NodeId) (id : NodeId) (now : WireTime) :
    calls nodes (visited ++ [id]) now = calls nodes visited now ++
      let midway := visited.foldl (visit nodes) now
      if id ∈ midway.state.triggered then
        [(id, ((midway.state.runtime nodes id).fire (nodes.get? id)).outputs)]
      else [] := by
  -- by induction on the visits before
  induction visited generalizing now with
  | nil => rfl
  | cons first rest ih =>
    rw [List.cons_append, calls, calls, List.foldl_cons]
    by_cases h : first ∈ now.state.triggered
    · rw [if_pos h, if_pos h, ih, List.cons_append]
    · rw [if_neg h, if_neg h, ih, visit_of_not_triggered h]

/-- What the wires without delay deliver in some calls. -/
def passedOn (wires : List Wire) (called : List (NodeId × List Binary64)) :
    List (PortRef × Binary64) :=
  called.flatMap fun call => Wire.immediate call.1 call.2 wires

/-- What is passed on comes from a call, along a wire without delay. -/
theorem mem_passedOn {wires : List Wire} {called : List (NodeId × List Binary64)}
    {d : PortRef × Binary64} :
    d ∈ passedOn wires called ↔ ∃ call ∈ called, ∃ wire ∈ wires, wire.source.node = call.1 ∧
      wire.delay = 0 ∧ d = (wire.target, Signal.valueAt call.2 wire.source.port.toNat) := by
  simp only [passedOn, List.mem_flatMap, Wire.mem_immediate]

theorem passedOn_concat (wires : List Wire) (called : List (NodeId × List Binary64))
    (id : NodeId) (outputs : List Binary64) :
    passedOn wires (called ++ [(id, outputs)])
      = passedOn wires called ++ Wire.immediate id outputs wires := by
  simp only [passedOn, List.flatMap_append, List.flatMap_singleton]

/-- Visits do not change what wires deliver at once. -/
theorem immediate_visitAll (nodes : NodeMap) (order : List NodeId)
    (hfanout : start.state.fanout.UpToDate start.wires) (id : NodeId) (outputs : List Binary64) :
    Wire.immediate id outputs (order.foldl (visit nodes) start).wires
      = Wire.immediate id outputs start.wires := by
  -- by induction on the visits: each puts signals on wires with delay only
  induction order generalizing start with
  | nil => rfl
  | cons first rest ih =>
    rw [List.foldl_cons, ih (upToDate_visit nodes first hfanout)]
    by_cases h : first ∈ start.state.triggered
    · rw [wires_visit nodes h hfanout, immediate_map_sendFrom]
    · rw [visit_of_not_triggered h]

/-- A visit leaves nobody without a runtime who had one, and gives one to whoever is called or has
something delivered. -/
theorem isSome_runtime?_visit (nodes : NodeMap) {id : NodeId} (h : id ∈ now.state.triggered)
    (hfanout : now.state.fanout.UpToDate now.wires) (id' : NodeId) :
    let fired := (now.state.runtime nodes id).fire (nodes.get? id)
    ((now.visit nodes id).state.runtime? id').isSome ↔ (now.state.runtime? id').isSome ∨ id' = id ∨
      ∃ d ∈ Wire.immediate id fired.outputs now.wires, d.1.node = id' := by
  have hfire : (now.state.fire nodes id).runtime? id' = if id' = id then
      some ((now.state.runtime nodes id).fire (nodes.get? id)) else now.state.runtime? id' :=
    OrderedMap.get?_insert _ _ _ _
  rw [visit_of_triggered h hfanout]
  simp only
  rw [runtime?_deliverAll, hfire]
  split
  · next hpassed => exact iff_of_true rfl (.inr (.inr hpassed))
  · next hpassed =>
    split
    · next heq => exact iff_of_true rfl (.inr (.inl heq))
    · next hne => simp only [hne, hpassed, or_false]

/-! ## What visits come to -/

/-- The runtime of an id with all that some calls have passed on to it. -/
def withPassed (nodes : NodeMap) (start : WireTime) (called : List (NodeId × List Binary64))
    (id : NodeId) : NodeRuntime :=
  { start.state.runtime nodes id with
    inputs := received id (passedOn start.wires called) (start.state.runtime nodes id).inputs }

theorem withPassed_concat (nodes : NodeMap) (start : WireTime)
    (called : List (NodeId × List Binary64)) (id : NodeId) (outputs : List Binary64) (id' : NodeId) :
    withPassed nodes start (called ++ [(id, outputs)]) id'
      = { withPassed nodes start called id' with
          inputs := received id' (Wire.immediate id outputs start.wires)
            (withPassed nodes start called id').inputs } := by
  rw [withPassed, passedOn_concat, received_append]
  rfl

/-- What visiting some ids has come to: who has been triggered by the end and has been visited has
been called, on the inputs that it has in the end, and nobody else has. -/
structure Walked (nodes : NodeMap) (visited : List NodeId) (start : WireTime)
    (called : List (NodeId × List Binary64)) (now : WireTime) : Prop where
  runtime : ∀ id, now.state.runtime nodes id = if id ∈ called.map Prod.fst then
    (withPassed nodes start called id).fire (nodes.get? id) else withPassed nodes start called id
  known : ∀ id, (now.state.runtime? id).isSome ↔ (start.state.runtime? id).isSome ∨
    id ∈ called.map Prod.fst ∨ ∃ d ∈ passedOn start.wires called, d.1.node = id
  triggered : ∀ id, id ∈ now.state.triggered ↔ id ∈ start.state.triggered ∨
    ∃ d ∈ passedOn start.wires called, d.1.node = id ∧
      d.1.port.toNat < (start.state.runtime nodes id).inputs.length
  answered : ∀ call ∈ called, call.2 = (now.state.runtime nodes call.1).outputs
  called : ∀ id, id ∈ called.map Prod.fst ↔ id ∈ visited ∧ id ∈ now.state.triggered

namespace Walked

variable {called : List (NodeId × List Binary64)} {id : NodeId}

/-- The inputs of an id are the same whether it has been called or not. -/
theorem inputs (h : Walked nodes visited start called now) (id : NodeId) :
    (now.state.runtime nodes id).inputs
      = received id (passedOn start.wires called) (start.state.runtime nodes id).inputs := by
  rw [h.runtime]
  split
  · exact fire_inputs _ _
  · rfl

section

variable (h : Walked nodes visited start called now)
  (hfanout : now.state.fanout.UpToDate now.wires)
  (himmediate : ∀ outputs,
    Wire.immediate id outputs now.wires = Wire.immediate id outputs start.wires)
  (hid : id ∉ visited)
  (hforward : ∀ wire ∈ start.wires, wire.source.node = id → wire.target.node ∉ visited ++ [id])
  (htriggered : id ∈ now.state.triggered)

include hforward in
/-- A call passes nothing on to whoever has had its turn. -/
theorem not_mem_of_immediate (outputs : List Binary64) :
    ∀ d ∈ Wire.immediate id outputs start.wires, d.1.node ∉ visited ++ [id] := by
  intro d hd
  obtain ⟨wire, hwire, hsource, -, rfl⟩ := Wire.mem_immediate.mp hd
  exact hforward wire hwire hsource

include hforward in
/-- Whoever has had its turn keeps its inputs. -/
theorem received_immediate_of_mem (outputs : List Binary64) {id' : NodeId}
    (hid' : id' ∈ visited ++ [id]) (inputs : List Binary64) :
    received id' (Wire.immediate id outputs start.wires) inputs = inputs :=
  received_of_ne (fun d hd hnode => not_mem_of_immediate hforward outputs d hd (hnode ▸ hid')) inputs

include h hfanout himmediate hid hforward htriggered

theorem runtime_visit (id' : NodeId) :
    let called' := called ++ [(id, ((now.state.runtime nodes id).fire (nodes.get? id)).outputs)]
    (now.visit nodes id).state.runtime nodes id' = if id' ∈ called'.map Prod.fst then
      (withPassed nodes start called' id').fire (nodes.get? id')
      else withPassed nodes start called' id' := by
  intro called'
  have hruntime := WireTime.runtime_visit nodes htriggered hfanout id'
  simp only [himmediate] at hruntime
  have hmem : id' ∈ called'.map Prod.fst ↔ id' ∈ called.map Prod.fst ∨ id' = id := by
    simp [called']
  have hbefore := h.runtime id'
  rw [hruntime, withPassed_concat]
  by_cases heq : id' = id
  · -- its own turn
    subst heq
    have hnot : id' ∉ called.map Prod.fst := fun hold => hid ((h.called id').mp hold).1
    rw [if_neg hnot] at hbefore
    rw [if_pos rfl, if_pos (hmem.mpr (.inr rfl)),
      received_immediate_of_mem hforward _ (by simp), received_immediate_of_mem hforward _ (by simp),
      hbefore]
    let fired := (withPassed nodes start called id').fire (nodes.get? id')
    exact congrArg (fun inputs => { fired with inputs }) (fire_inputs _ _).symm
  · rw [if_neg heq]
    by_cases hold : id' ∈ called.map Prod.fst
    · -- it has been called, and nothing comes back to it
      have hvisited : id' ∈ visited ++ [id] := List.mem_append_left _ ((h.called id').mp hold).1
      rw [if_pos (hmem.mpr (.inl hold)), received_immediate_of_mem hforward _ hvisited,
        received_immediate_of_mem hforward _ hvisited, hbefore, if_pos hold]
    · rw [if_neg fun hnew => (hmem.mp hnew).elim hold heq, hbefore, if_neg hold]

/-- The visit of an id that has been triggered by its turn. -/
theorem visit : Walked nodes (visited ++ [id]) start
    (called ++ [(id, ((now.state.runtime nodes id).fire (nodes.get? id)).outputs)])
    (now.visit nodes id) := by
  have hruntime := WireTime.runtime_visit nodes htriggered hfanout
  have htriggered' := mem_triggered_visit nodes htriggered hfanout
  have hknown := isSome_runtime?_visit nodes htriggered hfanout
  simp only [himmediate] at hruntime htriggered' hknown
  have hwalked := h.runtime_visit hfanout himmediate hid hforward htriggered
  generalize (now.state.runtime nodes id).fire (nodes.get? id) = fired
    at hruntime htriggered' hknown hwalked ⊢
  have hmem : ∀ id', id' ∈ (called ++ [(id, fired.outputs)]).map Prod.fst
      ↔ id' ∈ called.map Prod.fst ∨ id' = id := by simp
  refine ⟨hwalked, fun id' => ?_, fun id' => ?_, fun call hcall => ?_, fun id' => ?_⟩
  · rw [hknown, h.known, hmem, passedOn_concat]
    simp only [List.mem_append, or_and_right, exists_or]
    simp only [or_assoc, or_left_comm]
  · rw [htriggered', h.triggered, h.inputs, length_received, passedOn_concat]
    simp only [List.mem_append, or_and_right, exists_or, or_assoc]
  · rw [hruntime]
    rcases List.mem_append.mp hcall with hold | hnew
    · have hvisited := ((h.called call.1).mp (List.mem_map_of_mem hold)).1
      have hne : call.1 ≠ id := fun heq => hid (heq ▸ hvisited)
      rw [if_neg hne]
      exact h.answered call hold
    · obtain rfl := List.mem_singleton.mp hnew
      rw [if_pos rfl]
  · -- who has been visited and triggered: nobody that had its turn before is triggered by this
    -- visit
    rw [hmem, h.called, htriggered', List.mem_append, List.mem_singleton]
    constructor
    · rintro (⟨hvisited, hold⟩ | rfl)
      · exact ⟨.inl hvisited, .inl hold⟩
      · exact ⟨.inr rfl, .inl htriggered⟩
    · rintro ⟨hvisited | rfl, hnew⟩
      · rcases hnew with hold | ⟨d, hd, rfl, -⟩
        · exact .inl ⟨hvisited, hold⟩
        · exact absurd (List.mem_append_left _ hvisited)
            (not_mem_of_immediate hforward fired.outputs d hd)
      · exact .inr rfl

end

/-- The turn of what has not been triggered by then. -/
theorem pass (h : Walked nodes visited start called now) (htriggered : id ∉ now.state.triggered) :
    Walked nodes (visited ++ [id]) start called now := by
  refine ⟨h.runtime, h.known, h.triggered, h.answered, fun id' => ?_⟩
  rw [h.called, List.mem_append, List.mem_singleton, or_and_right]
  refine (or_iff_left ?_).symm
  rintro ⟨rfl, hmem⟩
  exact htriggered hmem

end Walked

/-- **What the visits of a tick come to**, by induction on how far they have got. -/
theorem walked_visitAll (nodes : NodeMap) (hfanout : start.state.fanout.UpToDate start.wires)
    {rest : List NodeId} (horder : TickOrder (visited ++ rest) start.wires) :
    Walked nodes visited start (calls nodes visited start)
      (visited.foldl (visit nodes) start) := by
  induction visited using List.reverseRecOn generalizing rest with
  | nil =>
    refine ⟨fun id => ?_, fun id => ?_, fun id => ?_, fun call hcall => ?_, fun id => ?_⟩
    · rfl
    · simp [calls, passedOn]
    · simp [calls, passedOn]
    · exact absurd hcall List.not_mem_nil
    · simp [calls]
  | append_singleton visited id ih =>
    have hsplit : visited ++ [id] ++ rest = visited ++ id :: rest := by
      rw [List.append_assoc, List.singleton_append]
    have hbefore := ih (hsplit ▸ horder)
    rw [List.foldl_append, List.foldl_cons, List.foldl_nil, calls_concat]
    by_cases htriggered : id ∈ (visited.foldl (visit nodes) start).state.triggered
    · simp only [if_pos htriggered]
      apply hbefore.visit (upToDate_visitAll nodes visited hfanout)
      · exact immediate_visitAll nodes visited hfanout id
      · exact horder.not_mem_visited hsplit
      · exact fun wire hwire hsource => horder.not_back hsplit hwire hsource
      · exact htriggered
    · simp only [if_neg htriggered, List.append_nil]
      rw [visit_of_not_triggered htriggered]
      exact hbefore.pass htriggered

/-- A set of ids has everything that is called if it has what has been triggered and whatever a wire
without delay leads to from one of its members. -/
theorem called_subset (nodes : NodeMap) (hfanout : start.state.fanout.UpToDate start.wires)
    {rest : List NodeId} (horder : TickOrder (visited ++ rest) start.wires) {ids : Set NodeId}
    (htriggered : ∀ id ∈ visited, id ∈ start.state.triggered → id ∈ ids)
    (hinstant : ∀ wire ∈ start.wires, wire.delay = 0 → wire.source.node ∈ ids →
      wire.target.node ∈ visited →
      wire.target.port.toNat < (start.state.runtime nodes wire.target.node).inputs.length →
      wire.target.node ∈ ids) :
    ∀ id ∈ (calls nodes visited start).map Prod.fst, id ∈ ids := by
  -- by induction on the visits, the last one first
  induction visited using List.reverseRecOn generalizing rest with
  | nil => exact fun id hid => absurd hid List.not_mem_nil
  | append_singleton visited id ih =>
    have hsplit : visited ++ [id] ++ rest = visited ++ id :: rest := by
      rw [List.append_assoc, List.singleton_append]
    have horder' : TickOrder (visited ++ id :: rest) start.wires := by rw [← hsplit]; exact horder
    have hbefore := ih horder'
      (fun id' hid' => htriggered id' (List.mem_append_left _ hid'))
      (fun wire hwire hdelay hsource htarget =>
        hinstant wire hwire hdelay hsource (List.mem_append_left _ htarget))
    have hwalked := walked_visitAll nodes hfanout horder'
    intro id' hid'
    rw [calls_concat, List.map_append, List.mem_append] at hid'
    rcases hid' with hold | hnew
    · exact hbefore id' hold
    · simp only at hnew
      split at hnew
      · next hmem =>
        obtain rfl : id' = id := by simpa using hnew
        -- it has been triggered before the visits or by somebody who has been called
        rcases (hwalked.triggered id').mp hmem with hstart | ⟨d, hd, hnode, hport⟩
        · exact htriggered id' (by simp) hstart
        · obtain ⟨call, hcall, wire, hwire, hsource, hdelay, rfl⟩ := mem_passedOn.mp hd
          simp only at hnode hport
          subst hnode
          refine hinstant wire hwire hdelay ?_ (by simp) hport
          rw [hsource]
          exact hbefore call.1 (List.mem_map_of_mem hcall)
      · exact absurd hnew List.not_mem_nil

/-! ## A whole tick -/

/-- The ids that are called in a tick, one after the other. -/
def called (nodes : NodeMap) (order : List NodeId) (now : WireTime) : List NodeId :=
  (calls nodes order (now.opened nodes)).map Prod.fst

/-- Ids are called in the order of the visits. -/
theorem sublist_called (nodes : NodeMap) (order : List NodeId) (now : WireTime) :
    (now.called nodes order).Sublist order :=
  sublist_calls nodes order (now.opened nodes)

theorem nodup_called (nodes : NodeMap) (horder : TickOrder order now.wires) :
    (now.called nodes order).Nodup :=
  (sublist_called nodes order now).nodup horder.nodup

/-- A wire between two ids that are called leads from the one that is called first. -/
theorem sublist_called_of_wire (nodes : NodeMap) (horder : TickOrder order now.wires) {wire : Wire}
    (hwire : wire ∈ now.wires) (hsource : wire.source.node ∈ now.called nodes order)
    (htarget : wire.target.node ∈ now.called nodes order) :
    [wire.source.node, wire.target.node].Sublist (now.called nodes order) := by
  have hsub := sublist_called nodes order now
  have hlt := horder.forward wire hwire (hsub.subset hsource) (hsub.subset htarget)
  -- the calls are cut at the source of the wire; its target must come after the cut
  obtain ⟨front, back, hsplit⟩ := List.append_of_mem hsource
  have hplaces := horder.pairwise_idxOf.sublist hsub
  rw [hsplit] at hplaces htarget ⊢
  rcases List.mem_append.mp htarget with hbefore | hthere
  · -- the wire would lead back
    have hback := (List.pairwise_append.mp hplaces).2.2 _ hbefore _ List.mem_cons_self
    omega
  · have hne : wire.target.node ≠ wire.source.node := fun heq => by rw [heq] at hlt; omega
    have hback := (List.mem_cons.mp hthere).resolve_left hne
    exact ((List.singleton_sublist.mpr hback).cons_cons _).trans (List.sublist_append_right _ _)

/-- Sets of ids out of an order that have everything in it which waits for the tick, everything at
which a signal arrives on a port that is there, and with an id everything that one of its wires
without delay leads to, again on a port that is there. -/
structure CallClosed (nodes : NodeMap) (order : List NodeId) (now : WireTime) (ids : Set NodeId) :
    Prop where
  subset : ∀ id ∈ ids, id ∈ order
  waiting : ∀ id ∈ order, id ∈ now.state.triggered → id ∈ ids
  arrival : ∀ wire ∈ now.wires, wire.target.node ∈ order → wire.age.arrivals ≠ [] →
    wire.target.port.toNat < (now.state.runtime nodes wire.target.node).inputs.length →
    wire.target.node ∈ ids
  instant : ∀ wire ∈ now.wires, wire.delay = 0 → wire.source.node ∈ ids →
    wire.target.node ∈ order →
    wire.target.port.toNat < (now.state.runtime nodes wire.target.node).inputs.length →
    wire.target.node ∈ ids

/-- When a tick opens, what arrives is put on the ports. -/
theorem runtime_opened (nodes : NodeMap) (now : WireTime) (id : NodeId) :
    (now.opened nodes).state.runtime nodes id =
      { now.state.runtime nodes id with
        inputs := received id (arriving now.wires) (now.state.runtime nodes id).inputs } := by
  rw [(agreeOn_opened nodes now id).runtime_eq nodes, runtime_deliverAll]

/-- A tick opens with as many ports as there were before. -/
theorem length_inputs_opened (nodes : NodeMap) (now : WireTime) (id : NodeId) :
    ((now.opened nodes).state.runtime nodes id).inputs.length
      = (now.state.runtime nodes id).inputs.length := by
  rw [runtime_opened]
  exact length_received _ _ _

/-- What has been triggered when the visits begin: what has been waiting, and that at which
something arrives. -/
theorem mem_triggered_opened (nodes : NodeMap) (now : WireTime) (id : NodeId) :
    id ∈ (now.opened nodes).state.triggered ↔ id ∈ now.state.triggered ∨
      ∃ wire ∈ now.wires, wire.age.arrivals ≠ [] ∧ wire.target.node = id ∧
        wire.target.port.toNat < (now.state.runtime nodes id).inputs.length := by
  rw [(agreeOn_opened nodes now id).triggered, mem_triggered_deliverAll]
  refine or_congr_right ⟨?_, ?_⟩
  · rintro ⟨d, hd, hnode, hport⟩
    obtain ⟨wire, hwire, value, hvalue, rfl⟩ := mem_arriving.mp hd
    exact ⟨wire, hwire, List.ne_nil_of_mem hvalue, hnode, hport⟩
  · rintro ⟨wire, hwire, harrivals, hnode, hport⟩
    obtain ⟨value, hvalue⟩ := List.exists_mem_of_ne_nil _ harrivals
    exact ⟨_, mem_arriving.mpr ⟨wire, hwire, value, hvalue, rfl⟩, hnode, hport⟩

/-- The wires when the visits begin have been aged, and what has arrived has been taken off them. -/
theorem mem_wires_opened {nodes : NodeMap} {wire' : Wire} :
    wire' ∈ (now.opened nodes).wires ↔ ∃ wire ∈ now.wires, wire.age.clearArrivals = wire' := by
  rw [wires_opened, List.mem_map]

/-- An order for the wires before an arrival is one for those after it. -/
theorem tickOrder_opened (nodes : NodeMap) (horder : TickOrder order now.wires) :
    TickOrder order (now.opened nodes).wires := by
  apply horder.of_ends
  rw [wires_opened, List.map_map]
  rfl

section

variable (nodes) (hformed : now.state.fanout.WellFormed) (horder : TickOrder order now.wires)

include hformed horder

theorem walked_opened : Walked nodes order (now.opened nodes) (calls nodes order (now.opened nodes))
    (order.foldl (visit nodes) (now.opened nodes)) := by
  have horder' : TickOrder (order ++ []) (now.opened nodes).wires := by
    rw [List.append_nil]
    exact tickOrder_opened nodes horder
  exact walked_visitAll nodes (upToDate_opened nodes hformed) horder'

/-- **Nobody is triggered too late**: the ids that are called make up the least set that is closed
under what a tick does. -/
theorem isLeast_called : IsLeast {ids : Set NodeId | CallClosed nodes order now ids}
    {id | id ∈ now.called nodes order} := by
  have hwalked := walked_opened nodes hformed horder
  have hmem : ∀ id, id ∈ now.called nodes order ↔ id ∈ order ∧ _ := hwalked.called
  constructor
  · -- whatever triggers an id of the order does so before its turn
    refine ⟨fun id hid => ((hmem id).mp hid).1, fun id hid hwaiting => ?_,
      fun wire hwire htarget harrivals hport => ?_, fun wire hwire hdelay hsource htarget hport => ?_⟩
    · refine (hmem id).mpr ⟨hid, (hwalked.triggered id).mpr (.inl ?_)⟩
      exact (mem_triggered_opened nodes now id).mpr (.inl hwaiting)
    · refine (hmem _).mpr ⟨htarget, (hwalked.triggered _).mpr (.inl ?_)⟩
      exact (mem_triggered_opened nodes now _).mpr (.inr ⟨wire, hwire, harrivals, rfl, hport⟩)
    · refine (hmem _).mpr ⟨htarget, (hwalked.triggered _).mpr (.inr ?_)⟩
      obtain ⟨call, hcall, heq⟩ := List.mem_map.mp hsource
      have hpassed : (wire.target, Signal.valueAt call.2 wire.source.port.toNat)
          ∈ passedOn (now.opened nodes).wires (calls nodes order (now.opened nodes)) :=
        mem_passedOn.mpr ⟨call, hcall, wire.age.clearArrivals,
          mem_wires_opened.mpr ⟨wire, hwire, rfl⟩, heq.symm, hdelay, rfl⟩
      refine ⟨_, hpassed, rfl, ?_⟩
      rw [length_inputs_opened]
      exact hport
  · -- conversely a closed set has every call, by induction on the visits
    intro ids hids
    have horder' : TickOrder (order ++ []) (now.opened nodes).wires := by
      rw [List.append_nil]
      exact tickOrder_opened nodes horder
    refine called_subset nodes (upToDate_opened nodes hformed) horder' ?_ ?_
    · intro id hid hopened
      rcases (mem_triggered_opened nodes now id).mp hopened with
        hwaiting | ⟨wire, hwire, harrivals, rfl, hport⟩
      · exact hids.waiting id hid hwaiting
      · exact hids.arrival wire hwire hid harrivals hport
    · intro wire' hwire' hdelay hsource htarget hport
      obtain ⟨wire, hwire, rfl⟩ := mem_wires_opened.mp hwire'
      rw [length_inputs_opened] at hport
      exact hids.instant wire hwire hdelay hsource htarget hport

/-- What becomes of an id in a tick: it is called once, on the inputs that it has in the end, or it
keeps everything but its inputs. -/
theorem runtime_advance (id : NodeId) :
    let after := (now.advance nodes order).state.runtime nodes id
    let before := { now.state.runtime nodes id with inputs := after.inputs }
    after = if id ∈ now.called nodes order then before.fire (nodes.get? id) else before := by
  intro after before
  have hwalked := walked_opened nodes hformed horder
  have hbefore : withPassed nodes (now.opened nodes) (calls nodes order (now.opened nodes)) id
      = { now.state.runtime nodes id with
          inputs := ((now.advance nodes order).state.runtime nodes id).inputs } := by
    have hinputs : ((now.advance nodes order).state.runtime nodes id).inputs = _ :=
      hwalked.inputs id
    rw [hinputs, withPassed, runtime_opened]
  have hbefore' : before = _ := hbefore.symm
  rw [hbefore']
  exact hwalked.runtime id

/-- What a call has given out is what its id has in the end. -/
theorem outputs_of_mem_calls {call : NodeId × List Binary64}
    (hcall : call ∈ calls nodes order (now.opened nodes)) :
    call.2 = ((now.advance nodes order).state.runtime nodes call.1).outputs :=
  (walked_opened nodes hformed horder).answered call hcall

/-- What becomes of the wires in a tick: what has not arrived is still under way, and behind it
there is what the source has given out, if it has been called. -/
theorem wires_advance : (now.advance nodes order).wires = now.wires.map fun wire =>
    { wire with
      signals := wire.age.clearArrivals.signals ++
        if wire.delay ≠ 0 ∧ wire.source.node ∈ now.called nodes order then
          [⟨Signal.valueAt ((now.advance nodes order).state.runtime nodes wire.source.node).outputs
            wire.source.port.toNat, wire.delay⟩]
        else [] } := by
  show (order.foldl (visit nodes) (now.opened nodes)).wires = _
  rw [wires_visitAll nodes order (upToDate_opened nodes hformed), wires_opened, List.map_map]
  refine List.map_congr_left fun wire _ => ?_
  rw [Function.comp_apply, foldl_sendFrom (nodup_called nodes horder)]
  refine congrArg (fun sent => { wire with signals := wire.age.clearArrivals.signals ++ sent }) ?_
  show (sent? _ wire).toList.map _ = _
  rw [sent?]
  -- nothing is put on a wire without delay; on any other one there is what the one call of its
  -- source has given out
  by_cases hdelay : wire.delay = 0
  · rw [if_pos hdelay, if_neg fun hsent => hsent.1 hdelay]
    rfl
  · rw [if_neg hdelay]
    cases hfind : (calls nodes order (now.opened nodes)).find? fun call =>
        call.1 = wire.source.node with
    | none =>
      have hnot : wire.source.node ∉ now.called nodes order := by
        intro hmem
        obtain ⟨call, hcall, heq⟩ := List.mem_map.mp hmem
        exact (List.find?_eq_none.mp hfind) call hcall (by simp [heq])
      rw [if_neg fun hsent => hnot hsent.2]
      rfl
    | some call =>
      have hsource : call.1 = wire.source.node := by simpa using List.find?_some hfind
      have hcall := List.mem_of_find?_eq_some hfind
      have hmem : wire.source.node ∈ now.called nodes order :=
        hsource ▸ List.mem_map_of_mem hcall
      rw [if_pos ⟨hdelay, hmem⟩, ← hsource, ← outputs_of_mem_calls nodes hformed horder hcall]
      rfl

/-- An order stays one from tick to tick. -/
theorem tickOrder_advance : TickOrder order (now.advance nodes order).wires := by
  apply horder.of_ends
  rw [wires_advance nodes hformed horder, List.map_map]
  rfl

end

end WireTime

/-! ## What waits for a tick -/

namespace TickState

/-- The states that a board comes to, with the outside inputs that have been injected since the last
tick. -/
inductive Pending : List UInt64 → TickState → Prop
  | ofNodes (nodes : NodeMap) : Pending [] (.ofNodes nodes)
  | ofNodesWith (nodes : NodeMap) (library : Library) : Pending [] (.ofNodesWith nodes library)
  | inject {injected : List UInt64} {state : TickState} (index : UInt64) (value : Binary64)
      (h : Pending injected state) : Pending (injected ++ [index]) (state.inject index value)
  | attach {injected : List UInt64} {state : TickState} (id : NodeId) (component : Component)
      (h : Pending injected state) : Pending injected (state.attach id component)
  | advance {injected : List UInt64} {now : WireTime} (nodes : NodeMap) (order : List NodeId)
      (h : Pending injected now.state) : Pending [] (now.advance nodes order).state

variable {injected : List UInt64} {state : TickState}

/-- Every state that a board comes to has some injections pending, possibly none. -/
theorem reachable_iff_exists_pending : state.Reachable ↔ ∃ injected, Pending injected state := by
  constructor
  · -- both are closed under the same moves
    intro h
    induction h with
    | ofNodes nodes => exact ⟨[], .ofNodes nodes⟩
    | ofNodesWith nodes library => exact ⟨[], .ofNodesWith nodes library⟩
    | inject index value _ ih => exact ⟨_, ih.choose_spec.inject index value⟩
    | attach id component _ ih => exact ⟨_, ih.choose_spec.attach id component⟩
    | advance nodes order _ ih => exact ⟨[], ih.choose_spec.advance nodes order⟩
  · rintro ⟨injected, h⟩
    induction h with
    | ofNodes nodes => exact .ofNodes nodes
    | ofNodesWith nodes library => exact .ofNodesWith nodes library
    | inject index value _ ih => exact ih.inject index value
    | attach id component _ ih => exact ih.attach id component
    | advance nodes order _ ih => exact ih.advance nodes order

/-- A state with pending injections is one that a board comes to. -/
theorem Pending.reachable (h : Pending injected state) : state.Reachable :=
  reachable_iff_exists_pending.mpr ⟨injected, h⟩

theorem triggered_attach (state : TickState) (id : NodeId) (component : Component) :
    (state.attach id component).triggered = state.triggered := by
  unfold attach
  split <;> rfl

/-- **What has been triggered between two ticks are the outside inputs that have been injected.** -/
theorem Pending.mem_triggered_iff (h : Pending injected state) (id : NodeId) :
    id ∈ state.triggered ↔ ∃ index ∈ injected, id = .input index := by
  -- a tick clears what has been triggered, and of the other moves only an injection triggers
  -- anything
  induction h with
  | ofNodes nodes => simp [TickState.ofNodes]
  | ofNodesWith nodes library => simp [(start_ofNodesWith nodes library).2]
  | inject index value _ ih =>
    rw [mem_triggered_inject, ih]
    simp only [List.mem_append, List.mem_singleton, or_and_right, exists_or, exists_eq_left]
  | attach id component _ ih => rw [triggered_attach, ih]
  | advance nodes order _ _ =>
    rw [WireTime.advance_eq]
    simp

end TickState

namespace WireTime

variable {order : List NodeId} {now : WireTime} {injected : List UInt64}

/-- **Firing is exact.** In a tick from any state that a board can be in, the ids that are called
make up the least set out of the order which contains all outside inputs that have been injected
since the last tick, everything at which a signal arrives, and with an id everything that its wires
without delay lead to. Nobody is called twice, and nobody before an id whose wire without delay
leads to it: every call is made on the inputs that are there at the end of the tick. Who is not
called keeps everything but its inputs and puts nothing on its wires; and then nobody is triggered
any more. -/
theorem firing (hpending : now.state.Pending injected) (nodes : NodeMap)
    (horder : TickOrder order now.wires) :
    let called := now.called nodes order
    let after := now.advance nodes order
    (∀ id, id ∈ now.state.triggered ↔ ∃ index ∈ injected, id = .input index) ∧
      IsLeast {ids : Set NodeId | CallClosed nodes order now ids} {id | id ∈ called} ∧
      called.Nodup ∧
      (∀ wire ∈ now.wires, wire.delay = 0 → wire.source.node ∈ called →
        wire.target.node ∈ called → [wire.source.node, wire.target.node].Sublist called) ∧
      (∀ id,
        let before := { now.state.runtime nodes id with
          inputs := (after.state.runtime nodes id).inputs }
        after.state.runtime nodes id
          = if id ∈ called then before.fire (nodes.get? id) else before) ∧
      (after.wires = now.wires.map fun wire =>
        { wire with
          signals := wire.age.clearArrivals.signals ++
            if wire.delay ≠ 0 ∧ wire.source.node ∈ called then
              [⟨Signal.valueAt (after.state.runtime nodes wire.source.node).outputs
                wire.source.port.toNat, wire.delay⟩]
            else [] }) ∧
      after.state.triggered = [] := by
  intro called after
  have hformed := hpending.reachable.wellFormed
  have hnodup := nodup_called nodes horder
  refine ⟨hpending.mem_triggered_iff, isLeast_called nodes hformed horder, hnodup,
    fun wire hwire _ hsource htarget => sublist_called_of_wire nodes horder hwire hsource htarget,
    runtime_advance nodes hformed horder, wires_advance nodes hformed horder, rfl⟩

/-- Three inverters. An outside input leads to the first of them and from there to the second one
without delay; on the way to the third one there is a signal. The second one also leads to a port
that the last node does not have. -/
def inverters : NodeMap := .ofList [(⟨"first"⟩, .ofKind ⟨"first"⟩ .invert),
  (⟨"second"⟩, .ofKind ⟨"second"⟩ .invert), (⟨"third"⟩, .ofKind ⟨"third"⟩ .invert),
  (⟨"last"⟩, .ofKind ⟨"last"⟩ .invert)]

def inverting : WireTime where
  wires := [
    (Wire.between ⟨"w1"⟩ (.input 0) 0 ⟨"first"⟩ 0).withDelay 0,
    (Wire.between ⟨"w2"⟩ ⟨"first"⟩ 0 ⟨"second"⟩ 0).withDelay 0,
    (Wire.between ⟨"w3"⟩ ⟨"second"⟩ 0 (.output 0) 0).withDelay 2,
    (Wire.between ⟨"w4"⟩ ⟨"second"⟩ 0 ⟨"last"⟩ 1).withDelay 0,
    { Wire.between ⟨"w5"⟩ (.input 1) 0 ⟨"third"⟩ 0 with delay := 3, signals := [⟨5, 1⟩, ⟨6, 3⟩] }]
  state := (TickState.ofNodes inverters).inject 0 30

/-- The wire into the missing port triggers nobody, so the last inverter is not called; the signal
that arrives is off its wire, and the one behind it has come closer. -/
theorem firing_inverting :
    let order : List NodeId :=
      [.input 1, .input 0, ⟨"third"⟩, ⟨"first"⟩, ⟨"second"⟩, ⟨"last"⟩, .output 0]
    inverting.state.Pending [0] ∧ TickOrder order inverting.wires ∧
      IsLeast {ids : Set NodeId | CallClosed inverters order inverting ids}
        {.input 0, ⟨"third"⟩, ⟨"first"⟩, ⟨"second"⟩} ∧
      ((inverting.advance inverters order).state.runtime inverters ⟨"last"⟩).outputs = [0] ∧
      (inverting.advance inverters order).wires.map (·.signals)
        = [[], [], [⟨30, 2⟩], [], [⟨6, 2⟩]] := by
  intro order
  have hpending : inverting.state.Pending [0] := .inject 0 30 (.ofNodes inverters)
  have horder : TickOrder order inverting.wires := by decide +kernel
  obtain ⟨-, hleast, -, -, hruntime, hwires, -⟩ := firing hpending inverters horder
  have hcalled : inverting.called inverters order
      = [.input 0, ⟨"third"⟩, ⟨"first"⟩, ⟨"second"⟩] := by decide +kernel
  refine ⟨hpending, horder, ?_, ?_, ?_⟩
  · simp only [hcalled, List.mem_cons, List.not_mem_nil, or_false] at hleast
    exact hleast
  · rw [hruntime, if_neg (by rw [hcalled]; decide +kernel)]
    decide +kernel
  · rw [hwires]
    decide +kernel

end WireTime
end SignalBoard
