import Mathlib.Order.Bounds.Basic
import SignalBoard.Proofs.Tick.Firing
import SignalBoard.Proofs.Tick.Upkeep

/-!
# One order as good as another

Two orders for the same ids go through a tick in different ways, and between two visits the boards
have little in common. At the end of the tick they are the same again: who is called does not depend
on the order (`isLeast_called`), and what a call finds on its ports comes from ids that are earlier
in either order. Only where two wires without delay lead into one port does the order decide, by
which of them delivers last (`SingleFed`).

```lean
theorem Same.advance (h : Abreast order order' now now') (nodes : NodeMap) :
    (now.advance nodes order).Same (now'.advance nodes order')
```

* `received_congr`: what a port holds, whatever the sequence of the deliveries.
* `WireTime.Same`: two boards that nothing tells apart; `WireTime.Abreast`: two of them before a
  tick that each goes through in its own order.
* `Move.Alike`: two moves that differ in the order of a tick at most.
-/

namespace SignalBoard

open NodeRuntime

/-! ## Deliveries in any sequence -/

namespace NodeRuntime

/-- Where only one delivery comes to a port, the sequence of the deliveries does not matter. -/
theorem received_congr {id : NodeId} {deliveries deliveries' : List (PortRef × Binary64)}
    (hsame : ∀ d, d.1.node = id → (d ∈ deliveries ↔ d ∈ deliveries'))
    (hsingle : ∀ d ∈ deliveries, ∀ d' ∈ deliveries, d.1.node = id → d'.1.node = id →
      d.1.port = d'.1.port → d = d') (inputs : List Binary64) :
    received id deliveries inputs = received id deliveries' inputs := by
  have hmem : ∀ (deliveries : List (PortRef × Binary64)) (port : Nat) (d : PortRef × Binary64),
      d ∈ deliveries.filter (isFor id port)
        ↔ d ∈ deliveries ∧ d.1.node = id ∧ d.1.port.toNat = port := by
    intro deliveries port d
    simp only [List.mem_filter, isFor, Bool.and_eq_true, decide_eq_true_eq]
  -- port by port: what it holds is the last delivery to it, and there is at most one
  refine List.ext_getElem? fun port => ?_
  by_cases hport : port < inputs.length
  · rw [getElem?_received id deliveries inputs hport, getElem?_received id deliveries' inputs hport]
    cases hlast : (deliveries.filter (isFor id port)).getLast? with
    | none =>
      have hnone : deliveries'.filter (isFor id port) = [] := by
        rw [List.getLast?_eq_none_iff] at hlast
        rw [List.eq_nil_iff_forall_not_mem] at hlast ⊢
        intro d hd
        obtain ⟨hd, hfor⟩ := (hmem deliveries' port d).mp hd
        exact hlast d ((hmem deliveries port d).mpr ⟨(hsame d hfor.1).mpr hd, hfor⟩)
      rw [hnone]
      rfl
    | some d =>
      obtain ⟨hd, hnode, hd_port⟩ := (hmem deliveries port d).mp (List.mem_of_getLast? hlast)
      have hthere : d ∈ deliveries'.filter (isFor id port) :=
        (hmem deliveries' port d).mpr ⟨(hsame d hnode).mp hd, hnode, hd_port⟩
      have hlast' := List.getLast?_eq_some_getLast (List.ne_nil_of_mem hthere)
      generalize List.getLast _ _ = d' at hlast'
      obtain ⟨hd', hnode', hd_port'⟩ := (hmem deliveries' port d').mp (List.mem_of_getLast? hlast')
      have heq : d = d' := hsingle d hd d' ((hsame d' hnode').mpr hd') hnode hnode'
        (UInt64.toNat_inj.mp (hd_port.trans hd_port'.symm))
      rw [hlast', heq]
  · rw [List.getElem?_eq_none (by rw [length_received]; omega),
      List.getElem?_eq_none (by rw [length_received]; omega)]

end NodeRuntime

/-- No two wires without delay lead into one port. -/
def SingleFed (wires : List Wire) : Prop :=
  ((wires.filter fun wire => wire.delay = 0).map fun wire =>
    (wire.target.node, wire.target.port)).Nodup

instance (wires : List Wire) : Decidable (SingleFed wires) :=
  inferInstanceAs (Decidable (List.Nodup _))

/-- Two wires without delay into one port are the same wire. -/
theorem SingleFed.eq {wires : List Wire} (h : SingleFed wires) {wire wire' : Wire}
    (hwire : wire ∈ wires) (hwire' : wire' ∈ wires) (hdelay : wire.delay = 0)
    (hdelay' : wire'.delay = 0) (hnode : wire.target.node = wire'.target.node)
    (hport : wire.target.port = wire'.target.port) : wire = wire' :=
  List.inj_on_of_nodup_map h (List.mem_filter.mpr ⟨hwire, decide_eq_true hdelay⟩)
    (List.mem_filter.mpr ⟨hwire', decide_eq_true hdelay'⟩) (Prod.ext hnode hport)

/-! ## Attaching -/

namespace TickState

/-- To attach something changes the runtime of one id, if it has one. -/
theorem runtime?_attach (state : TickState) (id : NodeId) (component : Component) (id' : NodeId) :
    (state.attach id component).runtime? id' = if id' = id then
      (state.runtime? id).map fun runtime => { runtime with component := some component }
      else state.runtime? id' := by
  rw [attach]
  cases hruntime : state.runtime? id with
  | none =>
    by_cases heq : id' = id
    · rw [if_pos heq, heq]
      exact hruntime
    · rw [if_neg heq]
  | some runtime => exact OrderedMap.get?_insert _ _ _ _

theorem AgreeOn.attach {state state' : TickState} {id : NodeId} (h : AgreeOn id state state')
    {target : NodeId} (htarget : AgreeOn target state state') (component : Component) :
    AgreeOn id (state.attach target component) (state'.attach target component) := by
  constructor
  · rw [runtime?_attach, runtime?_attach, htarget.runtime, h.runtime]
  · rw [triggered_attach, triggered_attach, h.triggered]

/-- Whether there is a runtime, and which one it is, decide about what is found for an id. -/
theorem runtime?_eq_of_runtime_eq {state state' : TickState} {nodes : NodeMap} {id : NodeId}
    (hknown : (state.runtime? id).isSome ↔ (state'.runtime? id).isSome)
    (hruntime : state.runtime nodes id = state'.runtime nodes id) :
    state.runtime? id = state'.runtime? id := by
  rw [runtime, runtime] at hruntime
  cases h : state.runtime? id with
  | none =>
    rw [h] at hknown
    exact (Option.not_isSome_iff_eq_none.mp fun hsome => by simpa using hknown.mpr hsome).symm
  | some r =>
    rw [h] at hknown hruntime
    obtain ⟨r', hr'⟩ := Option.isSome_iff_exists.mp (hknown.mp rfl)
    rw [hr'] at hruntime ⊢
    exact congrArg some hruntime

end TickState

/-! ## A tick in two orders -/

namespace WireTime

open TickState

variable {nodes : NodeMap} {order order' : List NodeId} {now now' : WireTime}

/-- What the wires without delay pass on in a tick, by what the ids have given out in the end. -/
theorem mem_passedOn_calls (hformed : now.state.fanout.WellFormed)
    (horder : TickOrder order now.wires) {d : PortRef × Binary64} :
    d ∈ passedOn (now.opened nodes).wires (calls nodes order (now.opened nodes)) ↔
      ∃ wire ∈ now.wires, wire.delay = 0 ∧ wire.source.node ∈ now.called nodes order ∧
        d = (wire.target, Signal.valueAt
          ((now.advance nodes order).state.runtime nodes wire.source.node).outputs
          wire.source.port.toNat) := by
  rw [mem_passedOn]
  -- a call gives out what its id has at the end of the tick, so the calls need not be mentioned
  constructor
  · rintro ⟨call, hcall, wire', hwire', hsource, hdelay, rfl⟩
    obtain ⟨wire, hwire, rfl⟩ := mem_wires_opened.mp hwire'
    have hsource' : wire.source.node = call.1 := hsource
    refine ⟨wire, hwire, hdelay, hsource' ▸ List.mem_map_of_mem hcall, ?_⟩
    rw [outputs_of_mem_calls nodes hformed horder hcall, hsource']
    rfl
  · rintro ⟨wire, hwire, hdelay, hsource, rfl⟩
    obtain ⟨call, hcall, hcall_source⟩ := List.mem_map.mp hsource
    refine ⟨call, hcall, wire.age.clearArrivals, mem_wires_opened.mpr ⟨wire, hwire, rfl⟩,
      hcall_source.symm, hdelay, ?_⟩
    rw [outputs_of_mem_calls nodes hformed horder hcall, hcall_source]
    rfl

/-- Two boards that nothing tells apart. -/
structure Same (now now' : WireTime) : Prop where
  wires : now.wires = now'.wires
  agree : ∀ id, AgreeOn id now.state now'.state

theorem Same.arriving (h : now.Same now') : arriving now.wires = arriving now'.wires := by
  rw [h.wires]

/-- Every id has the same runtime on both boards. -/
theorem Same.runtime (h : now.Same now') (nodes : NodeMap) (id : NodeId) :
    now.state.runtime nodes id = now'.state.runtime nodes id :=
  (h.agree id).runtime_eq nodes

/-- Two boards that nothing tells apart, before a tick that each of them goes through in an order of
its own. -/
structure Abreast (order order' : List NodeId) (now now' : WireTime) : Prop where
  same : now.Same now'
  wellFormed : now.state.fanout.WellFormed
  wellFormed' : now'.state.fanout.WellFormed
  perm : order.Perm order'
  tickOrder : TickOrder order now.wires
  tickOrder' : TickOrder order' now'.wires
  singleFed : SingleFed now.wires

namespace Abreast

/-- The sets that a tick does not lead out of are the same. -/
theorem callClosed (h : Abreast order order' now now') (nodes : NodeMap) {ids : Set NodeId}
    (hids : CallClosed nodes order now ids) : CallClosed nodes order' now' ids := by
  have hwires := h.same.wires
  refine ⟨fun id hid => h.perm.mem_iff.mp (hids.subset id hid), fun id hid hwaiting => ?_,
    fun wire hwire htarget harrivals hport => ?_, fun wire hwire hdelay hsource htarget hport => ?_⟩
  · exact hids.waiting id (h.perm.mem_iff.mpr hid) ((h.same.agree id).triggered.mpr hwaiting)
  · rw [← h.same.runtime nodes] at hport
    exact hids.arrival wire (hwires ▸ hwire) (h.perm.mem_iff.mpr htarget) harrivals hport
  · rw [← h.same.runtime nodes] at hport
    exact hids.instant wire (hwires ▸ hwire) hdelay hsource (h.perm.mem_iff.mpr htarget) hport

/-- It does not matter which of the two boards comes first. -/
theorem symm (h : Abreast order order' now now') : Abreast order' order now' now :=
  ⟨⟨h.same.wires.symm, fun id => (h.same.agree id).symm⟩, h.wellFormed', h.wellFormed, h.perm.symm,
    h.tickOrder', h.tickOrder, h.same.wires ▸ h.singleFed⟩

/-- The same ids are called, since there is only one least set. -/
theorem mem_called_iff (h : Abreast order order' now now') (nodes : NodeMap) (id : NodeId) :
    id ∈ now.called nodes order ↔ id ∈ now'.called nodes order' := by
  have hleast := isLeast_called nodes h.wellFormed h.tickOrder
  have hleast' := isLeast_called nodes h.wellFormed' h.tickOrder'
  have hclosed : ∀ ids : Set NodeId, CallClosed nodes order now ids
      ↔ CallClosed nodes order' now' ids :=
    fun ids => ⟨h.callClosed nodes, h.symm.callClosed nodes⟩
  simp only [hclosed] at hleast
  exact Set.ext_iff.mp (hleast.unique hleast') id

/-- What the calls pass on to an id, as far as its sources have given out the same. -/
theorem received_passedOn (h : Abreast order order' now now') (nodes : NodeMap) {id : NodeId}
    (hsources : ∀ wire ∈ now.wires, wire.source.node ∈ now.called nodes order →
      wire.target.node = id →
      (now.advance nodes order).state.runtime nodes wire.source.node
        = (now'.advance nodes order').state.runtime nodes wire.source.node)
    (inputs : List Binary64) :
    received id (passedOn (now.opened nodes).wires (calls nodes order (now.opened nodes))) inputs
      = received id (passedOn (now'.opened nodes).wires (calls nodes order' (now'.opened nodes)))
        inputs := by
  -- the two sequences of deliveries have the same members for this id, and no two for one port
  refine received_congr (fun d hnode => ?_) (fun d hd d' hd' hnode hnode' hport => ?_) inputs
  · rw [mem_passedOn_calls h.wellFormed h.tickOrder, mem_passedOn_calls h.wellFormed' h.tickOrder',
      ← h.same.wires]
    refine exists_congr fun wire => and_congr_right fun hwire => and_congr_right fun _ => ?_
    rw [← h.mem_called_iff nodes]
    refine and_congr_right fun hsource => ?_
    by_cases htarget : wire.target.node = id
    · rw [hsources wire hwire hsource htarget]
    · -- the wire leads elsewhere
      constructor <;> rintro rfl <;> exact absurd hnode htarget
  · obtain ⟨wire, hwire, hdelay, -, rfl⟩ := (mem_passedOn_calls h.wellFormed h.tickOrder).mp hd
    obtain ⟨wire', hwire', hdelay', -, rfl⟩ := (mem_passedOn_calls h.wellFormed h.tickOrder).mp hd'
    rw [h.singleFed.eq hwire hwire' hdelay hdelay' (hnode.trans hnode'.symm) hport]

/-- Where a wire starts that something comes along in a tick, the order has been before. -/
theorem idxOf_source_lt (horder : TickOrder order now.wires) {wire : Wire} (hwire : wire ∈ now.wires)
    (hsource : wire.source.node ∈ order) :
    order.idxOf wire.source.node < order.idxOf wire.target.node := by
  by_cases htarget : wire.target.node ∈ order
  · exact horder.forward wire hwire hsource htarget
  · rw [List.idxOf_eq_length htarget]
    exact List.idxOf_lt_length_of_mem hsource

/-- **Every id ends up with the same runtime**, by induction on its place in one of the orders: what
comes to its ports are the outputs of ids before it. -/
theorem runtime_advance_eq (h : Abreast order order' now now') (nodes : NodeMap) (id : NodeId) :
    (now.advance nodes order).state.runtime nodes id
      = (now'.advance nodes order').state.runtime nodes id := by
  induction hn : order.idxOf id using Nat.strong_induction_on generalizing id with
  | _ n ih =>
  -- one order is enough to go by: the sources of an id come before it there
  have hpassed := h.received_passedOn nodes fun wire hwire hsource (htarget : _ = id) => by
    have hlt := idxOf_source_lt h.tickOrder hwire ((sublist_called nodes order now).subset hsource)
    rw [htarget, hn] at hlt
    exact ih _ hlt _ rfl
  -- what arrives is the same, and so is what the calls pass on
  have hinputs : ((now.advance nodes order).state.runtime nodes id).inputs
      = ((now'.advance nodes order').state.runtime nodes id).inputs := by
    have hwalked : ((now.advance nodes order).state.runtime nodes id).inputs = _ :=
      (walked_opened nodes h.wellFormed h.tickOrder).inputs id
    have hwalked' : ((now'.advance nodes order').state.runtime nodes id).inputs = _ :=
      (walked_opened nodes h.wellFormed' h.tickOrder').inputs id
    rw [hwalked, hwalked', hpassed, runtime_opened, runtime_opened, h.same.arriving,
      h.same.runtime nodes]
  have hafter := runtime_advance nodes h.wellFormed h.tickOrder id
  have hafter' := runtime_advance nodes h.wellFormed' h.tickOrder' id
  simp only [hinputs, h.same.runtime nodes, h.mem_called_iff nodes] at hafter
  exact hafter.trans hafter'.symm

end Abreast

/-- The arrivals tell nothing apart. -/
theorem Same.opened (h : now.Same now') (nodes : NodeMap) (id : NodeId) :
    AgreeOn id (now.opened nodes).state (now'.opened nodes).state := by
  refine (agreeOn_opened nodes now id).trans (AgreeOn.trans ?_ (agreeOn_opened nodes now' id).symm)
  exact (h.agree id).deliverAll (by rw [h.arriving])

/-- **A tick in two orders** leaves two boards that nothing tells apart. -/
theorem Same.advance (h : Abreast order order' now now') (nodes : NodeMap) :
    (now.advance nodes order).Same (now'.advance nodes order') := by
  have hruntime := h.runtime_advance_eq nodes
  refine ⟨?_, fun id => ⟨?_, Iff.rfl⟩⟩
  · rw [wires_advance nodes h.wellFormed h.tickOrder, wires_advance nodes h.wellFormed' h.tickOrder',
      h.same.wires]
    simp only [hruntime, h.mem_called_iff nodes]
  · refine runtime?_eq_of_runtime_eq ?_ (hruntime id)
    have hknown := (walked_opened nodes h.wellFormed h.tickOrder).known id
    have hknown' := (walked_opened nodes h.wellFormed' h.tickOrder').known id
    have hcalled : id ∈ (calls nodes order (now.opened nodes)).map Prod.fst
        ↔ id ∈ (calls nodes order' (now'.opened nodes)).map Prod.fst := h.mem_called_iff nodes id
    have hpassed : ∀ d, d ∈ passedOn (now.opened nodes).wires (calls nodes order (now.opened nodes))
        ↔ d ∈ passedOn (now'.opened nodes).wires (calls nodes order' (now'.opened nodes)) := by
      intro d
      rw [mem_passedOn_calls h.wellFormed h.tickOrder,
        mem_passedOn_calls h.wellFormed' h.tickOrder', h.same.wires]
      simp only [hruntime, h.mem_called_iff nodes]
    simp only [(h.same.opened nodes id).runtime, hcalled, hpassed] at hknown
    exact hknown.trans hknown'.symm

end WireTime

/-! ## Moves in two orders -/

/-- Two moves that differ in the order of a tick at most, and both orders are orders for some
wires. -/
inductive Move.Alike (wires : List Wire) : Move → Move → Prop
  | inject (index : UInt64) (value : Binary64) : Alike wires (.inject index value) (.inject index value)
  | attach (id : NodeId) (component : Component) :
    Alike wires (.attach id component) (.attach id component)
  | send (place : Nat) (value : Binary64) : Alike wires (.send place value) (.send place value)
  | tick {order order' : List NodeId} (hperm : order.Perm order') (horder : TickOrder order wires)
    (horder' : TickOrder order' wires) : Alike wires (.tick order) (.tick order')

/-- What is under way does not matter. -/
theorem SingleFed.of_emptied {wires wires' : List Wire} (h : SingleFed wires)
    (hemptied : wires'.map Wire.emptied = wires.map Wire.emptied) : SingleFed wires' := by
  have hfilter : ∀ wires : List Wire, (wires.filter fun wire => wire.delay = 0).map
        (fun wire => (wire.target.node, wire.target.port))
      = ((wires.map Wire.emptied).filter fun wire => wire.delay = 0).map
        fun wire => (wire.target.node, wire.target.port) := by
    intro wires
    rw [List.filter_map, List.map_map]
    rfl
  unfold SingleFed at h ⊢
  rwa [hfilter, hemptied, ← hfilter]

/-- What is under way does not bear on the orders either. -/
theorem TickOrder.of_emptied {order : List NodeId} {wires wires' : List Wire}
    (h : TickOrder order wires) (hemptied : wires'.map Wire.emptied = wires.map Wire.emptied) :
    TickOrder order wires' := by
  apply h.of_ends
  have hends := congrArg (List.map Wire.ends) hemptied
  rw [List.map_map, List.map_map] at hends
  exact hends

/-- What is sent onto a wire by hand leaves the wires where they are. -/
theorem map_emptied_send (wires : List Wire) (place : Nat) (value : Binary64) :
    (wires.modify place (·.send value)).map Wire.emptied = wires.map Wire.emptied := by
  refine List.ext_getElem? fun k => ?_
  rw [List.getElem?_map, List.getElem?_map, List.getElem?_modify, Option.map_eq_map, Option.map_map]
  refine congrArg (Option.map · wires[k]?) (funext fun wire => ?_)
  rw [Function.comp_apply]
  split <;> rfl

namespace WireTime

open TickState

variable {nodes : NodeMap} {wires : List Wire} {now now' : WireTime} {move move' : Move}

/-- A move leads from states that can be reached to such states. -/
theorem reachable_undergo (h : now.state.Reachable) (nodes : NodeMap) (move : Move) :
    (now.undergo nodes move).state.Reachable := by
  cases move with
  | inject index value => exact .inject index value h
  | attach id component => exact .attach id component h
  | tick order => exact .advance nodes order h
  | _ => exact h

/-- Two boards that nothing tells apart, with the wires where they have been from the start. -/
structure Keeping (wires : List Wire) (now now' : WireTime) : Prop where
  same : now.Same now'
  reachable : now.state.Reachable
  reachable' : now'.state.Reachable
  wires : now.wires.map Wire.emptied = wires.map Wire.emptied

/-- Two moves that are alike keep two boards the same. -/
theorem Keeping.undergo (h : now.Keeping wires now') (hsingle : SingleFed wires)
    (hmoves : Move.Alike wires move move') (nodes : NodeMap) :
    (now.undergo nodes move).Keeping wires (now'.undergo nodes move') := by
  have hreachable := reachable_undergo h.reachable nodes move
  have hreachable' := reachable_undergo h.reachable' nodes move'
  -- only ticks differ; they are two orders for the wires as they are now, since these differ from
  -- those of the start in what is under way
  cases hmoves with
  | inject index value =>
    exact ⟨⟨h.same.wires, fun id => (h.same.agree id).inject index value⟩, hreachable, hreachable',
      h.wires⟩
  | attach target component =>
    exact ⟨⟨h.same.wires, fun id => (h.same.agree id).attach (h.same.agree target) component⟩,
      hreachable, hreachable', h.wires⟩
  | send place value =>
    refine ⟨⟨?_, h.same.agree⟩, hreachable, hreachable', ?_⟩
    · show now.wires.modify place _ = now'.wires.modify place _
      rw [h.same.wires]
    · rw [← h.wires]
      exact map_emptied_send now.wires place value
  | @tick order order' hperm horder horder' =>
    have hwires : now'.wires.map Wire.emptied = wires.map Wire.emptied := h.same.wires ▸ h.wires
    have habreast : Abreast order order' now now' :=
      ⟨h.same, h.reachable.wellFormed, h.reachable'.wellFormed, hperm, horder.of_emptied h.wires,
        horder'.of_emptied hwires, hsingle.of_emptied h.wires⟩
    refine ⟨.advance habreast nodes, hreachable, hreachable', ?_⟩
    rw [← h.wires]
    show (now.advance nodes order).wires.map Wire.emptied = _
    rw [wires_advance nodes habreast.wellFormed habreast.tickOrder, List.map_map]
    rfl

theorem Keeping.course {moves moves' : List Move} (h : now.Keeping wires now')
    (hsingle : SingleFed wires) (hmoves : List.Forall₂ (Move.Alike wires) moves moves')
    (nodes : NodeMap) : (course nodes now moves).Keeping wires (course nodes now' moves') := by
  -- by induction on the moves
  induction hmoves generalizing now now' with
  | nil => exact h
  | cons hmove _ ih => exact ih (h.undergo hsingle hmove nodes)

/-- **It does not matter in which of its orders a board is gone through.** From any state that a
board can be in, with no two wires without delay into one port, two runs that differ in nothing but
the orders of their ticks end with the same on every wire and with the same runtime for every id:
its inputs, outputs and memory and what is called in its place. A run of one tick is a case of
this. -/
theorem reordering {start : WireTime} (hstart : start.state.Reachable)
    (hsingle : SingleFed start.wires) {moves moves' : List Move}
    (hmoves : List.Forall₂ (Move.Alike start.wires) moves moves') (nodes : NodeMap) :
    (course nodes start moves).wires = (course nodes start moves').wires ∧
      ∀ id, (course nodes start moves).state.runtime? id
        = (course nodes start moves').state.runtime? id := by
  have hkeeping : start.Keeping start.wires start :=
    ⟨⟨rfl, fun id => .refl id _⟩, hstart, hstart, rfl⟩
  have hend := hkeeping.course hsingle hmoves nodes
  exact ⟨hend.same.wires, fun id => (hend.same.agree id).runtime⟩

/-- Two inverters side by side, one of them with a wire without delay to where they meet. -/
def sideBySide : NodeMap := .ofList [(⟨"left"⟩, .ofKind ⟨"left"⟩ .invert),
  (⟨"right"⟩, .ofKind ⟨"right"⟩ .invert), (⟨"meet"⟩, .ofKind ⟨"meet"⟩ .max)]

def meeting : WireTime where
  wires := [
    (Wire.between ⟨"w1"⟩ (.input 0) 0 ⟨"left"⟩ 0).withDelay 0,
    (Wire.between ⟨"w2"⟩ (.input 0) 0 ⟨"right"⟩ 0).withDelay 1,
    (Wire.between ⟨"w3"⟩ ⟨"left"⟩ 0 ⟨"meet"⟩ 0).withDelay 0,
    (Wire.between ⟨"w4"⟩ ⟨"right"⟩ 0 ⟨"meet"⟩ 1).withDelay 0,
    (Wire.between ⟨"w5"⟩ ⟨"meet"⟩ 0 (.output 0) 0).withDelay 2]
  state := .ofNodes sideBySide

/-- The two nodes side by side are called in either order in the first tick; the boards are the same
after the second. -/
theorem reordering_meeting :
    let order : List NodeId := [.input 0, ⟨"left"⟩, ⟨"right"⟩, ⟨"meet"⟩, .output 0]
    let order' : List NodeId := [.input 0, ⟨"right"⟩, ⟨"left"⟩, ⟨"meet"⟩, .output 0]
    let moves : List Move := [.inject 0 30, .tick order, .inject 0 (-20), .tick order]
    let moves' : List Move := [.inject 0 30, .tick order', .inject 0 (-20), .tick order]
    meeting.state.Reachable ∧ SingleFed meeting.wires ∧
      List.Forall₂ (Move.Alike meeting.wires) moves moves' ∧
      ((course sideBySide meeting moves').state.runtime sideBySide ⟨"meet"⟩).inputs = [20, -30] ∧
      (course sideBySide meeting moves).wires = (course sideBySide meeting moves').wires ∧
      ∀ id, (course sideBySide meeting moves).state.runtime? id
        = (course sideBySide meeting moves').state.runtime? id := by
  intro order order' moves moves'
  have hstart : meeting.state.Reachable := .ofNodes sideBySide
  have hsingle : SingleFed meeting.wires := by decide +kernel
  have horder : TickOrder order meeting.wires := by decide +kernel
  have horder' : TickOrder order' meeting.wires := by decide +kernel
  have hperm : order.Perm order' := by decide +kernel
  have hmoves : List.Forall₂ (Move.Alike meeting.wires) moves moves' :=
    .cons (.inject 0 30) (.cons (.tick hperm horder horder') (.cons (.inject 0 (-20))
      (.cons (.tick (.refl order) horder horder) .nil)))
  exact ⟨hstart, hsingle, hmoves, by decide +kernel, reordering hstart hsingle hmoves sideBySide⟩

end WireTime
end SignalBoard
