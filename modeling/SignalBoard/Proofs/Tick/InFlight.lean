import SignalBoard.Proofs.Tick.Firing

/-!
# What is under way is what was fired last

A wire is filled by the calls of its source and emptied by the ticks, so that what is on it can be
told from when its source has been called and what it gave out then:

```lean
theorem Carrying.advance (h : session.Carrying wires log) :
    session.advance.Carrying wires fun id => log id ++ (session.firing? id).toList
```

* `Firing`, `Session.firings`: the calls of an id in a run, with their ticks.
* `Wire.carried`: the firings that are not as far back as the wire is long, each as far on its way
  as it is back. A tick takes off the oldest one at most, and a firing of the tick is put behind the
  others (`arrive_carried`, `carried_concat`).
* `Session.Carrying`: every wire carries what the firings of its source have left on it, and no two
  of them are of one tick.
* `Session.inFlight`: so the signals on a wire are ticks apart, the values are those of the last
  firings, and a wire without delay is empty.
-/

namespace SignalBoard

/-! ## The number of ticks -/

namespace TickState

variable (nodes : NodeMap) (state : TickState)

theorem tick_trigger (id : NodeId) : (state.trigger id).tick = state.tick := by
  rw [trigger]
  split <;> rfl

theorem tick_deliverAll (deliveries : List (PortRef × Binary64)) :
    (state.deliverAll nodes deliveries).tick = state.tick := by
  -- by induction on the deliveries
  induction deliveries generalizing state with
  | nil => rfl
  | cons d rest ih =>
    have hdeliver : (state.deliver nodes d.1 d.2).tick = state.tick := by
      rw [deliver_eq]
      simp only
      split
      · exact tick_trigger _ _
      · rfl
    rw [deliverAll, List.foldl_cons, ← deliverAll, ih, hdeliver]

theorem tick_inject (index : UInt64) (value : Binary64) :
    (state.inject index value).tick = state.tick := by
  rw [inject, tick_trigger]
  rfl

end TickState

namespace WireTime

open TickState

theorem tick_visit (nodes : NodeMap) {now : WireTime} (id : NodeId)
    (hfanout : now.state.fanout.UpToDate now.wires) :
    (now.visit nodes id).state.tick = now.state.tick := by
  by_cases h : id ∈ now.state.triggered
  · rw [visit_of_triggered h hfanout]
    exact tick_deliverAll nodes _ _
  · rw [visit_of_not_triggered h]

theorem tick_visitAll (nodes : NodeMap) {now : WireTime} (order : List NodeId)
    (hfanout : now.state.fanout.UpToDate now.wires) :
    (order.foldl (visit nodes) now).state.tick = now.state.tick := by
  -- by induction on the visits; the table of wires stays up to date, so the next visit is as plain
  -- as the first
  induction order generalizing now with
  | nil => rfl
  | cons id rest ih =>
    rw [List.foldl_cons, ih (upToDate_visit nodes id hfanout), tick_visit nodes id hfanout]

/-- A tick is counted. -/
theorem tick_advance (nodes : NodeMap) (order : List NodeId) {now : WireTime}
    (hformed : now.state.fanout.WellFormed) :
    (now.advance nodes order).state.tick = now.state.tick + 1 := by
  rw [advance_eq]
  show (order.foldl (visit nodes) (now.opened nodes)).state.tick = _
  rw [tick_visitAll nodes order (upToDate_opened nodes hformed), opened, arrive_eq]
  exact tick_deliverAll nodes _ _

end WireTime

/-! ## What firings leave on a wire -/

/-- A call of a node. -/
structure Firing where
  /-- The number of the tick. -/
  tick : Nat
  /-- What the node has given out. -/
  outputs : List Binary64

/-- Of firings one after the other the ones that are not too far back are the last ones. -/
theorem Firing.filter_suffix {firings : List Firing}
    (hrising : firings.Pairwise fun firing later => firing.tick < later.tick) (tick length : Nat) :
    (firings.filter fun firing => tick < firing.tick + length) <:+ firings := by
  -- by induction on the firings, the oldest one first: once one is near enough, so are all after it
  induction firings with
  | nil => exact List.suffix_rfl
  | cons firing rest ih =>
    rw [List.pairwise_cons] at hrising
    by_cases hnear : tick < firing.tick + length
    · -- then so is everything that was fired later
      rw [List.filter_eq_self.mpr]
      refine List.forall_mem_cons.mpr ⟨decide_eq_true hnear, fun later hlater => ?_⟩
      have hlt := hrising.1 later hlater
      exact decide_eq_true (by omega)
    · rw [List.filter_cons_of_neg (by simpa using hnear)]
      exact (ih hrising.2).trans (List.suffix_cons firing rest)

namespace Wire

/-- The value on the source port of a wire in a firing of its source, zero if there is no such
port. -/
def valueIn (wire : Wire) (firing : Firing) : Binary64 :=
  Signal.valueAt firing.outputs wire.source.port.toNat

/-- What some firings of its source have left on a wire by a tick. -/
def carried (wire : Wire) (firings : List Firing) (tick : Nat) : List InFlightSignal :=
  (firings.filter fun firing => tick < firing.tick + wire.delay.toNat).map fun firing =>
    ⟨wire.valueIn firing, .ofNat (wire.delay.toNat - (tick - firing.tick))⟩

variable {wire : Wire} {firings : List Firing} {tick : Nat}

/-- On a wire without delay nothing is left. -/
theorem carried_of_instant (hdelay : wire.delay = 0)
    (hpast : ∀ firing ∈ firings, firing.tick ≤ tick) : wire.carried firings tick = [] := by
  have hnone : firings.filter (fun firing => tick < firing.tick + wire.delay.toNat) = [] := by
    rw [List.filter_eq_nil_iff]
    intro firing hfiring
    have hle := hpast firing hfiring
    have hzero : wire.delay.toNat = 0 := by rw [hdelay]; rfl
    rw [decide_eq_true_eq]
    omega
  rw [carried, hnone, List.map_nil]

/-- A firing of the source sets off a passage along the wire. -/
theorem carried_eq_onWay (hdelay : wire.delay ≠ 0) (firings : List Firing) (tick : Nat) :
    wire.carried firings tick = onWay
      (firings.map fun firing => ⟨firing.tick, ⟨wire.valueIn firing, wire.delay⟩⟩) tick := by
  have hmax : max 1 wire.delay.toNat = wire.delay.toNat := max_eq_right (toNat_delay_pos hdelay)
  rw [onWay, List.filter_map, List.map_map, carried]
  simp only [Function.comp_def, Passage.arrival, hmax]
  rfl

/-- What a tick leaves of it. -/
theorem arrive_carried (hsignals : wire.signals = wire.carried firings tick)
    (hpast : ∀ firing ∈ firings, firing.tick ≤ tick) :
    wire.age.clearArrivals.signals = wire.carried firings (tick + 1) := by
  rw [signals_arrive, hsignals]
  -- on a wire with delay this is how passages come along
  by_cases hdelay : wire.delay = 0
  · rw [carried_of_instant hdelay hpast,
      carried_of_instant hdelay fun firing hfiring => Nat.le_succ_of_le (hpast firing hfiring)]
    rfl
  · rw [carried_eq_onWay hdelay, carried_eq_onWay hdelay]
    exact clearArrivals_onWay (List.forall_mem_map.mpr hpast)

/-- A firing of the present tick is behind the others, with its whole way to go. -/
theorem carried_concat (firings : List Firing) (tick : Nat) (outputs : List Binary64) :
    wire.carried (firings ++ [⟨tick, outputs⟩]) tick = wire.carried firings tick ++
      if wire.delay ≠ 0 then [⟨wire.valueIn ⟨tick, outputs⟩, wire.delay⟩] else [] := by
  rw [carried, List.filter_append, List.map_append, ← carried]
  by_cases hdelay : wire.delay = 0
  · simp [hdelay]
  · simp [hdelay, toNat_delay_pos hdelay]

section

variable (hpast : ∀ firing ∈ firings, firing.tick ≤ tick)
  (hrising : firings.Pairwise fun firing later => firing.tick < later.tick)

/-- The ticks that a signal has to go are counted in 32 bits, like the delay. -/
theorem toNat_ticks_carried (wire : Wire) (firing : Firing) (tick : Nat) :
    (UInt32.ofNat (wire.delay.toNat - (tick - firing.tick))).toNat
      = wire.delay.toNat - (tick - firing.tick) := by
  have hbound : wire.delay.toNat < UInt32.size := UInt32.toNat_lt _
  exact UInt32.toNat_ofNat_of_lt' (by omega)

include hpast

/-- Nothing has arrived yet, and nothing has more than the wire to go. -/
theorem ticks_carried : ∀ signal ∈ wire.carried firings tick,
    1 ≤ signal.ticksRemaining.toNat ∧ signal.ticksRemaining.toNat ≤ wire.delay.toNat := by
  intro signal hsignal
  obtain ⟨firing, hfiring, rfl⟩ := List.mem_map.mp hsignal
  obtain ⟨hmem, hleft⟩ := List.mem_filter.mp hfiring
  have hle := hpast firing hmem
  rw [decide_eq_true_eq] at hleft
  simp only [toNat_ticks_carried]
  omega

include hrising

/-- What was fired later arrives later. -/
theorem pairwise_ticks_carried : (wire.carried firings tick).Pairwise fun signal later =>
    signal.ticksRemaining.toNat < later.ticksRemaining.toNat := by
  rw [carried, List.pairwise_map]
  -- two firings that are under way differ in their ticks, and so in how far they have come
  refine (hrising.filter _).imp_of_mem fun {firing later} hfiring hlater hlt => ?_
  obtain ⟨-, hleft⟩ := List.mem_filter.mp hfiring
  have hle := hpast later (List.mem_filter.mp hlater).1
  rw [decide_eq_true_eq] at hleft
  simp only [toNat_ticks_carried]
  omega

omit hpast

/-- What is under way has been fired last. -/
theorem values_carried : (wire.carried firings tick).map (·.value) <:+ firings.map wire.valueIn := by
  rw [carried, List.map_map]
  exact (Firing.filter_suffix hrising tick wire.delay.toNat).map _

end

end Wire

/-! ## Orders and sessions -/

/-- An order to go through the ids of a board is one for its wires. -/
theorem Board.Schedule.tickOrder {board : Board} {ports : PortCounts} {order : List NodeId}
    (h : board.Schedule ports order) : TickOrder order board.wires := by
  refine ⟨h.nodup, fun wire hwire hsource htarget => ?_⟩
  have hadjacent := Board.adjacent_of_wire hwire (h.subset _ hsource) (h.subset _ htarget)
  obtain ⟨before, after, hsplit⟩ := List.append_of_mem htarget
  have hbefore := h.forward before _ after hsplit _ hsource hadjacent
  have hnot : wire.target.node ∉ before := by
    have hnodup := h.nodup
    rw [hsplit] at hnodup
    exact fun hmem => List.disjoint_of_nodup_append hnodup hmem List.mem_cons_self
  rw [hsplit, List.idxOf_append_of_mem hbefore, List.idxOf_append_of_notMem hnot,
    List.idxOf_cons_self, Nat.add_zero]
  exact List.idxOf_lt_length_of_mem hbefore

namespace Session

variable {board : Board} {config : SessionConfig} {library : Library} {session : Session}
  {wires : List Wire} {log : NodeId → List Firing}

/-- What is known of a session that has been started. -/
theorem of_start (h : start board config library = .ok session) :
    session.now = ⟨board.wires, .ofNodesWith board.nodes library⟩ ∧
      TickOrder session.order board.wires := by
  -- a board that cannot be sorted starts no session
  cases hanalysis : board.analyse board.inferredPorts with
  | error loop =>
    rw [start, hanalysis] at h
    cases h
  | ok analysis =>
    rw [start_of_analyse hanalysis] at h
    obtain rfl := Except.ok.inj h
    refine ⟨rfl, ?_⟩
    rw [order]
    split
    · exact (Board.schedule_live hanalysis).tickOrder
    · exact (Board.schedule_order hanalysis).tickOrder

/-! ## Firings in a run -/

/-- The firing of an id in the next tick, if it is called in it. -/
def firing? (session : Session) (id : NodeId) : Option Firing :=
  if id ∈ session.now.called session.nodes session.order then
    some ⟨session.advance.now.state.tick,
      (session.advance.now.state.runtime session.nodes id).outputs⟩
  else none

/-- The firings of an id in an event: nothing but a tick calls it. -/
def firingsIn (session : Session) (id : NodeId) : Event → List Firing
  | .inject _ _ => []
  | .advance => (session.firing? id).toList

/-- The firings of an id in one event after the other. -/
def firings (session : Session) (id : NodeId) : List Event → List Firing
  | [] => []
  | event :: rest => session.firingsIn id event ++ (session.apply event).firings id rest

theorem firings_concat (session : Session) (id : NodeId) (events : List Event) (event : Event) :
    session.firings id (events ++ [event])
      = session.firings id events ++ (session.run events).firingsIn id event := by
  induction events generalizing session with
  | nil => exact List.append_nil _
  | cons first rest ih =>
    rw [List.cons_append, firings, firings, ih, List.append_assoc]
    rfl

/-! ## What the wires carry -/

/-- Between two ticks: every wire carries what the firings of its source have left on it. -/
structure Carrying (wires : List Wire) (log : NodeId → List Firing) (session : Session) :
    Prop where
  reachable : session.now.state.Reachable
  tickOrder : TickOrder session.order session.now.wires
  past : ∀ id, ∀ firing ∈ log id, firing.tick ≤ session.now.state.tick
  rising : ∀ id, (log id).Pairwise fun firing later => firing.tick < later.tick
  wires : session.now.wires = wires.map fun wire =>
    { wire with signals := wire.carried (log wire.source.node) session.now.state.tick }

/-- Where nothing is under way, nothing needs to have been fired. -/
theorem carrying_of_empty (hreachable : session.now.state.Reachable)
    (horder : TickOrder session.order session.now.wires)
    (hempty : ∀ wire ∈ session.now.wires, wire.signals = []) :
    session.Carrying session.now.wires fun _ => [] := by
  refine ⟨hreachable, horder, fun _ _ hfiring => absurd hfiring List.not_mem_nil,
    fun _ => List.Pairwise.nil, (List.map_id _).symm.trans (List.map_congr_left fun wire hwire => ?_)⟩
  exact (Wire.emptied_of_empty (hempty wire hwire)).symm

/-- An injection puts nothing on the wires and is not counted. -/
theorem Carrying.inject (h : session.Carrying wires log) (index : UInt64) (value : Binary64) :
    (session.inject index value).Carrying wires log := by
  have htick : (session.inject index value).now.state.tick = session.now.state.tick :=
    session.now.state.tick_inject index value
  refine ⟨.inject index value h.reachable, h.tickOrder, ?_, h.rising, ?_⟩
  · rw [htick]
    exact h.past
  · rw [htick]
    exact h.wires

theorem Carrying.tick_advance (h : session.Carrying wires log) :
    session.advance.now.state.tick = session.now.state.tick + 1 :=
  WireTime.tick_advance _ _ h.reachable.wellFormed

/-- What is fired in a tick is of this tick. -/
theorem Carrying.tick_of_firing? (h : session.Carrying wires log) {id : NodeId} {firing : Firing}
    (hfired : firing ∈ (session.firing? id).toList) :
    firing.tick = session.now.state.tick + 1 := by
  rw [Option.mem_toList, firing?, Option.ite_none_right_eq_some] at hfired
  obtain rfl := Option.some.inj hfired.2
  exact h.tick_advance

/-- A wire after a tick: what is left of what it carried, and the firing of its source. -/
theorem Carrying.carried_advance (h : session.Carrying wires log) (wire : Wire) :
    let before : Wire :=
      { wire with signals := wire.carried (log wire.source.node) session.now.state.tick }
    wire.carried (log wire.source.node ++ (session.firing? wire.source.node).toList)
        (session.now.state.tick + 1)
      = before.age.clearArrivals.signals ++
        if wire.delay ≠ 0 ∧ wire.source.node ∈ session.now.called session.nodes session.order then
          [⟨Signal.valueAt (session.advance.now.state.runtime session.nodes
            wire.source.node).outputs wire.source.port.toNat, wire.delay⟩]
        else [] := by
  intro before
  have hleft : before.age.clearArrivals.signals
      = wire.carried (log wire.source.node) (session.now.state.tick + 1) :=
    Wire.arrive_carried rfl (h.past wire.source.node)
  rw [hleft, firing?]
  -- a source that has not been called has fired nothing in this tick
  by_cases hcalled : wire.source.node ∈ session.now.called session.nodes session.order
  · rw [if_pos hcalled, Option.toList_some, h.tick_advance, Wire.carried_concat]
    simp only [hcalled, and_true]
    rfl
  · rw [if_neg hcalled, if_neg fun hboth => hcalled hboth.2, Option.toList_none, List.append_nil,
      List.append_nil]

/-- **A tick moves on what is under way and adds what is fired in it.** -/
theorem Carrying.advance (h : session.Carrying wires log) :
    session.advance.Carrying wires fun id => log id ++ (session.firing? id).toList := by
  have hformed := h.reachable.wellFormed
  refine ⟨.advance _ _ h.reachable, WireTime.tickOrder_advance _ hformed h.tickOrder,
    fun id firing hfiring => ?_, fun id => ?_, ?_⟩
  · rw [h.tick_advance]
    rcases List.mem_append.mp hfiring with hold | hfired
    · exact Nat.le_succ_of_le (h.past id firing hold)
    · exact (h.tick_of_firing? hfired).le
  · -- what is fired in this tick is later than all before, and is fired once
    rw [List.pairwise_append]
    refine ⟨h.rising id, ?_, fun firing hfiring later hlater => ?_⟩
    · rw [firing?]
      split
      · exact List.pairwise_singleton _ _
      · exact List.Pairwise.nil
    · rw [h.tick_of_firing? hlater]
      exact Nat.lt_succ_of_le (h.past id firing hfiring)
  · have hwires := WireTime.wires_advance session.nodes hformed h.tickOrder
    rw [h.wires, List.map_map] at hwires
    refine hwires.trans (List.map_congr_left fun wire _ => ?_)
    rw [h.tick_advance, h.carried_advance wire]
    rfl

/-- What the wires carry in a run, the last event first. -/
theorem carrying_run (h : session.Carrying wires fun _ => []) (events : List Event) :
    (session.run events).Carrying wires fun id => session.firings id events := by
  induction events using List.reverseRecOn with
  | nil => exact h
  | append_singleton events event ih =>
    rw [run_concat]
    simp only [firings_concat]
    -- an injection changes neither the wires nor the firings
    cases event with
    | inject index value =>
      simp only [firingsIn, List.append_nil]
      exact ih.inject index value
    | advance => exact ih.advance

/-- Attaching components in advance changes nothing about the wires. -/
theorem frame_attach (session : Session) (attached : List (NodeId × Component)) :
    let opened := attached.foldl (fun session a => session.attach a.1 a.2) session
    opened.now.wires = session.now.wires ∧ opened.order = session.order ∧
      (session.now.state.Reachable → opened.now.state.Reachable) := by
  induction attached generalizing session with
  | nil => exact ⟨rfl, rfl, id⟩
  | cons a rest ih =>
    obtain ⟨hwires, horder, hreachable⟩ := ih (session.attach a.1 a.2)
    exact ⟨hwires, horder, fun h => hreachable (.attach a.1 a.2 h)⟩

/-- **At most one arrival per wire and tick.** A session is started on a board with empty wires, with
whatever attached to its nodes. After any injections and ticks the wires are where they have been, the
firings of every id are of different ticks, and on each wire:

* the signals have different numbers of ticks to go, from one up to the delay, the oldest one fewest;
* the values are those on its source port in the last firings of its source, the oldest one first, and
  there is one for every firing that is not as far back as the wire is long;
* without delay there is nothing. -/
theorem inFlight (hstart : start board config library = .ok session)
    (hempty : ∀ wire ∈ board.wires, wire.signals = [])
    (attached : List (NodeId × Component)) (events : List Event) :
    let opened := attached.foldl (fun session a => session.attach a.1 a.2) session
    let now := (opened.run events).now
    now.wires.map Wire.emptied = board.wires ∧
      (∀ id, (opened.firings id events).Pairwise fun firing later => firing.tick < later.tick) ∧
      ∀ wire ∈ now.wires,
        let fired := opened.firings wire.source.node events
        (wire.signals.Pairwise fun signal later =>
            signal.ticksRemaining.toNat < later.ticksRemaining.toNat) ∧
          (∀ signal ∈ wire.signals, 1 ≤ signal.ticksRemaining.toNat ∧
            signal.ticksRemaining.toNat ≤ wire.delay.toNat) ∧
          (wire.delay = 0 → wire.signals = []) ∧
          wire.signals.map (·.value) <:+ fired.map wire.valueIn ∧
          wire.signals
            = (fired.filter fun firing => now.state.tick < firing.tick + wire.delay.toNat).map
              fun firing => ⟨wire.valueIn firing,
                .ofNat (wire.delay.toNat - (now.state.tick - firing.tick))⟩ := by
  intro opened now
  obtain ⟨hnow, horder⟩ := of_start hstart
  obtain ⟨hwires, hsame, hreachable⟩ := session.frame_attach attached
  have hboard : opened.now.wires = board.wires := hwires.trans (by rw [hnow])
  -- the board starts with empty wires and no firings; from there it is carried on event by event
  have hcarrying : (opened.run events).Carrying board.wires fun id => opened.firings id events := by
    have hfirst : opened.Carrying opened.now.wires fun _ => [] := by
      refine carrying_of_empty (hreachable ?_) ?_ ?_
      · rw [hnow]
        exact .ofNodesWith _ _
      · rw [hsame, hboard]
        exact horder
      · rw [hboard]
        exact hempty
    rw [hboard] at hfirst
    exact carrying_run hfirst events
  refine ⟨?_, hcarrying.rising, fun wire hwire => ?_⟩
  · rw [hcarrying.wires, List.map_map]
    refine (List.map_congr_left fun wire hwire => ?_).trans (List.map_id _)
    exact Wire.emptied_of_empty (hempty wire hwire)
  · rw [hcarrying.wires] at hwire
    obtain ⟨there, -, rfl⟩ := List.mem_map.mp hwire
    have hpast := hcarrying.past there.source.node
    have hrising := hcarrying.rising there.source.node
    exact ⟨Wire.pairwise_ticks_carried hpast hrising, Wire.ticks_carried hpast,
      fun hdelay => Wire.carried_of_instant hdelay hpast, Wire.values_carried hrising, rfl⟩

/-- An inverter behind a long wire, with a wire out of a port that it does not have, and a way past
it without delay. -/
def relay : Board where
  nodes := .ofList [(⟨"turn"⟩, .ofKind ⟨"turn"⟩ .invert)]
  wires := [
    (Wire.between ⟨"w1"⟩ (.input 0) 0 ⟨"turn"⟩ 0).withDelay 3,
    (Wire.between ⟨"w2"⟩ ⟨"turn"⟩ 1 (.output 0) 0).withDelay 2,
    (Wire.between ⟨"w3"⟩ (.input 0) 0 (.output 1) 0).withDelay 0]

/-- Of two injections the first has arrived; its inversion is under way on the next wire, with a
zero as there is no such port. On the wire without delay there is nothing. -/
theorem inFlight_relay :
    let events : List Event := [.inject 0 50, .advance, .inject 0 20, .advance, .advance, .advance]
    ∃ session, start relay .default .empty = .ok session ∧
      (session.run events).now.wires.map (·.signals) = [[⟨20, 1⟩], [⟨.zero, 2⟩], []] ∧
      ∀ wire ∈ (session.run events).now.wires,
        (∀ signal ∈ wire.signals, 1 ≤ signal.ticksRemaining.toNat ∧
          signal.ticksRemaining.toNat ≤ wire.delay.toNat) ∧
        wire.signals.map (·.value)
          <:+ (session.firings wire.source.node events).map wire.valueIn := by
  intro events
  have hempty : ∀ wire ∈ relay.wires, wire.signals = [] := by decide +kernel
  have hview : (match start relay .default .empty with
      | .ok session => decide ((session.run events).now.wires.map (·.signals)
          = [[⟨20, 1⟩], [⟨.zero, 2⟩], []])
      | .error _ => false) = true := by decide +kernel
  cases hstart : start relay .default .empty with
  | error loop =>
    rw [hstart] at hview
    cases hview
  | ok session =>
    rw [hstart] at hview
    obtain ⟨-, -, hwires⟩ := inFlight hstart hempty [] events
    refine ⟨session, rfl, of_decide_eq_true hview, fun wire hwire => ?_⟩
    obtain ⟨-, hticks, -, hvalues, -⟩ := hwires wire hwire
    exact ⟨hticks, hvalues⟩

end Session
end SignalBoard
