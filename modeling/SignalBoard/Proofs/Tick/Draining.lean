import Mathlib.Data.List.MinMax
import SignalBoard.Proofs.Tick.Firing

/-!
# How long signals go on

A signal that arrives makes others, so that there may be more of them before there are fewer. But
whatever follows from it goes forward in the order, and it is over after the longest way from there
(`WireTime.horizon`). So every signal has a number of ticks after which nothing is left of it and of
all that it sets off, and each tick brings it down by one.

```lean
theorem Calm.advance (h : now.Calm (n + 1) …) : (now.advance nodes order).Calm n …
```

* `horizon_eq`: the horizon of an id by those of the ids behind it.
* `Wire.Within`: all that is on a wire is over in so many ticks.
* `advance_of_still`: a board on which nothing is left stays as it is.
-/

namespace SignalBoard

namespace WireTime

/-! ## Horizons -/

/-- The most that the wires out of an id have ahead of them: their delay, and then what there is
behind their target. -/
def furthest (wires : List Wire) (id : NodeId) (beyond : NodeId → Nat) : Nat :=
  ((wires.filter fun wire => wire.source.node = id).map fun wire =>
    wire.delay.toNat + beyond wire.target.node).foldr max 0

/-- The longest way from an id along wires between ids of an order, in ticks. Ids that are not in
the order lead nowhere. -/
def horizon (wires : List Wire) : List NodeId → NodeId → Nat
  | [], _ => 0
  | first :: rest, id =>
    if id = first then furthest wires first (horizon wires rest) else horizon wires rest id

variable {wires : List Wire} {order : List NodeId} {id : NodeId} {beyond beyond' : NodeId → Nat}

/-- Only what lies behind the wires out of an id counts. -/
theorem furthest_congr
    (h : ∀ wire ∈ wires, wire.source.node = id → beyond wire.target.node = beyond' wire.target.node) :
    furthest wires id beyond = furthest wires id beyond' := by
  unfold furthest
  congr 1
  refine List.map_congr_left fun wire hwire => ?_
  obtain ⟨hmem, hsource⟩ := List.mem_filter.mp hwire
  rw [h wire hmem (of_decide_eq_true hsource)]

/-- No wire out of an id has more ahead of it than the furthest one. -/
theorem le_furthest {wire : Wire} (hwire : wire ∈ wires) (beyond : NodeId → Nat) :
    wire.delay.toNat + beyond wire.target.node ≤ furthest wires wire.source.node beyond := by
  have hahead : wire.delay.toNat + beyond wire.target.node
      ∈ (wires.filter fun other => other.source.node = wire.source.node).map fun other =>
        other.delay.toNat + beyond other.target.node :=
    List.mem_map_of_mem (List.mem_filter.mpr ⟨hwire, decide_eq_true rfl⟩)
  exact List.le_max_of_le' 0 hahead le_rfl

/-- Ids before that of interest in the order do not matter. -/
theorem horizon_append {front : List NodeId} (h : id ∉ front) (back : List NodeId) :
    horizon wires (front ++ back) id = horizon wires back id := by
  induction front with
  | nil => rfl
  | cons first rest ih =>
    rw [List.mem_cons, not_or] at h
    rw [List.cons_append, horizon, if_neg h.1, ih h.2]

/-- What is not in the order leads nowhere. -/
theorem horizon_of_not_mem (h : id ∉ order) : horizon wires order id = 0 := by
  have happend : horizon wires (order ++ []) id = 0 := horizon_append h []
  rwa [List.append_nil] at happend

/-- **The horizon of an id** lies behind the wires that lead out of it, since none of them leads
back. -/
theorem horizon_eq (horder : TickOrder order wires) (id : NodeId) :
    horizon wires order id
      = if id ∈ order then furthest wires id (horizon wires order) else 0 := by
  by_cases hid : id ∈ order
  · obtain ⟨front, back, hsplit⟩ := List.append_of_mem hid
    have hsplit' : order = (front ++ [id]) ++ back := by
      rw [hsplit, List.append_assoc, List.singleton_append]
    -- the wires out of the id lead behind it, where the horizons of the rest of the order are those
    -- of the order
    have hbehind : ∀ wire ∈ wires, wire.source.node = id →
        horizon wires order wire.target.node = horizon wires back wire.target.node := by
      intro wire hwire hsource
      rw [hsplit', horizon_append (horder.not_back hsplit hwire hsource)]
    rw [if_pos hid, furthest_congr hbehind]
    conv_lhs => rw [hsplit]
    rw [horizon_append (horder.not_mem_visited hsplit), horizon, if_pos rfl]
  · rw [if_neg hid, horizon_of_not_mem hid]

/-- A wire out of an id of the order takes its delay off the horizon. -/
theorem le_horizon (horder : TickOrder order wires) {wire : Wire} (hwire : wire ∈ wires)
    (hsource : wire.source.node ∈ order) :
    wire.delay.toNat + horizon wires order wire.target.node
      ≤ horizon wires order wire.source.node := by
  rw [horizon_eq horder wire.source.node, if_pos hsource]
  exact le_furthest hwire _

end WireTime

/-! ## Signals with an end -/

namespace InFlightSignal

/-- A signal is over after the ticks that it has to go, at least one, and those that are left behind
its target. -/
def Within (beyond n : Nat) (signal : InFlightSignal) : Prop :=
  max 1 signal.ticksRemaining.toNat + beyond ≤ n

/-- A tick brings a signal that stays under way closer to its end. -/
theorem Within.age {signal : InFlightSignal} {beyond n : Nat} (h : signal.Within beyond (n + 1))
    (hleft : ¬ signal.age.hasArrived = true) : signal.age.Within beyond n := by
  -- it has not arrived, so it had more than one tick to go
  rw [hasArrived_age] at hleft
  unfold Within at h ⊢
  rw [toNat_ticksRemaining_age]
  omega

/-- What arrives leaves a tick less to those behind it. -/
theorem Within.arrived {signal : InFlightSignal} {beyond n : Nat}
    (h : signal.Within beyond (n + 1)) : beyond ≤ n := by
  unfold Within at h
  omega

end InFlightSignal

namespace WireTime

variable {nodes : NodeMap} {order : List NodeId} {beyond : NodeId → Nat} {now : WireTime} {n : Nat}

/-- Nothing waits, and everything under way is over after so many ticks. What is set off behind an
id is bounded by a function of the id. -/
structure Calm (order : List NodeId) (beyond : NodeId → Nat) (n : Nat) (now : WireTime) : Prop where
  tickOrder : TickOrder order now.wires
  wellFormed : now.state.fanout.WellFormed
  forward : ∀ wire ∈ now.wires, wire.source.node ∈ order →
    wire.delay.toNat + beyond wire.target.node ≤ beyond wire.source.node
  waiting : now.state.triggered = []
  signals : ∀ wire ∈ now.wires, ∀ signal ∈ wire.signals, signal.Within (beyond wire.target.node) n

namespace Calm

/-- In a tick only ids are called behind which everything is over one tick earlier. -/
theorem le_of_called (h : now.Calm order beyond (n + 1)) (nodes : NodeMap) {id : NodeId}
    (hid : id ∈ now.called nodes order) : beyond id ≤ n := by
  -- what is called is the least closed set, so it is enough that these ids are closed under what a
  -- tick does
  have hclosed : CallClosed nodes order now {id | id ∈ order ∧ beyond id ≤ n} := by
    refine ⟨fun id hid => hid.1, fun id _ hwaiting => ?_, fun wire hwire htarget harrivals _ => ?_,
      fun wire hwire _ hsource htarget _ => ⟨htarget, ?_⟩⟩
    · rw [h.waiting] at hwaiting
      exact absurd hwaiting List.not_mem_nil
    · rw [Wire.arrivals_age] at harrivals
      obtain ⟨value, hvalue⟩ := List.exists_mem_of_ne_nil _ harrivals
      obtain ⟨signal, hsignal, -⟩ := List.mem_map.mp hvalue
      have hwithin := h.signals wire hwire signal (List.mem_of_mem_filter hsignal)
      exact ⟨htarget, hwithin.arrived⟩
    · have hforward := h.forward wire hwire hsource.1
      have hbefore : beyond wire.source.node ≤ n := hsource.2
      omega
  exact ((isLeast_called nodes h.wellFormed h.tickOrder).2 hclosed hid).2

/-- **A tick brings everything closer to its end**, what is still under way and what is newly
sent. -/
theorem advance (h : now.Calm order beyond (n + 1)) (nodes : NodeMap) :
    (now.advance nodes order).Calm order beyond n := by
  have hwires := wires_advance nodes h.wellFormed h.tickOrder
  refine ⟨tickOrder_advance nodes h.wellFormed h.tickOrder,
    wellFormed_advance nodes order h.wellFormed, fun wire' hwire' => ?_, rfl,
    fun wire' hwire' signal hsignal => ?_⟩
  · rw [hwires] at hwire'
    obtain ⟨wire, hmem, rfl⟩ := List.mem_map.mp hwire'
    exact h.forward wire hmem
  · rw [hwires] at hwire'
    obtain ⟨wire, hmem, rfl⟩ := List.mem_map.mp hwire'
    rcases List.mem_append.mp hsignal with hold | hnew
    · -- it has been under way before
      rw [Wire.signals_arrive] at hold
      obtain ⟨before, hbefore, rfl⟩ := List.mem_map.mp hold
      obtain ⟨hthere, hleft⟩ := List.mem_filter.mp hbefore
      exact (h.signals wire hmem before hthere).age (by simpa using hleft)
    · split at hnew
      · next hsent =>
        -- it has been sent in this tick, and the wire takes its delay off what is behind the source
        rw [List.mem_singleton] at hnew
        subst hnew
        have hsource := (sublist_called nodes order now).subset hsent.2
        have hforward := h.forward wire hmem hsource
        have hcalled := h.le_of_called nodes hsent.2
        have hpos := Wire.toNat_delay_pos hsent.1
        show max 1 wire.delay.toNat + beyond wire.target.node ≤ n
        omega
      · exact absurd hnew List.not_mem_nil

theorem advanceBy (nodes : NodeMap) (k : Nat) {now : WireTime}
    (h : now.Calm order beyond (n + k)) : (now.advanceBy nodes order k).Calm order beyond n := by
  -- by induction on the ticks
  induction k generalizing now with
  | zero => exact h
  | succ k ih => exact ih (h.advance nodes)

/-- With no ticks left there are no signals left. -/
theorem signals_eq_nil (h : now.Calm order beyond 0) : ∀ wire ∈ now.wires, wire.signals = [] := by
  intro wire hwire
  rw [List.eq_nil_iff_forall_not_mem]
  intro signal hsignal
  have hwithin := h.signals wire hwire signal hsignal
  unfold InFlightSignal.Within at hwithin
  omega

end Calm

/-! ## Stillness -/

/-- Where nothing has been triggered the visits do nothing. -/
theorem visitAll_of_not_triggered (nodes : NodeMap) (order : List NodeId)
    (h : now.state.triggered = []) : order.foldl (visit nodes) now = now := by
  induction order with
  | nil => rfl
  | cons id rest ih =>
    have hid : id ∉ now.state.triggered := by rw [h]; exact List.not_mem_nil
    rw [List.foldl_cons, visit_of_not_triggered hid, ih]

/-- Where nothing is under way and nothing waits, a tick changes nothing. -/
theorem advance_of_still (nodes : NodeMap) (order : List NodeId)
    (hsignals : ∀ wire ∈ now.wires, wire.signals = []) (hwaiting : now.state.triggered = []) :
    (now.advance nodes order).wires = now.wires ∧
      (now.advance nodes order).state.runtimes = now.state.runtimes := by
  have hopened : now.opened nodes = { now with state := { now.state with
      tick := now.state.tick + 1
      fanout := now.state.fanout.refresh now.wires } } := by
    have harrive : arrive nodes { now with state := { now.state with tick := now.state.tick + 1 } }
        = { now with state := { now.state with tick := now.state.tick + 1 } } :=
      Session.arrive_of_empty nodes hsignals
    rw [opened, harrive]
  have hvisited : order.foldl (visit nodes) (now.opened nodes) = now.opened nodes :=
    visitAll_of_not_triggered nodes order (by rw [hopened]; exact hwaiting)
  rw [advance_eq, hvisited, hopened]
  exact ⟨rfl, rfl⟩

theorem advanceBy_of_still (nodes : NodeMap) (order : List NodeId) (k : Nat) {now : WireTime}
    (hsignals : ∀ wire ∈ now.wires, wire.signals = []) (hwaiting : now.state.triggered = []) :
    (now.advanceBy nodes order k).wires = now.wires ∧
      (now.advanceBy nodes order k).state.runtimes = now.state.runtimes := by
  -- by induction on the ticks; the board after one of them is as still as before
  induction k generalizing now with
  | zero => exact ⟨rfl, rfl⟩
  | succ k ih =>
    obtain ⟨hwires, hruntimes⟩ := advance_of_still nodes order hsignals hwaiting
    have hsignals' : ∀ wire ∈ (now.advance nodes order).wires, wire.signals = [] := by
      rw [hwires]
      exact hsignals
    have hlater := ih hsignals' rfl
    exact ⟨hlater.1.trans hwires, hlater.2.trans hruntimes⟩

theorem advanceBy_add (nodes : NodeMap) (order : List NodeId) (m k : Nat) (now : WireTime) :
    now.advanceBy nodes order (m + k) = (now.advanceBy nodes order m).advanceBy nodes order k := by
  induction m generalizing now with
  | zero => rw [Nat.zero_add]; rfl
  | succ m ih =>
    rw [Nat.succ_add]
    exact ih (now.advance nodes order)

/-- **Signals die out.** On a board to which nothing has been injected since the last tick, every
signal under way is gone, with all that it sets off, after the ticks that it has to go and the
longest way behind its target. When that time is over for all of them, the wires are empty, and no
tick changes anything any more. -/
theorem draining (hpending : now.state.Pending []) (nodes : NodeMap)
    (horder : TickOrder order now.wires) {limit : Nat}
    (hlimit : ∀ wire ∈ now.wires, ∀ signal ∈ wire.signals,
      max 1 signal.ticksRemaining.toNat + horizon now.wires order wire.target.node ≤ limit) :
    (∀ id, horizon now.wires order id = if id ∈ order then
      ((now.wires.filter fun wire => wire.source.node = id).map fun wire =>
        wire.delay.toNat + horizon now.wires order wire.target.node).foldr max 0 else 0) ∧
      (∀ wire ∈ (now.advanceBy nodes order limit).wires, wire.signals = []) ∧
      ∀ k,
        let drained := now.advanceBy nodes order limit
        (now.advanceBy nodes order (limit + k)).wires = drained.wires ∧
          (now.advanceBy nodes order (limit + k)).state.runtimes = drained.state.runtimes := by
  have hwaiting : now.state.triggered = [] := by
    rw [List.eq_nil_iff_forall_not_mem]
    intro id hid
    obtain ⟨index, hindex, -⟩ := (hpending.mem_triggered_iff id).mp hid
    exact absurd hindex List.not_mem_nil
  -- the horizon is a bound for what is set off behind an id
  have hcalm : now.Calm order (horizon now.wires order) (0 + limit) := by
    rw [Nat.zero_add]
    exact ⟨horder, hpending.reachable.wellFormed, fun wire hwire => le_horizon horder hwire,
      hwaiting, hlimit⟩
  have hdrained := hcalm.advanceBy nodes limit
  refine ⟨horizon_eq horder, hdrained.signals_eq_nil, fun k => ?_⟩
  rw [advanceBy_add]
  exact advanceBy_of_still nodes order k hdrained.signals_eq_nil hdrained.waiting

/-- Two ways of different length from an inverter to where they meet again, with two signals on the
way to the inverter; one of them has no ticks to go. The signal on the wire back stays without
consequences, since an outside input that is not in the order is never called. -/
def forked : WireTime where
  wires := [
    { Wire.between ⟨"w1"⟩ (.input 0) 0 ⟨"fork"⟩ 0 with delay := 2, signals := [⟨40, 0⟩, ⟨90, 2⟩] },
    (Wire.between ⟨"w2"⟩ ⟨"fork"⟩ 0 ⟨"meet"⟩ 0).withDelay 0,
    (Wire.between ⟨"w3"⟩ ⟨"fork"⟩ 0 ⟨"meet"⟩ 1).withDelay 3,
    (Wire.between ⟨"w4"⟩ ⟨"meet"⟩ 0 (.output 0) 0).withDelay 1,
    { Wire.between ⟨"w5"⟩ ⟨"meet"⟩ 0 (.input 0) 0 with delay := 4, signals := [⟨10, 1⟩] }]
  state := .ofNodes (.ofList [(⟨"fork"⟩, .ofKind ⟨"fork"⟩ .invert), (⟨"meet"⟩, .ofKind ⟨"meet"⟩ .max)])

/-- One tick before the limit there is still a signal under way, on the wire back to the outside
input. At the limit and three ticks after it there is none. -/
theorem draining_forked :
    let nodes : NodeMap :=
      .ofList [(⟨"fork"⟩, .ofKind ⟨"fork"⟩ .invert), (⟨"meet"⟩, .ofKind ⟨"meet"⟩ .max)]
    let order : List NodeId := [⟨"fork"⟩, ⟨"meet"⟩, .output 0]
    forked.state.Pending [] ∧ TickOrder order forked.wires ∧
      horizon forked.wires order ⟨"fork"⟩ = 7 ∧
      (∀ wire ∈ forked.wires, ∀ signal ∈ wire.signals,
        max 1 signal.ticksRemaining.toNat + horizon forked.wires order wire.target.node ≤ 9) ∧
      (forked.advanceBy nodes order 8).wires.map (·.signals.length) = [0, 0, 0, 0, 1] ∧
      ∀ wire ∈ (forked.advanceBy nodes order (9 + 3)).wires, wire.signals = [] := by
  intro nodes order
  have hpending : forked.state.Pending [] := .ofNodes nodes
  have horder : TickOrder order forked.wires := by decide +kernel
  have hlimit : ∀ wire ∈ forked.wires, ∀ signal ∈ wire.signals,
      max 1 signal.ticksRemaining.toNat + horizon forked.wires order wire.target.node ≤ 9 := by
    decide +kernel
  obtain ⟨-, hempty, hstill⟩ := draining hpending nodes horder hlimit
  refine ⟨hpending, horder, by decide +kernel, hlimit, by decide +kernel, ?_⟩
  rw [(hstill 3).1]
  exact hempty

end WireTime
end SignalBoard
