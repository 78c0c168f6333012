import SignalBoard.Proofs.Tick.Visit

/-!
# Signals under way

A wire has one delay, so nothing is overtaken on it: its signals arrive in the order in which they
have been sent (`Wire.Orderly`). What a wire has to say is the value that was sent last
(`Wire.newest`), which is either still under way or what its target port holds.

* `Orderly.sendFrom`, `newest_sendFrom`: a call of the node at the source puts its output there.
* `Orderly.arrive`, `Orderly.newest_arrive`: an arrival takes it from the wire to the port.
* `valueAt_received_arriving`: what a port holds after the arrivals, where one wire alone leads into
  it.
-/

namespace SignalBoard

open Signal

namespace InFlightSignal

/-- A signal comes one tick closer, down to zero. -/
theorem toNat_ticksRemaining_age (signal : InFlightSignal) :
    signal.age.ticksRemaining.toNat = signal.ticksRemaining.toNat - 1 := by
  unfold age
  by_cases hzero : signal.ticksRemaining = 0
  · simp only [if_pos hzero]
    rw [hzero]
    rfl
  · simp only [if_neg hzero]
    have hpos : 0 < signal.ticksRemaining.toNat :=
      UInt32.lt_iff_toNat_lt.mp (UInt32.pos_iff_ne_zero.mpr hzero)
    apply UInt32.toNat_sub_of_le
    rw [UInt32.le_iff_toNat_le]
    exact hpos

/-- What arrives in the next tick. -/
theorem hasArrived_age (signal : InFlightSignal) :
    signal.age.hasArrived = true ↔ signal.ticksRemaining.toNat ≤ 1 := by
  have hage := toNat_ticksRemaining_age signal
  rw [hasArrived, decide_eq_true_eq, ← UInt32.toNat_inj, hage]
  show signal.ticksRemaining.toNat - 1 = 0 ↔ _
  omega

end InFlightSignal

namespace Wire

/-- The wire without what is under way on it. -/
def emptied (wire : Wire) : Wire :=
  { wire with signals := [] }

/-- What is under way arrives after the present tick, in the order in which it has been sent. -/
structure Orderly (wire : Wire) : Prop where
  sorted : wire.signals.Pairwise fun s t => s.ticksRemaining.toNat ≤ t.ticksRemaining.toNat
  due : ∀ s ∈ wire.signals, 0 < s.ticksRemaining ∧ s.ticksRemaining.toNat ≤ wire.delay.toNat

/-- The value sent last: on its way, or else the one that has been delivered. -/
def newest (wire : Wire) (delivered : Binary64) : Binary64 :=
  match wire.signals.getLast? with
  | some signal => clamp signal.value
  | none => delivered

variable {wire : Wire}

theorem emptied_of_empty (h : wire.signals = []) : wire.emptied = wire := by
  unfold emptied
  rw [← h]

theorem orderly_of_empty (h : wire.signals = []) : wire.Orderly where
  sorted := by rw [h]; exact List.Pairwise.nil
  due := by rw [h]; exact fun _ hs => absurd hs List.not_mem_nil

/-- On an empty wire the newest value is the one that has been delivered. -/
theorem newest_of_empty (h : wire.signals = []) (delivered : Binary64) :
    wire.newest delivered = delivered := by
  unfold newest
  rw [h]
  rfl

/-- A delay that is not zero is at least one tick. -/
theorem toNat_delay_pos (hdelay : wire.delay ≠ 0) : 0 < wire.delay.toNat :=
  Nat.pos_of_ne_zero fun hzero => hdelay (UInt32.toNat_inj.mp hzero)

/-- Nothing is ever under way on a wire without delay. -/
theorem Orderly.signals_eq_nil (h : wire.Orderly) (hdelay : wire.delay = 0) :
    wire.signals = [] := by
  rw [List.eq_nil_iff_forall_not_mem]
  intro s hs
  obtain ⟨hpos, hle⟩ := h.due s hs
  rw [hdelay] at hle
  have hlt : 0 < s.ticksRemaining.toNat := UInt32.lt_iff_toNat_lt.mp hpos
  have hzero : (0 : UInt32).toNat = 0 := rfl
  omega

/-! ## Sending -/

@[simp] theorem emptied_sendFrom (id : NodeId) (outputs : List Binary64) (wire : Wire) :
    (wire.sendFrom id outputs).emptied = wire.emptied := by
  unfold sendFrom
  split <;> rfl

/-- A wire stays orderly when something is sent off: what is sent now has the longest way. -/
theorem Orderly.sendFrom (h : wire.Orderly) (id : NodeId) (outputs : List Binary64) :
    (wire.sendFrom id outputs).Orderly := by
  unfold Wire.sendFrom
  split
  · next hsend =>
    have hdelay : 0 < wire.delay := by
      rw [UInt32.pos_iff_ne_zero]
      exact hsend.2
    constructor
    · show (wire.signals ++ [_]).Pairwise _
      -- the new signal comes last, and nothing before it has further to go than the delay
      rw [List.pairwise_append]
      refine ⟨h.sorted, List.pairwise_singleton _ _, fun s hs t ht => ?_⟩
      rw [List.mem_singleton.mp ht]
      exact (h.due s hs).2
    · intro s hs
      rcases List.mem_append.mp hs with hs | hs
      · exact h.due s hs
      · rw [List.mem_singleton.mp hs]
        exact ⟨hdelay, le_rfl⟩
  · exact h

/-- A call of the node at the source puts its output on a wire with delay. -/
theorem newest_sendFrom (hdelay : wire.delay ≠ 0) (outputs : List Binary64)
    (delivered : Binary64) :
    (wire.sendFrom wire.source.node outputs).newest delivered
      = clamp (Signal.valueAt outputs wire.source.port.toNat) := by
  unfold sendFrom newest
  rw [if_pos ⟨rfl, hdelay⟩]
  show (match (wire.signals ++ [_]).getLast? with
    | some signal => clamp signal.value
    | none => delivered) = _
  rw [List.getLast?_concat]

/-- A call of another node sends nothing off. -/
theorem sendFrom_of_ne {id : NodeId} (h : wire.source.node ≠ id) (outputs : List Binary64) :
    wire.sendFrom id outputs = wire :=
  if_neg fun hsend => h hsend.1

/-- On a wire without delay nothing is sent off. -/
theorem sendFrom_of_instant {id : NodeId} (h : wire.delay = 0) (outputs : List Binary64) :
    wire.sendFrom id outputs = wire :=
  if_neg fun hsend => hsend.2 h

/-! ## Arriving -/

/-- What is left on a wire after an arrival, one tick closer. -/
theorem signals_arrive (wire : Wire) : wire.age.clearArrivals.signals
    = (wire.signals.filter fun s => !s.age.hasArrived).map InFlightSignal.age := by
  show (wire.signals.map InFlightSignal.age).filter _ = _
  rw [List.filter_map]
  rfl

/-- What arrives on a wire, in the order in which it was sent. -/
theorem arrivals_age (wire : Wire) : wire.age.arrivals
    = (wire.signals.filter fun s => s.age.hasArrived).map (·.value) := by
  show ((wire.signals.map InFlightSignal.age).filter _).map _ = _
  rw [List.filter_map, List.map_map]
  rfl

theorem Orderly.arrive (h : wire.Orderly) : wire.age.clearArrivals.Orderly := by
  constructor
  · rw [signals_arrive, List.pairwise_map]
    refine (h.sorted.filter _).imp fun hle => ?_
    rw [InFlightSignal.toNat_ticksRemaining_age, InFlightSignal.toNat_ticksRemaining_age]
    omega
  · -- what is left was more than one tick away
    intro s' hs'
    rw [signals_arrive] at hs'
    obtain ⟨s, hs, rfl⟩ := List.mem_map.mp hs'
    obtain ⟨hmem, hleft⟩ := List.mem_filter.mp hs
    obtain ⟨-, hle⟩ := h.due s hmem
    have hage := InFlightSignal.toNat_ticksRemaining_age s
    have hlate : ¬ s.ticksRemaining.toNat ≤ 1 := by
      rw [← InFlightSignal.hasArrived_age]
      simpa using hleft
    refine ⟨?_, ?_⟩
    · rw [UInt32.lt_iff_toNat_lt, hage]
      show 0 < _
      omega
    · rw [hage]
      show _ ≤ wire.delay.toNat
      omega

/-- **Nothing is overtaken**: what was sent last is still under way after an arrival, or it has
arrived last. -/
theorem Orderly.newest_arrive (h : wire.Orderly) (delivered : Binary64) :
    wire.age.clearArrivals.newest (match wire.age.arrivals.getLast? with
      | some value => clamp value
      | none => delivered) = wire.newest delivered := by
  unfold newest
  rw [signals_arrive, arrivals_age]
  rcases List.eq_nil_or_concat wire.signals with hnil | ⟨front, last, hconcat⟩
  · rw [hnil]
    rfl
  · have hsorted := h.sorted
    have hdue := h.due
    rw [hconcat, List.concat_eq_append] at hsorted hdue ⊢
    rw [List.getLast?_concat, List.filter_append, List.filter_append]
    by_cases hlast : last.age.hasArrived = true
    · -- then everything before it has arrived as well
      have hfront : front.filter (fun s => !s.age.hasArrived) = [] := by
        rw [List.filter_eq_nil_iff]
        intro s hs
        have hle := (List.pairwise_append.mp hsorted).2.2 s hs last (List.mem_singleton_self _)
        rw [InFlightSignal.hasArrived_age] at hlast
        have harrived : s.age.hasArrived = true := by
          rw [InFlightSignal.hasArrived_age]
          omega
        simp [harrived]
      simp [hfront, hlast]
    · have hleft : last.age.hasArrived = false := by simpa using hlast
      simp [hleft]
      rfl

end Wire

namespace WireTime

open NodeRuntime

/-- What arrives comes along some wire, and is for its target. -/
theorem mem_arriving {wires : List Wire} {d : PortRef × Binary64} :
    d ∈ arriving wires ↔ ∃ wire ∈ wires, ∃ value ∈ wire.age.arrivals, d = (wire.target, value) := by
  unfold arriving
  simp only [List.mem_flatMap, List.mem_map, eq_comm]

/-- Where one wire alone leads into a port, what arrives on this wire is what arrives there. -/
theorem filter_arriving {wires : List Wire}
    (hsingle : (wires.map fun wire => (wire.target.node, wire.target.port)).Nodup) {wire : Wire}
    (hwire : wire ∈ wires) :
    (arriving wires).filter (isFor wire.target.node wire.target.port.toNat)
      = wire.age.arrivals.map fun value => (wire.target, value) := by
  induction wires with
  | nil => exact absurd hwire List.not_mem_nil
  | cons first rest ih =>
    rw [List.map_cons, List.nodup_cons] at hsingle
    obtain ⟨hfirst, hrest⟩ := hsingle
    have hcons : arriving (first :: rest)
        = first.age.arrivals.map (fun value => (first.target, value)) ++ arriving rest :=
      List.flatMap_cons
    rw [hcons, List.filter_append]
    -- all arrivals of the wire itself are for the port, and none of any other wire
    rcases List.mem_cons.mp hwire with rfl | hmem
    · have hown : (wire.age.arrivals.map fun value => (wire.target, value)).filter
          (isFor wire.target.node wire.target.port.toNat)
            = wire.age.arrivals.map fun value => (wire.target, value) := by
        rw [List.filter_eq_self]
        intro d hd
        obtain ⟨value, -, rfl⟩ := List.mem_map.mp hd
        simp [isFor]
      have hothers : (arriving rest).filter (isFor wire.target.node wire.target.port.toNat)
          = [] := by
        rw [List.filter_eq_nil_iff]
        intro d hd hfor
        obtain ⟨other, hother, value, -, rfl⟩ := mem_arriving.mp hd
        simp only [isFor, Bool.and_eq_true, decide_eq_true_eq] at hfor
        apply hfirst
        rw [List.mem_map]
        exact ⟨other, hother, Prod.ext hfor.1 (UInt64.toNat_inj.mp hfor.2)⟩
      rw [hown, hothers, List.append_nil]
    · have hnone : (first.age.arrivals.map fun value => (first.target, value)).filter
          (isFor wire.target.node wire.target.port.toNat) = [] := by
        rw [List.filter_eq_nil_iff]
        intro d hd hfor
        obtain ⟨value, -, rfl⟩ := List.mem_map.mp hd
        simp only [isFor, Bool.and_eq_true, decide_eq_true_eq] at hfor
        apply hfirst
        rw [List.mem_map]
        exact ⟨wire, hmem, Prod.ext hfor.1.symm (UInt64.toNat_inj.mp hfor.2.symm)⟩
      rw [hnone, List.nil_append]
      exact ih hrest hmem

/-- After the arrivals a port with one wire into it holds the last value that arrived on the wire,
or what it held before. -/
theorem valueAt_received_arriving {wires : List Wire}
    (hsingle : (wires.map fun wire => (wire.target.node, wire.target.port)).Nodup) {wire : Wire}
    (hwire : wire ∈ wires) {inputs : List Binary64}
    (hport : wire.target.port.toNat < inputs.length) :
    Signal.valueAt (received wire.target.node (arriving wires) inputs) wire.target.port.toNat
      = match wire.age.arrivals.getLast? with
        | some value => clamp value
        | none => Signal.valueAt inputs wire.target.port.toNat := by
  have hfilter := filter_arriving hsingle hwire
  cases hlast : wire.age.arrivals.getLast? with
  | some value =>
    apply valueAt_received_of_last (d := (wire.target, value)) hport
    rw [hfilter, List.getLast?_map, hlast]
    rfl
  | none =>
    apply valueAt_received_of_none
    intro d hd hnode hp
    have hmem : d ∈ (arriving wires).filter (isFor wire.target.node wire.target.port.toNat) := by
      rw [List.mem_filter]
      exact ⟨hd, by simp [isFor, hnode, hp]⟩
    rw [hfilter, List.getLast?_eq_none_iff.mp hlast] at hmem
    exact absurd hmem List.not_mem_nil

end WireTime
end SignalBoard
