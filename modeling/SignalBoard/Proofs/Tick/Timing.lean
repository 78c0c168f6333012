import SignalBoard.Proofs.Tick.Lockstep
import SignalBoard.Proofs.Tick.Travel

/-!
# When signals arrive

What is on a wire is given by when it came there. A signal found with `r` ticks to go is on the wire
for `max 1 r` ticks and arrives in the last of them; what a node gives out in a tick is put behind
everything else, as far away as the wire is long. Nothing else ever happens to a wire.

```lean
theorem timing (hstart : start.state.Reachable) (hnodup : ∀ t, (turns t).order.Nodup) (n : Nat) :
    (start.after turns n).wires = start.wires.map fun wire =>
      { wire with signals := onWay (start.passages turns wire n) n } ∧ …
```

* `Passage`: one signal's way along a wire.
* `calls`: the calls of a tick. These alone put signals on wires (`wires_visitAll`), and apart from
  the arrivals nothing but wires without delay delivers anything (`state_visitAll`).
* `clearArrivals_onWay`, `arrivals_onWay`, `onWay_succ`: what one tick does to the passages of a
  wire.
-/

namespace SignalBoard

/-! ## Runs -/

namespace TickState

/-- The states that a board comes to, whatever is done with it in whatever order. -/
inductive Reachable : TickState → Prop where
  | ofNodes (nodes : NodeMap) : Reachable (.ofNodes nodes)
  | ofNodesWith (nodes : NodeMap) (library : Library) : Reachable (.ofNodesWith nodes library)
  | inject {state : TickState} (index : UInt64) (value : Binary64) (h : Reachable state) :
      Reachable (state.inject index value)
  | attach {state : TickState} (id : NodeId) (component : Component) (h : Reachable state) :
      Reachable (state.attach id component)
  | advance {now : WireTime} (nodes : NodeMap) (order : List NodeId) (h : Reachable now.state) :
      Reachable (now.advance nodes order).state

/-- To attach something does not touch the table of wires. -/
theorem fanout_attach (state : TickState) (id : NodeId) (component : Component) :
    (state.attach id component).fanout = state.fanout := by
  rw [attach]
  split <;> rfl

/-- The table of wires by source is the one for the sources that it remembers. By induction on what
has been done with the board: a tick leaves the table for its own wires, and nothing else touches
it. -/
theorem Reachable.coherent {state : TickState} (h : state.Reachable) : state.fanout.Coherent := by
  induction h with
  | ofNodes nodes => rfl
  | ofNodesWith nodes library =>
    rw [(idle_ofNodesWith nodes library).1]
    rfl
  | inject index value _ ih => rwa [fanout_inject]
  | attach id component _ ih => rwa [fanout_attach]
  | advance nodes order _ ih => exact WireTime.coherent_advance nodes order ih

/-- So it is never wrong, only out of date. -/
theorem Reachable.wellFormed {state : TickState} (h : state.Reachable) :
    state.fanout.WellFormed :=
  h.coherent.wellFormed

/-- Injections lead from states that can be reached to such states. -/
theorem Reachable.injectAll {state : TickState} (h : state.Reachable)
    (round : List (UInt64 × Binary64)) : (state.injectAll round).Reachable := by
  -- by induction on the injections, the last one first
  induction round using List.reverseRecOn with
  | nil => exact h
  | append_singleton round injection ih =>
    rw [injectAll_concat]
    exact .inject _ _ ih

end TickState

/-- A tick as it is asked for: what is injected before it, the nodes and the order to go through
them. -/
structure Turn where
  injections : List (UInt64 × Binary64)
  nodes : NodeMap
  order : List NodeId

namespace WireTime

/-- Where the tick of a turn starts, with the injections made. -/
def injected (now : WireTime) (turn : Turn) : WireTime :=
  { now with state := now.state.injectAll turn.injections }

/-- A turn up to the first visit. -/
def opening (now : WireTime) (turn : Turn) : WireTime :=
  (now.injected turn).opened turn.nodes

def play (now : WireTime) (turn : Turn) : WireTime :=
  (now.injected turn).advance turn.nodes turn.order

/-- After so many turns. Between them nobody touches the wires. -/
def after (start : WireTime) (turns : Nat → Turn) : Nat → WireTime
  | 0 => start
  | n + 1 => (start.after turns n).play (turns n)

theorem reachable_after {start : WireTime} (h : start.state.Reachable) (turns : Nat → Turn)
    (n : Nat) : (start.after turns n).state.Reachable := by
  induction n with
  | zero => exact h
  | succ n ih => exact .advance _ _ (ih.injectAll _)

/-- Before the visits of a turn the wires have grown older by a tick and what has arrived is off
them. -/
theorem wires_opening (now : WireTime) (turn : Turn) :
    (now.opening turn).wires = now.wires.map fun wire => wire.age.clearArrivals :=
  wires_opened turn.nodes (now.injected turn)

/-- When the visits begin the table of wires is that of the wires as they are. -/
theorem upToDate_opening {start : WireTime} (h : start.state.Reachable) (turns : Nat → Turn)
    (n : Nat) : ((start.after turns n).opening (turns n)).state.fanout.UpToDate
      ((start.after turns n).opening (turns n)).wires :=
  upToDate_opened _ ((reachable_after h turns n).injectAll _).wellFormed

/-! ## Calls -/

/-- The calls in visiting ids one after the other: who is called and what it gives out. -/
def calls (nodes : NodeMap) : List NodeId → WireTime → List (NodeId × List Binary64)
  | [], _ => []
  | id :: rest, now =>
    if id ∈ now.state.triggered then
      (id, ((now.state.runtime nodes id).fire (nodes.get? id)).outputs)
        :: calls nodes rest (now.visit nodes id)
    else calls nodes rest now

/-- Ids are called in their order, and none of them without having been triggered. -/
theorem sublist_calls (nodes : NodeMap) (order : List NodeId) (now : WireTime) :
    ((calls nodes order now).map Prod.fst).Sublist order := by
  induction order generalizing now with
  | nil => exact List.Sublist.refl _
  | cons id rest ih =>
    rw [calls]
    split
    · exact (ih _).cons_cons id
    · exact (ih _).cons id

/-- A wire changes with every call of its source. -/
theorem wires_visitAll (nodes : NodeMap) (order : List NodeId) {now : WireTime}
    (h : now.state.fanout.UpToDate now.wires) :
    (order.foldl (visit nodes) now).wires = now.wires.map fun wire =>
      (calls nodes order now).foldl (fun wire call => wire.sendFrom call.1 call.2) wire := by
  -- by induction on the visits; a visit without a call does not touch the wires
  induction order generalizing now with
  | nil => exact (List.map_id _).symm
  | cons id rest ih =>
    rw [List.foldl_cons, ih (upToDate_visit nodes id h), calls]
    by_cases htriggered : id ∈ now.state.triggered
    · rw [if_pos htriggered, wires_visit nodes htriggered h, List.map_map]
      rfl
    · rw [if_neg htriggered, visit_of_not_triggered htriggered]

/-- What wires deliver at once has nothing to do with what is under way on them. -/
theorem immediate_map_sendFrom (id id' : NodeId) (outputs outputs' : List Binary64)
    (wires : List Wire) :
    Wire.immediate id outputs (wires.map (Wire.sendFrom id' outputs'))
      = Wire.immediate id outputs wires := by
  simp only [Wire.immediate, List.filter_map, List.map_map, Function.comp_def,
    Wire.source_sendFrom, Wire.target_sendFrom, Wire.delay_sendFrom]

/-- Every call fires its node and delivers along the wires without delay, and nothing else. -/
theorem state_visitAll (nodes : NodeMap) (order : List NodeId) {now : WireTime}
    (h : now.state.fanout.UpToDate now.wires) :
    (order.foldl (visit nodes) now).state = (calls nodes order now).foldl
      (fun state call => (state.fire nodes call.1).deliverAll nodes
        (Wire.immediate call.1 call.2 now.wires)) now.state := by
  induction order generalizing now with
  | nil => rfl
  | cons id rest ih =>
    rw [List.foldl_cons, ih (upToDate_visit nodes id h), calls]
    by_cases htriggered : id ∈ now.state.triggered
    · rw [if_pos htriggered, visit_of_triggered htriggered h, List.foldl_cons]
      simp only [immediate_map_sendFrom]
    · rw [if_neg htriggered, visit_of_not_triggered htriggered]

/-- What some calls put on a wire: nothing without delay or without a call of its source, and the
value on its source port otherwise. -/
def sent? (called : List (NodeId × List Binary64)) (wire : Wire) : Option Binary64 :=
  if wire.delay = 0 then none
  else (called.find? fun call => call.1 = wire.source.node).map fun call =>
    Signal.valueAt call.2 wire.source.port.toNat

/-- Calls that do not concern a wire leave it alone. -/
theorem foldl_sendFrom_eq_self {called : List (NodeId × List Binary64)} {wire : Wire}
    (h : ∀ call ∈ called, wire.sendFrom call.1 call.2 = wire) :
    called.foldl (fun wire call => wire.sendFrom call.1 call.2) wire = wire := by
  induction called with
  | nil => rfl
  | cons call rest ih =>
    rw [List.foldl_cons, h call List.mem_cons_self]
    exact ih fun call' hcall' => h call' (List.mem_cons_of_mem _ hcall')

/-- Nobody is called twice, so at most one value goes onto a wire, behind everything else. -/
theorem foldl_sendFrom {called : List (NodeId × List Binary64)}
    (hnodup : (called.map Prod.fst).Nodup) (wire : Wire) :
    called.foldl (fun wire call => wire.sendFrom call.1 call.2) wire
      = { wire with signals := wire.signals ++
          (sent? called wire).toList.map fun value => ⟨value, wire.delay⟩ } := by
  by_cases hdelay : wire.delay = 0
  · rw [foldl_sendFrom_eq_self fun _ _ => Wire.sendFrom_of_instant hdelay _, sent?, if_pos hdelay]
    simp
  · rw [sent?, if_neg hdelay]
    -- the source has not been called, or it has been called just once
    cases hfind : called.find? fun call => call.1 = wire.source.node with
    | none =>
      have hothers : ∀ call ∈ called, wire.sendFrom call.1 call.2 = wire := by
        intro call hcall
        refine Wire.sendFrom_of_ne (fun heq => ?_) _
        exact (List.find?_eq_none.mp hfind) call hcall (by simp [heq])
      rw [foldl_sendFrom_eq_self hothers]
      simp
    | some call =>
      obtain ⟨hcall, front, back, rfl, hfront⟩ := List.find?_eq_some_iff_append.mp hfind
      have hsource : wire.source.node = call.1 := (of_decide_eq_true hcall).symm
      have hbefore : ∀ other ∈ front, wire.sendFrom other.1 other.2 = wire := by
        intro other hother
        refine Wire.sendFrom_of_ne (fun heq => ?_) _
        have hnot := hfront other hother
        simp [heq] at hnot
      -- the source has been called already, so the calls after it leave the wire alone
      have hafter : ∀ other ∈ back, (wire.sendFrom call.1 call.2).sendFrom other.1 other.2
          = wire.sendFrom call.1 call.2 := by
        intro other hother
        refine Wire.sendFrom_of_ne (fun heq => ?_) _
        rw [Wire.source_sendFrom, hsource] at heq
        rw [List.map_append, List.map_cons, List.nodup_append] at hnodup
        refine (List.nodup_cons.mp hnodup.2.1).1 ?_
        rw [heq]
        exact List.mem_map_of_mem hother
      rw [List.foldl_append, foldl_sendFrom_eq_self hbefore, List.foldl_cons,
        foldl_sendFrom_eq_self hafter, Wire.sendFrom, if_pos ⟨hsource, hdelay⟩]
      rfl

end WireTime

/-! ## Passages -/

/-- The way of a signal along a wire. -/
structure Passage where
  /-- How many ticks there had been when it was first on the wire. -/
  since : Nat
  /-- What it was then. -/
  signal : InFlightSignal

namespace Passage

/-- The number of the tick in which the signal arrives. A signal without any ticks to go still needs
one. -/
def arrival (passage : Passage) : Nat :=
  passage.since + max 1 passage.signal.ticksRemaining.toNat

/-- The signal after so many ticks. -/
def current (passage : Passage) (n : Nat) : InFlightSignal :=
  { passage.signal with
    ticksRemaining := .ofNat (passage.signal.ticksRemaining.toNat - (n - passage.since)) }

/-- A signal has come as many ticks closer as have passed. -/
theorem toNat_current (passage : Passage) (n : Nat) :
    (passage.current n).ticksRemaining.toNat
      = passage.signal.ticksRemaining.toNat - (n - passage.since) := by
  have hbound : passage.signal.ticksRemaining.toNat < UInt32.size := UInt32.toNat_lt _
  exact UInt32.toNat_ofNat_of_lt' (by omega)

theorem current_since (passage : Passage) : passage.current passage.since = passage.signal := by
  simp [current]

theorem age_current (passage : Passage) {n : Nat} (h : passage.since ≤ n) :
    (passage.current n).age = passage.current (n + 1) := by
  have hage := InFlightSignal.toNat_ticksRemaining_age (passage.current n)
  have hnow := passage.toNat_current n
  have hnext := passage.toNat_current (n + 1)
  have hticks : (passage.current n).age.ticksRemaining
      = (passage.current (n + 1)).ticksRemaining := UInt32.toNat_inj.mp (by omega)
  exact congrArg (InFlightSignal.mk passage.signal.value) hticks

/-- Among the signals on a wire those arrive in a tick whose arrival it is. -/
theorem hasArrived_current (passage : Passage) {n : Nat} (hsince : passage.since ≤ n)
    (hleft : n < passage.arrival) :
    (passage.current n).age.hasArrived = true ↔ passage.arrival = n + 1 := by
  rw [InFlightSignal.hasArrived_age, toNat_current]
  unfold arrival at hleft ⊢
  omega

end Passage

/-- What is under way after so many ticks. -/
def onWay (passages : List Passage) (n : Nat) : List InFlightSignal :=
  (passages.filter fun passage => n < passage.arrival).map fun passage => passage.current n

/-- What arrives in a tick. -/
def due (passages : List Passage) (n : Nat) : List Binary64 :=
  (passages.filter fun passage => passage.arrival = n).map fun passage => passage.signal.value

section

variable {passages : List Passage} {n : Nat} (hsince : ∀ passage ∈ passages, passage.since ≤ n)

include hsince

/-- In the next tick what is due leaves the wire, and everything else stays in its place. -/
theorem clearArrivals_onWay :
    ((onWay passages n).filter fun signal => !signal.age.hasArrived).map InFlightSignal.age
      = onWay passages (n + 1) := by
  -- a passage is still under way in the next tick just if it is now and does not arrive in it
  have hkept : ∀ passage ∈ passages, ((!(passage.current n).age.hasArrived) &&
      decide (n < passage.arrival)) = decide (n + 1 < passage.arrival) := by
    intro passage hmem
    by_cases hleft : n < passage.arrival
    · have harrived := passage.hasArrived_current (hsince passage hmem) hleft
      rw [Bool.eq_iff_iff]
      simp only [Bool.and_eq_true, Bool.not_eq_true', decide_eq_true_eq, hleft, and_true,
        ← Bool.not_eq_true, harrived]
      omega
    · have hpast : ¬ n + 1 < passage.arrival := by omega
      simp [hleft, hpast]
  unfold onWay
  rw [List.filter_map, List.map_map, List.filter_filter]
  simp only [Function.comp_apply]
  rw [List.filter_congr hkept]
  refine List.map_congr_left fun passage hmem => ?_
  exact passage.age_current (hsince passage (List.mem_of_mem_filter hmem))

/-- What leaves the wire are the values that are due. -/
theorem arrivals_onWay :
    ((onWay passages n).filter fun signal => signal.age.hasArrived).map (·.value)
      = due passages (n + 1) := by
  have hleaves : ∀ passage ∈ passages, ((passage.current n).age.hasArrived &&
      decide (n < passage.arrival)) = decide (passage.arrival = n + 1) := by
    intro passage hmem
    by_cases hleft : n < passage.arrival
    · have harrived := passage.hasArrived_current (hsince passage hmem) hleft
      rw [Bool.eq_iff_iff]
      simp only [Bool.and_eq_true, decide_eq_true_eq, hleft, and_true, harrived]
    · have hpast : ¬ passage.arrival = n + 1 := by omega
      simp [hleft, hpast]
  unfold onWay due
  rw [List.filter_map, List.map_map, List.filter_filter]
  simp only [Function.comp_apply]
  rw [List.filter_congr hleaves]
  rfl

end

namespace WireTime

/-- The calls of a turn. -/
def callsIn (now : WireTime) (turn : Turn) : List (NodeId × List Binary64) :=
  calls turn.nodes turn.order (now.opening turn)

/-- The passages on a wire in so many turns: those of the signals found on it, and one for every
value that is put on it. -/
def passages (start : WireTime) (turns : Nat → Turn) (wire : Wire) : Nat → List Passage
  | 0 => wire.signals.map fun signal => ⟨0, signal⟩
  | n + 1 => start.passages turns wire n ++
      (sent? ((start.after turns n).callsIn (turns n)) wire).toList.map fun value =>
        ⟨n + 1, ⟨value, wire.delay⟩⟩

variable {start : WireTime} {turns : Nat → Turn}

/-- No passage begins after the present tick. -/
theorem since_le (wire : Wire) (n : Nat) :
    ∀ passage ∈ start.passages turns wire n, passage.since ≤ n := by
  -- by induction on the ticks: a new passage begins in the tick in which its value is put on the
  -- wire
  induction n with
  | zero =>
    intro passage hmem
    obtain ⟨signal, -, rfl⟩ := List.mem_map.mp hmem
    exact Nat.le_refl 0
  | succ n ih =>
    intro passage hmem
    rcases List.mem_append.mp hmem with hold | hnew
    · exact Nat.le_succ_of_le (ih passage hold)
    · obtain ⟨value, -, rfl⟩ := List.mem_map.mp hnew
      exact Nat.le_refl _

/-- All signals that are found on a wire are under way, as they are. -/
theorem onWay_zero (wire : Wire) : onWay (start.passages turns wire 0) 0 = wire.signals := by
  have hall : ∀ signal ∈ wire.signals, decide (0 < (Passage.mk 0 signal).arrival) = true := by
    intro signal _
    rw [decide_eq_true_eq]
    unfold Passage.arrival
    omega
  rw [passages, onWay, List.filter_map, List.map_map, Function.comp_def, Function.comp_def,
    List.filter_eq_self.mpr hall]
  exact (List.map_congr_left fun signal _ => Passage.current_since ⟨0, signal⟩).trans
    (List.map_id _)

/-- A value that has just been put on a wire is behind everything else, with its whole way to go. -/
theorem onWay_succ (wire : Wire) (n : Nat) :
    onWay (start.passages turns wire (n + 1)) (n + 1)
      = onWay (start.passages turns wire n) (n + 1) ++
        (sent? ((start.after turns n).callsIn (turns n)) wire).toList.map fun value =>
          ⟨value, wire.delay⟩ := by
  rw [passages, onWay, List.filter_append, List.map_append, ← onWay]
  congr 1
  cases sent? ((start.after turns n).callsIn (turns n)) wire with
  | none => rfl
  | some value =>
    have hleft : n + 1 < (Passage.mk (n + 1) ⟨value, wire.delay⟩).arrival := by
      unfold Passage.arrival
      simp only
      omega
    simp [hleft, Passage.current]

/-- What is on the wires after so many ticks, by induction on their number. -/
theorem wires_after (hstart : start.state.Reachable) (hnodup : ∀ t, (turns t).order.Nodup)
    (n : Nat) : (start.after turns n).wires = start.wires.map fun wire =>
      { wire with signals := onWay (start.passages turns wire n) n } := by
  -- in a tick what is due leaves, and what the source has given out comes behind the rest
  induction n with
  | zero =>
    refine (List.map_id _).symm.trans (List.map_congr_left fun wire _ => ?_)
    rw [onWay_zero]
    rfl
  | succ n ih =>
    have hcalled := (sublist_calls (turns n).nodes (turns n).order
      ((start.after turns n).opening (turns n))).nodup (hnodup n)
    show ((turns n).order.foldl (visit (turns n).nodes)
      ((start.after turns n).opening (turns n))).wires = _
    rw [wires_visitAll _ _ (upToDate_opening hstart turns n), wires_opening, ih, List.map_map,
      List.map_map]
    refine List.map_congr_left fun wire _ => ?_
    simp only [Function.comp_apply]
    rw [foldl_sendFrom hcalled, Wire.signals_arrive, clearArrivals_onWay (since_le wire n),
      onWay_succ]
    rfl

/-- What arrives in a tick, wire by wire and in the order in which it came there. -/
theorem arriving_after (hstart : start.state.Reachable) (hnodup : ∀ t, (turns t).order.Nodup)
    (n : Nat) : arriving (start.after turns n).wires = start.wires.flatMap fun wire =>
      (due (start.passages turns wire n) (n + 1)).map fun value => (wire.target, value) := by
  rw [wires_after hstart hnodup, arriving, List.flatMap_map]
  refine List.flatMap_congr fun wire _ => ?_
  rw [Wire.arrivals_age, arrivals_onWay (since_le wire n)]

/-- **Signals take the time of their wire.** However much else is under way, after `n` ticks a wire
carries just the signals that are to arrive later than in tick `n`, in the order in which they came
there. Those whose arrival is tick `n + 1` are delivered in it, once each, before anything is
called; the calls of that tick deliver nothing but what wires without delay pass on. As a wire may
carry anything at the start and every state that can be reached will do, the start may be any moment
between two ticks. -/
theorem timing (hstart : start.state.Reachable) (hnodup : ∀ t, (turns t).order.Nodup) (n : Nat) :
    let now := start.after turns n
    now.wires = start.wires.map (fun wire =>
        { wire with signals := onWay (start.passages turns wire n) n }) ∧
      (∀ state, ((⟨now.wires, state⟩ : WireTime).arrive (turns n).nodes).state =
        state.deliverAll (turns n).nodes (start.wires.flatMap fun wire =>
          (due (start.passages turns wire n) (n + 1)).map fun value => (wire.target, value))) ∧
      (start.after turns (n + 1)).state = { (now.callsIn (turns n)).foldl
        (fun state call => (state.fire (turns n).nodes call.1).deliverAll (turns n).nodes
          (Wire.immediate call.1 call.2 start.wires)) (now.opening (turns n)).state with
        triggered := [] } := by
  intro now
  have hwires := wires_after hstart hnodup n
  -- the wires, the arrivals of the next tick, and the deliveries of its calls
  refine ⟨hwires, fun state => ?_, ?_⟩
  · rw [arrive_eq]
    simp only
    rw [arriving_after hstart hnodup]
  · have himmediate : ∀ id outputs, Wire.immediate id outputs (now.opening (turns n)).wires
        = Wire.immediate id outputs start.wires := by
      intro id outputs
      rw [wires_opening, hwires, List.map_map, Wire.immediate, List.filter_map, List.map_map]
      rfl
    have hfound : (now.opening (turns n)).state.fanout.UpToDate (now.opening (turns n)).wires :=
      upToDate_opening hstart turns n
    have hvisited := state_visitAll (turns n).nodes (turns n).order hfound
    simp only [himmediate] at hvisited
    show { ((turns n).order.foldl (visit (turns n).nodes) (now.opening (turns n))).state with
      triggered := [] } = _
    rw [hvisited]
    rfl

/-- An inverter behind a wire on which three signals are found; one of them has no ticks to go. -/
def crowded : WireTime where
  wires := [
    { Wire.between ⟨"w1"⟩ (.input 0) 0 ⟨"turn"⟩ 0 with
      delay := 2, signals := [⟨7, 3⟩, ⟨5, 0⟩, ⟨9, 1⟩] },
    (Wire.between ⟨"w2"⟩ ⟨"turn"⟩ 0 (.output 0) 0).withDelay 1,
    (Wire.between ⟨"w3"⟩ ⟨"turn"⟩ 0 (.output 1) 0).withDelay 0]
  state := .ofNodes (.ofList [(⟨"turn"⟩, .ofKind ⟨"turn"⟩ .invert)])

/-- Two injections one tick after the other, and nothing more. -/
def pulses (n : Nat) : Turn where
  injections := if n = 0 then [(0, 50)] else if n = 1 then [(0, 20)] else []
  nodes := .ofList [(⟨"turn"⟩, .ofKind ⟨"turn"⟩ .invert)]
  order := [.input 0, ⟨"turn"⟩, .output 0, .output 1]

/-- After two ticks the signals that had none or one tick to go have arrived; in the third one the
oldest of those left and the first injection do. -/
theorem timing_crowded :
    crowded.state.Reachable ∧ (∀ t, (pulses t).order.Nodup) ∧
      (crowded.after pulses 2).wires.map (·.signals) = [[⟨7, 1⟩, ⟨50, 1⟩, ⟨20, 2⟩], [], []] ∧
      (∀ state, ((⟨(crowded.after pulses 2).wires, state⟩ : WireTime).arrive (pulses 2).nodes).state
        = state.deliverAll (pulses 2).nodes
          [(⟨⟨"turn"⟩, 0, .input⟩, 7), (⟨⟨"turn"⟩, 0, .input⟩, 50)]) := by
  have hstart : crowded.state.Reachable := .ofNodes _
  have hnodup : ∀ t, (pulses t).order.Nodup := fun _ => by
    show [NodeId.input 0, ⟨"turn"⟩, .output 0, .output 1].Nodup
    decide +kernel
  obtain ⟨hwires, harrivals, -⟩ := timing hstart hnodup 2
  refine ⟨hstart, hnodup, ?_, fun state => (harrivals state).trans ?_⟩
  · rw [hwires]
    decide +kernel
  · have hdue : (crowded.wires.flatMap fun wire =>
        (due (crowded.passages pulses wire 2) 3).map fun value => (wire.target, value))
          = [(⟨⟨"turn"⟩, 0, .input⟩, 7), (⟨⟨"turn"⟩, 0, .input⟩, 50)] := by decide +kernel
    rw [hdue]

end WireTime
end SignalBoard
