import SignalBoard.Proofs.Tick.Schedule
import SignalBoard.Proofs.Tick.Travel

/-!
# What is true at any time

On a board whose nodes keep nothing, signals may be under way for any number of ticks, and on ways
of different length they arrive at different times, so that what a node gives out in the meantime
need not belong to any cycle. But each wire and each node by itself is in order at any time
(`Faithful`): what was sent last on a wire is what its source gives out now, and what is not waiting
for its turn gives out what its inputs ask for.

* `Faithful.inject`: an injection.
* `Faithful.arrive`, `Faithful.visit`: the parts of a tick.
* `Faithful.advance`: a tick.
-/

namespace SignalBoard

open Signal

namespace Board

/-- The nodes of a board keep nothing from call to call. -/
def Memoryless (board : Board) (library : Library) : Prop :=
  ∀ entry ∈ board.nodes.entries, entry.2.kind.isStateful = false ∧
    entry.2.resolved? library = none

instance (board : Board) (library : Library) : Decidable (board.Memoryless library) :=
  inferInstanceAs (Decidable (∀ entry ∈ board.nodes.entries, _))

variable {board : Board} {ports : PortCounts} {library : Library}
  {order visited : List NodeId} {last : UInt64 → Binary64} {now : WireTime}

/-- No node of such a board has a kind that keeps anything. -/
theorem Memoryless.isStateful (h : board.Memoryless library) {id : NodeId} {node : Node}
    (hnode : board.nodes.get? id = some node) : node.kind.isStateful = false :=
  (h (id, node) (OrderedMap.get?_eq_some_iff.mp hnode)).1

/-- None of its nodes stands for a circuit. -/
theorem Memoryless.resolved? (h : board.Memoryless library) {id : NodeId} {node : Node}
    (hnode : board.nodes.get? id = some node) : node.resolved? library = none :=
  (h (id, node) (OrderedMap.get?_eq_some_iff.mp hnode)).2

/-- What holds at any time, when some ids have had their turn in the present tick. Nothing is said
of what has been triggered and is still waiting for its turn. -/
structure Faithful (board : Board) (order visited : List NodeId) (last : UInt64 → Binary64)
    (now : WireTime) : Prop where
  shaped : now.state.Shaped board.nodes
  plain : ∀ id, (now.state.runtime board.nodes id).component = none
  wires : now.wires.map Wire.emptied = board.wires
  orderly : ∀ wire ∈ now.wires, wire.Orderly
  inputSignals : ∀ id, AllSignals (now.state.runtime board.nodes id).inputs
  outputSignals : ∀ id, AllSignals (now.state.runtime board.nodes id).outputs
  newest : ∀ wire ∈ now.wires,
    wire.target.port.toNat < (now.state.runtime board.nodes wire.target.node).inputs.length →
    wire.newest (Signal.valueAt (now.state.runtime board.nodes wire.target.node).inputs
        wire.target.port.toNat)
      = Signal.valueAt (now.state.runtime board.nodes wire.source.node).outputs
        wire.source.port.toNat
  unfed : ∀ id port, ¬ id.isInput →
    (∀ wire ∈ board.wires, wire.target.node = id → wire.target.port.toNat ≠ port) →
    Signal.valueAt (now.state.runtime board.nodes id).inputs port = .zero
  injected : ∀ n,
    Signal.valueAt (now.state.runtime board.nodes (.input n)).inputs 0 = clamp (last n)
  silent : ∀ id, id ∉ order → AllZero (now.state.runtime board.nodes id).outputs
  answered : ∀ id ∈ order, id ∈ visited ∨ id ∉ now.state.triggered →
    ((now.state.runtime board.nodes id).fire (board.nodes.get? id)).outputs
      = (now.state.runtime board.nodes id).outputs

namespace Faithful

/-- Which ids have had their turn counts only as far as it makes a difference. -/
theorem congr {visited' : List NodeId} {now' : WireTime}
    (h : board.Faithful order visited last now) (hwires : now'.wires = now.wires)
    (hruntimes : now'.state.runtimes = now.state.runtimes)
    (hturn : ∀ id ∈ order, id ∈ visited' ∨ id ∉ now'.state.triggered →
      id ∈ visited ∨ id ∉ now.state.triggered) :
    board.Faithful order visited' last now' := by
  -- what is said of the runtimes and the wires carries over as it is; only what is answered speaks
  -- of turns
  have hruntime : ∀ id, now'.state.runtime board.nodes id = now.state.runtime board.nodes id := by
    intro id
    unfold TickState.runtime TickState.runtime?
    rw [hruntimes]
  refine ⟨h.shaped.congr hruntimes, fun id => ?_, ?_, ?_, fun id => ?_, fun id => ?_,
    fun wire hwire hport => ?_, fun id port hid hnone => ?_, fun n => ?_, fun id hid => ?_,
    fun id hid hturn' => ?_⟩
  · rw [hruntime]
    exact h.plain id
  · rw [hwires]
    exact h.wires
  · rw [hwires]
    exact h.orderly
  · rw [hruntime]
    exact h.inputSignals id
  · rw [hruntime]
    exact h.outputSignals id
  · rw [hwires] at hwire
    rw [hruntime] at hport
    rw [hruntime, hruntime]
    exact h.newest wire hwire hport
  · rw [hruntime]
    exact h.unfed id port hid hnone
  · rw [hruntime]
    exact h.injected n
  · rw [hruntime]
    exact h.silent id hid
  · rw [hruntime]
    exact h.answered id hid (hturn id hid hturn')

/-! ## Wires in time and wires of the board -/

/-- Every wire in time is a wire of the board, but for what is under way on it. -/
theorem emptied_mem (h : board.Faithful order visited last now) {wire : Wire}
    (hwire : wire ∈ now.wires) : wire.emptied ∈ board.wires := by
  rw [← h.wires]
  exact List.mem_map.mpr ⟨wire, hwire, rfl⟩

/-- Into each port there leads one wire at most. -/
theorem singleFed (h : board.Faithful order visited last now) (hwell : board.WellWired) :
    (now.wires.map fun wire => (wire.target.node, wire.target.port)).Nodup := by
  have hsingle := hwell.singleFed
  rw [← h.wires, List.map_map] at hsingle
  exact hsingle

/-- Two wires into the same port are the same wire. -/
theorem eq_of_target (h : board.Faithful order visited last now) (hwell : board.WellWired)
    {wire other : Wire} (hwire : wire ∈ now.wires) (hother : other ∈ now.wires)
    (hnode : other.target.node = wire.target.node)
    (hport : other.target.port.toNat = wire.target.port.toNat) : other = wire :=
  List.inj_on_of_nodup_map (h.singleFed hwell) hother hwire
    (Prod.ext hnode (UInt64.toNat_inj.mp hport))

/-! ## Deliveries along the wires -/

/-- All deliveries go where a wire of the board leads. -/
def Carried (board : Board) (deliveries : List (PortRef × Binary64)) : Prop :=
  ∀ d ∈ deliveries, ∃ wire ∈ board.wires, d.1 = wire.target

theorem carried_arriving (h : board.Faithful order visited last now) :
    Carried board (WireTime.arriving now.wires) := by
  intro d hd
  obtain ⟨wire, hwire, value, -, rfl⟩ := WireTime.mem_arriving.mp hd
  exact ⟨wire.emptied, h.emptied_mem hwire, rfl⟩

/-- What is passed on without delay goes where a wire leads. -/
theorem carried_immediate (h : board.Faithful order visited last now) (id : NodeId)
    (outputs : List Binary64) : Carried board (Wire.immediate id outputs now.wires) := by
  intro d hd
  obtain ⟨wire, hwire, -, -, rfl⟩ := Wire.mem_immediate.mp hd
  exact ⟨wire.emptied, h.emptied_mem hwire, rfl⟩

theorem Carried.received_input (hwell : board.WellWired)
    {deliveries : List (PortRef × Binary64)} (h : Carried board deliveries) (n : UInt64)
    (inputs : List Binary64) : NodeRuntime.received (.input n) deliveries inputs = inputs := by
  apply NodeRuntime.received_eq_self
  intro d hd hnode
  obtain ⟨wire, hwire, heq⟩ := h d hd
  rw [heq] at hnode
  exact absurd (hnode ▸ NodeId.isInput_input n) (hwell.notIntoInput wire hwire)

/-- A port that no wire leads into keeps its value. -/
theorem Carried.valueAt_unfed {deliveries : List (PortRef × Binary64)}
    (h : Carried board deliveries) {id : NodeId} {port : Nat}
    (hunfed : ∀ wire ∈ board.wires, wire.target.node = id → wire.target.port.toNat ≠ port)
    (inputs : List Binary64) :
    Signal.valueAt (NodeRuntime.received id deliveries inputs) port
      = Signal.valueAt inputs port := by
  apply NodeRuntime.valueAt_received_of_none
  intro d hd hnode
  obtain ⟨wire, hwire, heq⟩ := h d hd
  rw [heq] at hnode ⊢
  exact hunfed wire hwire hnode

/-! ## The steps of a run -/

/-- An arrival takes from the wires what it puts on the ports, and what it changes is triggered. -/
theorem arrive (hwell : board.WellWired) (h : board.Faithful order [] last now) :
    board.Faithful order [] last (now.arrive board.nodes) := by
  have hcarried := h.carried_arriving
  rw [WireTime.arrive_eq]
  refine ⟨h.shaped.deliverAll _, fun id => ?_, ?_, fun wire' hwire' => ?_, fun id => ?_,
    fun id => ?_, fun wire' hwire' hport => ?_, fun id port hid hunfed => ?_, fun n => ?_,
    fun id hid => ?_, fun id hid hturn => ?_⟩
  · rw [TickState.runtime_deliverAll]
    exact h.plain id
  · rw [List.map_map]
    exact h.wires
  · obtain ⟨wire, hwire, rfl⟩ := List.mem_map.mp hwire'
    exact (h.orderly wire hwire).arrive
  · rw [TickState.runtime_deliverAll]
    exact NodeRuntime.received_allSignals (h.inputSignals id)
  · rw [TickState.runtime_deliverAll]
    exact h.outputSignals id
  · obtain ⟨wire, hwire, rfl⟩ := List.mem_map.mp hwire'
    rw [TickState.runtime_deliverAll, NodeRuntime.length_received] at hport
    rw [TickState.runtime_deliverAll, TickState.runtime_deliverAll]
    -- what leaves the wire last is what the port holds from now on
    have hreceived := WireTime.valueAt_received_arriving (h.singleFed hwell) hwire hport
    show wire.age.clearArrivals.newest (Signal.valueAt (NodeRuntime.received wire.target.node
      (WireTime.arriving now.wires) _) wire.target.port.toNat) = _
    rw [hreceived, (h.orderly wire hwire).newest_arrive]
    exact h.newest wire hwire hport
  · rw [TickState.runtime_deliverAll]
    show Signal.valueAt (NodeRuntime.received id _ _) port = _
    rw [hcarried.valueAt_unfed hunfed]
    exact h.unfed id port hid hunfed
  · rw [TickState.runtime_deliverAll]
    show Signal.valueAt (NodeRuntime.received (.input n) _ _) 0 = _
    rw [hcarried.received_input hwell]
    exact h.injected n
  · rw [TickState.runtime_deliverAll]
    exact h.silent id hid
  · -- what has received something is triggered and waits for its turn
    have hnot := hturn.resolve_left List.not_mem_nil
    rw [TickState.runtime_deliverAll, TickState.received_of_not_triggered hnot]
    refine h.answered id hid (.inr fun hold => hnot ?_)
    rw [TickState.mem_triggered_deliverAll]
    exact .inl hold

/-- What has been visited receives nothing from a later visit, for no wire leads back to it. -/
theorem received_visited (hsched : board.Schedule ports order)
    (h : board.Faithful order visited last now) {id : NodeId} {rest : List NodeId}
    (hsplit : order = visited ++ id :: rest) {u : NodeId} (hu : u ∈ order)
    (hvisited : u ∈ visited ++ [id]) (outputs inputs : List Binary64) :
    NodeRuntime.received u (Wire.immediate id outputs now.wires) inputs = inputs := by
  have horder : id ∈ order := by rw [hsplit]; simp
  apply NodeRuntime.received_eq_self
  intro d hd hnode
  obtain ⟨wire, hwire, hsource, -, rfl⟩ := Wire.mem_immediate.mp hd
  have hadjacent : (board.digraph ports).Adjacent id u := by
    rw [adjacent_iff]
    exact ⟨⟨wire.emptied, h.emptied_mem hwire, hsource, hnode⟩, hsched.subset id horder,
      hsched.subset u hu⟩
  exact absurd hadjacent (hsched.not_adjacent hsplit hvisited)

/-- What a visit leaves on a wire and on the port at its end: what the source has just given out, or
else what there has been. -/
theorem newest_visit (hwell : board.WellWired) (h : board.Faithful order visited last now)
    (id : NodeId) {outputs : List Binary64} (hsignals : AllSignals outputs) {wire : Wire}
    (hwire : wire ∈ now.wires) (hport : wire.target.port.toNat
      < (now.state.runtime board.nodes wire.target.node).inputs.length) :
    (wire.sendFrom id outputs).newest (Signal.valueAt (NodeRuntime.received wire.target.node
        (Wire.immediate id outputs now.wires)
          (now.state.runtime board.nodes wire.target.node).inputs) wire.target.port.toNat)
      = Signal.valueAt (if wire.source.node = id then outputs
          else (now.state.runtime board.nodes wire.source.node).outputs)
        wire.source.port.toNat := by
  -- a wire out of the visited id has the new output last; on any other one nothing has been put
  by_cases hsource : wire.source.node = id
  · subst hsource
    rw [if_pos rfl, ← hsignals.clamp_valueAt]
    by_cases hdelay : wire.delay = 0
    · -- without delay the value is on the port at once
      rw [Wire.sendFrom_of_instant hdelay,
        Wire.newest_of_empty ((h.orderly wire hwire).signals_eq_nil hdelay)]
      exact Wire.valueAt_received_immediate (h.singleFed hwell) hwire hdelay outputs hport
    · exact Wire.newest_sendFrom hdelay outputs _
  · rw [if_neg hsource, Wire.sendFrom_of_ne hsource, Wire.valueAt_received_of_unfed]
    · exact h.newest wire hwire hport
    · -- no other wire leads into the port
      intro other hother hfrom hnode hp
      exact hsource (h.eq_of_target hwell hwire hother hnode hp ▸ hfrom)

/-- **A visit.** What has been triggered puts its outputs on its wires. It is answered from then on,
for no wire leads back to it or to what has been visited before. -/
theorem visit (hwell : board.WellWired) (hsched : board.Schedule ports order)
    (hless : board.Memoryless library) (h : board.Faithful order visited last now)
    (hfanout : now.state.fanout.UpToDate now.wires) {id : NodeId} {rest : List NodeId}
    (hsplit : order = visited ++ id :: rest) (htriggered : id ∈ now.state.triggered) :
    board.Faithful order (visited ++ [id]) last (now.visit board.nodes id) := by
  have horder : id ∈ order := by rw [hsplit]; simp
  have hshaped := WireTime.shaped_visit board.nodes htriggered hfanout h.shaped
  have hwires := WireTime.wires_visit board.nodes htriggered hfanout
  have hruntime := WireTime.runtime_visit board.nodes htriggered hfanout
  have htriggered' := WireTime.mem_triggered_visit board.nodes htriggered hfanout
  have huntouched := fun u (hnot : u ∉ (now.visit board.nodes id).state.triggered) =>
    WireTime.received_of_not_triggered_visit board.nodes htriggered hfanout hnot
  -- what is used of the call: its answer is a list of signals, and it would be the same again
  have hplain := NodeRuntime.fire_component_none (h.plain id) (board.nodes.get? id)
  have hinputs := NodeRuntime.fire_inputs (now.state.runtime board.nodes id) (board.nodes.get? id)
  have hsignals := NodeRuntime.fire_allSignals (board.nodes.get? id) (h.inputSignals id)
  have hagain := NodeRuntime.outputs_fire_fire (h.plain id)
    fun node (hnode : board.nodes.get? id = some node) => hless.isStateful hnode
  simp only at hruntime htriggered' huntouched
  generalize (now.state.runtime board.nodes id).fire (board.nodes.get? id) = fired
    at hwires hruntime htriggered' huntouched hplain hinputs hsignals hagain
  have hcarried := h.carried_immediate id fired.outputs
  have houtputs : ∀ u, ((now.visit board.nodes id).state.runtime board.nodes u).outputs
      = if u = id then fired.outputs else (now.state.runtime board.nodes u).outputs := by
    intro u
    rw [hruntime]
    split <;> rfl
  refine ⟨hshaped, fun u => ?_, ?_, fun wire' hwire' => ?_, fun u => ?_, fun u => ?_,
    fun wire' hwire' hport => ?_, fun u port hu hunfed => ?_, fun n => ?_, fun u hu => ?_,
    fun u hu hturn => ?_⟩
  · rw [hruntime]
    show (if u = id then fired else _).component = none
    split
    · exact hplain
    · exact h.plain u
  · rw [hwires, List.map_map]
    refine (List.map_congr_left fun wire _ => ?_).trans h.wires
    exact wire.emptied_sendFrom id fired.outputs
  · rw [hwires] at hwire'
    obtain ⟨wire, hwire, rfl⟩ := List.mem_map.mp hwire'
    exact (h.orderly wire hwire).sendFrom id fired.outputs
  · rw [hruntime]
    exact NodeRuntime.received_allSignals (h.inputSignals u)
  · rw [houtputs]
    split
    · exact hsignals
    · exact h.outputSignals u
  · rw [hwires] at hwire'
    obtain ⟨wire, hwire, rfl⟩ := List.mem_map.mp hwire'
    rw [Wire.target_sendFrom, hruntime, NodeRuntime.length_received] at hport
    rw [Wire.target_sendFrom, Wire.source_sendFrom, houtputs, hruntime]
    exact h.newest_visit hwell id hsignals hwire hport
  · rw [hruntime]
    show Signal.valueAt (NodeRuntime.received u _ _) port = _
    rw [hcarried.valueAt_unfed hunfed]
    exact h.unfed u port hu hunfed
  · rw [hruntime]
    show Signal.valueAt (NodeRuntime.received (.input n) _ _) 0 = _
    rw [hcarried.received_input hwell]
    exact h.injected n
  · have hne : u ≠ id := fun heq => hu (heq ▸ horder)
    rw [houtputs, if_neg hne]
    exact h.silent u hu
  · have hsame := hturn.elim
      (fun hv => h.received_visited hsched hsplit hu hv fired.outputs
        (now.state.runtime board.nodes u).inputs) (huntouched u)
    rw [hruntime, hsame]
    by_cases heq : u = id
    · subst heq
      rw [if_pos rfl, ← hinputs]
      exact hagain
    · rw [if_neg heq]
      refine h.answered u hu (hturn.imp (fun hv => ?_) fun hnot hold => hnot ?_)
      · exact (List.mem_append.mp hv).resolve_right fun hid => heq (List.mem_singleton.mp hid)
      · exact (htriggered' u).mpr (.inl hold)

/-- The turn of what has not been triggered passes. -/
theorem pass (h : board.Faithful order visited last now) {id : NodeId}
    (htriggered : id ∉ now.state.triggered) :
    board.Faithful order (visited ++ [id]) last (now.visit board.nodes id) := by
  rw [WireTime.visit_of_not_triggered htriggered]
  refine h.congr rfl rfl fun u _ hturn => ?_
  rcases hturn with hvisited | hnot
  · rcases List.mem_append.mp hvisited with hv | hid
    · exact .inl hv
    · rw [List.mem_singleton.mp hid]
      exact .inr htriggered
  · exact .inr hnot

/-- The visits of a tick, after which everything in the order has had its turn. -/
theorem visitAll (hwell : board.WellWired) (hsched : board.Schedule ports order)
    (hless : board.Memoryless library) (h : board.Faithful order [] last now)
    (hfanout : now.state.fanout.UpToDate now.wires) :
    board.Faithful order order last (order.foldl (WireTime.visit board.nodes) now) := by
  have hrest : ∀ rest visited now, order = visited ++ rest →
      board.Faithful order visited last now → now.state.fanout.UpToDate now.wires →
      board.Faithful order order last (rest.foldl (WireTime.visit board.nodes) now) := by
    intro rest
    -- by induction on the ids that are left, those that have had their turn being in front of them
    induction rest with
    | nil =>
      intro visited now hsplit h _
      rw [List.append_nil] at hsplit
      rw [← hsplit] at h
      exact h
    | cons id rest ih =>
      intro visited now hsplit h hfanout
      have hnext : order = (visited ++ [id]) ++ rest := by
        rw [hsplit, List.append_assoc, List.singleton_append]
      have hturn : board.Faithful order (visited ++ [id]) last (now.visit board.nodes id) := by
        -- an id that has not been triggered by now is answered already
        by_cases htriggered : id ∈ now.state.triggered
        · exact h.visit hwell hsched hless hfanout hsplit htriggered
        · exact h.pass htriggered
      exact ih (visited ++ [id]) _ hnext hturn (WireTime.upToDate_visit board.nodes id hfanout)
  exact hrest order [] now rfl h hfanout

/-- A tick: an arrival, a visit of every id, and then nothing is triggered. -/
theorem advance (hwell : board.WellWired) (hsched : board.Schedule ports order)
    (hless : board.Memoryless library) (h : board.Faithful order [] last now)
    (hfanout : now.state.fanout.WellFormed) :
    board.Faithful order [] last (now.advance board.nodes order) := by
  let started : WireTime := { now with state := { now.state with tick := now.state.tick + 1 } }
  -- neither the clock nor the table of wires bears on what is faithful
  have hstarted : board.Faithful order [] last started := h.congr rfl rfl fun _ _ hturn => hturn
  have harrived : board.Faithful order [] last (started.arrive board.nodes) :=
    hstarted.arrive hwell
  have hopened : board.Faithful order [] last (now.opened board.nodes) :=
    harrived.congr rfl rfl fun _ _ hturn => hturn
  have hvisited :=
    hopened.visitAll hwell hsched hless (WireTime.upToDate_opened board.nodes hfanout)
  exact hvisited.congr rfl rfl fun id hid _ => .inl hid

/-- An injection triggers the outside input that it changes, and no wire leads into it. -/
theorem inject (hwell : board.WellWired) (h : board.Faithful order [] last now) (index : UInt64)
    (value : Binary64) :
    board.Faithful order [] (fun n => if n = index then value else last n)
      { now with state := now.state.inject index value } := by
  have hruntime := TickState.runtime_inject h.shaped.knows index value
  have houtputs : ∀ id, ((now.state.inject index value).runtime board.nodes id).outputs
      = (now.state.runtime board.nodes id).outputs := by
    intro id
    rw [hruntime]
    split
    · next heq => rw [heq]; rfl
    · rfl
  -- only one input of one outside input changes; for every other id all stays as it is
  refine ⟨h.shaped.inject index value, fun id => ?_, h.wires, h.orderly, fun id => ?_, fun id => ?_,
    fun wire hwire hport => ?_, fun id port hid hunfed => ?_, fun n => ?_, fun id hid => ?_,
    fun id hid hturn => ?_⟩
  · rw [hruntime]
    split
    · exact h.plain (.input index)
    · exact h.plain id
  · rw [hruntime]
    split
    · intro x hx
      rcases List.mem_cons.mp hx with rfl | hx
      · exact clamp_clamp value
      · exact h.inputSignals (.input index) x (List.mem_of_mem_drop hx)
    · exact h.inputSignals id
  · rw [houtputs]
    exact h.outputSignals id
  · have hne : wire.target.node ≠ .input index := by
      intro heq
      have hnot := hwell.notIntoInput _ (h.emptied_mem hwire)
      exact hnot (by show wire.target.node.isInput; rw [heq]; exact NodeId.isInput_input index)
    rw [houtputs]
    simp only [hruntime, if_neg hne] at hport ⊢
    exact h.newest wire hwire hport
  · have hne : id ≠ .input index := fun heq => hid (heq ▸ NodeId.isInput_input index)
    rw [hruntime, if_neg hne]
    exact h.unfed id port hid hunfed
  · rw [hruntime]
    by_cases hn : n = index
    · subst hn
      rw [if_pos rfl, if_pos rfl]
      rfl
    · rw [if_neg fun heq => hn (NodeId.input_injective heq), if_neg hn]
      exact h.injected n
  · rw [houtputs]
    exact h.silent id hid
  · have hnot := hturn.resolve_left List.not_mem_nil
    rw [TickState.mem_triggered_inject] at hnot
    rw [hruntime, if_neg fun heq => hnot (.inr heq)]
    exact h.answered id hid (.inr fun hold => hnot (.inl hold))

end Faithful
end Board
end SignalBoard
