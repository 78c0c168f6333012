import SignalBoard.Proofs.Tick.Faithful

/-!
# Ticks settle to a cycle

Whenever nothing is under way any more on a board whose nodes keep nothing, the outside outputs are
those of a single cycle on the values that have last been injected.

```lean
theorem outputValues_of_settled : (session.run events).Settled →
    (session.run events).outputValues = ((Evaluator.ofCircuit circuit).evaluate inputs).1
```

* `Faithful.outputs_eq`: with nothing under way a board carries what it carries in a cycle.
* `faithful_start`, `faithful_run`: a session is faithful from the start on.
-/

namespace SignalBoard

open Signal

namespace Board

variable {board : Board} {ports : PortCounts} {library : Library}
  {order visited : List NodeId} {last : UInt64 → Binary64} {now : WireTime}

namespace Faithful

/-! ## With nothing under way -/

/-- With nothing under way the wires are those of the board. -/
theorem wires_eq (h : board.Faithful order visited last now)
    (hempty : ∀ wire ∈ now.wires, wire.signals = []) : now.wires = board.wires := by
  rw [← h.wires]
  refine (List.map_id _).symm.trans (List.map_congr_left fun wire hwire => ?_)
  exact (Wire.emptied_of_empty (hempty wire hwire)).symm

section

variable {inputs results : List Binary64} {before after : NodeId → Holding}
  {values : NodeId → List Binary64}
  (hwell : board.WellWired) (hsched : board.Schedule ports order)
  (hcycle : board.Cycle ports inputs before values after results)
  (hsilent : ∀ id ∈ board.nodes.ids ports, ¬ board.Driven ports id → AllZero (values id))
  (h : board.Faithful order [] last now) (hempty : ∀ wire ∈ now.wires, wire.signals = [])

include hwell hsched hsilent h hempty

/-- A port reads what it reads in a cycle if this is so for what leads into it. -/
theorem reads {id : NodeId} {port : Nat} (hid : id ∈ board.nodes.ids ports)
    (hinput : ¬ id.isInput) (hport : port < board.portCount id)
    (hsources : ∀ wire ∈ board.wires, wire.target.node = id → wire.target.port.toNat = port →
      wire.source.node ∈ board.nodes.ids ports →
      (board.Driven ports wire.source.node → wire.source.node ∈ order) ∧
        (wire.source.node ∈ order →
          (now.state.runtime board.nodes wire.source.node).outputs = values wire.source.node)) :
    Signal.valueAt (now.state.runtime board.nodes id).inputs port
      = board.portIn ports values id port := by
  have hwires := h.wires_eq hempty
  have hlength : (now.state.runtime board.nodes id).inputs.length = board.portCount id := by
    rw [h.shaped.inputs id hinput, hwell.length_ofId hid hinput]
  -- nothing is on the wire, so the port holds what the source gives out
  have hcarries : ∀ wire ∈ board.wires, wire.target.node = id → wire.target.port.toNat = port →
      Signal.valueAt (now.state.runtime board.nodes id).inputs port
        = Signal.valueAt (now.state.runtime board.nodes wire.source.node).outputs
          wire.source.port.toNat := by
    rintro wire hwire rfl rfl
    rw [← hwires] at hwire
    have hnewest := h.newest wire hwire (by rw [hlength]; exact hport)
    rw [Wire.newest_of_empty (hempty wire hwire)] at hnewest
    exact hnewest
  -- the port reads a wire in the cycle or it does not; in time the same wires lead into it
  cases hfeed : board.feed? ports id port with
  | some wire =>
    obtain ⟨hwire, hsource, -, hnode, hp⟩ := mem_of_feed? hfeed
    obtain ⟨hclosed, heq⟩ := hsources wire hwire hnode hp hsource
    rw [portIn_of_feed? hfeed, hcarries wire hwire hnode hp]
    by_cases horder : wire.source.node ∈ order
    · rw [heq horder]
    · -- what is never called gives out zeros, and it is silent in the cycle
      have hdriven : ¬ board.Driven ports wire.source.node := fun hd => horder (hclosed hd)
      rw [(h.silent _ horder).valueAt, (hsilent _ hsource hdriven).valueAt]
  | none =>
    rw [portIn_of_feed?_none hfeed]
    by_cases hfed : ∃ wire ∈ board.wires, wire.target.node = id ∧ wire.target.port.toNat = port
    · -- a wire that does not count comes from outside the board
      obtain ⟨wire, hwire, hnode, hp⟩ := hfed
      have houtside : wire.source.node ∉ board.nodes.ids ports := by
        intro hsource
        have hcounts := hwell.feed?_of_wire hwire hsource (by rw [hnode]; exact hid)
        rw [hnode, hp, hfeed] at hcounts
        cases hcounts
      rw [hcarries wire hwire hnode hp]
      exact (h.silent _ fun horder => houtside (hsched.subset _ horder)).valueAt _
    · exact h.unfed id port hinput fun wire hwire hnode hp => hfed ⟨wire, hwire, hnode, hp⟩

include hcycle in
/-- **With nothing under way or waiting, a board carries what it carries in a cycle**, by induction
along the wires. -/
theorem outputs_eq (hless : board.Memoryless library) (hacyclic : (board.digraph ports).Acyclic)
    (hidle : now.state.triggered = [])
    (hbefore : ∀ id node, board.nodes.get? id = some node → ¬ id.isConnectionPoint →
      ∃ m, before id = .memory m)
    (hinputs : ∀ n < ports.inputs, Signal.valueAt inputs n.toNat = last n) :
    ∀ id ∈ board.nodes.ids ports, id ∈ order → ¬ id.isOutput →
      (now.state.runtime board.nodes id).outputs = values id := by
  refine induction hacyclic fun id hid ih horder hout => ?_
  have hanswered := h.answered id horder (.inr (by rw [hidle]; exact List.not_mem_nil))
  -- an outside input gives out the last value injected; a node is called on what it reads, which is
  -- that of the cycle by induction
  rcases NodeMap.mem_ids.mp hid with ⟨n, hn, rfl⟩ | ⟨hkey, hordinary⟩ | ⟨n, -, rfl⟩
  · rw [← hanswered, hcycle.input n hn, hinputs n hn]
    exact hwell.fire_input h.shaped (h.injected n)
  · obtain ⟨node, hnode⟩ := OrderedMap.exists_get?_of_mem_keys hkey
    have hinput := NodeId.not_isInput_of_ordinary hordinary
    have hcount := portCount_node hordinary hnode
    have hlength : (now.state.runtime board.nodes id).inputs.length = node.inputCount.toNat := by
      rw [h.shaped.inputs id hinput, hwell.length_ofId hid hinput, hcount]
    have hgathered : (now.state.runtime board.nodes id).inputs
        = board.gathered ports values id node.inputCount.toNat := by
      refine eq_gathered hlength fun port hport => ?_
      refine h.reads hwell hsched hsilent hempty hid hinput (by rw [hcount]; exact hport) ?_
      intro wire hwire htarget _ hsource
      have hadjacent := adjacent_of_wire hwire hsource (by rw [htarget]; exact hid)
      rw [htarget] at hadjacent
      exact ⟨fun hdriven => hsched.closed _ _ hdriven hadjacent horder,
        fun hmem => ih _ hadjacent hmem (hwell.notOutOfOutput wire hwire)⟩
    have hcall := congrArg Prod.fst (NodeRuntime.fire_node (h.shaped.noDevice id) node)
    obtain ⟨m, hm⟩ := hbefore id node hnode hordinary
    rw [← hanswered, hnode, hcycle.values_node hnode hordinary, ← hgathered, hm]
    refine hcall.trans ?_
    rw [NodeRuntime.holding_of_plain (h.plain id)]
    exact Node.call_memory (hless.isStateful hnode) _ _ _
  · exact absurd (NodeId.isOutput_output n) hout

/-- An outside output holds what it has in a cycle, also if it is not called itself. -/
theorem output_eq {n : UInt64} (hn : n < ports.outputs)
    (houtputs : ∀ id ∈ board.nodes.ids ports, id ∈ order → ¬ id.isOutput →
      (now.state.runtime board.nodes id).outputs = values id) :
    Signal.valueAt (now.state.runtime board.nodes (.output n)).inputs 0
      = board.portIn ports values (.output n) 0 := by
  have hid : NodeId.output n ∈ board.nodes.ids ports := NodeMap.output_mem_ids.mpr hn
  refine h.reads hwell hsched hsilent hempty hid (NodeId.not_isInput_output n) (by simp) ?_
  intro wire hwire hnode hport hsource
  have hadjacent := adjacent_of_wire hwire hsource (by rw [hnode]; exact hid)
  rw [hnode] at hadjacent
  refine ⟨fun hdriven => ?_, fun hmem =>
    houtputs _ hsource hmem (hwell.notOutOfOutput wire hwire)⟩
  -- what is driven and leads to an outside output is in the order with it
  have hout : board.Driven ports (.output n) :=
    .wire wire _ hwire hdriven hnode hid (by rw [hport]; simp)
  exact hsched.closed _ _ hdriven hadjacent (hsched.output n hn hout)

end

end Faithful

/-- In the beginning all is zero and nothing is under way. -/
theorem faithful_start (hwell : board.WellWired) (hless : board.Memoryless library)
    (hempty : ∀ wire ∈ board.wires, wire.signals = []) (order : List NodeId) :
    board.Faithful order [] (fun _ => .zero)
      ⟨board.wires, .ofNodesWith board.nodes library⟩ := by
  have hruntime := TickState.runtime_ofNodesWith board.nodes library
  have hzero := TickState.allZero_ofNodesWith board.nodes library
  have hplain : ∀ id, ((TickState.ofNodesWith board.nodes library).runtime board.nodes id).component
      = none := by
    intro id
    rw [hruntime]
    cases hnode : board.nodes.get? id with
    | some node =>
      show (node.resolved? library).map _ = none
      rw [hless.resolved? hnode]
      rfl
    | none =>
      rw [NodeRuntime.ofId, hnode]
      simp only
      split <;> rfl
  -- so the first call of anything would give out zeros, as it does before
  have hquiet : ∀ id, ((TickState.ofNodesWith board.nodes library).runtime board.nodes
      id).memory.Quiet := by
    intro id
    rw [hruntime]
    cases hnode : board.nodes.get? id with
    | some node => exact NodeMemory.fresh_quiet node.kind node.params
    | none =>
      rw [NodeRuntime.ofId, hnode]
      simp only
      split <;> trivial
  refine ⟨TickState.shaped_ofNodesWith fun id node hnode hid => hwell.not_isComposite hnode hid,
    hplain, ?_, fun wire hwire => Wire.orderly_of_empty (hempty wire hwire),
    fun id => (hzero id).1.allSignals, fun id => (hzero id).2.allSignals, fun wire hwire hport => ?_,
    fun id port _ _ => (hzero id).1.valueAt port, fun n => ?_, fun id _ => (hzero id).2,
    fun id _ _ => ?_⟩
  · refine (List.map_congr_left fun wire hwire => ?_).trans (List.map_id _)
    exact Wire.emptied_of_empty (hempty wire hwire)
  · rw [Wire.newest_of_empty (hempty wire hwire)]
    exact ((hzero _).1.valueAt _).trans ((hzero _).2.valueAt _).symm
  · rw [clamp_zero]
    exact (hzero _).1.valueAt 0
  · refine NodeRuntime.outputs_fire_quiet (hplain id) (hzero id).1 (hzero id).2 (hquiet id) ?_
    intro node hnode
    show ((TickState.ofNodesWith board.nodes library).runtime board.nodes id).outputs.length = _
    rw [hruntime, hnode]
    exact List.length_replicate

end Board

/-! ## Sessions -/

/-- What can happen to a session from outside. -/
inductive Event where
  | inject (index : UInt64) (value : Binary64)
  | advance

namespace Event

def injection? : Event → Option (UInt64 × Binary64)
  | inject index value => some (index, value)
  | advance => none

/-- The value that has last been injected into an outside input, zero if there has been none. -/
def lastValue (events : List Event) (n : UInt64) : Binary64 :=
  (TickState.lastInto (events.filterMap injection?) n).getD .zero

/-- The values that have last been injected into the outside inputs. -/
def lastValues (ports : PortCounts) (events : List Event) : List Binary64 :=
  (List.range ports.inputs.toNat).map fun n => lastValue events (UInt64.ofNat n)

/-- An injection counts from now on for its outside input. -/
theorem lastValue_inject (events : List Event) (index : UInt64) (value : Binary64) :
    lastValue (events ++ [.inject index value])
      = fun n => if n = index then value else lastValue events n := by
  funext n
  unfold lastValue
  rw [List.filterMap_append]
  show (TickState.lastInto (events.filterMap injection? ++ [(index, value)]) n).getD .zero = _
  rw [TickState.lastInto_concat]
  by_cases h : n = index
  · rw [if_pos h.symm, if_pos h]
    rfl
  · rw [if_neg (Ne.symm h), if_neg h]

theorem lastValue_advance (events : List Event) :
    lastValue (events ++ [.advance]) = lastValue events := by
  funext n
  unfold lastValue
  rw [List.filterMap_append]
  show (TickState.lastInto (events.filterMap injection? ++ []) n).getD .zero = _
  rw [List.append_nil]

/-- At the place of an outside input there is its last value. -/
theorem valueAt_lastValues {ports : PortCounts} (events : List Event) {n : UInt64}
    (hn : n < ports.inputs) :
    Signal.valueAt (lastValues ports events) n.toNat = lastValue events n := by
  apply valueAt_eq_of_getElem?
  unfold lastValues
  rw [List.getElem?_map, List.getElem?_range (UInt64.lt_iff_toNat_lt.mp hn), Option.map_some,
    UInt64.ofNat_toNat]

end Event

namespace Session

variable {board : Board} {ports : PortCounts} {library : Library} {session : Session}

def apply (session : Session) : Event → Session
  | .inject index value => session.inject index value
  | .advance => session.advance

def run (session : Session) (events : List Event) : Session :=
  events.foldl apply session

/-- Nothing is under way on the wires, and no injection is waiting for the next tick. An injection
triggers its outside input in any case (`TickState.inject`), and a tick leaves nothing triggered
(`WireTime.advance`), so between two ticks `triggered` is empty exactly if there has been no
injection since the last one. -/
def Settled (session : Session) : Prop :=
  (∀ wire ∈ session.now.wires, wire.signals = []) ∧ session.now.state.triggered = []

instance (session : Session) : Decidable session.Settled :=
  inferInstanceAs (Decidable (_ ∧ _))

theorem run_concat (session : Session) (events : List Event) (event : Event) :
    session.run (events ++ [event]) = (session.run events).apply event := by
  unfold run
  rw [List.foldl_append]
  rfl

/-- Events change neither the nodes nor the order in which they are gone through. -/
theorem frame_run (session : Session) (events : List Event) :
    (session.run events).nodes = session.nodes ∧
      (session.run events).analysis = session.analysis ∧
      (session.run events).order = session.order := by
  -- by induction on the events
  induction events using List.reverseRecOn with
  | nil => exact ⟨rfl, rfl, rfl⟩
  | append_singleton events event ih =>
    rw [run_concat]
    cases event <;> exact ih

/-- What holds at the start goes on holding, whatever happens in whatever order. -/
theorem faithful_run (hwell : board.WellWired) (hsched : board.Schedule ports session.order)
    (hless : board.Memoryless library) (hnodes : session.nodes = board.nodes)
    (hstart : board.Faithful session.order [] (fun _ => .zero) session.now)
    (hfanout : session.now.state.fanout.WellFormed) (events : List Event) :
    board.Faithful session.order [] (Event.lastValue events) (session.run events).now ∧
      (session.run events).now.state.fanout.WellFormed := by
  -- by induction on the events, the last one first
  induction events using List.reverseRecOn with
  | nil => exact ⟨hstart, hfanout⟩
  | append_singleton events event ih =>
    obtain ⟨hfaithful, hformed⟩ := ih
    obtain ⟨hkept, -, horder⟩ := session.frame_run events
    rw [run_concat]
    cases event with
    | inject index value =>
      rw [Event.lastValue_inject]
      refine ⟨hfaithful.inject hwell index value, ?_⟩
      show ((session.run events).now.state.inject index value).fanout.WellFormed
      rw [TickState.fanout_inject]
      exact hformed
    | advance =>
      rw [Event.lastValue_advance]
      show board.Faithful _ _ _ ((session.run events).now.advance (session.run events).nodes
        (session.run events).order) ∧ _
      rw [hkept, hnodes, horder]
      exact ⟨hfaithful.advance hwell hsched hless hformed,
        WireTime.wellFormed_advance _ _ hformed⟩

/-- **Ticks settle to a cycle.** On a well-wired board whose nodes keep nothing, after any
injections and ticks in any order and whatever the delays of its wires, the outside outputs are
those of one cycle on the values injected last as soon as nothing is under way or waiting any more.
As the session finds no circuit in its library, the board is baked without one. -/
theorem outputValues_of_settled (hwell : board.WellWired)
    (hempty : ∀ wire ∈ board.wires, wire.signals = []) (hless : board.Memoryless library)
    (config : SessionConfig) :
    ∃ session circuit, start board config library = .ok session ∧
      board.bake board.inferredPorts .empty = .ok circuit ∧
      ∀ events, (session.run events).Settled →
        (session.run events).outputValues = ((Evaluator.ofCircuit circuit).evaluate
          (Event.lastValues board.inferredPorts events)).1 := by
  obtain ⟨session, hstart, hnodes, hnow, hports, hsched⟩ :=
    exists_start hwell.acyclic config library
  obtain ⟨circuit, hbake, hrun, -⟩ := Board.exists_laidOut hwell.keyed hwell.acyclic .empty
  refine ⟨session, circuit, hstart, hbake, fun events hsettled => ?_⟩
  obtain ⟨hwires, hidle⟩ := hsettled
  let inputs := Event.lastValues board.inferredPorts events
  have hfirst : board.Faithful session.order [] (fun _ => .zero) session.now := by
    rw [hnow]
    exact Board.faithful_start hwell hless hempty session.order
  have hformed : session.now.state.fanout.WellFormed := by
    rw [hnow]
    exact (TickState.start_ofNodesWith board.nodes library).1
  have hfaithful := (faithful_run hwell hsched hless hnodes hfirst hformed events).1
  have hcycle := hrun.cycle [] inputs
  have hsilent : ∀ id ∈ board.nodes.ids board.inferredPorts,
      ¬ board.Driven board.inferredPorts id →
      AllZero (((Evaluator.ofCircuit circuit).evaluate inputs).2.portsOf id) :=
    fun id hid hdriven => hrun.silent hwell.acyclic [] inputs hid hdriven
  -- no library means no circuit behind any node of the baked board
  have hbefore : ∀ id node, board.nodes.get? id = some node → ¬ id.isConnectionPoint →
      ∃ m, (Evaluator.ofCircuit circuit).holdingOf id = .memory m := by
    intro id node hnode hid
    rw [hrun.start id node hnode hid, Node.firstHolding, Node.resolved?_empty]
    exact ⟨_, rfl⟩
  have houtputs := hfaithful.outputs_eq hwell hsched hcycle hsilent hwires hless hwell.acyclic
    hidle hbefore fun n hn => Event.valueAt_lastValues events hn
  obtain ⟨hkept, hanalysis, -⟩ := session.frame_run events
  rw [outputValues_eq, hkept, hnodes, hanalysis, hports]
  refine Eq.trans ?_ hcycle.results.symm
  refine List.map_congr_left fun place hplace => ?_
  obtain ⟨n, hn, heq, -⟩ := exists_word_lt (List.mem_range.mp hplace)
  rw [heq]
  exact hfaithful.output_eq hwell hsched hsilent hwires hn houtputs

/-- An input that is added to itself, by a way without delay and by one of three ticks, and turned
round on the way out. -/
def echo : Board where
  nodes := .ofList [
    (⟨"copy"⟩, .ofKind ⟨"copy"⟩ .duplicate),
    (⟨"sum"⟩, .ofKind ⟨"sum"⟩ .offset),
    (⟨"turn"⟩, .ofKind ⟨"turn"⟩ .invert)]
  wires := [
    (Wire.between ⟨"w1"⟩ (.input 0) 0 ⟨"sum"⟩ 0).withDelay 0,
    (Wire.between ⟨"w2"⟩ (.input 0) 0 ⟨"copy"⟩ 0).withDelay 1,
    (Wire.between ⟨"w3"⟩ ⟨"copy"⟩ 1 ⟨"sum"⟩ 1).withDelay 2,
    (Wire.between ⟨"w4"⟩ ⟨"sum"⟩ 0 ⟨"turn"⟩ 0).withDelay 1,
    (Wire.between ⟨"w5"⟩ ⟨"turn"⟩ 0 (.output 0) 0).withDelay 0]

/-- A second value is injected while the first one is still on its way to the sum, so that on the
way to rest the sum is of one and the other. -/
theorem outputValues_of_settled_echo :
    let events : List Event := [.inject 0 50, .advance, .inject 0 20, .advance, .advance, .advance,
      .advance, .advance]
    echo.WellWired ∧ (∀ wire ∈ echo.wires, wire.signals = []) ∧ echo.Memoryless .empty ∧
      ∃ session circuit, start echo .default .empty = .ok session ∧
        echo.bake echo.inferredPorts .empty = .ok circuit ∧
        (session.run events).Settled ∧
        (session.run events).outputValues = ((Evaluator.ofCircuit circuit).evaluate [20]).1 ∧
        (session.run events).outputValues = [-40] := by
  intro events
  have hwell : echo.WellWired := by decide +kernel
  have hempty : ∀ wire ∈ echo.wires, wire.signals = [] := by decide +kernel
  have hless : echo.Memoryless .empty := by decide +kernel
  have hports : echo.inferredPorts = ⟨1, 1⟩ := by decide +kernel
  obtain ⟨session, circuit, hstart, hbake, hsettle⟩ :=
    outputValues_of_settled hwell hempty hless .default
  have hrun : (match start echo .default .empty with
      | .ok session => decide ((session.run events).Settled ∧
          (session.run events).outputValues = [-40])
      | .error _ => false) = true := by decide +kernel
  rw [hstart] at hrun
  obtain ⟨hsettled, hvalue⟩ := of_decide_eq_true hrun
  have houtputs := hsettle _ hsettled
  rw [hports] at houtputs
  exact ⟨hwell, hempty, hless, session, circuit, hstart, hbake, hsettled, houtputs, hvalue⟩

end Session
end SignalBoard
