import SignalBoard.Proofs.Tick.Schedule

/-!
# Ticks in lockstep with cycles

On a board whose wires have no delay, a tick before which every outside input has been injected does
what a cycle does: the outputs after it are the answers of the baked board.

```lean
theorem outputs_of_rounds (hloads : List.Forall₂ (Loads board.inferredPorts) rounds sequence) :
    session.rounds rounds = (Evaluator.ofCircuit circuit).answers sequence
```

A cycle evaluates every id and a tick calls only what has been triggered. Without delays these are
the ids that are driven (`Board.Fires`): what has been called triggers what it feeds, later in the
same order. All others are silent in the cycle and never called in the tick, so what is read from
them is zero on either side.

* `Midway`: how far a tick has come, compared with the cycle, when some of the ids have been
  visited.
* `Midway.visit`: one visit, the step of the simulation.
* `InStep`: how a session and an evaluator compare between ticks.
-/

namespace SignalBoard

open Signal

namespace Board

variable {board : Board} {ports : PortCounts} {order visited : List NodeId}
  {inputs results : List Binary64} {before after : NodeId → Holding}
  {values : NodeId → List Binary64} {now : WireTime}

/-- An id that is called in every tick before which all outside inputs have been injected. -/
def Fires (board : Board) (ports : PortCounts) (order : List NodeId) (id : NodeId) : Prop :=
  board.Driven ports id ∧ id ∈ order

/-- How a tick compares with a cycle when some ids have been visited: what these keep and what their
wires have delivered is as after the cycle, what the others keep is as before it. -/
structure Midway (board : Board) (ports : PortCounts) (order : List NodeId)
    (inputs : List Binary64) (before after : NodeId → Holding) (values : NodeId → List Binary64)
    (visited : List NodeId) (now : WireTime) : Prop where
  shaped : now.state.Shaped board.nodes
  wires : now.wires = board.wires
  fanout : now.state.fanout.UpToDate board.wires
  loaded : ∀ n < ports.inputs, .input n ∈ now.state.triggered ∧
    Signal.valueAt (now.state.runtime board.nodes (.input n)).inputs 0
      = clamp (Signal.valueAt inputs n.toNat)
  done : ∀ id ∈ visited, board.Fires ports order id → ¬ id.isConnectionPoint →
    (now.state.runtime board.nodes id).holding = after id
  todo : ∀ id, id ∉ visited → board.Fires ports order id → ¬ id.isConnectionPoint →
    (now.state.runtime board.nodes id).holding = before id
  arrived : ∀ wire ∈ board.wires, wire.source.node ∈ visited →
    board.Fires ports order wire.source.node →
    wire.target.port.toNat < (now.state.runtime board.nodes wire.target.node).inputs.length →
    wire.target.node ∈ now.state.triggered ∧
      Signal.valueAt (now.state.runtime board.nodes wire.target.node).inputs wire.target.port.toNat
        = Signal.valueAt (values wire.source.node) wire.source.port.toNat
  unread : ∀ id port, ¬ id.isInput →
    (∀ wire ∈ board.wires, wire.target.node = id → wire.target.port.toNat = port →
      ¬ board.Fires ports order wire.source.node) →
    Signal.valueAt (now.state.runtime board.nodes id).inputs port = .zero
  driven : ∀ id ∈ now.state.triggered, id ∈ board.nodes.ids ports → board.Driven ports id

section

variable (hwell : board.WellWired) (hsched : board.Schedule ports order)
  (hcycle : board.Cycle ports inputs before values after results)
  (hsilent : ∀ id ∈ board.nodes.ids ports, ¬ board.Driven ports id → AllZero (values id))
  (hsignals : ∀ id ∈ board.nodes.ids ports, AllSignals (values id))
  (hdelay : ∀ wire ∈ board.wires, wire.delay = 0)

/-! ## Reading -/

include hwell hsilent in
/-- A port reads in the tick what it reads in the cycle, once all that feeds it has been visited. -/
theorem Midway.reads (h : board.Midway ports order inputs before after values visited now)
    {id : NodeId} {port : Nat} (hid : id ∈ board.nodes.ids ports) (hinput : ¬ id.isInput)
    (hport : port < board.portCount id)
    (hsources : ∀ wire ∈ board.wires, wire.target.node = id → wire.target.port.toNat = port →
      board.Driven ports wire.source.node → wire.source.node ∈ visited ∧ wire.source.node ∈ order) :
    Signal.valueAt (now.state.runtime board.nodes id).inputs port
      = board.portIn ports values id port := by
  have hlength : (now.state.runtime board.nodes id).inputs.length = board.portCount id := by
    rw [h.shaped.inputs id hinput, hwell.length_ofId hid hinput]
  -- either no wire counts for the port, or just one does, since ports are fed by one wire
  cases hfeed : board.feed? ports id port with
  | none =>
    rw [portIn_of_feed?_none hfeed]
    refine h.unread id port hinput ?_
    -- a wire from an id that fires would count
    rintro wire hwire rfl rfl hfires
    rw [hwell.feed?_of_wire hwire hfires.1.mem_ids hid] at hfeed
    cases hfeed
  | some wire =>
    obtain ⟨hwire, hsource, -, rfl, rfl⟩ := mem_of_feed? hfeed
    rw [portIn_of_feed? hfeed]
    by_cases hdriven : board.Driven ports wire.source.node
    · obtain ⟨hvisited, horder⟩ := hsources wire hwire rfl rfl hdriven
      exact (h.arrived wire hwire hvisited ⟨hdriven, horder⟩ (by rw [hlength]; exact hport)).2
    · -- zero in the cycle, and in the tick nothing has come from there
      rw [(hsilent _ hsource hdriven).valueAt]
      refine h.unread _ _ hinput fun other hother hnode hp hfires => ?_
      rw [hwell.eq_of_target hother hwire hnode hp] at hfires
      exact hdriven hfires.1

include hwell hsched hsilent in
/-- The ports of a node read in the tick what they read in the cycle when its turn comes: all that
feeds them has been visited. -/
theorem Midway.inputs_eq (h : board.Midway ports order inputs before after values visited now)
    {id : NodeId} {rest : List NodeId} (hsplit : order = visited ++ id :: rest) {node : Node}
    (hnode : board.nodes.get? id = some node) (hid : ¬ id.isConnectionPoint) :
    (now.state.runtime board.nodes id).inputs
      = board.gathered ports values id node.inputCount.toNat := by
  have horder : id ∈ order := by rw [hsplit]; simp
  have hmem := hsched.subset id horder
  have hinput := NodeId.not_isInput_of_ordinary hid
  have hcount := portCount_node hid hnode
  have hlength : (now.state.runtime board.nodes id).inputs.length = node.inputCount.toNat := by
    rw [h.shaped.inputs id hinput, hwell.length_ofId hmem hinput, hcount]
  refine eq_gathered hlength fun port hport => ?_
  refine h.reads hwell hsilent hmem hinput (by rw [hcount]; exact hport) ?_
  intro wire hwire hnode _ hdriven
  have hadjacent := adjacent_of_wire hwire hdriven.mem_ids (by rw [hnode]; exact hmem)
  rw [hnode] at hadjacent
  have hclosed := hsched.closed _ _ hdriven hadjacent horder
  exact ⟨hsched.forward visited id rest hsplit _ hclosed hadjacent, hclosed⟩

/-! ## One visit -/

include hwell hsched in
/-- What is driven has been triggered when its turn comes. -/
theorem Midway.triggered (h : board.Midway ports order inputs before after values visited now)
    {id : NodeId} {rest : List NodeId} (hsplit : order = visited ++ id :: rest)
    (hdriven : board.Driven ports id) : id ∈ now.state.triggered := by
  have horder : id ∈ order := by rw [hsplit]; simp
  -- what is driven is an outside input, which has been injected, or is fed by something driven,
  -- which has had its turn
  cases hdriven with
  | input n hn => exact (h.loaded n hn).1
  | wire w id hwire hsource htarget hid hport =>
    subst htarget
    have hadjacent := adjacent_of_wire hwire hsource.mem_ids hid
    have hclosed := hsched.closed _ _ hsource hadjacent horder
    have hvisited := hsched.forward visited _ rest hsplit _ hclosed hadjacent
    have hinput := hwell.notIntoInput w hwire
    refine (h.arrived w hwire hvisited ⟨hsource, hclosed⟩ ?_).1
    rw [h.shaped.inputs _ hinput, hwell.length_ofId hid hinput]
    exact hport

include hwell hsched hcycle hsilent in
/-- The call of an id in the tick gives what the cycle has for it. -/
theorem Midway.fire_eq (h : board.Midway ports order inputs before after values visited now)
    {id : NodeId} {rest : List NodeId} (hsplit : order = visited ++ id :: rest)
    (hdriven : board.Driven ports id) :
    let fired := (now.state.runtime board.nodes id).fire (board.nodes.get? id)
    (¬ id.isOutput → fired.outputs = values id) ∧
      (¬ id.isConnectionPoint → fired.holding = after id) := by
  have horder : id ∈ order := by rw [hsplit]; simp
  intro fired
  -- an outside input gives out what was injected, a node is called as in the cycle, and an outside
  -- output has nothing to give
  rcases NodeMap.mem_ids.mp (hsched.subset id horder) with
    ⟨n, hn, rfl⟩ | ⟨hkey, hordinary⟩ | ⟨n, hn, rfl⟩
  · have hvalue := (h.loaded n hn).2
    refine ⟨fun _ => ?_, fun hcp => absurd (NodeId.isConnectionPoint_input n) hcp⟩
    rw [hcycle.input n hn]
    exact hwell.fire_input h.shaped hvalue
  · obtain ⟨node, hnode⟩ := OrderedMap.exists_get?_of_mem_keys hkey
    have hvisited : id ∉ visited := by
      have hn := hsched.nodup
      rw [hsplit] at hn
      exact fun hmem => List.disjoint_of_nodup_append hn hmem List.mem_cons_self
    have hfired : fired = (now.state.runtime board.nodes id).fire (some node) := by
      rw [← hnode]
    have hcall : (fired.outputs, fired.holding) = (values id, after id) := by
      rw [hfired, NodeRuntime.fire_node (h.shaped.noDevice id) node,
        h.inputs_eq hwell hsched hsilent hsplit hnode hordinary,
        h.todo id hvisited ⟨hdriven, horder⟩ hordinary, ← hcycle.node id node hnode hordinary]
    exact ⟨fun _ => congrArg Prod.fst hcall, fun _ => congrArg Prod.snd hcall⟩
  · exact ⟨fun hout => absurd (NodeId.isOutput_output n) hout,
      fun hcp => absurd (NodeId.isConnectionPoint_output n) hcp⟩

include hwell hsched hcycle hsilent hsignals hdelay in
/-- The visit of an id that is driven. -/
theorem Midway.visit_driven
    (h : board.Midway ports order inputs before after values visited now) {id : NodeId}
    {rest : List NodeId} (hsplit : order = visited ++ id :: rest)
    (hdriven : board.Driven ports id) :
    board.Midway ports order inputs before after values (visited ++ [id])
      (now.visit board.nodes id) := by
  have horder : id ∈ order := by rw [hsplit]; simp
  have hmem : ∀ u, u ∈ visited ++ [id] ↔ u ∈ visited ∨ u = id := by simp
  have htriggered := h.triggered hwell hsched hsplit hdriven
  obtain ⟨houtputs, hkept⟩ := h.fire_eq hwell hsched hcycle hsilent hsplit hdriven
  have hfanout : now.state.fanout.UpToDate now.wires := by rw [h.wires]; exact h.fanout
  have hruntime := WireTime.runtime_visit board.nodes htriggered hfanout
  have htriggered' := WireTime.mem_triggered_visit board.nodes htriggered hfanout
  have hsent := WireTime.wires_visit board.nodes htriggered hfanout
  have hshaped := WireTime.shaped_visit board.nodes htriggered hfanout h.shaped
  simp only at hruntime htriggered'
  rw [h.wires] at hruntime htriggered' hsent
  generalize (now.state.runtime board.nodes id).fire (board.nodes.get? id) = fired
    at houtputs hkept hruntime htriggered' hsent
  -- nothing leads out of an outside output, so only the values of the cycle are sent
  have hvalues : ∀ wire ∈ board.wires, wire.source.node = id → fired.outputs = values id := by
    rintro wire hwire rfl
    exact houtputs (hwell.notOutOfOutput wire hwire)
  -- without delays nothing is put on the wires
  have hwires : (now.visit board.nodes id).wires = board.wires := by
    rw [hsent]
    refine (List.map_congr_left fun wire hwire => ?_).trans (List.map_id _)
    exact if_neg fun hsend => hsend.2 (hdelay wire hwire)
  -- field by field; what is new is what the visited id keeps and what its wires have delivered
  refine ⟨hshaped, hwires, ?_, fun n hn => ?_, fun u hu hfires hcp => ?_,
    fun u hu hfires hcp => ?_, fun wire hwire hsource hfires hport => ?_,
    fun u port hinput hnone => ?_, fun u hu hmemu => ?_⟩
  · rw [WireTime.fanout_visit _ htriggered hfanout]
    exact h.fanout
  · obtain ⟨htrig, hvalue⟩ := h.loaded n hn
    refine ⟨(htriggered' _).mpr (.inl htrig), ?_⟩
    rw [hruntime, Wire.valueAt_received_of_unfed]
    · exact hvalue
    · rintro wire hwire - hnode
      exact absurd (hnode ▸ NodeId.isInput_input n) (hwell.notIntoInput wire hwire)
  · rw [hruntime]
    by_cases heq : u = id
    · subst heq
      rw [if_pos rfl]
      exact hkept hcp
    · rw [if_neg heq]
      exact h.done u (((hmem u).mp hu).resolve_right heq) hfires hcp
  · have hnot : u ∉ visited ∧ u ≠ id := by
      rw [hmem] at hu
      exact not_or.mp hu
    rw [hruntime, if_neg hnot.2]
    exact h.todo u hnot.1 hfires hcp
  · rw [hruntime] at hport ⊢
    rw [NodeRuntime.length_received] at hport
    by_cases heq : wire.source.node = id
    · have hd : (wire.target, Signal.valueAt fired.outputs wire.source.port.toNat)
          ∈ Wire.immediate id fired.outputs board.wires :=
        Wire.mem_immediate.mpr ⟨wire, hwire, heq, hdelay wire hwire, rfl⟩
      refine ⟨(htriggered' _).mpr (.inr ⟨_, hd, rfl, hport⟩), ?_⟩
      have hsent := Wire.valueAt_received_immediate hwell.singleFed hwire (hdelay wire hwire)
        fired.outputs hport
      rw [heq] at hsent ⊢
      rw [hsent, hvalues wire hwire heq]
      exact (hsignals id (hsched.subset id horder)).clamp_valueAt _
    · obtain ⟨htrig, hvalue⟩ :=
        h.arrived wire hwire (((hmem _).mp hsource).resolve_right heq) hfires hport
      refine ⟨(htriggered' _).mpr (.inl htrig), ?_⟩
      rw [Wire.valueAt_received_of_unfed]
      · exact hvalue
      · intro other hother hfrom hnode hp
        exact heq (hwell.eq_of_target hother hwire hnode hp ▸ hfrom)
  · rw [hruntime, Wire.valueAt_received_of_unfed]
    · exact h.unread u port hinput hnone
    · intro wire hwire hsource hnode hp
      exact hnone wire hwire hnode hp (by rw [hsource]; exact ⟨hdriven, horder⟩)
  · rcases (htriggered' u).mp hu with hold | ⟨d, hd, hnode, hport⟩
    · exact h.driven u hold hmemu
    · obtain ⟨wire, hwire, hsource, -, rfl⟩ := Wire.mem_immediate.mp hd
      have hinput : ¬ u.isInput := by
        rw [← hnode]
        exact hwell.notIntoInput wire hwire
      rw [h.shaped.inputs u hinput, hwell.length_ofId hmemu hinput] at hport
      exact .wire wire u hwire (by rw [hsource]; exact hdriven) hnode hmemu hport

include hsched in
/-- The turn of an id that is not driven passes, for it has not been triggered. -/
theorem Midway.visit_silent
    (h : board.Midway ports order inputs before after values visited now) {id : NodeId}
    {rest : List NodeId} (hsplit : order = visited ++ id :: rest)
    (hdriven : ¬ board.Driven ports id) :
    board.Midway ports order inputs before after values (visited ++ [id])
      (now.visit board.nodes id) := by
  have horder : id ∈ order := by rw [hsplit]; simp
  have hmem : ∀ u, u ∈ visited ++ [id] ↔ u ∈ visited ∨ u = id := by simp
  have hnot : id ∉ now.state.triggered :=
    fun htrig => hdriven (h.driven id htrig (hsched.subset id horder))
  rw [WireTime.visit_of_not_triggered hnot]
  refine ⟨h.shaped, h.wires, h.fanout, h.loaded, fun u hu hfires => ?_, fun u hu => ?_,
    fun wire hwire hsource hfires => ?_, h.unread, h.driven⟩
  · rcases (hmem u).mp hu with hu | rfl
    · exact h.done u hu hfires
    · exact absurd hfires.1 hdriven
  · exact h.todo u fun hv => hu ((hmem u).mpr (.inl hv))
  · rcases (hmem _).mp hsource with hv | heq
    · exact h.arrived wire hwire hv hfires
    · rw [heq] at hfires
      exact absurd hfires.1 hdriven

include hwell hsched hcycle hsilent hsignals hdelay in
/-- **One visit is one step of the cycle.** -/
theorem Midway.visit (h : board.Midway ports order inputs before after values visited now)
    {id : NodeId} {rest : List NodeId} (hsplit : order = visited ++ id :: rest) :
    board.Midway ports order inputs before after values (visited ++ [id])
      (now.visit board.nodes id) := by
  by_cases hdriven : board.Driven ports id
  · exact h.visit_driven hwell hsched hcycle hsilent hsignals hdelay hsplit hdriven
  · exact h.visit_silent hsched hsplit hdriven

include hwell hsched hcycle hsilent hsignals hdelay in
/-- All visits of a tick, one after the other. -/
theorem Midway.visitAll (h : board.Midway ports order inputs before after values [] now) :
    board.Midway ports order inputs before after values order
      (order.foldl (WireTime.visit board.nodes) now) := by
  have hrest : ∀ rest visited now, order = visited ++ rest →
      board.Midway ports order inputs before after values visited now →
      board.Midway ports order inputs before after values order
        (rest.foldl (WireTime.visit board.nodes) now) := by
    intro rest
    -- by induction on the ids that are left
    induction rest with
    | nil =>
      intro visited now hsplit h
      rw [List.append_nil] at hsplit
      rw [hsplit] at h ⊢
      exact h
    | cons id rest ih =>
      intro visited now hsplit h
      refine ih (visited ++ [id]) _ (by rw [hsplit, List.append_assoc, List.singleton_append]) ?_
      exact h.visit hwell hsched hcycle hsilent hsignals hdelay hsplit
  exact hrest order [] now rfl h

include hwell hsched hsilent in
/-- In the end every outside output holds what the cycle has for it. -/
theorem Midway.output_eq (h : board.Midway ports order inputs before after values order now)
    {n : UInt64} (hn : n < ports.outputs) :
    Signal.valueAt (now.state.runtime board.nodes (.output n)).inputs 0
      = board.portIn ports values (.output n) 0 := by
  have hid : NodeId.output n ∈ board.nodes.ids ports := NodeMap.output_mem_ids.mpr hn
  refine h.reads hwell hsilent hid (NodeId.not_isInput_output n) (by simp) ?_
  intro wire hwire hnode hport hdriven
  have hout : board.Driven ports (.output n) :=
    .wire wire _ hwire hdriven hnode hid (by rw [hport]; simp)
  have hadjacent := adjacent_of_wire hwire hdriven.mem_ids (by rw [hnode]; exact hid)
  rw [hnode] at hadjacent
  have horder := hsched.closed _ _ hdriven hadjacent (hsched.output n hn hout)
  exact ⟨horder, horder⟩

end

end Board

/-! ## Injections -/

open TickState (lastInto lastInto_concat)

/-- Some injections put the values of an input vector on all outside inputs. -/
def Loads (ports : PortCounts) (round : List (UInt64 × Binary64)) (inputs : List Binary64) : Prop :=
  ∀ n < ports.inputs, lastInto round n = some (Signal.valueAt inputs n.toNat)

namespace TickState

variable {nodes : NodeMap} {state : TickState}

/-- Injects values one after the other. -/
def injectAll (state : TickState) (round : List (UInt64 × Binary64)) : TickState :=
  round.foldl (fun state injection => state.inject injection.1 injection.2) state

theorem injectAll_concat (state : TickState) (round : List (UInt64 × Binary64))
    (injection : UInt64 × Binary64) :
    state.injectAll (round ++ [injection])
      = (state.injectAll round).inject injection.1 injection.2 := by
  rw [injectAll, List.foldl_append]
  rfl

/-- What injections do, by induction on their number, the last one first. -/
theorem Shaped.injectAll (h : Shaped nodes state) (round : List (UInt64 × Binary64)) :
    Shaped nodes (state.injectAll round) ∧ (state.injectAll round).fanout = state.fanout ∧
      (∀ id, id ∈ (state.injectAll round).triggered ↔
        id ∈ state.triggered ∨ ∃ injection ∈ round, id = .input injection.1) ∧
      (∀ id, ¬ id.isInput →
        (state.injectAll round).runtime nodes id = state.runtime nodes id) ∧
      ∀ n value, lastInto round n = some value →
        Signal.valueAt ((state.injectAll round).runtime nodes (.input n)).inputs 0
          = clamp value := by
  induction round using List.reverseRecOn with
  | nil => exact ⟨h, rfl, fun id => by simp [TickState.injectAll], fun _ _ => rfl,
      fun n value hlast => by cases hlast⟩
  | append_singleton round injection ih =>
    obtain ⟨hshaped, hfanout, htriggered, hothers, hinputs⟩ := ih
    rw [injectAll_concat]
    refine ⟨hshaped.inject _ _, ?_, fun id => ?_, fun id hid => ?_, fun n value hlast => ?_⟩
    · rw [fanout_inject, hfanout]
    · rw [mem_triggered_inject, htriggered, or_assoc]
      simp only [List.mem_append, List.mem_singleton, or_and_right, exists_or, exists_eq_left]
    · have hne : id ≠ .input injection.1 := fun heq => hid (heq ▸ NodeId.isInput_input _)
      rw [runtime_inject hshaped.knows, if_neg hne]
      exact hothers id hid
    · rw [runtime_inject hshaped.knows]
      rw [lastInto_concat] at hlast
      by_cases hn : injection.1 = n
      · subst hn
        rw [if_pos rfl, Option.some.injEq] at hlast
        rw [if_pos rfl, ← hlast]
        rfl
      · rw [if_neg hn] at hlast
        have hne : NodeId.input n ≠ .input injection.1 :=
          fun heq => hn (NodeId.input_injective heq).symm
        rw [if_neg hne]
        exact hinputs n value hlast

end TickState

namespace Session

/-- Injects values one after the other. -/
def injectAll (session : Session) (round : List (UInt64 × Binary64)) : Session :=
  { session with now := { session.now with state := session.now.state.injectAll round } }

/-- The outside outputs after each of some ticks, with injections before every tick. -/
def rounds (session : Session) : List (List (UInt64 × Binary64)) → List (List Binary64)
  | [] => []
  | round :: rest =>
    let session := (session.injectAll round).advance
    session.outputValues :: session.rounds rest

/-! ## Between ticks -/

variable {board : Board} {ports : PortCounts} {order : List NodeId} {kept : NodeId → Holding}
  {session : Session}

/-- How a session compares with the cycles of a board between ticks: what is called in every tick
keeps the same, and nothing is under way. -/
structure InStep (board : Board) (ports : PortCounts) (order : List NodeId)
    (kept : NodeId → Holding) (session : Session) : Prop where
  nodes_eq : session.nodes = board.nodes
  order_eq : session.order = order
  ports_eq : session.analysis.ports = ports
  wires_eq : session.now.wires = board.wires
  shaped : session.now.state.Shaped board.nodes
  fanout : session.now.state.fanout.WellFormed
  triggered : session.now.state.triggered = []
  kept : ∀ id, board.Fires ports order id → ¬ id.isConnectionPoint →
    (session.now.state.runtime board.nodes id).holding = kept id
  unread : ∀ id port, ¬ id.isInput →
    (∀ wire ∈ board.wires, wire.target.node = id → wire.target.port.toNat = port →
      ¬ board.Fires ports order wire.source.node) →
    Signal.valueAt (session.now.state.runtime board.nodes id).inputs port = .zero

/-- The first part of a tick, on a board on whose wires nothing is under way. -/
theorem arrive_of_empty (nodes : NodeMap) {now : WireTime}
    (h : ∀ wire ∈ now.wires, wire.signals = []) : now.arrive nodes = now := by
  have hage : ∀ wire ∈ now.wires, wire.age.clearArrivals = wire ∧ wire.age.arrivals = [] := by
    intro wire hwire
    obtain ⟨id, source, target, delay, signals⟩ := wire
    have hsignals : signals = [] := h _ hwire
    subst hsignals
    exact ⟨rfl, rfl⟩
  -- nothing grows older and nothing arrives
  have harriving : WireTime.arriving now.wires = [] := by
    rw [WireTime.arriving, List.flatMap_eq_nil_iff]
    intro wire hwire
    rw [(hage wire hwire).2]
    rfl
  have hwires : now.wires.map (fun wire => wire.age.clearArrivals) = now.wires :=
    (List.map_congr_left fun wire hwire => (hage wire hwire).1).trans (List.map_id _)
  rw [WireTime.arrive_eq, harriving, hwires]
  rfl

section

variable (hwell : board.WellWired) (hsched : board.Schedule ports order)
  (hinstant : ∀ wire ∈ board.wires, wire.delay = 0 ∧ wire.signals = [])
  {inputs results : List Binary64} {after : NodeId → Holding} {values : NodeId → List Binary64}

/-- Where a tick starts from when the visits begin. -/
theorem InStep.midway (h : InStep board ports order kept session)
    {round : List (UInt64 × Binary64)} (hloads : Loads ports round inputs) :
    let injected := session.now.state.injectAll round
    board.Midway ports order inputs kept after values [] ⟨board.wires, { injected with
      fanout := injected.fanout.refresh board.wires, tick := injected.tick + 1 }⟩ := by
  obtain ⟨hshaped, hfanout, htriggered, hothers, hinputs⟩ := h.shaped.injectAll round
  intro injected
  let begun : WireTime := ⟨board.wires, { injected with
    fanout := injected.fanout.refresh board.wires, tick := injected.tick + 1 }⟩
  have hbegun : ∀ id, begun.state.runtime board.nodes id = injected.runtime board.nodes id :=
    fun _ => rfl
  show board.Midway ports order inputs kept after values [] begun
  refine ⟨hshaped.congr rfl, rfl, ?_, fun n hn => ?_, fun _ hid => absurd hid List.not_mem_nil,
    fun id _ hfires hcp => ?_, fun _ _ hsource => absurd hsource List.not_mem_nil,
    fun id port hid hnone => ?_, fun id hid hmem => ?_⟩
  · refine Fanout.refresh_spec ?_ board.wires
    rw [show injected.fanout = session.now.state.fanout from hfanout]
    exact h.fanout
  · have hlast := hloads n hn
    refine ⟨(htriggered _).mpr (.inr ?_), hinputs n _ hlast⟩
    rw [lastInto, Option.map_eq_some_iff] at hlast
    obtain ⟨injection, hmem, -⟩ := hlast
    obtain ⟨hround, hto⟩ := List.mem_filter.mp (List.mem_of_getLast? hmem)
    exact ⟨injection, hround, by rw [of_decide_eq_true hto]⟩
  · rw [hbegun, hothers id (NodeId.not_isInput_of_ordinary hcp)]
    exact h.kept id hfires hcp
  · rw [hbegun, hothers id hid]
    exact h.unread id port hid hnone
  · -- nothing but injections has triggered anything since the last tick
    rcases (htriggered id).mp hid with hold | ⟨injection, -, rfl⟩
    · rw [h.triggered] at hold
      cases hold
    · exact .input _ (NodeMap.input_mem_ids.mp hmem)

include hwell hsched hinstant in
/-- **A tick with all inputs injected is a cycle**: the outputs are those of the cycle, and the
session and the board are in step again. -/
theorem InStep.advance (hcycle : board.Cycle ports inputs kept values after results)
    (hsilent : ∀ id ∈ board.nodes.ids ports, ¬ board.Driven ports id → AllZero (values id))
    (hsignals : ∀ id ∈ board.nodes.ids ports, AllSignals (values id))
    (h : InStep board ports order kept session) {round : List (UInt64 × Binary64)}
    (hloads : Loads ports round inputs) :
    InStep board ports order after (session.injectAll round).advance ∧
      (session.injectAll round).advance.outputValues = results := by
  let injected := session.now.state.injectAll round
  let begun : WireTime := ⟨board.wires, { injected with
    fanout := injected.fanout.refresh board.wires, tick := injected.tick + 1 }⟩
  let ended := order.foldl (WireTime.visit board.nodes) begun
  -- nothing is under way, so the tick begins with the visits
  have hadvance : (session.injectAll round).advance.now
      = { ended with state := { ended.state with triggered := [] } } := by
    show (WireTime.advance session.nodes session.order ⟨session.now.wires, injected⟩) = _
    rw [h.nodes_eq, h.order_eq, h.wires_eq, WireTime.advance,
      arrive_of_empty _ fun wire hwire => (hinstant wire hwire).2]
  have hbegun : board.Midway ports order inputs kept after values [] begun := h.midway hloads
  have hended : board.Midway ports order inputs kept after values order ended :=
    hbegun.visitAll hwell hsched hcycle hsilent hsignals fun wire hwire => (hinstant wire hwire).1
  refine ⟨⟨h.nodes_eq, h.order_eq, h.ports_eq, ?_, ?_, ?_, ?_, fun id hfires hcp => ?_,
    fun id port hid hnone => ?_⟩, ?_⟩
  · rw [hadvance]
    exact hended.wires
  · rw [hadvance]
    exact hended.shaped.congr rfl
  · rw [hadvance]
    exact hended.fanout.1
  · rw [hadvance]
  · rw [hadvance]
    exact hended.done id hfires.2 hfires hcp
  · rw [hadvance]
    exact hended.unread id port hid hnone
  · rw [Session.outputValues_eq, hadvance, hcycle.results]
    show (List.range session.analysis.ports.outputs.toNat).map _ = _
    rw [h.ports_eq]
    refine List.map_congr_left fun n hn => ?_
    obtain ⟨w, hw, heq, -⟩ := exists_word_lt (List.mem_range.mp hn)
    show Signal.valueAt (TickState.runtime _ session.nodes _).inputs 0 = _
    rw [heq, h.nodes_eq]
    exact hended.output_eq hwell hsched hsilent hw

end

/-! ## Whole runs -/

/-- What a session keeps at its start is what the nodes of the board keep before their first
cycle. -/
theorem inStep_start (hwell : board.WellWired) {library : Library}
    (hnodes : session.nodes = board.nodes)
    (hnow : session.now = ⟨board.wires, .ofNodesWith board.nodes library⟩)
    (hports : session.analysis.ports = ports) {e : Evaluator}
    (hrun : board.RunBy ports library e) :
    InStep board ports session.order e.holdingOf session := by
  have hruntime := TickState.runtime_ofNodesWith board.nodes library
  obtain ⟨hfanout, htriggered⟩ := TickState.start_ofNodesWith board.nodes library
  refine ⟨hnodes, rfl, hports, by rw [hnow], ?_, ?_, ?_, fun id hfires hcp => ?_,
    fun id port _ _ => ?_⟩
  · rw [hnow]
    exact TickState.shaped_ofNodesWith fun id node hnode hid => hwell.not_isComposite hnode hid
  · rw [hnow]
    exact hfanout
  · rw [hnow]
    exact htriggered
  · -- before the first tick a node keeps fresh memory or a new evaluator, as it does before the
    -- first cycle
    rcases NodeMap.mem_ids.mp hfires.1.mem_ids with ⟨n, -, rfl⟩ | ⟨hkey, -⟩ | ⟨n, -, rfl⟩
    · exact absurd (NodeId.isConnectionPoint_input n) hcp
    · obtain ⟨node, hnode⟩ := OrderedMap.exists_get?_of_mem_keys hkey
      rw [hrun.start id node hnode hcp, hnow]
      show (TickState.runtime _ board.nodes id).holding = _
      rw [hruntime, hnode]
      simp only [TickState.firstRuntime, NodeRuntime.holding, Node.firstHolding]
      cases node.resolved? library <;> rfl
    · exact absurd (NodeId.isConnectionPoint_output n) hcp
  · rw [hnow]
    exact (TickState.allZero_ofNodesWith board.nodes library id).1.valueAt port

/-- **Ticks keep step with cycles.** On a well-wired board without delays on its wires, a session
whose outside inputs are all injected before every tick gives, tick by tick, the answers of the
baked board, and it does so whether or not it skips what is not live. -/
theorem outputs_of_rounds (hwell : board.WellWired)
    (hinstant : ∀ wire ∈ board.wires, wire.delay = 0 ∧ wire.signals = []) (config : SessionConfig)
    (library : Library) :
    ∃ session circuit, start board config library = .ok session ∧
      board.bake board.inferredPorts library = .ok circuit ∧
      ∀ rounds sequence, List.Forall₂ (Loads board.inferredPorts) rounds sequence →
        session.rounds rounds = (Evaluator.ofCircuit circuit).answers sequence := by
  obtain ⟨session, hstart, hnodes, hnow, hports, hsched⟩ :=
    exists_start hwell.acyclic config library
  obtain ⟨circuit, hbake, hrun, -⟩ := Board.exists_laidOut hwell.keyed hwell.acyclic library
  refine ⟨session, circuit, hstart, hbake, ?_⟩
  -- by induction on the rounds, from any number of cycles on
  have hrest : ∀ rounds sequence, List.Forall₂ (Loads board.inferredPorts) rounds sequence →
      ∀ past session', InStep board board.inferredPorts session.order
        ((Evaluator.ofCircuit circuit).after past).holdingOf session' →
      session'.rounds rounds = ((Evaluator.ofCircuit circuit).after past).answers sequence := by
    intro rounds sequence hloads
    induction hloads with
    | nil => exact fun _ _ _ => rfl
    | @cons round inputs rounds sequence hload _ ih =>
      intro past session' hstep
      have hcycle := hrun.cycle past inputs
      obtain ⟨hnext, houtputs⟩ := hstep.advance hwell hsched hinstant hcycle
        (fun id hid hdriven => hrun.silent hwell.acyclic past inputs hid hdriven)
        (hcycle.allSignals hwell.acyclic) hload
      rw [Session.rounds, Evaluator.answers, houtputs]
      rw [← Evaluator.after_concat] at hnext ⊢
      rw [ih _ _ hnext]
  intro rounds sequence hloads
  exact hrest rounds sequence hloads [] session (inStep_start hwell hnodes hnow hports hrun)

/-- An input that is turned around, held back by one cycle and given out; a second inverter is fed
by nothing. -/
def straight : Board where
  nodes := .ofList [
    (⟨"turn"⟩, .ofKind ⟨"turn"⟩ .invert),
    (⟨"hold"⟩, .ofKind ⟨"hold"⟩ .memory),
    (⟨"idle"⟩, .ofKind ⟨"idle"⟩ .invert)]
  wires := [
    (Wire.between ⟨"w1"⟩ (.input 0) 0 ⟨"turn"⟩ 0).withDelay 0,
    (Wire.between ⟨"w2"⟩ ⟨"turn"⟩ 0 ⟨"hold"⟩ 0).withDelay 0,
    (Wire.between ⟨"w3"⟩ ⟨"hold"⟩ 0 (.output 0) 0).withDelay 0,
    (Wire.between ⟨"w4"⟩ ⟨"idle"⟩ 0 (.output 1) 0).withDelay 0]

/-- Two rounds of the session and two cycles of the baked board; in the second round the input is
injected twice. -/
theorem outputs_of_rounds_straight :
    ∃ session circuit, start straight .default .empty = .ok session ∧
      straight.bake straight.inferredPorts .empty = .ok circuit ∧
      session.rounds [[(0, 50)], [(0, 20), (0, 30)]]
        = (Evaluator.ofCircuit circuit).answers [[50], [30]] := by
  have hwell : straight.WellWired := by decide +kernel
  have hinstant : ∀ wire ∈ straight.wires, wire.delay = 0 ∧ wire.signals = [] := by decide +kernel
  have hports : straight.inferredPorts = ⟨1, 2⟩ := by decide +kernel
  obtain ⟨session, circuit, hstart, hbake, hrounds⟩ :=
    outputs_of_rounds hwell hinstant .default .empty
  refine ⟨session, circuit, hstart, hbake, hrounds _ _ ?_⟩
  -- the last value that is injected counts
  have hloads : ∀ round x, lastInto round 0 = some x →
      Loads straight.inferredPorts round [x] := by
    intro round x hlast n hn
    rw [hports] at hn
    obtain rfl : n = 0 := UInt64.lt_one_iff.mp hn
    exact hlast
  exact .cons (hloads _ 50 rfl) (.cons (hloads _ 30 rfl) .nil)

end Session
end SignalBoard
