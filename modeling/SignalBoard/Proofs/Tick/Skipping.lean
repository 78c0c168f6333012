import SignalBoard.Proofs.Tick.Settling

/-!
# Skipping what is not live

A session may leave out the ids that are not live, and nobody can tell from what is live. Whatever
is injected and however many ticks there are, both ways give the same outside outputs, the same
runtimes of all live ids, and the same signals on all wires between them.

```lean
theorem run_skipping : ∀ events, let skipped := skipping.run events; let walked := whole.run events
  skipped.outputValues = walked.outputValues ∧
    (∀ id, analysis.isLive id → skipped.now.state.runtime? id = walked.now.state.runtime? id) ∧
    skipped.now.wires.filter analysis.isLiveWire = walked.now.wires.filter analysis.isLiveWire
```

What is not live has no outside input before it, and then it is never called in either session, or
it has no outside output behind it, and then its calls reach nothing that is live.

* `Board.Confined`: what no outside input reaches never moves, in whatever order a session goes
  through its ids.
* `Board.Alike`: two sessions of which one skips what is not live; `Alike.visit` is a visit in both,
  `Alike.pass` a visit that only one of them makes.
-/

namespace SignalBoard

/-! ## Agreement about an id -/

namespace TickState

variable {nodes : NodeMap} {state state' state'' : TickState} {id : NodeId}

/-- Two states have the same to say about an id. -/
structure AgreeOn (id : NodeId) (state state' : TickState) : Prop where
  runtime : state.runtime? id = state'.runtime? id
  triggered : id ∈ state.triggered ↔ id ∈ state'.triggered

theorem AgreeOn.refl (id : NodeId) (state : TickState) : AgreeOn id state state :=
  ⟨rfl, Iff.rfl⟩

theorem AgreeOn.symm (h : AgreeOn id state state') : AgreeOn id state' state :=
  ⟨h.runtime.symm, h.triggered.symm⟩

theorem AgreeOn.trans (h : AgreeOn id state state') (h' : AgreeOn id state' state'') :
    AgreeOn id state state'' :=
  ⟨h.runtime.trans h'.runtime, h.triggered.trans h'.triggered⟩

theorem AgreeOn.runtime_eq (h : AgreeOn id state state') (nodes : NodeMap) :
    state.runtime nodes id = state'.runtime nodes id := by
  rw [TickState.runtime, TickState.runtime, h.runtime]

/-- Of all deliveries only those for the id matter. -/
theorem AgreeOn.deliverAll (h : AgreeOn id state state')
    {deliveries deliveries' : List (PortRef × Binary64)}
    (hsame : deliveries.filter (fun d => d.1.node = id)
      = deliveries'.filter fun d => d.1.node = id) :
    AgreeOn id (state.deliverAll nodes deliveries) (state'.deliverAll nodes deliveries') := by
  -- an id is told by the deliveries for it which inputs change and whether it is triggered
  have hfor : ∀ d, d ∈ deliveries ∧ d.1.node = id ↔ d ∈ deliveries' ∧ d.1.node = id := by
    intro d
    have hmem := congrArg (d ∈ ·) hsame
    simpa using hmem
  constructor
  · rw [runtime?_deliverAll, runtime?_deliverAll, runtime_deliverAll, runtime_deliverAll,
      h.runtime_eq nodes, ← NodeRuntime.received_filter id deliveries, hsame,
      NodeRuntime.received_filter, h.runtime]
    simp only [hfor]
  · rw [mem_triggered_deliverAll, mem_triggered_deliverAll, h.triggered, h.runtime_eq nodes]
    simp only [← and_assoc, hfor]

/-- What receives nothing stays as it is. -/
theorem agreeOn_deliverAll {deliveries : List (PortRef × Binary64)}
    (hnone : ∀ d ∈ deliveries, d.1.node ≠ id) :
    AgreeOn id (state.deliverAll nodes deliveries) state := by
  have hempty : deliveries.filter (fun d => d.1.node = id) = [] := by
    rw [List.filter_eq_nil_iff]
    intro d hd
    simpa using hnone d hd
  show AgreeOn id _ (state.deliverAll nodes [])
  exact (AgreeOn.refl id state).deliverAll hempty

theorem AgreeOn.fire (h : AgreeOn id state state') :
    AgreeOn id (state.fire nodes id) (state'.fire nodes id) := by
  refine ⟨?_, h.triggered⟩
  rw [TickState.fire, TickState.fire, h.runtime_eq nodes]
  simp [runtime?, setRuntime, OrderedMap.get?_insert]

/-- A call of another id. -/
theorem agreeOn_fire {id' : NodeId} (hne : id ≠ id') :
    AgreeOn id (state.fire nodes id') state := by
  refine ⟨?_, Iff.rfl⟩
  simp [TickState.fire, runtime?, setRuntime, OrderedMap.get?_insert, hne]

theorem AgreeOn.inject (h : AgreeOn id state state') (index : UInt64) (value : Binary64) :
    AgreeOn id (state.inject index value) (state'.inject index value) := by
  constructor
  · rw [runtime?_inject, runtime?_inject]
    split
    · next heq => rw [← heq, h.runtime]
    · exact h.runtime
  · rw [mem_triggered_inject, mem_triggered_inject, h.triggered]

/-- An injection elsewhere. -/
theorem agreeOn_inject {index : UInt64} (hne : id ≠ .input index) (value : Binary64) :
    AgreeOn id (state.inject index value) state := by
  constructor
  · rw [runtime?_inject, if_neg hne]
  · rw [mem_triggered_inject, or_iff_left hne]

end TickState

/-! ## The parts of a tick -/

namespace Wire

/-- What a call delivers at once to an id is what the wires from the one to the other deliver. -/
theorem filter_immediate (id id' : NodeId) (outputs : List Binary64) (wires : List Wire) :
    (immediate id outputs wires).filter (fun d => d.1.node = id')
      = immediate id outputs
          (wires.filter fun wire => wire.source.node = id ∧ wire.target.node = id') := by
  unfold immediate
  rw [List.filter_map, List.filter_filter, List.filter_filter]
  congr 1
  refine List.filter_congr fun wire _ => ?_
  rw [Bool.eq_iff_iff]
  simp only [Function.comp_apply, Bool.and_eq_true, decide_eq_true_eq]
  tauto

end Wire

namespace WireTime

open TickState

variable {nodes : NodeMap} {now now' : WireTime} {id id' : NodeId}

/-- What arrives at an id comes from the wires that lead there and carry something. -/
theorem filter_arriving_filter {wires : List Wire} {keep : Wire → Bool}
    (h : ∀ wire ∈ wires, wire.signals ≠ [] → wire.target.node = id → keep wire) :
    (arriving (wires.filter keep)).filter (fun d => d.1.node = id)
      = (arriving wires).filter fun d => d.1.node = id := by
  -- by induction on the wires
  induction wires with
  | nil => rfl
  | cons wire rest ih =>
    have hrest := ih fun other hother => h other (List.mem_cons_of_mem _ hother)
    have hcons : ∀ wires : List Wire, arriving (wire :: wires)
        = wire.age.arrivals.map (fun value => (wire.target, value)) ++ arriving wires :=
      fun _ => List.flatMap_cons
    by_cases hkeep : keep wire
    · rw [List.filter_cons_of_pos hkeep, hcons, hcons, List.filter_append, List.filter_append, hrest]
    · -- the wire carries nothing, or leads elsewhere
      have hnone : (wire.age.arrivals.map fun value => (wire.target, value)).filter
          (fun d => d.1.node = id) = [] := by
        by_cases hempty : wire.signals = []
        · rw [Wire.arrivals_age, hempty]
          rfl
        · have htarget : wire.target.node ≠ id :=
            fun heq => hkeep (h wire List.mem_cons_self hempty heq)
          rw [List.filter_eq_nil_iff]
          intro d hd
          obtain ⟨value, -, rfl⟩ := List.mem_map.mp hd
          simpa using htarget
      rw [List.filter_cons_of_neg hkeep, hcons, List.filter_append, hnone, List.nil_append, hrest]

/-- Up to the first visit all that happens to an id are the arrivals. -/
theorem agreeOn_opened (nodes : NodeMap) (now : WireTime) (id : NodeId) :
    AgreeOn id (now.opened nodes).state (now.state.deliverAll nodes (arriving now.wires)) := by
  let started : TickState := { now.state with tick := now.state.tick + 1 }
  have hstarted : AgreeOn id started now.state := ⟨rfl, Iff.rfl⟩
  have harrived : AgreeOn id (started.deliverAll nodes (arriving now.wires))
      (now.state.deliverAll nodes (arriving now.wires)) := hstarted.deliverAll rfl
  rw [opened, arrive_eq]
  exact ⟨harrived.runtime, harrived.triggered⟩

/-- A visit does nothing to an id without a wire from the one that is visited. -/
theorem agreeOn_visit (hfanout : now.state.fanout.UpToDate now.wires) (hne : id' ≠ id)
    (hunfed : ∀ wire ∈ now.wires, wire.source.node = id → wire.target.node ≠ id') :
    AgreeOn id' (now.visit nodes id).state now.state := by
  by_cases h : id ∈ now.state.triggered
  · rw [visit_of_triggered h hfanout]
    refine AgreeOn.trans (agreeOn_deliverAll fun d hd => ?_) (agreeOn_fire hne)
    obtain ⟨wire, hwire, hsource, -, rfl⟩ := Wire.mem_immediate.mp hd
    exact hunfed wire hwire hsource
  · rw [visit_of_not_triggered h]
    exact .refl _ _

/-- Two visits of one id. -/
theorem AgreeOn.visit (hfanout : now.state.fanout.UpToDate now.wires)
    (hfanout' : now'.state.fanout.UpToDate now'.wires) (hid : AgreeOn id now.state now'.state)
    (h : AgreeOn id' now.state now'.state)
    (hwires : now.wires.filter (fun wire => wire.source.node = id ∧ wire.target.node = id')
      = now'.wires.filter fun wire => wire.source.node = id ∧ wire.target.node = id') :
    AgreeOn id' (now.visit nodes id).state (now'.visit nodes id).state := by
  -- if the id is called, it is called in both, gives out the same, and delivers the same to the
  -- other one
  by_cases htriggered : id ∈ now.state.triggered
  · rw [visit_of_triggered htriggered hfanout,
      visit_of_triggered (hid.triggered.mp htriggered) hfanout', hid.runtime_eq nodes]
    refine AgreeOn.deliverAll ?_ ?_
    · by_cases heq : id' = id
      · subst heq
        exact h.fire
      · exact (agreeOn_fire heq).trans (h.trans (agreeOn_fire heq).symm)
    · rw [Wire.filter_immediate, Wire.filter_immediate, hwires]
  · rw [visit_of_not_triggered htriggered,
      visit_of_not_triggered fun h' => htriggered (hid.triggered.mpr h')]
    exact h

end WireTime

namespace Board

open TickState WireTime

variable {board : Board} {ports : PortCounts} {library : Library} {analysis : Analysis}
  {now now' : WireTime} {order : List NodeId}

/-! ## What never moves -/

/-- What stays as it is whatever happens, and in whatever order the ids are visited: the wires lead
where they did, and what no outside input reaches sends nothing and is never called. -/
structure Confined (board : Board) (ports : PortCounts) (library : Library) (now : WireTime) :
    Prop where
  wires : now.wires.map Wire.emptied = board.wires.map Wire.emptied
  carried : ∀ wire ∈ now.wires, wire.signals ≠ [] → board.Reached ports wire.source.node
  still : ∀ id ∈ board.nodes.ids ports, ¬ board.Reached ports id →
    AgreeOn id now.state (.ofNodesWith board.nodes library)

namespace Confined

/-- What has been triggered is reached, since nothing else has ever been. -/
theorem reached_of_triggered (h : board.Confined ports library now) {id : NodeId}
    (hid : id ∈ board.nodes.ids ports) (htriggered : id ∈ now.state.triggered) :
    board.Reached ports id := by
  by_contra hnot
  have hfirst := (h.still id hid hnot).triggered.mp htriggered
  rw [(start_ofNodesWith board.nodes library).2] at hfirst
  exact absurd hfirst List.not_mem_nil

/-- A wire leads where a wire of the board does. -/
theorem exists_wire (h : board.Confined ports library now) {wire : Wire} (hwire : wire ∈ now.wires) :
    ∃ first ∈ board.wires, first.source = wire.source ∧ first.target = wire.target := by
  have hmem := List.mem_map_of_mem hwire (f := Wire.emptied)
  rw [h.wires] at hmem
  obtain ⟨first, hfirst, heq⟩ := List.mem_map.mp hmem
  have hsource : first.emptied.source = wire.emptied.source := congrArg Wire.source heq
  have htarget : first.emptied.target = wire.emptied.target := congrArg Wire.target heq
  exact ⟨first, hfirst, hsource, htarget⟩

/-- What a wire leads to from something that is reached is reached. -/
theorem reached_target (h : board.Confined ports library now) {wire : Wire}
    (hwire : wire ∈ now.wires) (hsource : board.Reached ports wire.source.node)
    (htarget : wire.target.node ∈ board.nodes.ids ports) :
    board.Reached ports wire.target.node := by
  obtain ⟨first, hfirst, hfrom, hto⟩ := h.exists_wire hwire
  rw [← hfrom] at hsource
  rw [← hto] at htarget ⊢
  exact hsource.wire hfirst htarget

/-- A wire to a live id is live if its source is reached. -/
theorem isLiveWire (h : board.Confined ports library now)
    (hanalysis : board.analyse ports = .ok analysis) {wire : Wire} (hwire : wire ∈ now.wires)
    (hsource : board.Reached ports wire.source.node)
    (htarget : analysis.isLive wire.target.node) : analysis.isLiveWire wire := by
  obtain ⟨first, hfirst, hfrom, hto⟩ := h.exists_wire hwire
  have hids := ((isLive_iff hanalysis).mp htarget).1
  have hlive : analysis.isLive wire.source.node := by
    rw [← hfrom] at hsource ⊢
    rw [← hto] at htarget hids
    exact hsource.isLive_left hanalysis (adjacent_of_wire hfirst hsource.mem_ids hids) (.inl htarget)
  rw [Analysis.isLiveWire, hlive, htarget]
  rfl

/-- The first part of a tick keeps what is not reached still. -/
theorem opened (h : board.Confined ports library now) :
    board.Confined ports library (now.opened board.nodes) := by
  refine ⟨?_, fun wire' hwire' => ?_, fun id hid hnot => ?_⟩
  · rw [wires_opened, List.map_map, ← h.wires]
    rfl
  · rw [wires_opened] at hwire'
    obtain ⟨wire, hwire, rfl⟩ := List.mem_map.mp hwire'
    intro hsignals
    refine h.carried wire hwire fun hempty => hsignals ?_
    rw [Wire.signals_arrive, hempty]
    rfl
  · -- nothing arrives at what is not reached
    refine (agreeOn_opened board.nodes now id).trans
      ((agreeOn_deliverAll fun d hd => ?_).trans (h.still id hid hnot))
    obtain ⟨wire, hwire, value, hvalue, rfl⟩ := mem_arriving.mp hd
    rintro rfl
    refine hnot (h.reached_target hwire (h.carried wire hwire fun hempty => ?_) hid)
    rw [Wire.arrivals_age, hempty] at hvalue
    exact absurd hvalue List.not_mem_nil

/-- A visit keeps it still: it is not called, and no wire leads to it from what is. -/
theorem visit (h : board.Confined ports library now) (hfanout : now.state.fanout.UpToDate now.wires)
    {id : NodeId} (hid : id ∈ board.nodes.ids ports) :
    board.Confined ports library (now.visit board.nodes id) := by
  -- only a visit that calls its id does anything; then the id is reached, and so is all that it
  -- sends to
  by_cases htriggered : id ∈ now.state.triggered
  · have hreached := h.reached_of_triggered hid htriggered
    refine ⟨?_, fun wire' hwire' hsignals => ?_, fun id' hid' hnot => ?_⟩
    · rw [wires_visit board.nodes htriggered hfanout, List.map_map, ← h.wires]
      exact List.map_congr_left fun wire _ => Wire.emptied_sendFrom _ _ wire
    · rw [wires_visit board.nodes htriggered hfanout] at hwire'
      obtain ⟨wire, hwire, rfl⟩ := List.mem_map.mp hwire'
      rw [Wire.source_sendFrom]
      by_cases hsource : wire.source.node = id
      · rw [hsource]
        exact hreached
      · rw [Wire.sendFrom_of_ne hsource] at hsignals
        exact h.carried wire hwire hsignals
    · have hne : id' ≠ id := fun heq => hnot (heq ▸ hreached)
      refine (agreeOn_visit hfanout hne ?_).trans (h.still id' hid' hnot)
      rintro wire hwire hsource rfl
      exact hnot (h.reached_target hwire (hsource ▸ hreached) hid')
  · rw [visit_of_not_triggered htriggered]
    exact h

theorem visitAll (h : board.Confined ports library now)
    (hfanout : now.state.fanout.UpToDate now.wires)
    (horder : ∀ id ∈ order, id ∈ board.nodes.ids ports) :
    board.Confined ports library (order.foldl (WireTime.visit board.nodes) now) := by
  -- by induction on the ids to be visited
  induction order generalizing now with
  | nil => exact h
  | cons id rest ih =>
    exact ih (h.visit hfanout (horder id List.mem_cons_self)) (upToDate_visit board.nodes id hfanout)
      fun id' hid' => horder id' (List.mem_cons_of_mem _ hid')

theorem advance (h : board.Confined ports library now) (hfanout : now.state.fanout.WellFormed)
    (horder : ∀ id ∈ order, id ∈ board.nodes.ids ports) :
    board.Confined ports library (now.advance board.nodes order) := by
  obtain ⟨hwires, hcarried, hstill⟩ := h.opened.visitAll (upToDate_opened board.nodes hfanout) horder
  refine ⟨hwires, hcarried, fun id hid hnot => ⟨(hstill id hid hnot).runtime, ?_⟩⟩
  rw [(start_ofNodesWith board.nodes library).2]
  exact Iff.rfl

/-- An outside input is reached by itself. -/
theorem inject (h : board.Confined ports library now) (index : UInt64) (value : Binary64) :
    board.Confined ports library { now with state := now.state.inject index value } := by
  refine ⟨h.wires, h.carried, fun id hid hnot => ?_⟩
  refine (agreeOn_inject (fun heq => hnot ?_) value).trans (h.still id hid hnot)
  subst heq
  exact ⟨index, NodeMap.input_mem_ids.mp hid, .refl⟩

end Confined

/-! ## With and without what is not live -/

/-- How two sessions of a board compare of which one skips what is not live: they have the same to
say about all live ids and about the wires between them. -/
structure Alike (analysis : Analysis) (now now' : WireTime) : Prop where
  agree : ∀ id, analysis.isLive id → AgreeOn id now.state now'.state
  wires : now.wires.filter analysis.isLiveWire = now'.wires.filter analysis.isLiveWire

/-- To send something along a wire does not make it live. -/
theorem filter_map_sendFrom (analysis : Analysis) (id : NodeId) (outputs : List Binary64)
    (wires : List Wire) :
    (wires.map (Wire.sendFrom id outputs)).filter analysis.isLiveWire
      = (wires.filter analysis.isLiveWire).map (Wire.sendFrom id outputs) := by
  rw [List.filter_map]
  congr 1
  refine List.filter_congr fun wire _ => ?_
  simp only [Function.comp_apply, Analysis.isLiveWire, Wire.source_sendFrom, Wire.target_sendFrom]

namespace Alike

/-- A visit of a live id in both sessions. -/
theorem visit (h : Alike analysis now now') (hfanout : now.state.fanout.UpToDate now.wires)
    (hfanout' : now'.state.fanout.UpToDate now'.wires) {id : NodeId} (hid : analysis.isLive id) :
    Alike analysis (now.visit board.nodes id) (now'.visit board.nodes id) := by
  -- the wires between two live ids are among the live wires, which the sessions have in common
  have hbetween : ∀ id', analysis.isLive id' → ∀ wires : List Wire,
      (wires.filter analysis.isLiveWire).filter
          (fun wire => wire.source.node = id ∧ wire.target.node = id')
        = wires.filter fun wire => wire.source.node = id ∧ wire.target.node = id' := by
    intro id' hid' wires
    rw [List.filter_filter]
    refine List.filter_congr fun wire _ => ?_
    by_cases hends : wire.source.node = id ∧ wire.target.node = id'
    · simp [hends, Analysis.isLiveWire, hid, hid']
    · simp [hends]
  have hsame := h.agree id hid
  refine ⟨fun id' hid' => ?_, ?_⟩
  · refine AgreeOn.visit hfanout hfanout' hsame (h.agree id' hid') ?_
    rw [← hbetween id' hid' now.wires, h.wires, hbetween id' hid']
  · by_cases htriggered : id ∈ now.state.triggered
    · rw [wires_visit board.nodes htriggered hfanout,
        wires_visit board.nodes (hsame.triggered.mp htriggered) hfanout', filter_map_sendFrom,
        filter_map_sendFrom, h.wires, hsame.runtime_eq board.nodes]
    · rw [visit_of_not_triggered htriggered,
        visit_of_not_triggered fun h' => htriggered (hsame.triggered.mpr h')]
      exact h.wires

/-- The same injection into both sessions leaves them alike. -/
theorem inject (h : Alike analysis now now') (index : UInt64) (value : Binary64) :
    Alike analysis { now with state := now.state.inject index value }
      { now' with state := now'.state.inject index value } :=
  ⟨fun id hid => (h.agree id hid).inject index value, h.wires⟩

section

variable (hanalysis : board.analyse ports = .ok analysis)

include hanalysis

/-- Whatever arrives at a live id has come along a live wire. -/
theorem opened (h : Alike analysis now now') (hc : board.Confined ports library now)
    (hc' : board.Confined ports library now') :
    Alike analysis (now.opened board.nodes) (now'.opened board.nodes) := by
  have hlive : ∀ {now : WireTime}, board.Confined ports library now → ∀ id, analysis.isLive id →
      (arriving (now.wires.filter analysis.isLiveWire)).filter (fun d => d.1.node = id)
        = (arriving now.wires).filter fun d => d.1.node = id := by
    intro now hc id hid
    refine filter_arriving_filter fun wire hwire hsignals htarget => ?_
    exact hc.isLiveWire hanalysis hwire (hc.carried wire hwire hsignals) (htarget ▸ hid)
  refine ⟨fun id hid => ?_, ?_⟩
  · have harrivals : (arriving now.wires).filter (fun d => d.1.node = id)
        = (arriving now'.wires).filter fun d => d.1.node = id := by
      rw [← hlive hc id hid, h.wires, hlive hc' id hid]
    exact (agreeOn_opened board.nodes now id).trans
      (((h.agree id hid).deliverAll harrivals).trans (agreeOn_opened board.nodes now' id).symm)
  · rw [wires_opened, wires_opened, List.filter_map, List.filter_map]
    exact congrArg (List.map _) h.wires

/-- A visit that the session makes which skips nothing. -/
theorem pass (h : Alike analysis now now') (hc' : board.Confined ports library now')
    (hfanout' : now'.state.fanout.UpToDate now'.wires) {id : NodeId}
    (hid : id ∈ board.nodes.ids ports) (hdead : ¬ analysis.isLive id) :
    Alike analysis now (now'.visit board.nodes id) := by
  by_cases htriggered : id ∈ now'.state.triggered
  · have hreached := hc'.reached_of_triggered hid htriggered
    refine ⟨fun id' hid' => (h.agree id' hid').trans (agreeOn_visit hfanout' ?_ ?_).symm, ?_⟩
    · rintro rfl
      exact hdead hid'
    · -- a wire to a live id would make it live
      rintro wire hwire hsource rfl
      have hwirelive := hc'.isLiveWire hanalysis hwire (hsource ▸ hreached) hid'
      rw [Analysis.isLiveWire, hsource, Bool.and_eq_true] at hwirelive
      exact hdead hwirelive.1
    · have hothers : ∀ wire ∈ now'.wires.filter analysis.isLiveWire, ∀ outputs,
          wire.sendFrom id outputs = wire := by
        intro wire hwire outputs
        refine Wire.sendFrom_of_ne (fun hsource => hdead ?_) outputs
        have hwirelive := (List.mem_filter.mp hwire).2
        rw [Analysis.isLiveWire, hsource, Bool.and_eq_true] at hwirelive
        exact hwirelive.1
      rw [wires_visit board.nodes htriggered hfanout', filter_map_sendFrom, h.wires]
      exact (List.map_id _).symm.trans
        (List.map_congr_left fun wire hwire => (hothers wire hwire _).symm)
  · rw [visit_of_not_triggered htriggered]
    exact h

/-- All visits, by induction on the ids that one of the sessions visits. -/
theorem visitAll (h : Alike analysis now now') (hc' : board.Confined ports library now')
    (hfanout : now.state.fanout.UpToDate now.wires)
    (hfanout' : now'.state.fanout.UpToDate now'.wires)
    (horder : ∀ id ∈ order, id ∈ board.nodes.ids ports) :
    Alike analysis ((order.filter analysis.isLive).foldl (WireTime.visit board.nodes) now)
      (order.foldl (WireTime.visit board.nodes) now') := by
  induction order generalizing now now' with
  | nil => exact h
  | cons id rest ih =>
    have hid := horder id List.mem_cons_self
    have hrest := fun id' hid' => horder id' (List.mem_cons_of_mem _ hid')
    have hnext' := hc'.visit hfanout' hid
    have hfound' := upToDate_visit board.nodes id hfanout'
    rw [List.foldl_cons]
    -- a live id is visited in both sessions, any other one in one of them
    by_cases hlive : analysis.isLive id
    · rw [List.filter_cons_of_pos hlive, List.foldl_cons]
      exact ih (h.visit hfanout hfanout' hlive) hnext' (upToDate_visit board.nodes id hfanout)
        hfound' hrest
    · rw [List.filter_cons_of_neg hlive]
      exact ih (h.pass hanalysis hc' hfanout' hid hlive) hnext' hfanout hfound' hrest

/-- A tick of which one session skips a part leaves them alike. -/
theorem advance (h : Alike analysis now now') (hc : board.Confined ports library now)
    (hc' : board.Confined ports library now') (hfanout : now.state.fanout.WellFormed)
    (hfanout' : now'.state.fanout.WellFormed) :
    Alike analysis (now.advance board.nodes analysis.live)
      (now'.advance board.nodes analysis.order) := by
  rw [live_eq_filter hanalysis]
  obtain ⟨hagree, hwires⟩ := (h.opened hanalysis hc hc').visitAll hanalysis hc'.opened
    (upToDate_opened board.nodes hfanout) (upToDate_opened board.nodes hfanout')
    fun id hid => (mem_order hanalysis).mp hid
  exact ⟨fun id hid => ⟨(hagree id hid).runtime, Iff.rfl⟩, hwires⟩

/-- An outside output is live, or else nothing has ever come to it. -/
theorem runtime?_output (h : Alike analysis now now') (hc : board.Confined ports library now)
    (hc' : board.Confined ports library now') {n : UInt64} (hn : n < ports.outputs) :
    now.state.runtime? (.output n) = now'.state.runtime? (.output n) := by
  have hids : NodeId.output n ∈ board.nodes.ids ports := NodeMap.output_mem_ids.mpr hn
  -- an output that is reached is live, and any other one is as it was at the start
  by_cases hreached : board.Reached ports (.output n)
  · exact (h.agree _ (hreached.isLive_output hanalysis hn)).runtime
  · exact (hc.still _ hids hreached).runtime.trans (hc'.still _ hids hreached).runtime.symm

end

end Alike

end Board

/-! ## Sessions -/

namespace Session

variable {board : Board} {ports : PortCounts} {library : Library} {analysis : Analysis}
  {session skipping whole : Session}

/-- What no outside input reaches stays still in a whole run. -/
theorem confined_run (hnodes : session.nodes = board.nodes)
    (horder : ∀ id ∈ session.order, id ∈ board.nodes.ids ports)
    (h : board.Confined ports library session.now) (hfanout : session.now.state.fanout.WellFormed)
    (events : List Event) :
    board.Confined ports library (session.run events).now ∧
      (session.run events).now.state.fanout.WellFormed := by
  -- by induction on the events, the last one first
  induction events using List.reverseRecOn with
  | nil => exact ⟨h, hfanout⟩
  | append_singleton events event ih =>
    obtain ⟨hconfined, hformed⟩ := ih
    obtain ⟨hkept, -, hsame⟩ := session.frame_run events
    rw [run_concat]
    cases event with
    | inject index value =>
      refine ⟨hconfined.inject index value, ?_⟩
      show ((session.run events).now.state.inject index value).fanout.WellFormed
      rw [TickState.fanout_inject]
      exact hformed
    | advance =>
      show board.Confined ports library ((session.run events).now.advance (session.run events).nodes
        (session.run events).order) ∧ _
      rw [hkept, hnodes, hsame]
      exact ⟨hconfined.advance hformed horder, WireTime.wellFormed_advance _ _ hformed⟩

/-- Two sessions remain alike, whatever happens to both. -/
theorem alike_run (hanalysis : board.analyse ports = .ok analysis)
    (hnodes : skipping.nodes = board.nodes) (hnodes' : whole.nodes = board.nodes)
    (horder : skipping.order = analysis.live) (horder' : whole.order = analysis.order)
    (hc : ∀ events, board.Confined ports library (skipping.run events).now ∧
      (skipping.run events).now.state.fanout.WellFormed)
    (hc' : ∀ events, board.Confined ports library (whole.run events).now ∧
      (whole.run events).now.state.fanout.WellFormed)
    (h : Board.Alike analysis skipping.now whole.now) (events : List Event) :
    Board.Alike analysis (skipping.run events).now (whole.run events).now := by
  -- by induction on the events; that both sessions are confined at any time is known already
  induction events using List.reverseRecOn with
  | nil => exact h
  | append_singleton events event ih =>
    rw [run_concat, run_concat]
    cases event with
    | inject index value => exact ih.inject index value
    | advance =>
      obtain ⟨hkept, -, hsame⟩ := skipping.frame_run events
      obtain ⟨hkept', -, hsame'⟩ := whole.frame_run events
      show Board.Alike analysis
        ((skipping.run events).now.advance (skipping.run events).nodes (skipping.run events).order)
        ((whole.run events).now.advance (whole.run events).nodes (whole.run events).order)
      rw [hkept, hnodes, hsame, horder, hkept', hnodes', hsame', horder']
      exact ih.advance hanalysis (hc events).1 (hc' events).1 (hc events).2 (hc' events).2

/-- **Skipping what is not live is unobservable.** On a board without loops, with any delays and any
library, two sessions that differ only in whether they skip it have the same outside outputs after
any injections and ticks, the same runtimes of all live ids, and the same signals on the wires
between these. At the start a wire may carry signals if an outside input reaches its source. -/
theorem run_skipping (hacyclic : (board.digraph board.inferredPorts).Acyclic)
    (hcarried : ∀ wire ∈ board.wires, wire.signals ≠ [] →
      board.Reached board.inferredPorts wire.source.node) (library : Library) :
    ∃ analysis skipping whole, board.analyse board.inferredPorts = .ok analysis ∧
      start board ⟨true⟩ library = .ok skipping ∧ start board ⟨false⟩ library = .ok whole ∧
      ∀ events,
        let skipped := skipping.run events
        let walked := whole.run events
        skipped.outputValues = walked.outputValues ∧
          (∀ id, analysis.isLive id →
            skipped.now.state.runtime? id = walked.now.state.runtime? id) ∧
          skipped.now.wires.filter analysis.isLiveWire
            = walked.now.wires.filter analysis.isLiveWire := by
  obtain ⟨analysis, hanalysis⟩ := Board.exists_analyse_iff.mpr hacyclic
  let first : WireTime := ⟨board.wires, .ofNodesWith board.nodes library⟩
  let skipping : Session := ⟨board.nodes, first, analysis, ⟨true⟩⟩
  let whole : Session := ⟨board.nodes, first, analysis, ⟨false⟩⟩
  refine ⟨analysis, skipping, whole, hanalysis, start_of_analyse hanalysis _ library,
    start_of_analyse hanalysis _ library, fun events => ?_⟩
  have hfirst : board.Confined board.inferredPorts library first :=
    ⟨rfl, hcarried, fun _ _ _ => .refl _ _⟩
  have hformed : first.state.fanout.WellFormed := (TickState.start_ofNodesWith board.nodes library).1
  have hc : ∀ events, board.Confined board.inferredPorts library (skipping.run events).now ∧
      (skipping.run events).now.state.fanout.WellFormed :=
    confined_run rfl (Board.schedule_live hanalysis).subset hfirst hformed
  have hc' : ∀ events, board.Confined board.inferredPorts library (whole.run events).now ∧
      (whole.run events).now.state.fanout.WellFormed :=
    confined_run rfl (Board.schedule_order hanalysis).subset hfirst hformed
  -- the two sessions start as one
  have halike : Board.Alike analysis (skipping.run events).now (whole.run events).now :=
    alike_run hanalysis rfl rfl rfl rfl hc hc' ⟨fun _ _ => .refl _ _, rfl⟩ events
  refine ⟨?_, fun id hid => (halike.agree id hid).runtime, halike.wires⟩
  obtain ⟨-, hports, -⟩ := skipping.frame_run events
  obtain ⟨-, hports', -⟩ := whole.frame_run events
  rw [outputValues, outputValues, hports, hports']
  refine List.map_congr_left fun place hplace => ?_
  rw [Board.ports_of_analyse hanalysis, List.mem_range] at hplace
  obtain ⟨n, hn, heq, -⟩ := exists_word_lt hplace
  have hsame := halike.runtime?_output hanalysis (hc events).1 (hc' events).1 hn
  rw [outputValue, outputValue, heq, hsame]

/-- An input that is held back and added to what an inverter without inputs gives out. Another
inverter reads it as well and leads nowhere. A signal is on its way to begin with. -/
def sidetracked : Board where
  nodes := .ofList [
    (⟨"hold"⟩, .ofKind ⟨"hold"⟩ .memory),
    (⟨"idle"⟩, .ofKind ⟨"idle"⟩ .invert),
    (⟨"stub"⟩, .ofKind ⟨"stub"⟩ .invert),
    (⟨"sum"⟩, .ofKind ⟨"sum"⟩ .offset)]
  wires := [
    { Wire.between ⟨"w1"⟩ (.input 0) 0 ⟨"hold"⟩ 0 with delay := 2, signals := [⟨30, 1⟩] },
    (Wire.between ⟨"w2"⟩ ⟨"hold"⟩ 0 ⟨"sum"⟩ 0).withDelay 0,
    (Wire.between ⟨"w3"⟩ ⟨"hold"⟩ 0 ⟨"stub"⟩ 0).withDelay 1,
    (Wire.between ⟨"w4"⟩ ⟨"idle"⟩ 0 ⟨"sum"⟩ 1).withDelay 1,
    (Wire.between ⟨"w5"⟩ ⟨"sum"⟩ 0 (.output 0) 0).withDelay 1,
    (Wire.between ⟨"w6"⟩ ⟨"stub"⟩ 0 ⟨"gone"⟩ 0).withDelay 0]

/-- The inverter that leads nowhere and the one without inputs are skipped, which nobody can tell
from the output. -/
theorem run_skipping_sidetracked :
    (sidetracked.digraph sidetracked.inferredPorts).Acyclic ∧
      (∀ wire ∈ sidetracked.wires, wire.signals ≠ [] →
        sidetracked.Reached sidetracked.inferredPorts wire.source.node) ∧
      ∃ skipping whole, start sidetracked ⟨true⟩ .empty = .ok skipping ∧
        start sidetracked ⟨false⟩ .empty = .ok whole ∧
        (skipping.run [.inject 0 50, .advance, .advance, .advance, .advance]).outputValues
          = (whole.run [.inject 0 50, .advance, .advance, .advance, .advance]).outputValues := by
  have hacyclic : (sidetracked.digraph sidetracked.inferredPorts).Acyclic := by decide +kernel
  have hcarried : ∀ wire ∈ sidetracked.wires, wire.signals ≠ [] →
      sidetracked.Reached sidetracked.inferredPorts wire.source.node := by decide +kernel
  obtain ⟨_, skipping, whole, -, hskipping, hwhole, hruns⟩ :=
    run_skipping hacyclic hcarried .empty
  exact ⟨hacyclic, hcarried, skipping, whole, hskipping, hwhole, (hruns _).1⟩

end Session
end SignalBoard
