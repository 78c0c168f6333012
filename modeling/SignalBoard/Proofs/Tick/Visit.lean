import SignalBoard.Tick.Session
import SignalBoard.Proofs.Tick.State

/-!
# What a tick consists of

A tick is an arrival and then one visit per id. Both come down to delivering a list of values and
changing every wire by itself.

* `arrive_eq`: the values that have arrived are delivered wire by wire, and taken off the wires.
* `visit_of_triggered`: a triggered id is fired; then its outputs are delivered along its wires
  without delay and sent off on the others. The table of wires by source finds these wires
  (`Fanout.refresh_spec`), in their order.
* `Fanout.Coherent`: the table is a function of the sources that it remembers, and from the first
  visit on it is the one for the wires of the tick (`fanout_visited`).
* `advance_eq`, `opened`: a tick is an arrival, the visits, and then nothing is triggered.
* `runtime_ofNodesWith`, `shaped_ofNodesWith`: what a session starts from.
-/

namespace SignalBoard

open Signal

/-! ## The table of wires by source -/

/-- The places of an id in a list. -/
def placesOf (sources : List NodeId) (id : NodeId) : List Nat :=
  (List.range sources.length).filter fun place => sources[place]? = some id

/-- One more source adds its place to those of its id. -/
theorem placesOf_concat (sources : List NodeId) (source id : NodeId) :
    placesOf (sources ++ [source]) id
      = placesOf sources id ++ if source = id then [sources.length] else [] := by
  rw [placesOf, List.length_append, List.length_singleton, List.range_succ, List.filter_append,
    placesOf]
  -- the places among the earlier sources, and the new place
  congr 1
  · refine List.filter_congr fun place hplace => ?_
    rw [List.getElem?_append_left (List.mem_range.mp hplace)]
  · by_cases h : source = id <;> simp [h]

namespace Fanout

/-- The table holds the places of every source. -/
def WellFormed (fanout : Fanout) : Prop :=
  ∀ id, fanout.of id = placesOf fanout.sources id

theorem wellFormed_empty : empty.WellFormed := fun _ => rfl

/-- To add a source keeps the table well-formed. -/
theorem WellFormed.add {fanout : Fanout} (h : fanout.WellFormed) (source : NodeId) :
    (fanout.add source).WellFormed := by
  intro id
  show ((fanout.places.insert source (fanout.of source ++ [fanout.sources.length])).get? id).getD []
    = placesOf (fanout.sources ++ [source]) id
  rw [placesOf_concat, OrderedMap.get?_insert]
  by_cases heq : id = source
  · subst heq
    rw [if_pos rfl, if_pos rfl, Option.getD_some, h id]
  · rw [if_neg heq, if_neg (Ne.symm heq), List.append_nil]
    exact h id

/-- The table for some sources. -/
def ofSources (sources : List NodeId) : Fanout :=
  sources.foldl add empty

theorem ofSources_concat (sources : List NodeId) (source : NodeId) :
    ofSources (sources ++ [source]) = (ofSources sources).add source := by
  rw [ofSources, List.foldl_append]
  rfl

/-- The table for some wires depends on their sources only. -/
theorem ofWires_eq (wires : List Wire) : ofWires wires = ofSources (wires.map (·.source.node)) := by
  rw [ofWires, ofSources, List.foldl_map]

/-- A table remembers the sources that it was made for. -/
theorem sources_ofSources (sources : List NodeId) : (ofSources sources).sources = sources := by
  induction sources using List.reverseRecOn with
  | nil => rfl
  | append_singleton sources source ih =>
    rw [ofSources_concat]
    show (ofSources sources).sources ++ [source] = _
    rw [ih]

/-- A table that is made source by source is well-formed. -/
theorem wellFormed_ofSources (sources : List NodeId) : (ofSources sources).WellFormed := by
  induction sources using List.reverseRecOn with
  | nil => exact wellFormed_empty
  | append_singleton sources source ih =>
    rw [ofSources_concat]
    exact ih.add source

/-- **After a refresh the table finds the wires out of every id**, in their order. -/
theorem refresh_spec {fanout : Fanout} (h : fanout.WellFormed) (wires : List Wire) :
    (fanout.refresh wires).WellFormed ∧
      (fanout.refresh wires).sources = wires.map (·.source.node) := by
  rw [refresh]
  -- the table is kept if it is for these sources, and made afresh otherwise
  split
  · next heq => exact ⟨h, heq⟩
  · rw [ofWires_eq]
    exact ⟨wellFormed_ofSources _, sources_ofSources _⟩

/-- The table is the one for the sources that it remembers. -/
def Coherent (fanout : Fanout) : Prop :=
  fanout = ofSources fanout.sources

theorem Coherent.wellFormed {fanout : Fanout} (h : fanout.Coherent) : fanout.WellFormed := by
  rw [h]
  exact wellFormed_ofSources fanout.sources

/-- A table that is made afresh is coherent. -/
theorem coherent_ofWires (wires : List Wire) : (ofWires wires).Coherent := by
  rw [Coherent, ofWires_eq, sources_ofSources]

/-- As there is nothing but its sources that a table depends on, it can be kept if they are the
same. -/
theorem Coherent.refresh_eq {fanout : Fanout} (h : fanout.Coherent) (wires : List Wire) :
    fanout.refresh wires = ofWires wires := by
  rw [refresh]
  split
  · next hsources =>
    rw [ofWires_eq, ← hsources]
    exact h
  · rfl

/-- The table is up to date for some wires. -/
def UpToDate (fanout : Fanout) (wires : List Wire) : Prop :=
  fanout.WellFormed ∧ fanout.sources = wires.map (·.source.node)

end Fanout

/-! ## Emitting -/

namespace Wire

/-- A wire after a call of the node at its source. A wire without delay is not changed. -/
def sendFrom (id : NodeId) (outputs : List Binary64) (wire : Wire) : Wire :=
  if wire.source.node = id ∧ wire.delay ≠ 0 then
    wire.send (Signal.valueAt outputs wire.source.port.toNat)
  else wire

@[simp] theorem source_sendFrom (id : NodeId) (outputs : List Binary64) (wire : Wire) :
    (wire.sendFrom id outputs).source = wire.source := by
  unfold sendFrom
  split <;> rfl

@[simp] theorem target_sendFrom (id : NodeId) (outputs : List Binary64) (wire : Wire) :
    (wire.sendFrom id outputs).target = wire.target := by
  unfold sendFrom
  split <;> rfl

@[simp] theorem delay_sendFrom (id : NodeId) (outputs : List Binary64) (wire : Wire) :
    (wire.sendFrom id outputs).delay = wire.delay := by
  unfold sendFrom
  split <;> rfl

/-- What the wires without delay deliver at once after a call of a node. -/
def immediate (id : NodeId) (outputs : List Binary64) (wires : List Wire) :
    List (PortRef × Binary64) :=
  (wires.filter fun wire => wire.source.node = id ∧ wire.delay = 0).map fun wire =>
    (wire.target, Signal.valueAt outputs wire.source.port.toNat)

/-- What is delivered at once comes along a wire without delay out of the node. -/
theorem mem_immediate {id : NodeId} {outputs : List Binary64} {wires : List Wire}
    {d : PortRef × Binary64} :
    d ∈ immediate id outputs wires ↔ ∃ wire ∈ wires, wire.source.node = id ∧ wire.delay = 0 ∧
      d = (wire.target, Signal.valueAt outputs wire.source.port.toNat) := by
  simp only [immediate, List.mem_map, List.mem_filter, decide_eq_true_eq, and_assoc]
  constructor <;> rintro ⟨wire, hwire, hsource, hdelay, heq⟩ <;>
    exact ⟨wire, hwire, hsource, hdelay, heq.symm⟩

/-- Where one wire alone leads into a port, what it delivers is there afterwards. -/
theorem valueAt_received_immediate {wires : List Wire}
    (hsingle : (wires.map fun wire => (wire.target.node, wire.target.port)).Nodup)
    {wire : Wire} (hwire : wire ∈ wires) (hdelay : wire.delay = 0) (outputs : List Binary64)
    {inputs : List Binary64} (hport : wire.target.port.toNat < inputs.length) :
    Signal.valueAt (NodeRuntime.received wire.target.node
        (immediate wire.source.node outputs wires) inputs) wire.target.port.toNat
      = clamp (Signal.valueAt outputs wire.source.port.toNat) := by
  have hmem : (wire.target, Signal.valueAt outputs wire.source.port.toNat)
      ∈ immediate wire.source.node outputs wires :=
    mem_immediate.mpr ⟨wire, hwire, rfl, hdelay, rfl⟩
  cases hlast : ((immediate wire.source.node outputs wires).filter
      (NodeRuntime.isFor wire.target.node wire.target.port.toNat)).getLast? with
  | none =>
    rw [List.getLast?_eq_none_iff, List.filter_eq_nil_iff] at hlast
    exact absurd (by simp [NodeRuntime.isFor]) (hlast _ hmem)
  | some d =>
    obtain ⟨hd, hfor⟩ := List.mem_filter.mp (List.mem_of_getLast? hlast)
    -- the last delivery for the port comes along some wire into it, and there is just one
    obtain ⟨other, hother, -, -, rfl⟩ := mem_immediate.mp hd
    simp only [NodeRuntime.isFor, Bool.and_eq_true, decide_eq_true_eq] at hfor
    have hsame : other = wire := List.inj_on_of_nodup_map hsingle hother hwire
      (Prod.ext hfor.1 (UInt64.toNat_inj.mp hfor.2))
    rw [NodeRuntime.valueAt_received_of_last hport hlast, hsame]

/-- A port that no wire from the node leads into keeps its value. -/
theorem valueAt_received_of_unfed {id id' : NodeId} {port : Nat} {wires : List Wire}
    (h : ∀ wire ∈ wires, wire.source.node = id → wire.target.node = id' →
      wire.target.port.toNat ≠ port) (outputs inputs : List Binary64) :
    Signal.valueAt (NodeRuntime.received id' (immediate id outputs wires) inputs) port
      = Signal.valueAt inputs port := by
  apply NodeRuntime.valueAt_received_of_none
  intro d hd
  obtain ⟨wire, hwire, hsource, -, rfl⟩ := mem_immediate.mp hd
  exact h wire hwire hsource

/-- One more wire delivers after the others. -/
theorem immediate_concat (id : NodeId) (outputs : List Binary64) (wires : List Wire) (wire : Wire) :
    immediate id outputs (wires ++ [wire]) = immediate id outputs wires ++
      if wire.source.node = id ∧ wire.delay = 0 then
        [(wire.target, Signal.valueAt outputs wire.source.port.toNat)]
      else [] := by
  rw [immediate, List.filter_append, List.map_append, ← immediate]
  congr 1
  by_cases h : wire.source.node = id ∧ wire.delay = 0 <;> simp [h]

end Wire

namespace WireTime

open TickState

variable {nodes : NodeMap}

/-- Emitting at the places of an id among the first wires. By induction on their number: an emission
touches the wire at its place and no other. -/
theorem foldl_emit (outputs : List Binary64) (now : WireTime) (id : NodeId) :
    ∀ n ≤ now.wires.length,
      ((List.range n).filter fun place => (now.wires.map (·.source.node))[place]? = some id).foldl
          (emit nodes outputs) now
        = { wires := (now.wires.take n).map (Wire.sendFrom id outputs) ++ now.wires.drop n
            state := now.state.deliverAll nodes (Wire.immediate id outputs (now.wires.take n)) } := by
  intro n
  induction n with
  | zero => intro _; rfl
  | succ n ih =>
    intro hn
    have hlt : n < now.wires.length := by omega
    have hlength : ((now.wires.take n).map (Wire.sendFrom id outputs)).length = n := by
      rw [List.length_map, List.length_take]
      omega
    -- the wire at the place has not been touched yet
    have hthere : ((now.wires.take n).map (Wire.sendFrom id outputs) ++ now.wires.drop n)[n]?
        = some now.wires[n] := by
      rw [List.getElem?_append_right (by omega), hlength, Nat.sub_self, List.getElem?_drop,
        Nat.add_zero, List.getElem?_eq_getElem hlt]
    have htake : now.wires.take (n + 1) = now.wires.take n ++ [now.wires[n]] :=
      List.take_succ_eq_append_getElem hlt
    have hdrop : now.wires.drop n = now.wires[n] :: now.wires.drop (n + 1) :=
      List.drop_eq_getElem_cons hlt
    rw [List.range_succ, List.filter_append, List.foldl_append, ih (by omega), htake,
      List.map_append, Wire.immediate_concat, deliverAll, deliverAll, List.foldl_append]
    -- the next place is one of the id or is passed over
    by_cases hsource : now.wires[n].source.node = id
    · have hplace : (now.wires.map (·.source.node))[n]? = some id := by
        rw [List.getElem?_map, List.getElem?_eq_getElem hlt, Option.map_some, hsource]
      rw [List.filter_cons_of_pos (by simpa using hplace), List.filter_nil, List.foldl_cons,
        List.foldl_nil, emit, hthere]
      -- a wire without delay delivers and stays as it is; another one is sent on and delivers
      -- nothing
      by_cases hdelay : now.wires[n].delay = 0
      · have hkeep : Wire.sendFrom id outputs now.wires[n] = now.wires[n] := by
          rw [Wire.sendFrom, if_neg fun h => h.2 hdelay]
        simp only [if_pos hdelay, if_pos (And.intro hsource hdelay)]
        rw [List.map_cons, List.map_nil, hkeep, List.append_assoc, List.singleton_append, ← hdrop]
        rfl
      · have hsend : Wire.sendFrom id outputs now.wires[n]
            = now.wires[n].send (Signal.valueAt outputs now.wires[n].source.port.toNat) := by
          rw [Wire.sendFrom, if_pos ⟨hsource, hdelay⟩]
        simp only [if_neg hdelay, if_neg fun h => hdelay (And.right h)]
        rw [List.map_cons, List.map_nil, hsend, List.set_append_right _ _ (by omega), hlength,
          Nat.sub_self, hdrop, List.set_cons_zero, List.append_assoc, List.singleton_append]
        rfl
    · have hplace : ¬ (now.wires.map (·.source.node))[n]? = some id := by
        rw [List.getElem?_map, List.getElem?_eq_getElem hlt, Option.map_some]
        exact fun h => hsource (Option.some.inj h)
      have hkeep : Wire.sendFrom id outputs now.wires[n] = now.wires[n] := by
        rw [Wire.sendFrom, if_neg fun h => hsource h.1]
      rw [List.filter_cons_of_neg (by simpa using hplace), List.filter_nil, List.foldl_nil,
        if_neg fun h => hsource h.1, List.map_cons, List.map_nil, hkeep, List.append_assoc,
        List.singleton_append, ← hdrop]
      rfl

/-- **A visit of a triggered id** fires it, delivers its outputs on its wires without delay and
sends them off on the others. -/
theorem visit_of_triggered {now : WireTime} {id : NodeId} (h : id ∈ now.state.triggered)
    (hfanout : now.state.fanout.UpToDate now.wires) :
    now.visit nodes id =
      let outputs := ((now.state.runtime nodes id).fire (nodes.get? id)).outputs
      { wires := now.wires.map (Wire.sendFrom id outputs)
        state := (now.state.fire nodes id).deliverAll nodes
          (Wire.immediate id outputs now.wires) } := by
  have houtputs : (now.state.fire nodes id).runtime? id
      = some ((now.state.runtime nodes id).fire (nodes.get? id)) := by
    rw [fire, runtime?, setRuntime, OrderedMap.get?_insert, if_pos rfl]
  -- firing does not touch the table, so it still finds the places of the id among the wires
  have hplaces : (now.state.fire nodes id).fanout.of id
      = (List.range now.wires.length).filter fun place =>
          (now.wires.map (·.source.node))[place]? = some id := by
    show now.state.fanout.of id = _
    rw [hfanout.1 id, placesOf, hfanout.2, List.length_map]
  rw [visit, if_pos h]
  simp only [houtputs, hplaces]
  rw [foldl_emit _ { now with state := now.state.fire nodes id } id now.wires.length le_rfl,
    List.take_length, List.drop_length, List.append_nil]

section

variable (nodes : NodeMap) {now : WireTime} {id : NodeId} (h : id ∈ now.state.triggered)
  (hfanout : now.state.fanout.UpToDate now.wires)

include h hfanout

/-- The wires after a visit: those with a delay out of the node have been sent on. -/
theorem wires_visit : (now.visit nodes id).wires = now.wires.map
    (Wire.sendFrom id ((now.state.runtime nodes id).fire (nodes.get? id)).outputs) := by
  rw [visit_of_triggered h hfanout]

/-- The runtimes after a visit: that of the id has fired, and all have received what was delivered
at once. -/
theorem runtime_visit (id' : NodeId) :
    let fired := (now.state.runtime nodes id).fire (nodes.get? id)
    (now.visit nodes id).state.runtime nodes id' =
      { (if id' = id then fired else now.state.runtime nodes id') with
        inputs := NodeRuntime.received id' (Wire.immediate id fired.outputs now.wires)
          (now.state.runtime nodes id').inputs } := by
  rw [visit_of_triggered h hfanout]
  simp only
  rw [runtime_deliverAll, runtime_fire]
  by_cases heq : id' = id
  · subst heq
    rw [if_pos rfl, NodeRuntime.fire_inputs]
  · rw [if_neg heq]

/-- A visit triggers the nodes that are delivered to on ports they have. The id itself stays
triggered until the end of the tick. -/
theorem mem_triggered_visit (id' : NodeId) :
    let fired := (now.state.runtime nodes id).fire (nodes.get? id)
    id' ∈ (now.visit nodes id).state.triggered ↔ id' ∈ now.state.triggered ∨
      ∃ d ∈ Wire.immediate id fired.outputs now.wires, d.1.node = id' ∧
        d.1.port.toNat < (now.state.runtime nodes id').inputs.length := by
  have hinputs : ((now.state.fire nodes id).runtime nodes id').inputs
      = (now.state.runtime nodes id').inputs := by
    rw [runtime_fire]
    split
    · next heq => rw [heq, NodeRuntime.fire_inputs]
    · rfl
  rw [visit_of_triggered h hfanout]
  simp only
  rw [mem_triggered_deliverAll, hinputs]
  rfl

/-- What is not triggered after a visit has received nothing in it. -/
theorem received_of_not_triggered_visit {id' : NodeId}
    (hnot : id' ∉ (now.visit nodes id).state.triggered) :
    let fired := (now.state.runtime nodes id).fire (nodes.get? id)
    NodeRuntime.received id' (Wire.immediate id fired.outputs now.wires)
      (now.state.runtime nodes id').inputs = (now.state.runtime nodes id').inputs := by
  intro fired
  apply NodeRuntime.received_eq_self
  intro d hd hnode
  by_contra hport
  apply hnot
  exact (mem_triggered_visit nodes h hfanout id').mpr (.inr ⟨d, hd, hnode, by omega⟩)

theorem fanout_visit : (now.visit nodes id).state.fanout = now.state.fanout := by
  rw [visit_of_triggered h hfanout]
  exact fanout_deliverAll _

/-- A visit keeps the shape of the runtimes. -/
theorem shaped_visit (hshaped : Shaped nodes now.state) :
    Shaped nodes (now.visit nodes id).state := by
  rw [visit_of_triggered h hfanout]
  exact (hshaped.fire id).deliverAll _

end

/-- An id that is not triggered is passed over. -/
theorem visit_of_not_triggered {now : WireTime} {id : NodeId} (h : id ∉ now.state.triggered) :
    now.visit nodes id = now := by
  rw [visit, if_neg h]

/-- The table stays up to date in a visit, for no wire changes its source. -/
theorem upToDate_visit (nodes : NodeMap) {now : WireTime} (id : NodeId)
    (hfanout : now.state.fanout.UpToDate now.wires) :
    (now.visit nodes id).state.fanout.UpToDate (now.visit nodes id).wires := by
  by_cases h : id ∈ now.state.triggered
  · have hsources : ∀ outputs, (now.wires.map (Wire.sendFrom id outputs)).map (·.source.node)
        = now.wires.map (·.source.node) := by
      intro outputs
      rw [List.map_map]
      refine List.map_congr_left fun wire _ => ?_
      show (wire.sendFrom id outputs).source.node = _
      rw [Wire.source_sendFrom]
    rw [fanout_visit nodes h hfanout, wires_visit nodes h hfanout]
    exact ⟨hfanout.1, hfanout.2.trans (hsources _).symm⟩
  · rw [visit_of_not_triggered h]
    exact hfanout

/-! ## Arriving -/

/-- What arrives on the wires in a tick, wire by wire and oldest first. -/
def arriving (wires : List Wire) : List (PortRef × Binary64) :=
  wires.flatMap fun wire => wire.age.arrivals.map fun value => (wire.target, value)

/-- **The arrival** ages every wire and delivers what has arrived, in the order of the wires. -/
theorem arrive_eq (nodes : NodeMap) (now : WireTime) :
    now.arrive nodes =
      { wires := now.wires.map fun wire => wire.age.clearArrivals
        state := now.state.deliverAll nodes (arriving now.wires) } := by
  -- the loop over wires and over the arrivals of each is one list of deliveries
  have hfold : ∀ (wires : List Wire) (state : TickState),
      (wires.map Wire.age).foldl
          (fun state wire => wire.arrivals.foldl (TickState.deliver nodes wire.target) state) state
        = state.deliverAll nodes (arriving wires) := by
    intro wires
    induction wires with
    | nil => exact fun _ => rfl
    | cons wire rest ih =>
      intro state
      have hcons : arriving (wire :: rest)
          = wire.age.arrivals.map (fun value => (wire.target, value)) ++ arriving rest :=
        List.flatMap_cons
      rw [List.map_cons, List.foldl_cons, ih, hcons, deliverAll, deliverAll, List.foldl_append,
        List.foldl_map]
      rfl
  rw [arrive, hfold, List.map_map]
  rfl

/-! ## A whole tick -/

/-- A tick up to the first visit. -/
def opened (nodes : NodeMap) (now : WireTime) : WireTime :=
  let arrived := arrive nodes { now with state := { now.state with tick := now.state.tick + 1 } }
  { arrived with
    state := { arrived.state with fanout := arrived.state.fanout.refresh arrived.wires } }

/-- After the visits nothing is triggered any more. -/
theorem advance_eq (nodes : NodeMap) (order : List NodeId) (now : WireTime) :
    now.advance nodes order =
      let visited := order.foldl (visit nodes) (now.opened nodes)
      { visited with state := { visited.state with triggered := [] } } := rfl

/-- The wires after the arrival, which are those of the whole tick but for what is sent off. -/
theorem wires_opened (nodes : NodeMap) (now : WireTime) :
    (now.opened nodes).wires = now.wires.map fun wire => wire.age.clearArrivals := by
  rw [opened, arrive_eq]

/-- The table is up to date when the visits begin. -/
theorem upToDate_opened (nodes : NodeMap) {now : WireTime} (h : now.state.fanout.WellFormed) :
    (now.opened nodes).state.fanout.UpToDate (now.opened nodes).wires := by
  refine Fanout.refresh_spec ?_ _
  rw [arrive_eq]
  simp only
  rw [fanout_deliverAll]
  exact h

/-- The table stays up to date through all visits. -/
theorem upToDate_visitAll (nodes : NodeMap) {now : WireTime} (order : List NodeId)
    (h : now.state.fanout.UpToDate now.wires) :
    (order.foldl (visit nodes) now).state.fanout.UpToDate
      (order.foldl (visit nodes) now).wires := by
  induction order generalizing now with
  | nil => exact h
  | cons id rest ih => exact ih (upToDate_visit nodes id h)

/-- The table is the same one after all visits. -/
theorem fanout_visitAll (nodes : NodeMap) {now : WireTime} (order : List NodeId)
    (h : now.state.fanout.UpToDate now.wires) :
    (order.foldl (visit nodes) now).state.fanout = now.state.fanout := by
  induction order generalizing now with
  | nil => rfl
  | cons id rest ih =>
    rw [List.foldl_cons, ih (upToDate_visit nodes id h)]
    -- a visit puts signals on wires and leaves their sources as they are
    by_cases hid : id ∈ now.state.triggered
    · exact fanout_visit nodes hid h
    · rw [visit_of_not_triggered hid]

/-- **From the first visit on, the table is the one for the wires of the tick.** -/
theorem fanout_visited (nodes : NodeMap) {now : WireTime} (order : List NodeId)
    (h : now.state.fanout.Coherent) :
    (order.foldl (visit nodes) (now.opened nodes)).state.fanout = .ofWires now.wires := by
  -- signals that come closer leave the sources of the wires alone
  have hsources : (now.wires.map fun wire => wire.age.clearArrivals).map (·.source.node)
      = now.wires.map (·.source.node) := List.map_map
  rw [fanout_visitAll nodes order (upToDate_opened nodes h.wellFormed), opened, arrive_eq]
  simp only
  rw [fanout_deliverAll, h.refresh_eq, Fanout.ofWires_eq, hsources, ← Fanout.ofWires_eq]

/-- A coherent table is coherent after a tick. -/
theorem coherent_advance (nodes : NodeMap) (order : List NodeId) {now : WireTime}
    (h : now.state.fanout.Coherent) : (now.advance nodes order).state.fanout.Coherent := by
  show (order.foldl (visit nodes) (now.opened nodes)).state.fanout.Coherent
  rw [fanout_visited nodes order h]
  exact Fanout.coherent_ofWires now.wires

/-- A well-formed table is well-formed after a tick. -/
theorem wellFormed_advance (nodes : NodeMap) (order : List NodeId) {now : WireTime}
    (h : now.state.fanout.WellFormed) : (now.advance nodes order).state.fanout.WellFormed :=
  (upToDate_visitAll nodes order (upToDate_opened nodes h)).1

end WireTime

/-! ## The start of a session -/

namespace TickState

variable {nodes : NodeMap} {library : Library}

/-- The runtime that a node starts from. -/
def firstRuntime (library : Library) (node : Node) : NodeRuntime :=
  { NodeRuntime.ofNode node with
    component := (node.resolved? library).map fun circuit => .circuit (.ofCircuit circuit) }

/-- Attaching from the library gives the node its first runtime and changes no other. -/
theorem runtime?_attachFrom (library : Library) {state : TickState} {id : NodeId} {node : Node}
    (hstate : state.runtime? id = some (NodeRuntime.ofNode node)) (id' : NodeId) :
    (attachFrom library state (id, node)).runtime? id' =
      if id' = id then some (firstRuntime library node) else state.runtime? id' := by
  rw [attachFrom]
  -- only a composite node whose circuit is in the library gets something attached
  by_cases hcomposite : node.kind.isComposite = true
  · simp only [if_pos hcomposite]
    cases hcircuit : library.get? node.kind.text with
    | none =>
      have hfirst : firstRuntime library node = NodeRuntime.ofNode node := by
        simp [firstRuntime, Node.resolved?, hcomposite, hcircuit, NodeRuntime.ofNode,
          NodeRuntime.idle]
      rw [hfirst]
      show state.runtime? id' = _
      split
      · next heq => rw [heq, hstate]
      · rfl
    | some circuit =>
      have hfirst : firstRuntime library node = { NodeRuntime.ofNode node with
          component := some (.circuit (.ofCircuit circuit)) } := by
        simp [firstRuntime, Node.resolved?, hcomposite, hcircuit]
      simp only [attach, hstate]
      rw [runtime?, setRuntime, OrderedMap.get?_insert, hfirst]
      rfl
  · simp only [if_neg hcomposite]
    have hfirst : firstRuntime library node = NodeRuntime.ofNode node := by
      simp [firstRuntime, Node.resolved?, hcomposite, NodeRuntime.ofNode, NodeRuntime.idle]
    rw [hfirst]
    split
    · next heq => rw [heq, hstate]
    · rfl

/-- Attaching goes entry by entry, and no key comes twice. -/
theorem runtime?_foldl_attachFrom (library : Library) {entries : List (NodeId × Node)}
    {state : TickState}
    (hn : (entries.map Prod.fst).Nodup)
    (hstate : ∀ id node, (id, node) ∈ entries →
      state.runtime? id = some (NodeRuntime.ofNode node)) (id : NodeId) :
    (entries.foldl (attachFrom library) state).runtime? id =
      match entries.find? (fun e => e.1 = id) with
      | some e => some (firstRuntime library e.2)
      | none => state.runtime? id := by
  induction entries generalizing state with
  | nil => rfl
  | cons e rest ih =>
    obtain ⟨key, node⟩ := e
    rw [List.map_cons, List.nodup_cons] at hn
    have hhead := runtime?_attachFrom library (hstate key node List.mem_cons_self)
    -- no other entry has this key, so the rest finds its runtimes as they were
    have hrest : ∀ id' node', (id', node') ∈ rest →
        (attachFrom library state (key, node)).runtime? id'
          = some (NodeRuntime.ofNode node') := by
      intro id' node' hmem
      have hne : id' ≠ key := fun heq => hn.1 (heq ▸ List.mem_map.mpr ⟨_, hmem, rfl⟩)
      rw [hhead, if_neg hne]
      exact hstate id' node' (List.mem_cons_of_mem _ hmem)
    rw [List.foldl_cons, ih hn.2 hrest, hhead]
    by_cases hkey : key = id
    · subst hkey
      have hnone : rest.find? (fun e => e.1 = key) = none := by
        rw [List.find?_eq_none]
        intro e he heq
        exact hn.1 (List.mem_map.mpr ⟨e, he, by simpa using heq⟩)
      rw [List.find?_cons_of_pos (by simp), hnone]
      simp
    · rw [List.find?_cons_of_neg (by simpa using hkey), if_neg (Ne.symm hkey)]

/-- **What a session starts from**: every node from its first runtime, everything else idle. -/
theorem runtime_ofNodesWith (nodes : NodeMap) (library : Library) (id : NodeId) :
    (ofNodesWith nodes library).runtime nodes id = match nodes.get? id with
      | some node => firstRuntime library node
      | none => NodeRuntime.ofId nodes id := by
  have hstart : ∀ id', (ofNodes nodes).runtime? id' = (nodes.get? id').map NodeRuntime.ofNode :=
    fun id' => OrderedMap.get?_mapValues _ _ _
  have hentries : ∀ id' node, (id', node) ∈ nodes.entries →
      (ofNodes nodes).runtime? id' = some (NodeRuntime.ofNode node) := by
    intro id' node hmem
    rw [hstart, OrderedMap.get?_eq_some_iff.mpr hmem, Option.map_some]
  have hfold := runtime?_foldl_attachFrom library nodes.nodup hentries id
  rw [runtime, ofNodesWith, hfold]
  have hget : nodes.get? id = (nodes.entries.find? fun e => e.1 = id).map Prod.snd := rfl
  cases hfound : nodes.entries.find? (fun e => e.1 = id) with
  | some e =>
    rw [hget, hfound]
    rfl
  | none =>
    have hnone : nodes.get? id = none := by rw [hget, hfound, Option.map_none]
    simp only [hstart, hnone, Option.map_none, Option.getD_none]

theorem allZero_ofNodesWith (nodes : NodeMap) (library : Library) (id : NodeId) :
    AllZero ((ofNodesWith nodes library).runtime nodes id).inputs ∧
      AllZero ((ofNodesWith nodes library).runtime nodes id).outputs := by
  rw [runtime_ofNodesWith]
  cases hnode : nodes.get? id with
  | some node => exact ⟨allZero_replicate _, allZero_replicate _⟩
  | none =>
    rw [NodeRuntime.ofId, hnode]
    simp only
    split <;> exact ⟨allZero_replicate _, allZero_replicate _⟩

theorem keys_attachFrom {state : TickState} {id : NodeId} (h : id ∈ state.runtimes.keys)
    (entry : NodeId × Node) : id ∈ (attachFrom library state entry).runtimes.keys := by
  obtain ⟨key, node⟩ := entry
  rw [attachFrom]
  split
  · split
    · rw [attach]
      split
      · exact OrderedMap.mem_keys_insert.mpr (.inr h)
      · exact h
    · exact h
  · exact h

/-- Attaching leaves the table and the triggers alone. -/
theorem fanout_attachFrom (library : Library) (state : TickState) (entry : NodeId × Node) :
    (attachFrom library state entry).fanout = state.fanout ∧
      (attachFrom library state entry).triggered = state.triggered := by
  obtain ⟨key, node⟩ := entry
  rw [attachFrom]
  split
  · split
    · rw [attach]
      split <;> exact ⟨rfl, rfl⟩
    · exact ⟨rfl, rfl⟩
  · exact ⟨rfl, rfl⟩

theorem knows_ofNodesWith (nodes : NodeMap) (library : Library) :
    (ofNodesWith nodes library).Knows nodes := by
  have hfold : ∀ (entries : List (NodeId × Node)) (state : TickState), ∀ id ∈ state.runtimes.keys,
      id ∈ (entries.foldl (attachFrom library) state).runtimes.keys := by
    intro entries
    induction entries with
    | nil => exact fun _ _ h => h
    | cons e rest ih => exact fun state id h => ih _ id (keys_attachFrom h e)
  intro id hid
  refine hfold nodes.entries (ofNodes nodes) id ?_
  rw [ofNodes, OrderedMap.keys_mapValues]
  exact hid

/-- At the start the table is empty and nothing is triggered. -/
theorem idle_ofNodesWith (nodes : NodeMap) (library : Library) :
    (ofNodesWith nodes library).fanout = .empty ∧ (ofNodesWith nodes library).triggered = [] := by
  have hfold : ∀ (entries : List (NodeId × Node)) (state : TickState),
      (entries.foldl (attachFrom library) state).fanout = state.fanout ∧
        (entries.foldl (attachFrom library) state).triggered = state.triggered := by
    intro entries
    induction entries with
    | nil => exact fun _ => ⟨rfl, rfl⟩
    | cons e rest ih =>
      intro state
      obtain ⟨hfanout, htriggered⟩ := ih (attachFrom library state e)
      obtain ⟨hfanout', htriggered'⟩ := fanout_attachFrom library state e
      exact ⟨hfanout.trans hfanout', htriggered.trans htriggered'⟩
  exact hfold nodes.entries (ofNodes nodes)

/-- The empty table is well-formed, so a session starts as the lemmas about ticks want it. -/
theorem start_ofNodesWith (nodes : NodeMap) (library : Library) :
    (ofNodesWith nodes library).fanout.WellFormed ∧
      (ofNodesWith nodes library).triggered = [] := by
  obtain ⟨hfanout, htriggered⟩ := idle_ofNodesWith nodes library
  rw [hfanout]
  exact ⟨Fanout.wellFormed_empty, htriggered⟩

/-- No circuit stands in for a connection point of its own kind. -/
theorem shaped_ofNodesWith
    (hkinds : ∀ id node, nodes.get? id = some node → id.isConnectionPoint →
      node.kind.isComposite = false) : Shaped nodes (ofNodesWith nodes library) := by
  refine ⟨knows_ofNodesWith nodes library, fun id _ => ?_, fun id => ?_, fun id => ?_,
    fun id hid => ?_⟩ <;> rw [runtime_ofNodesWith]
  · rw [NodeRuntime.ofId]
    cases nodes.get? id <;> rfl
  · rw [NodeRuntime.ofId]
    cases nodes.get? id <;> rfl
  · cases hnode : nodes.get? id with
    | none =>
      rw [NodeRuntime.ofId, hnode]
      simp only
      split <;> exact fun _ _ h => by cases h
    | some node =>
      intro respond calls h
      obtain ⟨circuit, -, heq⟩ := Option.map_eq_some_iff.mp h
      cases heq
  · cases hnode : nodes.get? id with
    | none =>
      rw [NodeRuntime.ofId, hnode]
      simp only
      split <;> rfl
    | some node =>
      -- a node under the id of a connection point is looked up in the library like any other
      show (node.resolved? library).map _ = none
      rw [Node.resolved?, hkinds id node hnode hid]
      rfl

end TickState
end SignalBoard
