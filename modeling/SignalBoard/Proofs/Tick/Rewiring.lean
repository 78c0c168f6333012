import SignalBoard.Proofs.Tick.Timing

/-!
# Wires that are replaced between ticks

The table of wires by source is kept from tick to tick and made anew only if the sources of the
wires have changed. Between ticks the wires can be replaced altogether, and so can the nodes and the
order, but no tick is misled by what was there before: each goes as if the table had been made for
its wires.

```lean
theorem advance_afresh (h : now.state.Reachable) (nodes : NodeMap) (order : List NodeId) :
    (∀ fanout, now.advance nodes order = (now.withFanout fanout).advanceAfresh nodes order) ∧ …
```

A table is a function of the sources that it remembers (`Reachable.coherent`), so that comparing
these is enough (`Coherent.refresh_eq`).

* `arrive_withFanout`: the tick up to the first visit does not look at the table.
* `Fanout.mem_of_ofWires`: the table holds the places of the wires out of an id and no others.
* `length_visitAll`: no wire is added or lost within a tick, so these places are still there.
-/

namespace SignalBoard

/-! ## The table of some wires -/

namespace Fanout

/-- A table that is made afresh finds the places of an id among the sources. -/
theorem of_ofWires (wires : List Wire) (id : NodeId) :
    (ofWires wires).of id = placesOf (wires.map (·.source.node)) id := by
  rw [ofWires_eq, wellFormed_ofSources, sources_ofSources]

/-- The places are found in the order of the wires, each of them once. -/
theorem pairwise_of_ofWires (wires : List Wire) (id : NodeId) :
    ((ofWires wires).of id).Pairwise (· < ·) := by
  rw [of_ofWires]
  exact List.pairwise_lt_range.filter _

/-- The places are those of the wires out of the id. -/
theorem mem_of_ofWires {wires : List Wire} {id : NodeId} {place : Nat} :
    place ∈ (ofWires wires).of id ↔
      ∃ wire, wires[place]? = some wire ∧ wire.source.node = id := by
  rw [of_ofWires, placesOf, List.mem_filter, List.mem_range, decide_eq_true_eq, List.getElem?_map,
    Option.map_eq_some_iff]
  refine ⟨fun h => h.2, fun h => ⟨?_, h⟩⟩
  obtain ⟨wire, hplace, -⟩ := h
  rw [List.length_map]
  exact (List.getElem?_eq_some_iff.mp hplace).1

end Fanout

/-! ## Another table -/

namespace TickState

variable {state : TickState}

/-- The state with another table of wires by source. -/
def withFanout (state : TickState) (fanout : Fanout) : TickState :=
  { state with fanout }

@[simp] theorem runtime_withFanout (nodes : NodeMap) (fanout : Fanout) (id : NodeId) :
    (state.withFanout fanout).runtime nodes id = state.runtime nodes id := rfl

@[simp] theorem setRuntime_withFanout (fanout : Fanout) (id : NodeId) (runtime : NodeRuntime) :
    (state.withFanout fanout).setRuntime id runtime
      = (state.setRuntime id runtime).withFanout fanout := rfl

@[simp] theorem trigger_withFanout (fanout : Fanout) (id : NodeId) :
    (state.withFanout fanout).trigger id = (state.trigger id).withFanout fanout := by
  show (if id ∈ state.triggered then _ else _) = _
  rw [trigger]
  split <;> rfl

theorem deliver_withFanout (nodes : NodeMap) (fanout : Fanout) (target : PortRef)
    (value : Binary64) :
    (state.withFanout fanout).deliver nodes target value
      = (state.deliver nodes target value).withFanout fanout := by
  rw [deliver, deliver, runtime_withFanout]
  simp only [setRuntime_withFanout, trigger_withFanout]
  split <;> rfl

/-- Deliveries do not look at the table. -/
theorem deliverAll_withFanout (nodes : NodeMap) (fanout : Fanout)
    (deliveries : List (PortRef × Binary64)) :
    (state.withFanout fanout).deliverAll nodes deliveries
      = (state.deliverAll nodes deliveries).withFanout fanout := by
  induction deliveries generalizing state with
  | nil => rfl
  | cons d rest ih =>
    rw [deliverAll, List.foldl_cons, deliver_withFanout]
    exact ih

end TickState

/-! ## A tick with a table made for it -/

namespace WireTime

open TickState

variable {now : WireTime}

/-- The same board with another table of wires by source. -/
def withFanout (now : WireTime) (fanout : Fanout) : WireTime :=
  { now with state := now.state.withFanout fanout }

/-- A tick up to the first visit, with a table that is made for it in any case. -/
def openedAfresh (nodes : NodeMap) (now : WireTime) : WireTime :=
  let arrived := arrive nodes { now with state := { now.state with tick := now.state.tick + 1 } }
  arrived.withFanout (.ofWires arrived.wires)

/-- One tick with a table that is made for it in any case. -/
def advanceAfresh (nodes : NodeMap) (order : List NodeId) (now : WireTime) : WireTime :=
  let visited := order.foldl (visit nodes) (now.openedAfresh nodes)
  { visited with state := { visited.state with triggered := [] } }

theorem arrive_withFanout (nodes : NodeMap) (now : WireTime) (fanout : Fanout) :
    (now.withFanout fanout).arrive nodes = (now.arrive nodes).withFanout fanout := by
  rw [arrive_eq, arrive_eq]
  show WireTime.mk _ ((now.state.withFanout fanout).deliverAll nodes (arriving now.wires)) = _
  rw [deliverAll_withFanout]
  rfl

/-- Such a tick does not depend on the table that is there. -/
theorem advanceAfresh_withFanout (nodes : NodeMap) (order : List NodeId) (now : WireTime)
    (fanout : Fanout) :
    (now.withFanout fanout).advanceAfresh nodes order = now.advanceAfresh nodes order := by
  have hopened : (now.withFanout fanout).openedAfresh nodes = now.openedAfresh nodes := by
    have harrived := arrive_withFanout nodes
      { now with state := { now.state with tick := now.state.tick + 1 } } fanout
    have htables := congrArg (fun arrived => withFanout arrived (.ofWires arrived.wires)) harrived
    exact htables
  rw [advanceAfresh, hopened, advanceAfresh]

/-- A coherent table is as good as one that is made for the tick. -/
theorem opened_eq_openedAfresh (nodes : NodeMap) (h : now.state.fanout.Coherent) :
    now.opened nodes = now.openedAfresh nodes := by
  -- the arrival leaves the table as it was when the tick began
  have hfanout : ∀ now : WireTime, (now.arrive nodes).state.fanout = now.state.fanout := by
    intro now
    rw [arrive_eq]
    exact fanout_deliverAll _
  simp only [opened, openedAfresh, hfanout, h.refresh_eq]
  rfl

/-! ## Places that are there -/

/-- To emit adds no wire and takes none away. -/
theorem length_emit (nodes : NodeMap) (outputs : List Binary64) (now : WireTime) (place : Nat) :
    (emit nodes outputs now place).wires.length = now.wires.length := by
  rw [emit]
  cases now.wires[place]? with
  | none => rfl
  | some wire =>
    simp only
    split
    · rfl
    · exact List.length_set

theorem length_emitAll (nodes : NodeMap) (outputs : List Binary64) (now : WireTime)
    (places : List Nat) :
    (places.foldl (emit nodes outputs) now).wires.length = now.wires.length := by
  induction places generalizing now with
  | nil => rfl
  | cons place rest ih => rw [List.foldl_cons, ih, length_emit]

theorem length_visit (nodes : NodeMap) (now : WireTime) (id : NodeId) :
    (now.visit nodes id).wires.length = now.wires.length := by
  rw [visit]
  split
  · exact length_emitAll nodes _ _ _
  · rfl

theorem length_visitAll (nodes : NodeMap) (now : WireTime) (order : List NodeId) :
    (order.foldl (visit nodes) now).wires.length = now.wires.length := by
  induction order generalizing now with
  | nil => rfl
  | cons id rest ih => rw [List.foldl_cons, ih, length_visit]

/-- **A tick never goes by a table that is out of date**, whatever the board has been through and
whatever wires it has been given for the tick: the tick goes as if the table had been made for it,
whichever table is there. Before every visit the table holds, for every id, the places of the wires
out of it in their order; and when the outputs of an id are put on these wires one after the other,
each place is still there. -/
theorem advance_afresh (h : now.state.Reachable) (nodes : NodeMap) (order : List NodeId) :
    (∀ fanout, now.advance nodes order = (now.withFanout fanout).advanceAfresh nodes order) ∧
    ∀ n id,
      let midway := (order.take n).foldl (visit nodes) (now.opened nodes)
      let places := midway.state.fanout.of id
      places.Pairwise (· < ·) ∧
      (∀ place, place ∈ places ↔
        ∃ wire, now.wires[place]? = some wire ∧ wire.source.node = id) ∧
      ∀ outputs m, ∀ place ∈ places,
        place < ((places.take m).foldl (emit nodes outputs)
          { midway with state := midway.state.fire nodes id }).wires.length := by
  refine ⟨fun fanout => ?_, fun n id => ?_⟩
  -- the two ticks are the same up to the first visit, and the visits see nothing but the board
  · rw [advanceAfresh_withFanout, advanceAfresh, ← opened_eq_openedAfresh nodes h.coherent]
    exact advance_eq nodes order now
  · intro midway places
    -- the visits so far have left the table alone
    have hplaces : places = (Fanout.ofWires now.wires).of id := by
      rw [← fanout_visited nodes (order.take n) h.coherent]
    have hmem : ∀ place, place ∈ places ↔
        ∃ wire, now.wires[place]? = some wire ∧ wire.source.node = id := by
      intro place
      rw [hplaces]
      exact Fanout.mem_of_ofWires
    refine ⟨?_, hmem, fun outputs m place hplace => ?_⟩
    · rw [hplaces]
      exact Fanout.pairwise_of_ofWires now.wires id
    · -- a place in the table was there when the tick began, and there are as many wires as then
      obtain ⟨wire, hwire, -⟩ := (hmem place).mp hplace
      rw [length_emitAll, length_visitAll, wires_opened, List.length_map]
      exact (List.getElem?_eq_some_iff.mp hwire).1

/-- An inverter between an outside input and an outside output. -/
def turning : WireTime where
  wires := [
    (Wire.between ⟨"in"⟩ (.input 0) 0 ⟨"turn"⟩ 0).withDelay 0,
    (Wire.between ⟨"out"⟩ ⟨"turn"⟩ 0 (.output 0) 0).withDelay 0]
  state := (TickState.ofNodes (.ofList [(⟨"turn"⟩, .ofKind ⟨"turn"⟩ .invert)])).inject 0 50

/-- The same after a tick, with more wires and in another order. -/
def rerouted (nodes : NodeMap) (order : List NodeId) : WireTime where
  wires := [
    (Wire.between ⟨"out"⟩ ⟨"turn"⟩ 0 (.output 0) 0).withDelay 0,
    (Wire.between ⟨"past"⟩ (.input 0) 0 (.output 1) 0).withDelay 2,
    (Wire.between ⟨"in"⟩ (.input 0) 0 ⟨"turn"⟩ 0).withDelay 0]
  state := (turning.advance nodes order).state.inject 0 20

/-- In the next tick the node is gone as well. -/
theorem advance_afresh_rerouted :
    let order : List NodeId := [.input 0, ⟨"turn"⟩, .output 0, .output 1]
    let now := rerouted (.ofList [(⟨"turn"⟩, .ofKind ⟨"turn"⟩ .invert)]) order
    now.state.Reachable ∧ now.state.fanout.of (.input 0) = [0] ∧
      (now.opened .empty).state.fanout.of (.input 0) = [1, 2] ∧
      ∀ fanout, now.advance .empty order = (now.withFanout fanout).advanceAfresh .empty order := by
  have hstart : turning.state.Reachable := .inject 0 50 (.ofNodes _)
  have hreachable : ∀ nodes order, (rerouted nodes order).state.Reachable :=
    fun nodes order => .inject 0 20 (.advance nodes order hstart)
  exact ⟨hreachable _ _, by decide +kernel, by decide +kernel,
    (advance_afresh (hreachable _ _) .empty _).1⟩

end WireTime
end SignalBoard
