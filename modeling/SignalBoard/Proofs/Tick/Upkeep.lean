import SignalBoard.Proofs.Node.Memory
import SignalBoard.Proofs.Tick.Travel

/-!
# What the runtimes keep in shape

A board in wire time can be given values on its outside inputs and right on its wires, its nodes can
be stood in for by any device, and its wires can be replaced between ticks. Through all of that the
runtimes stay as they were made: every value in them is a signal, though what is under way on a wire
need not be one; every node has its ports, and its memory is what a node of its kind keeps; and what
nothing leads into holds zero.

```lean
theorem upkeep (nodes : NodeMap) (library : Library) (wires : List Wire) (moves : List Move) :
    let now := WireTime.course nodes ⟨wires, .ofNodesWith nodes library⟩ moves
    …
```

* `NodeRuntime.Upkept`: what holds of a single runtime. It is kept when values are received
  (`Upkept.receive`), when the node is called (`Upkept.fire`) and when a value is injected
  (`Upkept.inject`).
* `TickState.Upkept`, `WireTime.Upkept`: the same for all runtimes, and that wires lead to where it
  is allowed.
* `WireTime.Upkept.undergo`: one move. From it the run, the last move first.
-/

namespace SignalBoard

open Signal

/-- What can happen to a board in wire time. -/
inductive Move where
  /-- A value is put on an outside input. -/
  | inject (index : UInt64) (value : Binary64)
  /-- Something is called in place of a node from now on. -/
  | attach (id : NodeId) (component : Component)
  /-- A value is put on the wire at a place, as it is. -/
  | send (place : Nat) (value : Binary64)
  /-- The wires are replaced. -/
  | rewire (wires : List Wire)
  /-- A tick goes by. -/
  | tick (order : List NodeId)

namespace Move

/-- Whether a value is put on a given id. -/
def injects (id : NodeId) : Move → Bool
  | inject index _ => id = .input index
  | _ => false

def rewires : Move → Bool
  | rewire _ => true
  | _ => false

/-- Whether a move leads values to no other ports than some. -/
def Within (fed : NodeId → Nat → Prop) : Move → Prop
  | inject index _ => fed (.input index) 0
  | rewire wires => ∀ wire ∈ wires, fed wire.target.node wire.target.port.toNat
  | _ => True

end Move

namespace WireTime

/-- What becomes of a board by a move. -/
def undergo (nodes : NodeMap) (now : WireTime) : Move → WireTime
  | .inject index value => { now with state := now.state.inject index value }
  | .attach id component => { now with state := now.state.attach id component }
  | .send place value => { now with wires := now.wires.modify place (·.send value) }
  | .rewire wires => { now with wires }
  | .tick order => now.advance nodes order

/-- What becomes of a board by one move after the other. -/
def course (nodes : NodeMap) (start : WireTime) (moves : List Move) : WireTime :=
  moves.foldl (undergo nodes) start

theorem course_concat (nodes : NodeMap) (start : WireTime) (moves : List Move) (move : Move) :
    course nodes start (moves ++ [move]) = (course nodes start moves).undergo nodes move := by
  rw [course, List.foldl_append]
  rfl

end WireTime

/-! ## A single runtime -/

namespace NodeRuntime

/-- The runtime of an id after some moves: nothing but signals, the ports and the memory that the id
has by the nodes, and zero on the ports that are not fed. An outside input has a port once a value
has been injected into it. -/
structure Upkept (nodes : NodeMap) (moves : List Move) (fed : NodeId → Nat → Prop) (id : NodeId)
    (r : NodeRuntime) : Prop where
  inputs : AllSignals r.inputs
  outputs : AllSignals r.outputs
  values : AllSignals r.memory.values
  inputCount : r.inputs.length
    = max (ofId nodes id).inputs.length (if moves.any (Move.injects id) then 1 else 0)
  outputCount : r.outputs.length = (ofId nodes id).outputs.length
  memory : match nodes.get? id with
    | some node => r.memory.BelongsTo node.kind node.params
    | none => r.memory = .stateless
  unfed : ∀ port, ¬ fed id port → valueAt r.inputs port = .zero

variable {nodes : NodeMap} {moves : List Move} {fed : NodeId → Nat → Prop} {id : NodeId}
  {r : NodeRuntime}

/-- What is called in place of a node does not matter. -/
theorem Upkept.standIn (h : r.Upkept nodes moves fed id) (component : Option Component) :
    Upkept nodes moves fed id { r with component } :=
  ⟨h.inputs, h.outputs, h.values, h.inputCount, h.outputCount, h.memory, h.unfed⟩

/-- Every id starts in shape: with zeros on its ports and the fresh memory of its kind. -/
theorem upkept_ofId (nodes : NodeMap) (fed : NodeId → Nat → Prop) (id : NodeId) :
    (ofId nodes id).Upkept nodes [] fed id := by
  -- whatever the id is, its first runtime is an idle one
  have hidle : ∃ inputs outputs memory, ofId nodes id = idle inputs outputs memory ∧
      AllSignals memory.values ∧ match nodes.get? id with
        | some node => memory.BelongsTo node.kind node.params
        | none => memory = .stateless := by
    unfold ofId
    cases nodes.get? id with
    | some node =>
      exact ⟨_, _, _, rfl, NodeMemory.fresh_values _ _, NodeMemory.fresh_belongsTo _ _⟩
    | none =>
      simp only
      split
      · exact ⟨1, 1, .stateless, rfl, fun x hx => absurd hx List.not_mem_nil, rfl⟩
      · exact ⟨0, 0, .stateless, rfl, fun x hx => absurd hx List.not_mem_nil, rfl⟩
  obtain ⟨inputs, outputs, memory, heq, hvalues, hmemory⟩ := hidle
  refine ⟨?_, ?_, ?_, (Nat.max_zero _).symm, rfl, ?_, fun port _ => ?_⟩ <;> rw [heq]
  · exact (allZero_replicate inputs).allSignals
  · exact (allZero_replicate outputs).allSignals
  · exact hvalues
  · exact hmemory
  · exact (allZero_replicate inputs).valueAt port

/-- Values are received on fed ports only. -/
theorem Upkept.receive (h : r.Upkept nodes moves fed id) {deliveries : List (PortRef × Binary64)}
    (hfed : ∀ d ∈ deliveries, fed d.1.node d.1.port.toNat) :
    Upkept nodes moves fed id { r with inputs := received id deliveries r.inputs } := by
  refine ⟨received_allSignals h.inputs, h.outputs, h.values, ?_, h.outputCount, h.memory,
    fun port hport => ?_⟩
  · rw [length_received]
    exact h.inputCount
  · rw [valueAt_received_of_none, h.unfed port hport]
    rintro d hd rfl rfl
    exact hport (hfed d hd)

/-- A call keeps the runtime in shape. What is called in place of the node leaves the memory alone,
and the node itself keeps what belongs to it. -/
theorem Upkept.fire (h : r.Upkept nodes moves fed id) :
    (r.fire (nodes.get? id)).Upkept nodes moves fed id := by
  have hvalues : AllSignals (r.fire (nodes.get? id)).memory.values := by
    obtain ⟨inputs, outputs, memory, component⟩ := r
    cases component with
    | some component => exact h.values
    | none =>
      cases nodes.get? id with
      | none => exact h.values
      | some node => exact node.kind.evaluate_values _ _ _ h.values
  -- the memory changes only where there is a node and nothing is called in its place
  have hmemory : match nodes.get? id with
      | some node => (r.fire (nodes.get? id)).memory.BelongsTo node.kind node.params
      | none => (r.fire (nodes.get? id)).memory = .stateless := by
    have hbefore := h.memory
    obtain ⟨inputs, outputs, memory, component⟩ := r
    cases hnode : nodes.get? id with
    | none =>
      rw [hnode] at hbefore
      cases component <;> exact hbefore
    | some node =>
      rw [hnode] at hbefore
      cases component with
      | some component => exact hbefore
      | none => exact node.kind.evaluate_belongsTo _ _ _ (.inr hbefore)
  refine ⟨?_, fire_allSignals _ h.inputs, hvalues, ?_, TickState.length_outputs_fire r nodes id
    h.outputCount, hmemory, ?_⟩ <;> rw [fire_inputs]
  · exact h.inputs
  · exact h.inputCount
  · exact h.unfed

/-- What another move does elsewhere. -/
theorem Upkept.concat (h : r.Upkept nodes moves fed id) {move : Move}
    (hmove : move.injects id = false) : r.Upkept nodes (moves ++ [move]) fed id := by
  refine ⟨h.inputs, h.outputs, h.values, ?_, h.outputCount, h.memory, h.unfed⟩
  rw [List.any_append, List.any_cons, hmove, List.any_nil, Bool.or_false, Bool.or_false]
  exact h.inputCount

/-- An injection sets the first port, and makes one where there is none. -/
theorem Upkept.inject {index : UInt64} (h : r.Upkept nodes moves fed (.input index))
    (value : Binary64) (hfed : fed (.input index) 0) :
    (r.inject value).Upkept nodes (moves ++ [.inject index value]) fed (.input index) := by
  refine ⟨?_, h.outputs, h.values, ?_, h.outputCount, h.memory, fun port hport => ?_⟩
  · intro x hx
    rcases List.mem_cons.mp hx with rfl | hx
    · exact clamp_clamp value
    · exact h.inputs x (List.mem_of_mem_drop hx)
  · have hinjects : (Move.inject index value).injects (.input index) = true := by
      simp [Move.injects]
    have hlength := h.inputCount
    rw [List.any_append, List.any_cons, hinjects, Bool.true_or, Bool.or_true, if_pos rfl]
    show (r.inputs.drop 1).length + 1 = _
    -- there was a port, which is set, or there was none, and one is made
    rw [List.length_drop]
    split at hlength <;> omega
  · cases port with
    | zero => exact absurd hfed hport
    | succ port =>
      have hunfed := h.unfed (port + 1) hport
      have hshift : ∀ xs : List Binary64, valueAt (xs.drop 1) port = valueAt xs (port + 1) := by
        intro xs
        cases xs <;> rfl
      exact (hshift r.inputs).trans hunfed

/-- All values of a runtime in shape are signals. -/
theorem Upkept.isSignal (h : r.Upkept nodes moves fed id) :
    ∀ x ∈ r.inputs ++ r.outputs ++ r.memory.values, IsSignal x := by
  intro x hx
  rw [List.mem_append, List.mem_append] at hx
  rcases hx with (hx | hx) | hx
  · exact allSignals_iff.mp h.inputs x hx
  · exact allSignals_iff.mp h.outputs x hx
  · exact allSignals_iff.mp h.values x hx

/-- A ring is that of a delay node among the nodes. -/
theorem Upkept.ring (h : r.Upkept nodes moves fed id) {buffer : List Binary64} {cursor : UInt64}
    (hmemory : r.memory = .delay buffer cursor) : cursor.toNat < buffer.length ∧
      ∃ node, nodes.get? id = some node ∧ node.kind = .delay ∧
        buffer.length = node.params.subdivisions + 1 := by
  have hkept := h.memory
  rw [hmemory] at hkept
  cases hnode : nodes.get? id with
  | none =>
    rw [hnode] at hkept
    cases hkept
  | some node =>
    rw [hnode] at hkept
    obtain ⟨hkind, hlength, hcursor⟩ := hkept
    exact ⟨hcursor, node, rfl, hkind, hlength⟩

/-- What a node has: its output ports, its input ports, and memory that belongs to it. -/
theorem Upkept.of_node (h : r.Upkept nodes moves fed id) {node : Node}
    (hnode : nodes.get? id = some node) :
    r.outputs.length = node.outputCount.toNat ∧
      r.inputs.length = (if node.inputCount = 0 ∧ moves.any (Move.injects id) then 1
        else node.inputCount.toNat) ∧
      r.memory.BelongsTo node.kind node.params := by
  have hofId : ofId nodes id = ofNode node := by rw [ofId, hnode]
  have hinputs : (ofId nodes id).inputs.length = node.inputCount.toNat := by
    rw [hofId]
    exact List.length_replicate
  have houtputs : (ofId nodes id).outputs.length = node.outputCount.toNat := by
    rw [hofId]
    exact List.length_replicate
  have hzero : node.inputCount = 0 ↔ node.inputCount.toNat = 0 := by
    rw [← UInt64.toNat_inj, UInt64.toNat_zero]
  have hmemory := h.memory
  rw [hnode] at hmemory
  refine ⟨h.outputCount.trans houtputs, ?_, hmemory⟩
  rw [h.inputCount, hinputs]
  -- an injection matters only for a node without input ports
  by_cases hinjected : moves.any (Move.injects id) = true
  · by_cases hcount : node.inputCount = 0
    · rw [if_pos hinjected, if_pos ⟨hcount, hinjected⟩, hzero.mp hcount]
      rfl
    · have hports : node.inputCount.toNat ≠ 0 := fun hnone => hcount (hzero.mpr hnone)
      rw [if_pos hinjected, if_neg fun hand => hcount hand.1]
      omega
  · rw [if_neg hinjected, if_neg fun hand => hinjected hand.2]
    omega

end NodeRuntime

/-! ## All runtimes -/

variable {nodes : NodeMap} {moves : List Move} {fed : NodeId → Nat → Prop}

namespace TickState

variable {state : TickState}

/-- Every node has a runtime, and all runtimes are in shape. -/
structure Upkept (nodes : NodeMap) (moves : List Move) (fed : NodeId → Nat → Prop)
    (state : TickState) : Prop where
  knows : state.Knows nodes
  runtimes : ∀ id, (state.runtime nodes id).Upkept nodes moves fed id

/-- A board without a library. -/
theorem ofNodesWith_empty (nodes : NodeMap) : ofNodesWith nodes .empty = ofNodes nodes := by
  have hentry : ∀ state entry, attachFrom .empty state entry = state := by
    intro state entry
    rw [attachFrom]
    split <;> rfl
  rw [ofNodesWith]
  induction nodes.entries with
  | nil => rfl
  | cons entry rest ih => rw [List.foldl_cons, hentry, ih]

/-- A session starts with all runtimes in shape. -/
theorem upkept_ofNodesWith (nodes : NodeMap) (library : Library) (fed : NodeId → Nat → Prop) :
    (ofNodesWith nodes library).Upkept nodes [] fed := by
  refine ⟨knows_ofNodesWith nodes library, fun id => ?_⟩
  have hfirst := NodeRuntime.upkept_ofId nodes fed id
  rw [runtime_ofNodesWith]
  cases hnode : nodes.get? id with
  | none => exact hfirst
  | some node =>
    have hofId : NodeRuntime.ofId nodes id = NodeRuntime.ofNode node := by
      rw [NodeRuntime.ofId, hnode]
    rw [hofId] at hfirst
    exact hfirst.standIn _

/-- Deliveries to fed ports keep all runtimes in shape. -/
theorem Upkept.deliverAll (h : state.Upkept nodes moves fed)
    {deliveries : List (PortRef × Binary64)}
    (hfed : ∀ d ∈ deliveries, fed d.1.node d.1.port.toNat) :
    (state.deliverAll nodes deliveries).Upkept nodes moves fed := by
  refine ⟨h.knows.deliverAll deliveries, fun id => ?_⟩
  rw [runtime_deliverAll]
  exact (h.runtimes id).receive hfed

theorem Upkept.deliver (h : state.Upkept nodes moves fed) {target : PortRef} (value : Binary64)
    (hfed : fed target.node target.port.toNat) :
    (state.deliver nodes target value).Upkept nodes moves fed := by
  have honly : ∀ d ∈ [(target, value)], fed d.1.node d.1.port.toNat := by
    intro d hd
    rw [List.mem_singleton.mp hd]
    exact hfed
  exact h.deliverAll honly

theorem Upkept.fire (h : state.Upkept nodes moves fed) (id : NodeId) :
    (state.fire nodes id).Upkept nodes moves fed := by
  refine ⟨h.knows.setRuntime _ _, fun id' => ?_⟩
  rw [runtime_fire]
  split
  · next heq =>
    subst heq
    exact (h.runtimes id').fire
  · exact h.runtimes id'

/-- An injection concerns the runtime of the outside input. -/
theorem Upkept.inject (h : state.Upkept nodes moves fed) {index : UInt64} (value : Binary64)
    (hfed : fed (.input index) 0) :
    (state.inject index value).Upkept nodes (moves ++ [.inject index value]) fed := by
  have hknows : (state.inject index value).Knows nodes := by
    intro id hid
    rw [TickState.inject, runtimes_trigger]
    exact h.knows.setRuntime _ _ id hid
  refine ⟨hknows, fun id => ?_⟩
  rw [runtime_inject h.knows]
  split
  · next heq =>
    subst heq
    exact (h.runtimes _).inject value hfed
  · next hne => exact (h.runtimes id).concat (by simpa [Move.injects] using hne)

/-- Something that is called in place of a node takes over its runtime. -/
theorem Upkept.attach (h : state.Upkept nodes moves fed) (id : NodeId) (component : Component) :
    (state.attach id component).Upkept nodes moves fed := by
  unfold TickState.attach
  split
  · next r hr =>
    refine ⟨h.knows.setRuntime _ _, fun id' => ?_⟩
    rw [runtime_setRuntime]
    split
    · next heq =>
      have hruntime := h.runtimes id
      rw [runtime, hr] at hruntime
      rw [heq]
      exact hruntime.standIn _
    · exact h.runtimes id'
  · exact h

/-- A move without an injection counts for no id. -/
theorem Upkept.concat (h : state.Upkept nodes moves fed) {move : Move}
    (hmove : ∀ id, move.injects id = false) : state.Upkept nodes (moves ++ [move]) fed :=
  ⟨h.knows, fun id => (h.runtimes id).concat (hmove id)⟩

end TickState

/-! ## Moves -/

namespace WireTime

variable {now : WireTime}

/-- All runtimes are in shape, and wires lead to no other ports than some. -/
structure Upkept (nodes : NodeMap) (moves : List Move) (fed : NodeId → Nat → Prop)
    (now : WireTime) : Prop where
  state : now.state.Upkept nodes moves fed
  wires : ∀ wire ∈ now.wires, fed wire.target.node wire.target.port.toNat

/-- Where a value is sent or delivered does not change where wires lead. -/
theorem Upkept.emit (h : now.Upkept nodes moves fed) (outputs : List Binary64) (place : Nat) :
    (emit nodes outputs now place).Upkept nodes moves fed := by
  unfold WireTime.emit
  cases hplace : now.wires[place]? with
  | none => exact h
  | some wire =>
    have hwire := h.wires wire (List.mem_of_getElem? hplace)
    -- the wire delivers at once, or what is sent goes onto it; its target stays the same either way
    simp only
    split
    · exact ⟨h.state.deliver _ hwire, h.wires⟩
    · refine ⟨h.state, fun other hother => ?_⟩
      rcases List.mem_or_eq_of_mem_set hother with hother | rfl
      · exact h.wires other hother
      · exact hwire

theorem Upkept.visit (h : now.Upkept nodes moves fed) (id : NodeId) :
    (now.visit nodes id).Upkept nodes moves fed := by
  unfold WireTime.visit
  split
  · exact List.foldlRecOn _ _ ⟨h.state.fire id, h.wires⟩ fun _ hnow place _ => hnow.emit _ place
  · exact h

/-- The arrival keeps it in shape: what arrives is for where wires lead. -/
theorem Upkept.opened (h : now.Upkept nodes moves fed) :
    (now.opened nodes).Upkept nodes moves fed := by
  constructor
  · rw [WireTime.opened, arrive_eq]
    -- runtimes do not depend on the number of ticks
    have hticked : TickState.Upkept nodes moves fed { now.state with tick := now.state.tick + 1 } :=
      ⟨h.state.knows, h.state.runtimes⟩
    have hfed : ∀ d ∈ arriving now.wires, fed d.1.node d.1.port.toNat := by
      intro d hd
      obtain ⟨wire, hwire, value, -, rfl⟩ := mem_arriving.mp hd
      exact h.wires wire hwire
    have harrived := hticked.deliverAll hfed
    exact ⟨harrived.knows, harrived.runtimes⟩
  · rw [wires_opened]
    intro wire hwire
    obtain ⟨before, hbefore, rfl⟩ := List.mem_map.mp hwire
    exact h.wires before hbefore

theorem Upkept.advance (h : now.Upkept nodes moves fed) (order : List NodeId) :
    (now.advance nodes order).Upkept nodes moves fed := by
  have hvisited : (order.foldl (WireTime.visit nodes) (now.opened nodes)).Upkept nodes moves fed :=
    List.foldlRecOn _ _ h.opened fun _ hnow id _ => hnow.visit id
  rw [advance_eq]
  exact ⟨⟨hvisited.state.knows, hvisited.state.runtimes⟩, hvisited.wires⟩

/-- **One move** keeps the board in shape, if it leads values to fed ports only. -/
theorem Upkept.undergo (h : now.Upkept nodes moves fed) {move : Move} (hmove : move.Within fed) :
    (now.undergo nodes move).Upkept nodes (moves ++ [move]) fed := by
  cases move with
  | inject index value => exact ⟨h.state.inject value hmove, h.wires⟩
  | attach id component =>
    exact ⟨(h.state.attach id component).concat fun _ => rfl, h.wires⟩
  | send place value =>
    refine ⟨h.state.concat fun _ => rfl, fun wire hwire => ?_⟩
    obtain ⟨k, hk⟩ := List.mem_iff_getElem?.mp hwire
    rw [WireTime.undergo, List.getElem?_modify] at hk
    obtain ⟨before, hbefore, rfl⟩ := Option.map_eq_some_iff.mp hk
    have hfed := h.wires before (List.mem_of_getElem? hbefore)
    split <;> exact hfed
  | rewire wires => exact ⟨h.state.concat fun _ => rfl, hmove⟩
  | tick order =>
    have hadvanced := h.advance order
    exact ⟨hadvanced.state.concat fun _ => rfl, hadvanced.wires⟩

/-- All runtimes stay in shape, the last move first. -/
theorem upkept_course (nodes : NodeMap) (library : Library) {wires : List Wire} {moves : List Move}
    (hwires : ∀ wire ∈ wires, fed wire.target.node wire.target.port.toNat)
    (hmoves : ∀ move ∈ moves, move.Within fed) :
    (course nodes ⟨wires, .ofNodesWith nodes library⟩ moves).Upkept nodes moves fed := by
  induction moves using List.reverseRecOn with
  | nil => exact ⟨TickState.upkept_ofNodesWith nodes library fed, hwires⟩
  | append_singleton moves move ih =>
    rw [course_concat]
    exact (ih fun other hother => hmoves other (List.mem_append_left _ hother)).undergo
      (hmoves move (List.mem_append_right _ List.mem_cons_self))

/-- Whether a port is where one of some wires leads, or where one of some moves puts a value. -/
def LedInto (wires : List Wire) (moves : List Move) (id : NodeId) (port : Nat) : Prop :=
  (∃ wire ∈ wires, wire.target.node = id ∧ wire.target.port.toNat = port) ∨
    (moves.any (Move.injects id) = true ∧ port = 0)

/-- As long as the wires are left in place, there is nowhere else that a value can get. -/
theorem upkept_ledInto (nodes : NodeMap) (library : Library) (wires : List Wire)
    {moves : List Move} (hmoves : ∀ move ∈ moves, move.rewires = false) :
    (course nodes ⟨wires, .ofNodesWith nodes library⟩ moves).Upkept nodes moves
      (LedInto wires moves) := by
  refine upkept_course nodes library (fun wire hwire => .inl ⟨wire, hwire, rfl, rfl⟩) ?_
  intro move hmove
  cases move with
  | inject index value =>
    have hinjects : (Move.inject index value).injects (.input index) = true := by
      simp [Move.injects]
    exact .inr ⟨List.any_eq_true.mpr ⟨_, hmove, hinjects⟩, rfl⟩
  -- no move replaces the wires
  | rewire wires' => cases hmoves _ hmove
  | attach id component => trivial
  | send place value => trivial
  | tick order => trivial

/-- Otherwise values can get anywhere. -/
theorem upkept_anywhere (nodes : NodeMap) (library : Library) (wires : List Wire)
    (moves : List Move) :
    (course nodes ⟨wires, .ofNodesWith nodes library⟩ moves).Upkept nodes moves
      fun _ _ => True := by
  refine upkept_course nodes library (fun _ _ => trivial) fun move _ => ?_
  cases move with
  | rewire wires => exact fun _ _ => trivial
  | _ => trivial

end WireTime

theorem TickState.runtime_of_runtime? {state : TickState} {id : NodeId} {r : NodeRuntime}
    (h : state.runtime? id = some r) (nodes : NodeMap) : state.runtime nodes id = r := by
  rw [runtime, h, Option.getD_some]

theorem TickState.Knows.exists_runtime? {state : TickState} (h : state.Knows nodes) {id : NodeId}
    {node : Node} (hnode : nodes.get? id = some node) : ∃ r, state.runtime? id = some r :=
  OrderedMap.exists_get?_of_mem_keys (h id (OrderedMap.mem_keys_of_get? hnode))

/-- **The runtimes keep their shape** whatever is done to a board: they hold nothing but signals,
every node has its ports and the memory of its kind, and a port that nothing leads into holds zero
as long as the wires are left in place. A board without a library is one with an empty library
(`ofNodesWith_empty`). -/
theorem upkeep (nodes : NodeMap) (library : Library) (wires : List Wire) (moves : List Move) :
    let now := WireTime.course nodes ⟨wires, .ofNodesWith nodes library⟩ moves
    let injected := fun id => moves.any (Move.injects id)
    (∀ id r, now.state.runtime? id = some r →
      (∀ x ∈ r.inputs ++ r.outputs ++ r.memory.values, IsSignal x) ∧
      ∀ buffer cursor, r.memory = .delay buffer cursor → cursor.toNat < buffer.length ∧
        ∃ node, nodes.get? id = some node ∧ node.kind = .delay ∧
          buffer.length = node.params.subdivisions + 1) ∧
    (∀ id node, nodes.get? id = some node → ∃ r, now.state.runtime? id = some r ∧
      r.outputs.length = node.outputCount.toNat ∧
      r.inputs.length
        = (if node.inputCount = 0 ∧ injected id then 1 else node.inputCount.toNat) ∧
      r.memory.BelongsTo node.kind node.params) ∧
    ((∀ move ∈ moves, move.rewires = false) →
      ∀ id r port x, now.state.runtime? id = some r → r.inputs[port]? = some x →
        (∀ wire ∈ wires, ¬ (wire.target.node = id ∧ wire.target.port.toNat = port)) →
        ¬ (injected id ∧ port = 0) → x = .zero) := by
  intro now injected
  have hany := WireTime.upkept_anywhere nodes library wires moves
  -- shape does not ask where values come from; the zeros do, so the wires must be the same
  -- throughout
  refine ⟨fun id r hr => ?_, fun id node hnode => ?_, fun hmoves id r port x hr hx hwires hport => ?_⟩
  · have hruntime := hany.state.runtimes id
    rw [TickState.runtime_of_runtime? hr] at hruntime
    exact ⟨hruntime.isSignal, fun buffer cursor => hruntime.ring⟩
  · obtain ⟨r, hr⟩ := hany.state.knows.exists_runtime? hnode
    have hruntime := hany.state.runtimes id
    rw [TickState.runtime_of_runtime? hr] at hruntime
    exact ⟨r, hr, hruntime.of_node hnode⟩
  · have hruntime := (WireTime.upkept_ledInto nodes library wires hmoves).state.runtimes id
    rw [TickState.runtime_of_runtime? hr] at hruntime
    have hzero : valueAt r.inputs port = .zero := by
      refine hruntime.unfed port ?_
      rintro (⟨wire, hwire, htarget⟩ | hinjected)
      · exact hwires wire hwire htarget
      · exact hport hinjected
    rwa [valueAt_eq_of_getElem? hx] at hzero

end SignalBoard
