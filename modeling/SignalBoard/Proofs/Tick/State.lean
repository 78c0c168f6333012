import SignalBoard.Tick.Advance
import SignalBoard.Proofs.Board.Dataflow

/-!
# What the operations on a tick state do

The view of a tick state is the runtime of every id (`TickState.runtime`) and which ids have been
triggered. For each operation there is one equation for either.

* `runtime_deliver`, `mem_triggered_deliver`, `runtime_fire`, `runtime_inject`: the single
  operations.
* `runtime_deliverAll`: a list of values delivered one after the other changes nothing but input
  ports, and on each of these the last value for it counts (`getElem?_received`).
* `NodeRuntime.fire_node`: firing a node is one call of it.
* `Shaped`: what all runtimes keep, the number of their ports above all.
-/

namespace SignalBoard

open Signal

/-! ## Runtimes -/

namespace NodeRuntime

/-- What a node keeps from call to call. -/
def holding (runtime : NodeRuntime) : Holding :=
  match runtime.component with
  | some (.circuit e) => .inner e
  | _ => .memory runtime.memory

/-- Nothing is called in place of the node but a circuit. -/
def NoDevice (runtime : NodeRuntime) : Prop :=
  ∀ respond calls, runtime.component ≠ some (.device respond calls)

/-- A node with nothing attached keeps its memory and nothing else. -/
theorem holding_of_plain {runtime : NodeRuntime} (h : runtime.component = none) :
    runtime.holding = .memory runtime.memory := by
  unfold holding
  rw [h]

/-- Firing a node is one call of it on what its input ports hold. -/
theorem fire_node {runtime : NodeRuntime} (h : runtime.NoDevice) (node : Node) :
    ((runtime.fire (some node)).outputs, (runtime.fire (some node)).holding)
      = node.call runtime.inputs runtime.holding := by
  obtain ⟨inputs, outputs, memory, component⟩ := runtime
  match component with
  | none => rfl
  | some (.circuit e) => rfl
  | some (.device respond calls) => exact absurd rfl (h respond calls)

/-- Firing reads the input ports and leaves them alone. -/
theorem fire_inputs (runtime : NodeRuntime) (node : Option Node) :
    (runtime.fire node).inputs = runtime.inputs := by
  obtain ⟨inputs, outputs, memory, component⟩ := runtime
  cases component <;> cases node <;> rfl

/-- Firing puts no device in the place of a node. -/
theorem fire_noDevice {runtime : NodeRuntime} (h : runtime.NoDevice) (node : Option Node) :
    (runtime.fire node).NoDevice := by
  obtain ⟨inputs, outputs, memory, component⟩ := runtime
  intro respond calls
  match component, node with
  | none, none => exact h respond calls
  | none, some node => exact h respond calls
  | some (.circuit e), _ => exact fun heq => by cases heq
  | some (.device respond' calls'), _ => exact absurd rfl (h respond' calls')

/-- A node with nothing attached has nothing attached after firing. -/
theorem fire_component_none {runtime : NodeRuntime} (h : runtime.component = none)
    (node : Option Node) : (runtime.fire node).component = none := by
  obtain ⟨inputs, outputs, memory, component⟩ := runtime
  subst h
  cases node <;> rfl

/-- A connection point gives out what is on its port: as a node of its kind, and where it is not
among the nodes. -/
theorem fire_connectionPoint {runtime : NodeRuntime} {node : Option Node}
    (hcomponent : runtime.component = none) (hlength : runtime.outputs.length = 1)
    (hnode : ∀ n, node = some n → n.kind = .connectionInput ∧ n.outputCount = 1)
    (hsignal : clamp (Signal.valueAt runtime.inputs 0) = Signal.valueAt runtime.inputs 0) :
    (runtime.fire node).outputs = [Signal.valueAt runtime.inputs 0] := by
  obtain ⟨inputs, outputs, memory, component⟩ := runtime
  simp only at hcomponent hlength hsignal ⊢
  subst hcomponent
  cases node with
  -- without a node the first input port is passed through
  | none =>
    show fit outputs.length (inputs.take 1) = _
    rw [hlength]
    cases inputs <;> rfl
  | some n =>
    obtain ⟨hkind, hcount⟩ := hnode n rfl
    show (n.kind.evaluate n.params inputs n.outputCount.toNat memory).1 = _
    have hhead : Signal.valueAt (inputs.map clamp) 0 = clamp (Signal.valueAt inputs 0) := by
      cases inputs with
      | nil => exact clamp_zero.symm
      | cons x rest => rfl
    rw [hkind, hcount]
    show fit 1 [clamp (Signal.valueAt (inputs.map clamp) 0)] = _
    rw [hhead, clamp_clamp, hsignal]
    rfl

/-- Without memory, what is fired again on the same inputs gives the same again. -/
theorem outputs_fire_fire {runtime : NodeRuntime} {node : Option Node}
    (hcomponent : runtime.component = none)
    (hnode : ∀ n, node = some n → n.kind.isStateful = false) :
    ((runtime.fire node).fire node).outputs = (runtime.fire node).outputs := by
  obtain ⟨inputs, outputs, memory, component⟩ := runtime
  obtain rfl : component = none := hcomponent
  cases node with
  | none =>
    show fit (fit outputs.length (inputs.take 1)).length (inputs.take 1) = _
    rw [length_fit]
    rfl
  | some n =>
    -- a kind without memory computes the same whatever memory it is given
    have hcall := NodeKind.evaluate_of_not_isStateful (hnode n rfl) n.params inputs
      n.outputCount.toNat
    show (n.kind.evaluate n.params inputs n.outputCount.toNat
      (n.kind.evaluate n.params inputs n.outputCount.toNat memory).2).1
        = (n.kind.evaluate n.params inputs n.outputCount.toNat memory).1
    rw [hcall (n.kind.evaluate n.params inputs n.outputCount.toNat memory).2, hcall memory]

/-- Where nothing but zeros has come in and gone out, firing gives out the same zeros. -/
theorem outputs_fire_quiet {runtime : NodeRuntime} {node : Option Node}
    (hcomponent : runtime.component = none) (hin : AllZero runtime.inputs)
    (hout : AllZero runtime.outputs) (hmemory : runtime.memory.Quiet)
    (hnode : ∀ n, node = some n → runtime.outputs.length = n.outputCount.toNat) :
    (runtime.fire node).outputs = runtime.outputs := by
  obtain ⟨inputs, outputs, memory, component⟩ := runtime
  obtain rfl : component = none := hcomponent
  rw [hout.eq_replicate]
  cases node with
  | none =>
    have hzero : AllZero (fit outputs.length (inputs.take 1)) :=
      allZero_fit _ fun x hx => hin x (List.mem_of_mem_take hx)
    show fit outputs.length (inputs.take 1) = _
    rw [hzero.eq_replicate, length_fit]
  | some n =>
    -- on zeros, with a memory of zeros, every kind gives zeros
    have hzero := (n.kind.evaluate_quiet n.params hin n.outputCount.toNat hmemory).1
    have hlength : outputs.length = n.outputCount.toNat := hnode n rfl
    show (n.kind.evaluate n.params inputs n.outputCount.toNat memory).1 = _
    rw [hzero.eq_replicate, NodeKind.length_evaluate, hlength]

/-- Whoever is called, nothing but signals is given out. -/
theorem fire_allSignals {runtime : NodeRuntime} (node : Option Node)
    (h : AllSignals runtime.inputs) : AllSignals (runtime.fire node).outputs := by
  obtain ⟨inputs, outputs, memory, component⟩ := runtime
  match component, node with
  | some component, none => exact allSignals_fit _ (allSignals_map_clamp _)
  | some component, some n => exact allSignals_fit _ (allSignals_map_clamp _)
  | none, none => exact allSignals_fit _ fun x hx => h x (List.mem_of_mem_take hx)
  | none, some n => exact n.kind.evaluate_allSignals _ _ _ _

/-- The values that have been received on the input ports of an id, delivered one after the
other. -/
def received (id : NodeId) (deliveries : List (PortRef × Binary64)) (inputs : List Binary64) :
    List Binary64 :=
  deliveries.foldl
    (fun inputs d => if d.1.node = id then inputs.set d.1.port.toNat (clamp d.2) else inputs) inputs

@[simp] theorem length_received (id : NodeId) (deliveries : List (PortRef × Binary64))
    (inputs : List Binary64) : (received id deliveries inputs).length = inputs.length := by
  induction deliveries generalizing inputs with
  | nil => rfl
  | cons d rest ih =>
    rw [received, List.foldl_cons, ← received, ih]
    split
    · exact List.length_set
    · rfl

/-- Whether a delivery is for a given port. -/
def isFor (id : NodeId) (port : Nat) (d : PortRef × Binary64) : Bool :=
  d.1.node = id && d.1.port.toNat = port

/-- **The last value counts** on every port that is there. -/
theorem getElem?_received (id : NodeId) (deliveries : List (PortRef × Binary64))
    (inputs : List Binary64) {port : Nat} (hport : port < inputs.length) :
    (received id deliveries inputs)[port]? = match (deliveries.filter (isFor id port)).getLast? with
      | some d => some (clamp d.2)
      | none => inputs[port]? := by
  -- the last delivery first: either it sets the port, or those before it decide
  induction deliveries using List.reverseRecOn with
  | nil => rfl
  | append_singleton front d ih =>
    have hlength := length_received id front inputs
    rw [received, List.foldl_append, List.foldl_cons, List.foldl_nil, ← received,
      List.filter_append]
    by_cases hnode : d.1.node = id
    · rw [if_pos hnode]
      -- the delivery is for the id; it is for this port or for another one
      by_cases hp : d.1.port.toNat = port
      · have hfor : isFor id port d = true := by simp [isFor, hnode, hp]
        rw [List.filter_cons_of_pos hfor, List.filter_nil, List.getLast?_concat, hp,
          List.getElem?_set_self (by omega)]
      · have hfor : ¬ isFor id port d = true := by simp [isFor, hp]
        rw [List.filter_cons_of_neg hfor, List.filter_nil, List.append_nil,
          List.getElem?_set_ne hp]
        exact ih
    · have hfor : ¬ isFor id port d = true := by simp [isFor, hnode]
      rw [if_neg hnode, List.filter_cons_of_neg hfor, List.filter_nil, List.append_nil]
      exact ih

/-- The last value for a port that is there stands on it, clamped. -/
theorem valueAt_received_of_last {id : NodeId} {deliveries : List (PortRef × Binary64)}
    {inputs : List Binary64} {port : Nat} {d : PortRef × Binary64} (hport : port < inputs.length)
    (h : (deliveries.filter (isFor id port)).getLast? = some d) :
    Signal.valueAt (received id deliveries inputs) port = clamp d.2 := by
  refine valueAt_eq_of_getElem? ?_
  rw [getElem?_received id deliveries inputs hport, h]

/-- A port for which nothing is delivered keeps its value. -/
theorem valueAt_received_of_none {id : NodeId} {deliveries : List (PortRef × Binary64)}
    (inputs : List Binary64) {port : Nat}
    (h : ∀ d ∈ deliveries, d.1.node = id → d.1.port.toNat ≠ port) :
    Signal.valueAt (received id deliveries inputs) port = Signal.valueAt inputs port := by
  have hlength := length_received id deliveries inputs
  by_cases hport : port < inputs.length
  · have hnone : deliveries.filter (isFor id port) = [] := by
      rw [List.filter_eq_nil_iff]
      intro d hd hfor
      simp only [isFor, Bool.and_eq_true, decide_eq_true_eq] at hfor
      exact h d hd hfor.1 hfor.2
    rw [Signal.valueAt, Signal.valueAt, List.getD_eq_getElem?_getD, List.getD_eq_getElem?_getD,
      getElem?_received id deliveries inputs hport, hnone]
    rfl
  · rw [valueAt_of_length_le (by omega), valueAt_of_length_le (by omega)]

/-- What is delivered only to ports that are not there changes nothing. -/
theorem received_eq_self {id : NodeId} {deliveries : List (PortRef × Binary64)}
    {inputs : List Binary64}
    (h : ∀ d ∈ deliveries, d.1.node = id → inputs.length ≤ d.1.port.toNat) :
    received id deliveries inputs = inputs := by
  induction deliveries with
  | nil => rfl
  | cons d rest ih =>
    have hrest := ih fun d' hd' => h d' (List.mem_cons_of_mem _ hd')
    rw [received, List.foldl_cons, ← received]
    split
    · next hnode =>
      rw [List.set_eq_of_length_le (h d List.mem_cons_self hnode)]
      exact hrest
    · exact hrest

/-- Deliveries to others do not matter. -/
theorem received_filter (id : NodeId) (deliveries : List (PortRef × Binary64))
    (inputs : List Binary64) :
    received id (deliveries.filter fun d => d.1.node = id) inputs = received id deliveries inputs := by
  induction deliveries generalizing inputs with
  | nil => rfl
  | cons d rest ih =>
    by_cases h : d.1.node = id
    · rw [List.filter_cons_of_pos (by simpa using h)]
      exact ih _
    · have hkeep : received id (d :: rest) inputs = received id rest inputs := by
        rw [received, List.foldl_cons, if_neg h, ← received]
      rw [List.filter_cons_of_neg (by simpa using h), hkeep]
      exact ih _

/-- Values are clamped when they are delivered, so input ports hold signals only. -/
theorem received_allSignals {id : NodeId} {deliveries : List (PortRef × Binary64)}
    {inputs : List Binary64} (h : AllSignals inputs) :
    AllSignals (received id deliveries inputs) := by
  induction deliveries generalizing inputs with
  | nil => exact h
  | cons d rest ih =>
    rw [received, List.foldl_cons, ← received]
    refine ih ?_
    split
    · intro x hx
      rcases List.mem_or_eq_of_mem_set hx with hx | rfl
      · exact h x hx
      · exact clamp_clamp _
    · exact h

end NodeRuntime

namespace TickState

open NodeRuntime

variable {nodes : NodeMap} {state : TickState} {id : NodeId}

/-! ## Single operations -/

/-- Only the runtime that is put there changes. -/
@[simp] theorem runtime_setRuntime (state : TickState) (nodes : NodeMap) (id id' : NodeId)
    (r : NodeRuntime) :
    (state.setRuntime id r).runtime nodes id' = if id' = id then r else state.runtime nodes id' := by
  rw [runtime, runtime?, setRuntime, OrderedMap.get?_insert]
  split
  · rfl
  · rfl

@[simp] theorem runtime_trigger (state : TickState) (nodes : NodeMap) (id id' : NodeId) :
    (state.trigger id).runtime nodes id' = state.runtime nodes id' := by
  rw [trigger]
  split <;> rfl

/-- To trigger an id twice is to trigger it once. -/
@[simp] theorem mem_triggered_trigger {id' : NodeId} :
    id' ∈ (state.trigger id).triggered ↔ id' ∈ state.triggered ∨ id' = id := by
  rw [trigger]
  split
  · next h => exact ⟨.inl, fun h' => h'.elim (fun x => x) fun heq => heq ▸ h⟩
  · show id' ∈ state.triggered ++ [id] ↔ _
    rw [List.mem_append, List.mem_singleton]

@[simp] theorem fanout_trigger (state : TickState) (id : NodeId) :
    (state.trigger id).fanout = state.fanout := by
  rw [trigger]
  split <;> rfl

@[simp] theorem runtimes_trigger (state : TickState) (id : NodeId) :
    (state.trigger id).runtimes = state.runtimes := by
  rw [trigger]
  split <;> rfl

/-- A delivery sets the port and triggers the node if there is such a port; otherwise it only makes
sure that there is a runtime. -/
theorem deliver_eq (nodes : NodeMap) (target : PortRef) (state : TickState) (value : Binary64) :
    state.deliver nodes target value =
      let set := state.setRuntime target.node
        { state.runtime nodes target.node with
          inputs := (state.runtime nodes target.node).inputs.set target.port.toNat (clamp value) }
      if target.port.toNat < (state.runtime nodes target.node).inputs.length then
        set.trigger target.node
      else set := by
  rw [deliver]
  by_cases h : target.port.toNat < (state.runtime nodes target.node).inputs.length
  · simp only [h, if_true]
  · -- to set a port that is not there changes nothing
    simp only [h, if_false, List.set_eq_of_length_le (Nat.not_lt.mp h)]

/-- One delivery is one value received, and only by the node it is for. -/
theorem runtime_deliver (target : PortRef) (value : Binary64) (id : NodeId) :
    (state.deliver nodes target value).runtime nodes id =
      { state.runtime nodes id with
        inputs := received id [(target, value)] (state.runtime nodes id).inputs } := by
  have hset : (state.deliver nodes target value).runtime nodes id
      = if id = target.node then
          { state.runtime nodes target.node with
            inputs := (state.runtime nodes target.node).inputs.set target.port.toNat (clamp value) }
        else state.runtime nodes id := by
    rw [deliver_eq]
    simp only
    split <;> simp only [runtime_trigger, runtime_setRuntime]
  rw [hset]
  by_cases h : id = target.node
  · subst h
    simp [received]
  · rw [if_neg h]
    simp [received, Ne.symm h]

/-- A delivery triggers its target if this has the port. -/
theorem mem_triggered_deliver (target : PortRef) (value : Binary64) (id : NodeId) :
    id ∈ (state.deliver nodes target value).triggered ↔ id ∈ state.triggered ∨
      (target.node = id ∧ target.port.toNat < (state.runtime nodes id).inputs.length) := by
  rw [deliver_eq]
  by_cases h : target.port.toNat < (state.runtime nodes target.node).inputs.length
  · simp only [h, if_true, mem_triggered_trigger]
    refine or_congr_right ⟨?_, fun heq => heq.1.symm⟩
    rintro rfl
    exact ⟨rfl, h⟩
  · simp only [h, if_false]
    refine ⟨.inl, fun hor => hor.elim (fun x => x) ?_⟩
    -- there is no such port, so it cannot be below the number of ports
    rintro ⟨rfl, hlt⟩
    exact absurd hlt h

/-- To fire a node is a matter of its own runtime. -/
theorem runtime_fire (id id' : NodeId) :
    (state.fire nodes id).runtime nodes id' =
      if id' = id then (state.runtime nodes id).fire (nodes.get? id) else state.runtime nodes id' := by
  rw [fire, runtime_setRuntime]

/-- Every node has a runtime. -/
def Knows (state : TickState) (nodes : NodeMap) : Prop :=
  ∀ id ∈ nodes.keys, id ∈ state.runtimes.keys

/-- A runtime that is put there takes none away. -/
theorem Knows.setRuntime (h : state.Knows nodes) (id : NodeId) (r : NodeRuntime) :
    (state.setRuntime id r).Knows nodes :=
  fun id' hid' => OrderedMap.mem_keys_insert.mpr (.inr (h id' hid'))

/-- An injection is a matter of the runtime of the external input. -/
theorem runtime_inject (h : state.Knows nodes) (index : UInt64) (value : Binary64) (id : NodeId) :
    (state.inject index value).runtime nodes id = if id = .input index then
      (state.runtime nodes (.input index)).inject value else state.runtime nodes id := by
  -- what has no runtime yet is no node, and starts as a connection point
  have hfirst : (state.runtime? (.input index)).getD (.idle 1 1 .stateless)
      = state.runtime nodes (.input index) := by
    rw [runtime]
    cases hr : state.runtime? (.input index) with
    | some r => rfl
    | none =>
      have hnot : nodes.get? (.input index) = none := by
        rw [OrderedMap.get?_eq_none_iff]
        exact fun hkey => (OrderedMap.get?_eq_none_iff.mp hr) (h _ hkey)
      rw [Option.getD_none, Option.getD_none, ofId, hnot]
      simp
  rw [inject, runtime_trigger, runtime_setRuntime, hfirst]

/-- An external input has a runtime after an injection, also one that no wire mentions. -/
theorem runtime?_inject (index : UInt64) (value : Binary64) (id : NodeId) :
    (state.inject index value).runtime? id = if id = .input index then
      some (((state.runtime? (.input index)).getD (.idle 1 1 .stateless)).inject value)
      else state.runtime? id := by
  rw [inject, runtime?, runtimes_trigger]
  exact OrderedMap.get?_insert _ _ _ _

/-- The last value among some injections that is meant for an outside input. -/
def lastInto (round : List (UInt64 × Binary64)) (n : UInt64) : Option Binary64 :=
  ((round.filter fun injection => injection.1 = n).getLast?).map Prod.snd

/-- One more injection counts if it is for this input. -/
theorem lastInto_concat (round : List (UInt64 × Binary64)) (injection : UInt64 × Binary64)
    (n : UInt64) : lastInto (round ++ [injection]) n =
      if injection.1 = n then some injection.2 else lastInto round n := by
  unfold lastInto
  rw [List.filter_append]
  by_cases h : injection.1 = n
  · have hkeep : [injection].filter (fun injection => injection.1 = n) = [injection] := by
      simp [h]
    rw [hkeep, List.getLast?_concat, if_pos h]
    rfl
  · have hdrop : [injection].filter (fun injection => injection.1 = n) = [] := by
      simp [h]
    rw [hdrop, List.append_nil, if_neg h]

/-! ## Many deliveries -/

/-- Delivers values one after the other. -/
def deliverAll (nodes : NodeMap) (state : TickState) (deliveries : List (PortRef × Binary64)) :
    TickState :=
  deliveries.foldl (fun state d => state.deliver nodes d.1 d.2) state

/-- Of many deliveries a node receives those that are for it, in their order. -/
theorem runtime_deliverAll (deliveries : List (PortRef × Binary64)) (id : NodeId) :
    (state.deliverAll nodes deliveries).runtime nodes id =
      { state.runtime nodes id with
        inputs := received id deliveries (state.runtime nodes id).inputs } := by
  induction deliveries generalizing state with
  | nil => rfl
  | cons d rest ih =>
    rw [deliverAll, List.foldl_cons, ← deliverAll, ih, runtime_deliver]
    rfl

/-- Whoever receives a value has a runtime afterwards. -/
theorem runtime?_deliver (target : PortRef) (value : Binary64) (id : NodeId) :
    (state.deliver nodes target value).runtime? id = if target.node = id then
      some ((state.deliver nodes target value).runtime nodes id) else state.runtime? id := by
  rw [deliver_eq]
  simp only
  by_cases h : target.node = id
  · subst h
    split <;> simp [runtime, runtime?, setRuntime, OrderedMap.get?_insert]
  · split <;> simp [runtime?, setRuntime, OrderedMap.get?_insert, Ne.symm h]

/-- Whoever receives something has a runtime afterwards. -/
theorem runtime?_deliverAll (deliveries : List (PortRef × Binary64)) (id : NodeId) :
    (state.deliverAll nodes deliveries).runtime? id = if ∃ d ∈ deliveries, d.1.node = id then
      some ((state.deliverAll nodes deliveries).runtime nodes id) else state.runtime? id := by
  -- the last delivery first: it is for the id, or those before it decide
  induction deliveries using List.reverseRecOn with
  | nil => simp [deliverAll]
  | append_singleton front d ih =>
    have hlast : state.deliverAll nodes (front ++ [d])
        = (state.deliverAll nodes front).deliver nodes d.1 d.2 := by
      rw [deliverAll, List.foldl_append]
      rfl
    rw [hlast, runtime?_deliver]
    by_cases hnode : d.1.node = id
    · simp [hnode]
    · have hsame : ((state.deliverAll nodes front).deliver nodes d.1 d.2).runtime nodes id
          = (state.deliverAll nodes front).runtime nodes id := by
        rw [runtime_deliver]
        simp [received, hnode]
      have hfor : (∃ e ∈ front ++ [d], e.1.node = id) ↔ ∃ e ∈ front, e.1.node = id := by
        simp [hnode]
      rw [if_neg hnode, ih, hsame]
      simp only [hfor]

/-- Many deliveries trigger every node that has one of the ports they are for. -/
theorem mem_triggered_deliverAll (deliveries : List (PortRef × Binary64)) (id : NodeId) :
    id ∈ (state.deliverAll nodes deliveries).triggered ↔ id ∈ state.triggered ∨
      ∃ d ∈ deliveries, d.1.node = id ∧
        d.1.port.toNat < (state.runtime nodes id).inputs.length := by
  induction deliveries generalizing state with
  | nil => simp [deliverAll]
  | cons d rest ih =>
    rw [deliverAll, List.foldl_cons, ← deliverAll, ih, mem_triggered_deliver, runtime_deliver]
    simp only [length_received, List.mem_cons, exists_eq_or_imp, or_assoc]

/-- What is not triggered after some deliveries has received nothing. -/
theorem received_of_not_triggered {deliveries : List (PortRef × Binary64)} {id : NodeId}
    (h : id ∉ (state.deliverAll nodes deliveries).triggered) :
    received id deliveries (state.runtime nodes id).inputs = (state.runtime nodes id).inputs := by
  apply received_eq_self
  intro d hd hnode
  rw [mem_triggered_deliverAll] at h
  by_contra hport
  exact h (.inr ⟨d, hd, hnode, by omega⟩)

theorem fanout_deliver (target : PortRef) (value : Binary64) :
    (state.deliver nodes target value).fanout = state.fanout := by
  rw [deliver_eq]
  simp only
  split
  · rw [fanout_trigger]
    rfl
  · rfl

theorem fanout_deliverAll (deliveries : List (PortRef × Binary64)) :
    (state.deliverAll nodes deliveries).fanout = state.fanout := by
  induction deliveries generalizing state with
  | nil => rfl
  | cons d rest ih => rw [deliverAll, List.foldl_cons, ← deliverAll, ih, fanout_deliver]

theorem Knows.deliver (h : state.Knows nodes) (target : PortRef) (value : Binary64) :
    (state.deliver nodes target value).Knows nodes := by
  rw [deliver_eq]
  simp only
  split
  · intro id hid
    rw [runtimes_trigger]
    exact h.setRuntime _ _ id hid
  · exact h.setRuntime _ _

theorem Knows.deliverAll (h : state.Knows nodes) (deliveries : List (PortRef × Binary64)) :
    (state.deliverAll nodes deliveries).Knows nodes := by
  induction deliveries generalizing state with
  | nil => exact h
  | cons d rest ih => exact ih (h.deliver d.1 d.2)

/-! ## What all runtimes keep -/

/-- What no operation changes: which nodes are known, how many ports they have, and what may be
called in their place. The input ports of an outside input are not counted, for an injection makes
the first one if need be. -/
structure Shaped (nodes : NodeMap) (state : TickState) : Prop where
  knows : state.Knows nodes
  inputs : ∀ id, ¬ id.isInput →
    (state.runtime nodes id).inputs.length = (NodeRuntime.ofId nodes id).inputs.length
  outputs : ∀ id,
    (state.runtime nodes id).outputs.length = (NodeRuntime.ofId nodes id).outputs.length
  noDevice : ∀ id, (state.runtime nodes id).NoDevice
  plain : ∀ id, id.isConnectionPoint → (state.runtime nodes id).component = none

theorem Shaped.deliverAll (h : Shaped nodes state) (deliveries : List (PortRef × Binary64)) :
    Shaped nodes (state.deliverAll nodes deliveries) := by
  refine ⟨h.knows.deliverAll deliveries, fun id hid => ?_, fun id => ?_, fun id => ?_,
    fun id hid => ?_⟩ <;> rw [runtime_deliverAll]
  · rw [length_received]
    exact h.inputs id hid
  · exact h.outputs id
  · exact h.noDevice id
  · exact h.plain id hid

/-- A node gives out a value for each of its output ports, whoever is called in its place. -/
theorem length_outputs_fire (r : NodeRuntime) (nodes : NodeMap) (id : NodeId)
    (h : r.outputs.length = (NodeRuntime.ofId nodes id).outputs.length) :
    (r.fire (nodes.get? id)).outputs.length = (NodeRuntime.ofId nodes id).outputs.length := by
  obtain ⟨inputs, outputs, memory, component⟩ := r
  -- a node gives out as many values as it has ports, an id without a node as many as before
  cases hnode : nodes.get? id with
  | none =>
    rw [← h]
    cases component <;> exact length_fit _ _
  | some node =>
    have hcount : (NodeRuntime.ofId nodes id).outputs.length = node.outputCount.toNat := by
      simp [NodeRuntime.ofId, hnode, NodeRuntime.ofNode, NodeRuntime.idle]
    rw [hcount]
    cases component with
    | none => exact NodeKind.length_evaluate _ _ _ _ _
    | some component => exact length_fit _ _

theorem Shaped.fire (h : Shaped nodes state) (id : NodeId) :
    Shaped nodes (state.fire nodes id) := by
  -- each field at the id that fires and at the others
  refine ⟨h.knows.setRuntime _ _, fun id' hid' => ?_, fun id' => ?_, fun id' => ?_,
    fun id' hid' => ?_⟩ <;> rw [runtime_fire] <;> split
  · next heq =>
    subst heq
    rw [fire_inputs]
    exact h.inputs id' hid'
  · exact h.inputs id' hid'
  · next heq =>
    subst heq
    exact length_outputs_fire _ nodes id' (h.outputs id')
  · exact h.outputs id'
  · exact fire_noDevice (h.noDevice id) _
  · exact h.noDevice id'
  · next heq =>
    subst heq
    exact fire_component_none (h.plain id' hid') _
  · exact h.plain id' hid'

/-- An injection keeps the shape: the port that it may add is one of an external input. -/
theorem Shaped.inject (h : Shaped nodes state) (index : UInt64) (value : Binary64) :
    Shaped nodes (state.inject index value) := by
  have hknows : (state.inject index value).Knows nodes := by
    intro id hid
    rw [TickState.inject, runtimes_trigger]
    exact h.knows.setRuntime _ _ id hid
  -- each field at the external input and at the others
  refine ⟨hknows, fun id hid => ?_, fun id => ?_, fun id => ?_, fun id hid => ?_⟩ <;>
    rw [runtime_inject h.knows] <;> split
  · next heq =>
    subst heq
    exact absurd (NodeId.isInput_input index) hid
  · exact h.inputs id hid
  · next heq =>
    subst heq
    exact h.outputs _
  · exact h.outputs id
  · exact h.noDevice (.input index)
  · exact h.noDevice id
  · exact h.plain _ (NodeId.isConnectionPoint_input index)
  · exact h.plain id hid

/-- An injection triggers the external input. -/
theorem mem_triggered_inject (index : UInt64) (value : Binary64) (id : NodeId) :
    id ∈ (state.inject index value).triggered ↔ id ∈ state.triggered ∨ id = .input index := by
  rw [inject, mem_triggered_trigger]
  rfl

theorem fanout_inject (index : UInt64) (value : Binary64) :
    (state.inject index value).fanout = state.fanout := by
  rw [inject, fanout_trigger]
  rfl

/-- The shape is a matter of the runtimes alone. -/
theorem Shaped.congr {state' : TickState} (h : Shaped nodes state)
    (heq : state'.runtimes = state.runtimes) : Shaped nodes state' := by
  have hruntime : ∀ id, state'.runtime nodes id = state.runtime nodes id := by
    intro id
    rw [runtime, runtime, runtime?, runtime?, heq]
  refine ⟨fun id hid => by rw [heq]; exact h.knows id hid, fun id hid => ?_, fun id => ?_,
    fun id => ?_, fun id hid => ?_⟩ <;> rw [hruntime]
  · exact h.inputs id hid
  · exact h.outputs id
  · exact h.noDevice id
  · exact h.plain id hid

end TickState
end SignalBoard
