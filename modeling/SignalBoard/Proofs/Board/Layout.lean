import SignalBoard.Proofs.Board.Dataflow
import SignalBoard.Proofs.Circuit.Call
import SignalBoard.Proofs.Circuit.Plan

/-!
# How a baked board is laid out

Baking takes a board to a circuit and building takes the circuit to an evaluator. What comes out of
the two together can be said of the board directly (`LaidOut`): there is one step for every id, in
the order of the analysis, its sources are the places of the ids whose wires its ports read, and
what it does is what the id stands for.

* `Evaluator.holdingOf`, `Evaluator.portsOf`: what an evaluator keeps for an id and what it last
  gave out there.
* `laidOut_ofCircuit`: a baked board is laid out so.
* `LaidOut.ordered`: every step reads earlier steps alone, since every wire leads forward.
* `LaidOut.evaluate`: a call keeps the layout.
-/

namespace SignalBoard

open Signal

namespace Evaluator

/-! ## Views of an evaluator -/

/-- What a step keeps from call to call. -/
def Step.holding (step : Step Evaluator) : Holding :=
  match step.action with
  | .nested _ inner => .inner inner
  | _ => .memory step.memory

/-- What the node with an id keeps. -/
def holdingOf (e : Evaluator) (id : NodeId) : Holding :=
  match e.steps.find? (·.id = id) with
  | some step => step.holding
  | none => .memory .stateless

/-- The output ports of an id after the last call. -/
def portsOf (e : Evaluator) (id : NodeId) : List Binary64 :=
  match indexOf? e.steps id with
  | some place => e.outputs.getD place []
  | none => []

/-- The value at a port is one of the values of its id. -/
theorem portValue?_eq (e : Evaluator) (id : NodeId) (port : UInt64) :
    e.portValue? id port = (e.portsOf id)[port.toNat]? := by
  rw [portValue?, portsOf]
  cases indexOf? e.steps id <;> rfl

variable {e : Evaluator} {order : List NodeId}

/-- The step of an id stands where the id does in the order. -/
theorem indexOf?_of_mem (hids : e.steps.map (·.id) = order) {id : NodeId} (hid : id ∈ order) :
    indexOf? e.steps id = some (order.idxOf id) := by
  rw [indexOf?_eq, hids]
  exact findIdx?_of_mem hid

/-- The values of an id are in the slot at its place. -/
theorem portsOf_of_mem (hids : e.steps.map (·.id) = order) {id : NodeId} (hid : id ∈ order) :
    e.portsOf id = e.outputs.getD (order.idxOf id) [] := by
  rw [portsOf, indexOf?_of_mem hids hid]

/-- The step of an id. -/
theorem exists_step (hids : e.steps.map (·.id) = order) {id : NodeId} (hid : id ∈ order) :
    ∃ step, e.steps[order.idxOf id]? = some step ∧ step.id = id := by
  have hget : order[order.idxOf id]? = some id := by
    rw [List.getElem?_eq_getElem (List.idxOf_lt_length_of_mem hid), List.getElem_idxOf]
  rw [← hids, List.getElem?_map, Option.map_eq_some_iff, hids] at hget
  exact hget

/-- Where no id comes twice, what is kept for an id is what its step keeps. -/
theorem holdingOf_of_mem (hn : (e.steps.map (·.id)).Nodup) {step : Step Evaluator}
    (hstep : step ∈ e.steps) : e.holdingOf step.id = step.holding := by
  rw [holdingOf, find?_of_nodup_map hn hstep]

end Evaluator

open Evaluator

/-! ## The layout -/

namespace Board

/-- A step does what its id stands for. -/
def Performs (board : Board) (library : Library) (step : Step Evaluator) : Prop :=
  match step.id.connectionPoint? with
  | some (.input n) => step.action = .input n
  | some (.output n) => step.action = .output n
  | none => ∃ node, board.nodes.get? step.id = some node ∧
      (step.action = .builtin (Part.resolve library node) ∨
        ∃ inner, step.action = .nested (Part.resolve library node) inner)

/-- An evaluator is laid out for a board, its steps in a given order of the ids. -/
structure LaidOut (board : Board) (ports : PortCounts) (library : Library) (order : List NodeId)
    (e : Evaluator) : Prop where
  ids : e.steps.map (·.id) = order
  slots : e.outputs.length = e.steps.length
  outputCount : e.circuit.outputCount = ports.outputs
  sources : ∀ step ∈ e.steps, step.sources =
    (List.range (board.portCount step.id)).map fun port =>
      (board.feed? ports step.id port).map fun wire =>
        (order.idxOf wire.source.node, wire.source.port)
  performs : ∀ step ∈ e.steps, board.Performs library step

variable {board : Board} {ports : PortCounts} {library : Library} {analysis : Analysis}

/-! ## Parts and edges of a baked board -/

/-- The circuit that a board bakes to. -/
def circuitOf (board : Board) (library : Library) (analysis : Analysis) (ports : PortCounts) :
    Circuit where
  order := analysis.order
  parts :=
    (board.nodes.values.filter fun node => !node.id.isConnectionPoint).map (Part.resolve library)
  edges := (board.wires.filter fun wire =>
    wire.source.node ∈ analysis.order && wire.target.node ∈ analysis.order).map Edge.ofWire
  inputCount := ports.inputs
  outputCount := ports.outputs

/-- A board that can be analysed bakes to its circuit. -/
theorem bake_of_analyse (h : board.analyse ports = .ok analysis) :
    board.bake ports library = .ok (board.circuitOf library analysis ports) := by
  rw [bake, h]
  rfl

theorem id_resolve (node : Node) : (Part.resolve library node).id = node.id := by
  rw [Part.resolve]
  split <;> rfl

/-- The ids of the parts are the ordinary ids among the keys of the nodes. -/
theorem partIds_circuitOf (library : Library) (analysis : Analysis) (ports : PortCounts)
    (hkeyed : board.nodes.KeyedById) :
    (board.circuitOf library analysis ports).parts.map (·.id)
      = board.nodes.keys.filter fun id => !id.isConnectionPoint := by
  have hkeys : board.nodes.values.map (·.id) = board.nodes.keys := by
    rw [OrderedMap.values, OrderedMap.keys, List.map_map]
    exact List.map_congr_left hkeyed
  rw [circuitOf, List.map_map, ← hkeys, List.filter_map]
  exact List.map_congr_left fun node _ => id_resolve node

/-- No two parts of a baked board have the same id. -/
theorem nodup_partIds (library : Library) (analysis : Analysis) (ports : PortCounts)
    (hkeyed : board.nodes.KeyedById) :
    ((board.circuitOf library analysis ports).parts.map (·.id)).Nodup := by
  rw [partIds_circuitOf library analysis ports hkeyed]
  exact board.nodes.nodup_keys.sublist List.filter_sublist

theorem resolve_mem_parts {id : NodeId} {node : Node} (hkeyed : board.nodes.KeyedById)
    (hnode : board.nodes.get? id = some node) (hid : ¬ id.isConnectionPoint) :
    Part.resolve library node ∈ (board.circuitOf library analysis ports).parts := by
  refine List.mem_map.mpr ⟨node, List.mem_filter.mpr ⟨OrderedMap.mem_values_of_get? hnode, ?_⟩, rfl⟩
  rw [hkeyed.id_eq hnode]
  simpa using hid

/-- The evaluator behind the part of a node is that of the circuit behind the node. -/
theorem innerOf_resolve (node : Node) :
    innerOf (Part.resolve library node) = (node.resolved? library).map ofCircuit := by
  rw [innerOf, Part.resolve, Node.resolved?]
  by_cases h : node.kind.isComposite = true
  · simp [h, Part.ofNode]
  · simp [h, Part.ofNode]

/-- A part has the kind and the ports of its node, and its parameters without infinities and
NaNs. -/
theorem resolve_ports (library : Library) (node : Node) :
    (Part.resolve library node).kind = node.kind ∧
      (Part.resolve library node).params = node.params.normalized ∧
      (Part.resolve library node).inputCount = node.inputCount ∧
      (Part.resolve library node).outputCount = node.outputCount := by
  rw [Part.resolve]
  split <;> exact ⟨rfl, rfl, rfl, rfl⟩

/-- The step of an id before the edges. -/
theorem exists_planStep (library : Library) (analysis : Analysis)
    (hkeyed : board.nodes.KeyedById) {id : NodeId}
    (hid : id ∈ board.nodes.ids ports) :
    ∃ step, planStep? (layOut (board.circuitOf library analysis ports).parts) id = some step ∧
      step.id = id ∧ step.sources = List.replicate (board.portCount id) none ∧
      board.Performs library step ∧
      ∀ node, board.nodes.get? id = some node → ¬ id.isConnectionPoint →
        step.holding = node.firstHolding library := by
  -- an outside input, a node, an outside output
  rcases NodeMap.mem_ids.mp hid with ⟨n, hn, rfl⟩ | ⟨hkey, hordinary⟩ | ⟨n, hn, rfl⟩
  · refine ⟨⟨.input n, .input n, [], .stateless⟩, ?_, rfl, ?_, ?_, ?_⟩
    · rw [planStep?, NodeId.connectionPoint?_input]
    · rw [portCount_input, List.replicate_zero]
    · simp [Performs]
    · exact fun _ _ hcp => absurd (NodeId.isConnectionPoint_input n) hcp
  · obtain ⟨node, hnode⟩ := OrderedMap.exists_get?_of_mem_keys hkey
    have hcp := NodeId.connectionPoint?_eq_none hordinary
    have hsame := hkeyed.id_eq hnode
    obtain ⟨hkind, hparams, hinputs, -⟩ := resolve_ports library node
    -- parts are looked up by their own ids, which are the keys of the nodes
    have hpart : (Part.resolve library node).id = id := (id_resolve node).trans hsame
    have hplan := planStep?_of_mem (nodup_partIds library analysis ports hkeyed)
      (resolve_mem_parts hkeyed hnode hordinary) (by rw [hpart]; exact hcp)
    rw [hpart] at hplan
    refine ⟨_, hplan, hpart, ?_, ?_, ?_⟩
    · rw [stepOf, hinputs, portCount_node hordinary hnode]
    · rw [Performs, show (stepOf (Part.resolve library node)).id = id from hpart, hcp]
      exact ⟨node, hnode, action_stepOf _⟩
    · intro node' hnode' _
      rw [hnode] at hnode'
      obtain rfl := Option.some.inj hnode'
      -- a fresh memory does not depend on numbers that are not finite
      rw [Node.firstHolding, Step.holding, stepOf, innerOf_resolve, hkind, hparams,
        NodeMemory.fresh_normalized]
      cases node.resolved? library <;> rfl
  · refine ⟨⟨.output n, .output n, [none], .stateless⟩, ?_, rfl, ?_, ?_, ?_⟩
    · rw [planStep?, NodeId.connectionPoint?_output]
    · rw [portCount_output]
      rfl
    · simp [Performs]
    · exact fun _ _ hcp => absurd (NodeId.isConnectionPoint_output n) hcp

/-- The last edge into a port is that of the wire that the port reads. -/
theorem getLast?_edges (hmem : ∀ id, id ∈ analysis.order ↔ id ∈ board.nodes.ids ports)
    (id : NodeId) (port : Nat) :
    ((board.circuitOf library analysis ports).edges.filter
        (intoPort analysis.order id port)).getLast?
      = (board.feed? ports id port).map Edge.ofWire := by
  have hfilter : (board.circuitOf library analysis ports).edges.filter
      (intoPort analysis.order id port)
        = (board.wires.filter (board.feeds ports id port)).map Edge.ofWire := by
    rw [circuitOf, List.filter_map, List.filter_filter]
    congr 1
    refine List.filter_congr fun wire _ => ?_
    rw [Bool.eq_iff_iff]
    simp only [Function.comp, intoPort, feeds, Edge.ofWire, hmem, Bool.and_eq_true,
      decide_eq_true_eq]
    -- the two tests ask the same things in another order
    constructor
    · rintro ⟨⟨⟨hsource, hid⟩, hport⟩, -, htarget⟩
      exact ⟨⟨⟨hsource, htarget⟩, of_decide_eq_true hid⟩, of_decide_eq_true hport⟩
    · rintro ⟨⟨⟨hsource, htarget⟩, hid⟩, hport⟩
      exact ⟨⟨⟨hsource, decide_eq_true hid⟩, decide_eq_true hport⟩, hsource, htarget⟩
  rw [hfilter, feed?, List.getLast?_map]

/-! ## A baked board is laid out -/

/-- Every step of a baked board is a planned one, with all edges worked into it. -/
theorem steps_ofCircuit (library : Library) (hkeyed : board.nodes.KeyedById)
    (h : board.analyse ports = .ok analysis) :
    let circuit := board.circuitOf library analysis ports
    (ofCircuit circuit).steps.map (·.id) = analysis.order ∧
      ∀ step ∈ (ofCircuit circuit).steps, ∃ start : Step Evaluator,
        step = circuit.edges.foldl (Step.attach analysis.order) start ∧
        start.sources = List.replicate (board.portCount start.id) none ∧
        board.Performs library start ∧
        ∀ node, board.nodes.get? start.id = some node → ¬ start.id.isConnectionPoint →
          start.holding = node.firstHolding library := by
  intro circuit
  -- every id of the order has a step, so none is passed over
  have hplan : ∀ id ∈ analysis.order, _ := fun id hid =>
    exists_planStep library analysis hkeyed ((mem_order h).mp hid)
  have hplanned : planned circuit = analysis.order.filterMap (planStep? (layOut circuit.parts)) :=
    congrArg (List.filterMap _) (distinct_of_nodup (nodup_order h))
  have hids : (planned circuit).map (·.id) = analysis.order := by
    rw [hplanned]
    refine map_id_filterMap fun id hid => ?_
    obtain ⟨step, hstep, hsame, -⟩ := hplan id hid
    exact ⟨step, hstep, hsame⟩
  have hsteps : (ofCircuit circuit).steps
      = (planned circuit).map fun step =>
          circuit.edges.foldl (Step.attach analysis.order) step := by
    rw [steps_eq_map_planned, hids]
  rw [hsteps]
  constructor
  · rw [List.map_map, ← hids]
    refine List.map_congr_left fun step _ => ?_
    exact (foldl_attach_frame _ _ step).1
  · intro step hmem
    obtain ⟨start, hstart, rfl⟩ := List.mem_map.mp hmem
    rw [hplanned] at hstart
    obtain ⟨id, hid, hfound⟩ := List.mem_filterMap.mp hstart
    obtain ⟨start', hfound', hsame, hspec⟩ := hplan id hid
    obtain rfl : start' = start := Option.some.inj (hfound'.symm.trans hfound)
    subst hsame
    exact ⟨start', rfl, hspec⟩

/-- **A baked board is laid out as its wires say**, and every node starts from what it keeps before
its first cycle. -/
theorem laidOut_ofCircuit (library : Library) (hkeyed : board.nodes.KeyedById)
    (h : board.analyse ports = .ok analysis) :
    let e := ofCircuit (board.circuitOf library analysis ports)
    board.LaidOut ports library analysis.order e ∧
      ∀ id node, board.nodes.get? id = some node → ¬ id.isConnectionPoint →
        e.holdingOf id = node.firstHolding library := by
  intro e
  obtain ⟨hids, hsteps⟩ := steps_ofCircuit library hkeyed h
  refine ⟨⟨hids, List.length_map _, rfl, ?_, ?_⟩, ?_⟩
  · intro step hmem
    obtain ⟨start, rfl, hsources, -⟩ := hsteps step hmem
    obtain ⟨hsame, -, -, hlength⟩ := foldl_attach_frame analysis.order
      (board.circuitOf library analysis ports).edges start
    rw [hsame]
    refine List.ext_getElem? fun port => ?_
    rw [List.getElem?_map]
    by_cases hport : port < board.portCount start.id
    · -- the last edge into a free port counts, and it is that of the wire that the port reads
      have hfree : start.sources[port]? = some none := by
        rw [hsources, List.getElem?_replicate, if_pos hport]
      rw [sources_foldl_attach analysis.order _ start hfree,
        getLast?_edges (fun id => mem_order h), List.getElem?_range hport, Option.map_some,
        Option.map_map]
      rfl
    · rw [List.getElem?_eq_none (by rw [hlength, hsources, List.length_replicate]; omega),
        List.getElem?_eq_none (by rw [List.length_range]; omega)]
      rfl
  · intro step hmem
    obtain ⟨start, rfl, -, hperforms, -⟩ := hsteps step hmem
    obtain ⟨hsame, haction, -, -⟩ := foldl_attach_frame analysis.order
      (board.circuitOf library analysis ports).edges start
    rw [Performs, hsame, haction]
    exact hperforms
  · -- the edges change sources only, so the node still keeps what its planned step kept
    intro id node hnode hordinary
    have hid : id ∈ analysis.order := (mem_order h).mpr (NodeMap.mem_ids_of_get? hnode hordinary)
    obtain ⟨step, hget, rfl⟩ := exists_step hids hid
    have hmem := List.mem_of_getElem? hget
    obtain ⟨start, rfl, -, -, hholding⟩ := hsteps step hmem
    obtain ⟨hattach, haction, hmemory, -⟩ := foldl_attach_frame analysis.order
      (board.circuitOf library analysis ports).edges start
    rw [holdingOf_of_mem (by rw [hids]; exact nodup_order h) hmem, Step.holding, haction, hmemory]
    rw [hattach] at hnode hordinary
    exact hholding node hnode hordinary

/-! ## Calls -/

namespace LaidOut

variable {order : List NodeId} {e : Evaluator}

/-- Every step reads earlier steps alone. -/
theorem ordered (h : board.LaidOut ports library order e) (hn : order.Nodup)
    (hforward : (board.digraph ports).Forward order) : e.Ordered := by
  refine ⟨h.slots, fun k step hk i port hmem => ?_⟩
  have hstep := List.mem_of_getElem? hk
  rw [h.sources step hstep, List.mem_map] at hmem
  obtain ⟨p, -, hsource⟩ := hmem
  obtain ⟨wire, hwire, hpair⟩ := Option.map_eq_some_iff.mp hsource
  obtain ⟨rfl, -⟩ := Prod.mk.inj hpair
  have hid : order[k]? = some step.id := by rw [← h.ids, List.getElem?_map, hk]; rfl
  obtain ⟨hlt, hget⟩ := List.getElem?_eq_some_iff.mp hid
  -- a step stands where its id does, and the wire leads forward to it
  have hplace : order.idxOf step.id = k := by rw [← hget, hn.idxOf_getElem]
  have hmem : step.id ∈ order := List.mem_of_getElem? hid
  have := hforward.idxOf_lt hn hmem (adjacent_of_feed? hwire)
  omega

/-- One call of a step of a node is one call of the node. -/
theorem outcome_node {step : Step Evaluator} {node : Node}
    (hperforms : board.Performs library step) (hid : ¬ step.id.isConnectionPoint)
    (hnode : board.nodes.get? step.id = some node) (inputs gathered : List Binary64) :
    ((step.outcome inputs gathered).1, (step.outcome inputs gathered).2.holding)
      = node.call gathered step.holding := by
  rw [Performs, NodeId.connectionPoint?_eq_none hid] at hperforms
  obtain ⟨node', hnode', haction⟩ := hperforms
  obtain rfl : node' = node := Option.some.inj (hnode'.symm.trans hnode)
  obtain ⟨hkind, hparams, -, houtputs⟩ := resolve_ports library node'
  obtain ⟨id, action, sources, memory⟩ := step
  -- a node that computes by itself, or one with a circuit behind it
  rcases haction with haction | ⟨inner, haction⟩
  · obtain rfl : action = _ := haction
    simp only [Step.outcome, runStep, Step.holding, Node.call, hkind, hparams, houtputs,
      NodeKind.evaluate_normalized]
  · obtain rfl : action = _ := haction
    simp only [Step.outcome, runStep, Step.holding, Node.call, houtputs]

/-- A step goes on doing what its id stands for. -/
theorem outcome_performs {step : Step Evaluator} (h : board.Performs library step)
    (inputs gathered : List Binary64) :
    board.Performs library (step.outcome inputs gathered).2 := by
  rw [Performs] at h ⊢
  rw [Step.outcome_id]
  obtain ⟨id, action, sources, memory⟩ := step
  split at h
  · obtain rfl : action = _ := h
    rfl
  · obtain rfl : action = _ := h
    rfl
  · obtain ⟨node, hnode, haction | ⟨inner, haction⟩⟩ := h
    · obtain rfl : action = _ := haction
      exact ⟨node, hnode, .inl rfl⟩
    · obtain rfl : action = _ := haction
      exact ⟨node, hnode, .inr ⟨_, rfl⟩⟩

/-- A call keeps the layout. -/
theorem evaluate (h : board.LaidOut ports library order e) (hordered : e.Ordered)
    (inputs : List Binary64) : board.LaidOut ports library order (e.evaluate inputs).2 := by
  have hsteps := evaluate_steps hordered inputs
  have hids : (e.evaluate inputs).2.steps.map (·.id) = order := by
    rw [hsteps, List.map_map, ← h.ids]
    exact List.map_congr_left fun step _ => Step.outcome_id step inputs _
  refine ⟨hids, (hordered.evaluate inputs).length, ?_, ?_, ?_⟩
  · rw [evaluate_eq]
    exact h.outputCount
  · intro step hmem
    rw [hsteps] at hmem
    obtain ⟨before, hbefore, rfl⟩ := List.mem_map.mp hmem
    rw [Step.outcome_sources, Step.outcome_id]
    exact h.sources before hbefore
  · intro step hmem
    rw [hsteps] at hmem
    obtain ⟨before, hbefore, rfl⟩ := List.mem_map.mp hmem
    exact outcome_performs (h.performs before hbefore) _ _

end LaidOut
end Board
end SignalBoard
