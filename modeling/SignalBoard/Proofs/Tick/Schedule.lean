import SignalBoard.Proofs.Board.Driven
import SignalBoard.Proofs.Tick.Visit

/-!
# Boards whose ticks and cycles can be compared

Cycles and ticks mean the same only on boards that leave nothing to the order of the wires and do
not use connection points for anything else (`Board.WellWired`): no two wires lead into one port, no
wire leads into an outside input or out of an outside output, and a connection point that is among
the nodes has the kind and the ports of one.

A session goes through all ids or through the live ones alone. Either way the order has what the
comparison needs (`Schedule`): whatever is driven and read in it comes earlier in it, and it holds
all outside outputs that are driven.
-/

namespace SignalBoard

open Signal

/-- A node of a kind with the default ports of the kind. -/
def Node.IsDefault (kind : NodeKind) (node : Node) : Prop :=
  node.kind = kind ∧ node.inputCount = kind.defaultInputs ∧
    node.outputCount = kind.defaultOutputs

instance (kind : NodeKind) (node : Node) : Decidable (node.IsDefault kind) :=
  inferInstanceAs (Decidable (_ ∧ _ ∧ _))

namespace Board

/-- The boards on which ticks and cycles can be compared. -/
structure WellWired (board : Board) : Prop where
  keyed : board.nodes.KeyedById
  acyclic : (board.digraph board.inferredPorts).Acyclic
  singleFed : (board.wires.map fun wire => (wire.target.node, wire.target.port)).Nodup
  notIntoInput : ∀ wire ∈ board.wires, ¬ wire.target.node.isInput
  notOutOfOutput : ∀ wire ∈ board.wires, ¬ wire.source.node.isOutput
  inputNodes : ∀ entry ∈ board.nodes.entries, entry.1.isInput →
    entry.2.IsDefault .connectionInput
  outputNodes : ∀ entry ∈ board.nodes.entries, entry.1.isOutput →
    entry.2.IsDefault .connectionOutput

instance (board : Board) : Decidable board.WellWired :=
  decidable_of_iff
    (board.nodes.KeyedById ∧ (board.digraph board.inferredPorts).Acyclic ∧
      (board.wires.map fun wire => (wire.target.node, wire.target.port)).Nodup ∧
      (∀ wire ∈ board.wires, ¬ wire.target.node.isInput) ∧
      (∀ wire ∈ board.wires, ¬ wire.source.node.isOutput) ∧
      (∀ entry ∈ board.nodes.entries, entry.1.isInput → entry.2.IsDefault .connectionInput) ∧
      ∀ entry ∈ board.nodes.entries, entry.1.isOutput → entry.2.IsDefault .connectionOutput)
    ⟨fun ⟨hkeyed, hacyclic, hsingle, hinto, hout, hinputs, houtputs⟩ =>
      ⟨hkeyed, hacyclic, hsingle, hinto, hout, hinputs, houtputs⟩,
    fun h => ⟨h.keyed, h.acyclic, h.singleFed, h.notIntoInput, h.notOutOfOutput, h.inputNodes,
      h.outputNodes⟩⟩

variable {board : Board} {ports : PortCounts}

namespace WellWired

/-- Two wires into the same port are the same wire. -/
theorem eq_of_target (h : board.WellWired) {wire other : Wire} (hwire : wire ∈ board.wires)
    (hother : other ∈ board.wires) (hnode : wire.target.node = other.target.node)
    (hport : wire.target.port.toNat = other.target.port.toNat) : wire = other :=
  List.inj_on_of_nodup_map h.singleFed hwire hother
    (Prod.ext hnode (UInt64.toNat_inj.mp hport))

/-- The wire that a port reads is any that counts for it. -/
theorem feed?_of_wire (h : board.WellWired) {wire : Wire} (hwire : wire ∈ board.wires)
    (hsource : wire.source.node ∈ board.nodes.ids ports)
    (htarget : wire.target.node ∈ board.nodes.ids ports) :
    board.feed? ports wire.target.node wire.target.port.toNat = some wire := by
  have hfeeds : board.feeds ports wire.target.node wire.target.port.toNat wire = true := by
    simp [feeds, hsource, htarget]
  -- there is a wire that counts, and the one that is read leads into the same port
  cases hfeed : board.feed? ports wire.target.node wire.target.port.toNat with
  | none =>
    rw [feed?, List.getLast?_eq_none_iff, List.filter_eq_nil_iff] at hfeed
    exact absurd hfeeds (hfeed wire hwire)
  | some found =>
    obtain ⟨hmem, -, -, hnode, hport⟩ := mem_of_feed? hfeed
    rw [h.eq_of_target hmem hwire hnode hport]

/-- A node under the id of an outside input is one. -/
theorem input_default (h : board.WellWired) {id : NodeId} {node : Node}
    (hnode : board.nodes.get? id = some node) (hid : id.isInput) :
    node.IsDefault .connectionInput :=
  h.inputNodes (id, node) (OrderedMap.get?_eq_some_iff.mp hnode) hid

/-- A node under the id of an outside output is one. -/
theorem output_default (h : board.WellWired) {id : NodeId} {node : Node}
    (hnode : board.nodes.get? id = some node) (hid : id.isOutput) :
    node.IsDefault .connectionOutput :=
  h.outputNodes (id, node) (OrderedMap.get?_eq_some_iff.mp hnode) hid

/-- A connection point stands for an outside input or for an outside output. -/
theorem isInput_or_isOutput {id : NodeId} (h : id.isConnectionPoint) : id.isInput ∨ id.isOutput := by
  obtain ⟨cp, hcp⟩ := Option.isSome_iff_exists.mp h
  cases cp with
  | input n => exact .inl (NodeId.isInput_iff.mpr ⟨n, hcp⟩)
  | output n => exact .inr (NodeId.isOutput_iff.mpr ⟨n, hcp⟩)

/-- No circuit stands in the place of a connection point. -/
theorem not_isComposite (h : board.WellWired) {id : NodeId} {node : Node}
    (hnode : board.nodes.get? id = some node) (hid : id.isConnectionPoint) :
    node.kind.isComposite = false := by
  rcases isInput_or_isOutput hid with hin | hout
  · rw [(h.input_default hnode hin).1]
    rfl
  · rw [(h.output_default hnode hout).1]
    rfl

/-- The runtimes of the ids that take part have as many input ports as these, outside inputs
apart. -/
theorem length_ofId (h : board.WellWired) {id : NodeId} (hid : id ∈ board.nodes.ids ports)
    (hinput : ¬ id.isInput) :
    (NodeRuntime.ofId board.nodes id).inputs.length = board.portCount id := by
  -- nodes have the ports that they say, outside outputs the one port of their kind
  rcases NodeMap.mem_ids.mp hid with ⟨n, -, rfl⟩ | ⟨hkey, hordinary⟩ | ⟨n, -, rfl⟩
  · exact absurd (NodeId.isInput_input n) hinput
  · obtain ⟨node, hnode⟩ := OrderedMap.exists_get?_of_mem_keys hkey
    rw [portCount_node hordinary hnode, NodeRuntime.ofId, hnode]
    exact List.length_replicate
  · rw [portCount_output, NodeRuntime.ofId]
    cases hnode : board.nodes.get? (.output n) with
    | none => simp [NodeRuntime.idle]
    | some node =>
      obtain ⟨-, hcount, -⟩ := h.output_default hnode (NodeId.isOutput_output n)
      simp only [NodeRuntime.ofNode, NodeRuntime.idle, List.length_replicate, hcount]
      rfl

/-- The runtime of an outside input has one output port. -/
theorem length_outputs_input (h : board.WellWired) (n : UInt64) :
    (NodeRuntime.ofId board.nodes (.input n)).outputs.length = 1 := by
  rw [NodeRuntime.ofId]
  cases hnode : board.nodes.get? (.input n) with
  | none => simp [NodeRuntime.idle]
  | some node =>
    obtain ⟨-, -, hcount⟩ := h.input_default hnode (NodeId.isInput_input n)
    simp only [NodeRuntime.ofNode, NodeRuntime.idle, List.length_replicate, hcount]
    rfl

/-- An outside input gives out what has been injected. -/
theorem fire_input (h : board.WellWired) {state : TickState}
    (hshaped : state.Shaped board.nodes) {n : UInt64} {x : Binary64}
    (hvalue : Signal.valueAt (state.runtime board.nodes (.input n)).inputs 0 = clamp x) :
    ((state.runtime board.nodes (.input n)).fire (board.nodes.get? (.input n))).outputs
      = [clamp x] := by
  have hplain := hshaped.plain _ (NodeId.isConnectionPoint_input n)
  have hlength : (state.runtime board.nodes (.input n)).outputs.length = 1 := by
    rw [hshaped.outputs, h.length_outputs_input]
  rw [← hvalue]
  refine NodeRuntime.fire_connectionPoint hplain hlength (fun node hnode => ?_) ?_
  · obtain ⟨hkind, -, hcount⟩ := h.input_default hnode (NodeId.isInput_input n)
    exact ⟨hkind, hcount⟩
  · rw [hvalue, clamp_clamp]

end WellWired

/-! ## Orders to go through -/

/-- What an order to go through the ids of a board has to have. -/
structure Schedule (board : Board) (ports : PortCounts) (order : List NodeId) : Prop where
  nodup : order.Nodup
  subset : ∀ id ∈ order, id ∈ board.nodes.ids ports
  closed : ∀ u v, board.Driven ports u → (board.digraph ports).Adjacent u v → v ∈ order → u ∈ order
  forward : ∀ before v after, order = before ++ v :: after →
    ∀ u ∈ order, (board.digraph ports).Adjacent u v → u ∈ before
  output : ∀ n < ports.outputs, board.Driven ports (.output n) → .output n ∈ order

/-- No wire leads back to where the order has already been. -/
theorem Schedule.not_adjacent {order visited rest : List NodeId} {id u : NodeId}
    (h : board.Schedule ports order) (hsplit : order = visited ++ id :: rest)
    (hu : u ∈ visited ++ [id]) : ¬ (board.digraph ports).Adjacent id u := by
  intro hadjacent
  have horder : id ∈ order := by rw [hsplit]; simp
  have hnodup := h.nodup
  -- a wire back would put the id before something that comes before it, or before itself
  rcases List.mem_append.mp hu with hvisited | heq
  · obtain ⟨front, back, hfront⟩ := List.append_of_mem hvisited
    have hsplit' : order = front ++ u :: (back ++ id :: rest) := by
      rw [hsplit, hfront, List.append_assoc, List.cons_append]
    have hmem := h.forward front u _ hsplit' id horder hadjacent
    rw [hsplit'] at hnodup
    exact List.disjoint_of_nodup_append hnodup hmem (by simp)
  · rw [List.mem_singleton.mp heq] at hadjacent
    have hmem := h.forward visited id rest hsplit id horder hadjacent
    rw [hsplit] at hnodup
    exact List.disjoint_of_nodup_append hnodup hmem List.mem_cons_self

variable {analysis : Analysis}

theorem schedule_order (h : board.analyse ports = .ok analysis) :
    board.Schedule ports analysis.order where
  nodup := nodup_order h
  subset := fun _ hid => (mem_order h).mp hid
  closed := fun _ _ hu _ _ => (mem_order h).mpr hu.mem_ids
  forward := fun before v after heq u _ huv => forward_order h before v after heq u huv
  output := fun _ hn _ => (mem_order h).mpr (NodeMap.output_mem_ids.mpr hn)

/-- The live ids keep the order of all ids. -/
theorem live_eq_filter (h : board.analyse ports = .ok analysis) :
    analysis.live = analysis.order.filter analysis.isLive := by
  -- the live ids are filtered out of the vertices, which are the sorted ids
  have hfilter : ∀ (g : Digraph NodeId) (isSource isSink : NodeId → Bool),
      ∃ p, g.live isSource isSink = g.vertices.filter p := fun _ _ _ => ⟨_, rfl⟩
  have hvertices : (Digraph.ofLists analysis.order (board.wires.map Wire.ends)).vertices
      = analysis.order := distinct_of_nodup (nodup_order h)
  obtain ⟨p, hp⟩ := hfilter (.ofLists analysis.order (board.wires.map Wire.ends)) NodeId.isInput
    NodeId.isOutput
  have hlive : analysis.live = analysis.order.filter p := by
    rw [live_of_analyse h, Digraph.liveIds, hp, hvertices]
  rw [hlive]
  refine List.filter_congr fun id hid => ?_
  rw [Analysis.isLive, hlive, Bool.eq_iff_iff, decide_eq_true_eq, List.mem_filter]
  exact (and_iff_right hid).symm

/-- The live ids make up a schedule: what is driven and leads to something live is live. -/
theorem schedule_live (h : board.analyse ports = .ok analysis) :
    board.Schedule ports analysis.live := by
  have hfilter := live_eq_filter h
  have hlive : ∀ id, id ∈ analysis.live ↔ analysis.isLive id := by
    intro id
    rw [Analysis.isLive, decide_eq_true_eq]
  refine ⟨?_, fun id hid => ?_, fun u v hu huv hv => ?_, ?_, fun n hn hdriven => ?_⟩
  · rw [hfilter]
    exact (nodup_order h).filter _
  · exact ((isLive_iff h).mp ((hlive id).mp hid)).1
  · exact (hlive u).mpr (hu.reached.isLive_left h huv (.inl ((hlive v).mp hv)))
  · intro before v after heq u hu huv
    have hkept := (hlive u).mp hu
    rw [hfilter] at heq
    exact (forward_order h).filter heq huv hkept
  · exact (hlive _).mpr (hdriven.reached.isLive_output h hn)

end Board

namespace Session

variable {board : Board} {config : SessionConfig} {library : Library} {session : Session}

/-- What a session starts from if the board can be analysed. -/
theorem start_of_analyse {analysis : Analysis}
    (h : board.analyse board.inferredPorts = .ok analysis) (config : SessionConfig)
    (library : Library) : start board config library
      = .ok ⟨board.nodes, ⟨board.wires, .ofNodesWith board.nodes library⟩, analysis, config⟩ := by
  rw [start, h]
  rfl

/-- **A session starts on every board without loops**, and its order is a schedule whether or not it
skips what is not live. -/
theorem exists_start (hacyclic : (board.digraph board.inferredPorts).Acyclic)
    (config : SessionConfig) (library : Library) :
    ∃ session, start board config library = .ok session ∧ session.nodes = board.nodes ∧
      session.now = ⟨board.wires, .ofNodesWith board.nodes library⟩ ∧
      session.analysis.ports = board.inferredPorts ∧
      board.Schedule board.inferredPorts session.order := by
  obtain ⟨analysis, hanalysis⟩ := Board.exists_analyse_iff.mpr hacyclic
  refine ⟨_, start_of_analyse hanalysis config library, rfl, rfl,
    Board.ports_of_analyse hanalysis, ?_⟩
  -- the session goes through the live ids or through all of them
  rw [order]
  split
  · exact Board.schedule_live hanalysis
  · exact Board.schedule_order hanalysis

/-- What has last reached an outside output is what its runtime holds. -/
theorem outputValues_eq (session : Session) :
    session.outputValues = (List.range session.analysis.ports.outputs.toNat).map fun n =>
      Signal.valueAt (session.now.state.runtime session.nodes (.output (UInt64.ofNat n))).inputs
        0 := by
  rw [outputValues]
  refine List.map_congr_left fun n _ => ?_
  rw [outputValue, TickState.runtime]
  cases session.now.state.runtime? (.output (UInt64.ofNat n)) with
  | some r => rfl
  | none =>
    -- nothing has come to an output without a runtime
    rw [Option.getD_none, NodeRuntime.ofId]
    cases session.nodes.get? (.output (UInt64.ofNat n)) with
    | some node => exact ((allZero_replicate _).valueAt 0).symm
    | none =>
      simp only
      split <;> exact ((allZero_replicate _).valueAt 0).symm

end Session
end SignalBoard
