import SignalBoard.Circuit.Bake
import SignalBoard.Proofs.Board.Analysis
import SignalBoard.Proofs.Circuit.Silence

/-!
# The dataflow equations of a board

What a board means, said without an order of evaluation. In a cycle every id has values on its
output ports, and these satisfy one equation per id: an outside input carries what comes from
outside, a node what its kind makes of its gathered inputs and of what it has kept, an outside
output what is on the wire into it. What a port reads is settled by the wires alone: the last one
that leads into it counts (`feed?`).

* `Node.call`: one call of a node, by its own rule or by the circuit behind it.
* `Board.Cycle`: the equations of one cycle.
* `Cycle.agree`: on a board without loops two solutions agree, also those of two boards, on every
  set of ids whose ports read the same on either board.
* `Cycle.quiet`: a set of ids that no outside input leads into carries zeros.
-/

namespace SignalBoard

open Signal

/-! ## Calls -/

/-- What a node keeps from cycle to cycle. -/
inductive Holding where
  | memory (m : NodeMemory)
  /-- The evaluator of the circuit behind a composite node. -/
  | inner (e : Evaluator)

/-- Nothing but zeros is kept. -/
def Holding.Quiet : Holding → Prop
  | memory m => m.Quiet
  | inner e => e.Quiet

namespace Node

/-- The circuit that a library holds for a node. -/
def resolved? (library : Library) (node : Node) : Option Circuit :=
  if node.kind.isComposite then library.get? node.kind.text else none

theorem resolved?_empty (node : Node) : node.resolved? .empty = none := by
  rw [resolved?]
  split <;> rfl

/-- What a node keeps before its first cycle. -/
def firstHolding (library : Library) (node : Node) : Holding :=
  match node.resolved? library with
  | some circuit => .inner (.ofCircuit circuit)
  | none => .memory (.fresh node.kind node.params)

/-- One call of a node on the values of its input ports: its output ports, and what it keeps. -/
def call (node : Node) (gathered : List Binary64) : Holding → List Binary64 × Holding
  | .memory m =>
    let (produced, m) := node.kind.evaluate node.params gathered node.outputCount.toNat m
    (produced, .memory m)
  | .inner e =>
    let (produced, e) := e.evaluate gathered
    (Signal.fit node.outputCount.toNat (produced.map Signal.clamp), .inner e)

/-- Before the first cycle a node keeps zeros. -/
theorem firstHolding_quiet (library : Library) (node : Node) : (node.firstHolding library).Quiet := by
  rw [firstHolding]
  split
  · exact Evaluator.quiet_ofCircuit _
  · exact NodeMemory.fresh_quiet _ _

/-- A call on zeros gives zeros and keeps zeros. -/
theorem call_quiet (node : Node) {gathered : List Binary64} {kept : Holding}
    (hzero : AllZero gathered) (hquiet : kept.Quiet) :
    AllZero (node.call gathered kept).1 ∧ (node.call gathered kept).2.Quiet := by
  cases kept with
  | memory m => exact node.kind.evaluate_quiet node.params hzero node.outputCount.toNat hquiet
  | inner e =>
    obtain ⟨hproduced, hafter⟩ := Evaluator.evaluate_quiet e hquiet hzero
    refine ⟨allZero_fit _ ?_, hafter⟩
    rw [hproduced.map_clamp]
    exact hproduced

/-- What a node without memory gives does not depend on what it has kept. -/
theorem call_memory {node : Node} (h : node.kind.isStateful = false) (gathered : List Binary64)
    (m m' : NodeMemory) :
    (node.call gathered (.memory m)).1 = (node.call gathered (.memory m')).1 := by
  have hcall := NodeKind.evaluate_of_not_isStateful h node.params gathered node.outputCount.toNat
  show (node.kind.evaluate node.params gathered node.outputCount.toNat m).1
    = (node.kind.evaluate node.params gathered node.outputCount.toNat m').1
  rw [hcall m, hcall m']

/-- A node gives out signals, whatever it is called on. -/
theorem call_allSignals (node : Node) (gathered : List Binary64) (kept : Holding) :
    AllSignals (node.call gathered kept).1 := by
  cases kept with
  | memory m => exact node.kind.evaluate_allSignals _ _ _ _
  | inner e => exact allSignals_fit _ (allSignals_map_clamp _)

end Node

/-! ## What a port reads -/

namespace Board

/-- Whether a wire counts for a port: its ends take part and it leads into the port. -/
def feeds (board : Board) (ports : PortCounts) (id : NodeId) (port : Nat) (wire : Wire) : Bool :=
  wire.source.node ∈ board.nodes.ids ports && wire.target.node ∈ board.nodes.ids ports &&
    wire.target.node = id && wire.target.port.toNat = port

/-- The wire that a port reads: the last one that counts for it. -/
def feed? (board : Board) (ports : PortCounts) (id : NodeId) (port : Nat) : Option Wire :=
  (board.wires.filter (board.feeds ports id port)).getLast?

/-- The value that a port reads. -/
def portIn (board : Board) (ports : PortCounts) (values : NodeId → List Binary64) (id : NodeId)
    (port : Nat) : Binary64 :=
  match board.feed? ports id port with
  | some wire => Signal.valueAt (values wire.source.node) wire.source.port.toNat
  | none => .zero

/-- The output port that a port reads. -/
def origin? (board : Board) (ports : PortCounts) (id : NodeId) (port : Nat) :
    Option (NodeId × UInt64) :=
  (board.feed? ports id port).map fun wire => (wire.source.node, wire.source.port)

/-- The values that the first ports of an id read. -/
def gathered (board : Board) (ports : PortCounts) (values : NodeId → List Binary64) (id : NodeId)
    (count : Nat) : List Binary64 :=
  (List.range count).map (board.portIn ports values id)

/-- The equations of one cycle: `values` is what is on the output ports of every id, `before` and
`after` are what the nodes keep. -/
structure Cycle (board : Board) (ports : PortCounts) (inputs : List Binary64)
    (before : NodeId → Holding) (values : NodeId → List Binary64) (after : NodeId → Holding)
    (results : List Binary64) : Prop where
  input : ∀ n < ports.inputs, values (.input n) = [Signal.clamp (Signal.valueAt inputs n.toNat)]
  node : ∀ id node, board.nodes.get? id = some node → ¬ id.isConnectionPoint →
    (values id, after id)
      = node.call (board.gathered ports values id node.inputCount.toNat) (before id)
  output : ∀ n < ports.outputs, values (.output n) = [board.portIn ports values (.output n) 0]
  results : results = (List.range ports.outputs.toNat).map fun n =>
    board.portIn ports values (.output (UInt64.ofNat n)) 0

variable {board : Board} {ports : PortCounts}

/-- The wire that a port reads is one of the board, between ids that take part, and leads into the
port. -/
theorem mem_of_feed? {id : NodeId} {port : Nat} {wire : Wire}
    (h : board.feed? ports id port = some wire) :
    wire ∈ board.wires ∧ wire.source.node ∈ board.nodes.ids ports ∧
      wire.target.node ∈ board.nodes.ids ports ∧ wire.target.node = id ∧
      wire.target.port.toNat = port := by
  have hmem := List.mem_of_getLast? h
  rw [List.mem_filter] at hmem
  obtain ⟨hwire, hfeeds⟩ := hmem
  simp only [feeds, Bool.and_eq_true, decide_eq_true_eq] at hfeeds
  exact ⟨hwire, hfeeds.1.1.1, hfeeds.1.1.2, hfeeds.1.2, hfeeds.2⟩

/-- A port reads from an id that leads to its own. -/
theorem adjacent_of_feed? {id : NodeId} {port : Nat} {wire : Wire}
    (h : board.feed? ports id port = some wire) :
    (board.digraph ports).Adjacent wire.source.node id := by
  obtain ⟨hwire, hsource, htarget, rfl, -⟩ := mem_of_feed? h
  exact adjacent_of_wire hwire hsource htarget

/-- A port reads the port at the other end of its wire. -/
theorem portIn_of_feed? {values : NodeId → List Binary64} {id : NodeId} {port : Nat} {wire : Wire}
    (h : board.feed? ports id port = some wire) :
    board.portIn ports values id port
      = Signal.valueAt (values wire.source.node) wire.source.port.toNat := by
  rw [portIn, h]

theorem portIn_of_feed?_none {values : NodeId → List Binary64} {id : NodeId} {port : Nat}
    (h : board.feed? ports id port = none) : board.portIn ports values id port = .zero := by
  rw [portIn, h]

/-- What a port reads depends on the wire that it reads only as far as it says where from. -/
theorem portIn_of_origin? {values : NodeId → List Binary64} {id : NodeId} {port : Nat}
    {origin : NodeId × UInt64} (h : board.origin? ports id port = some origin) :
    board.portIn ports values id port = Signal.valueAt (values origin.1) origin.2.toNat := by
  obtain ⟨wire, hwire, rfl⟩ := Option.map_eq_some_iff.mp h
  exact portIn_of_feed? hwire

/-- A port that reads no output port reads zero. -/
theorem portIn_of_origin?_none {values : NodeId → List Binary64} {id : NodeId} {port : Nat}
    (h : board.origin? ports id port = none) : board.portIn ports values id port = .zero :=
  portIn_of_feed?_none (Option.map_eq_none_iff.mp h)

/-- The output port that is read is one of an id that leads here. -/
theorem adjacent_of_origin? {id : NodeId} {port : Nat} {origin : NodeId × UInt64}
    (h : board.origin? ports id port = some origin) :
    (board.digraph ports).Adjacent origin.1 id := by
  obtain ⟨wire, hwire, rfl⟩ := Option.map_eq_some_iff.mp h
  exact adjacent_of_feed? hwire

/-- What is gathered is the same if each port reads the same. -/
theorem gathered_congr {board' : Board} {ports' : PortCounts}
    {values values' : NodeId → List Binary64} {id : NodeId} {count : Nat}
    (h : ∀ port < count, board.portIn ports values id port = board'.portIn ports' values' id port) :
    board.gathered ports values id count = board'.gathered ports' values' id count := by
  refine List.map_congr_left fun port hport => ?_
  exact h port (List.mem_range.mp hport)

/-- A list that holds on every place what the port there reads holds all that is gathered. -/
theorem eq_gathered {values : NodeId → List Binary64} {id : NodeId} {count : Nat}
    {inputs : List Binary64} (hlength : inputs.length = count)
    (h : ∀ port < count, Signal.valueAt inputs port = board.portIn ports values id port) :
    inputs = board.gathered ports values id count := by
  apply List.ext_getElem?
  intro port
  rw [gathered, List.getElem?_map]
  by_cases hport : port < count
  · rw [List.getElem?_range hport, Option.map_some, ← h port hport, Signal.valueAt,
      List.getD_eq_getElem?_getD, List.getElem?_eq_getElem (by omega), Option.getD_some]
  · rw [List.getElem?_eq_none (by omega), List.getElem?_eq_none (by rw [List.length_range]; omega)]
    rfl

/-- How many input ports an id has. -/
def portCount (board : Board) (id : NodeId) : Nat :=
  match id.connectionPoint?, board.nodes.get? id with
  | some (.input _), _ => 0
  | some (.output _), _ => 1
  | none, some node => node.inputCount.toNat
  | none, none => 0

/-- An ordinary id has the ports of its node. -/
theorem portCount_node {id : NodeId} {node : Node} (hid : ¬ id.isConnectionPoint)
    (hnode : board.nodes.get? id = some node) : board.portCount id = node.inputCount.toNat := by
  rw [portCount, NodeId.connectionPoint?_eq_none hid, hnode]

@[simp] theorem portCount_input (board : Board) (n : UInt64) : board.portCount (.input n) = 0 := by
  rw [portCount, NodeId.connectionPoint?_input]

@[simp] theorem portCount_output (board : Board) (n : UInt64) :
    board.portCount (.output n) = 1 := by
  rw [portCount, NodeId.connectionPoint?_output]

/-- **Induction along the wires**, on a board without loops. -/
theorem induction (hacyclic : (board.digraph ports).Acyclic) {P : NodeId → Prop}
    (step : ∀ id ∈ board.nodes.ids ports,
      (∀ u, (board.digraph ports).Adjacent u id → P u) → P id) :
    ∀ id ∈ board.nodes.ids ports, P id := by
  obtain ⟨analysis, hanalysis⟩ := exists_analyse_iff.mpr hacyclic
  intro id hid
  -- the order of the analysis is one in which every wire leads forward
  refine (forward_order hanalysis).induction (fun v hv ih => ?_) id ((mem_order hanalysis).mpr hid)
  refine step v ((mem_order hanalysis).mp hv) fun u hu => ih u ?_ hu
  exact (mem_order hanalysis).mpr (by simpa [digraph] using hu.left_mem)

/-! ## Solving the equations -/

namespace Cycle

variable {inputs : List Binary64} {before after : NodeId → Holding}
  {values : NodeId → List Binary64} {results : List Binary64}

/-- The values of a node are those of its call. -/
theorem values_node (h : board.Cycle ports inputs before values after results) {id : NodeId}
    {node : Node} (hnode : board.nodes.get? id = some node) (hid : ¬ id.isConnectionPoint) :
    values id
      = (node.call (board.gathered ports values id node.inputCount.toNat) (before id)).1 :=
  congrArg Prod.fst (h.node id node hnode hid)

/-- The outside outputs are what has come to their ids. -/
theorem getElem?_results (h : board.Cycle ports inputs before values after results) {n : UInt64}
    (hn : n < ports.outputs) : results[n.toNat]? = (values (.output n))[0]? := by
  rw [h.results, List.getElem?_map, List.getElem?_range (UInt64.lt_iff_toNat_lt.mp hn),
    Option.map_some, UInt64.ofNat_toNat, h.output n hn]
  rfl

/-- Two solutions agree on a set of ids if its members start from the same and their ports read the
same output port, of a member of the set, or zero. -/
theorem agree {board' : Board} {ports' : PortCounts} {before' after' : NodeId → Holding}
    {values' : NodeId → List Binary64} {results' : List Binary64}
    (h : board.Cycle ports inputs before values after results)
    (h' : board'.Cycle ports' inputs before' values' after' results')
    (hacyclic : (board.digraph ports).Acyclic) {C : NodeId → Prop}
    (hpoints : ∀ id, C id → id.isConnectionPoint → id ∈ board'.nodes.ids ports')
    (hnodes : ∀ id, C id → ¬ id.isConnectionPoint →
      board.nodes.get? id = board'.nodes.get? id)
    (hbefore : ∀ id, C id → ¬ id.isConnectionPoint → before id = before' id)
    (hfeed : ∀ id port, C id → port < board.portCount id →
      (∃ origin, board.origin? ports id port = some origin ∧
        board'.origin? ports' id port = some origin ∧ C origin.1) ∨
      (board.portIn ports values id port = .zero ∧ board'.portIn ports' values' id port = .zero)) :
    ∀ id ∈ board.nodes.ids ports, C id →
      values id = values' id ∧ (¬ id.isConnectionPoint → after id = after' id) := by
  refine induction hacyclic fun id hid ih hC => ?_
  -- what the ports read comes from ids further back, where the solutions agree already
  have hread : ∀ port < board.portCount id,
      board.portIn ports values id port = board'.portIn ports' values' id port := by
    intro port hport
    rcases hfeed id port hC hport with ⟨origin, horigin, horigin', hsource⟩ | ⟨hzero, hzero'⟩
    · rw [portIn_of_origin? horigin, portIn_of_origin? horigin',
        (ih _ (adjacent_of_origin? horigin) hsource).1]
    · rw [hzero, hzero']
  -- one equation for each sort of id
  rcases NodeMap.mem_ids.mp hid with ⟨n, hn, rfl⟩ | ⟨hkey, hordinary⟩ | ⟨n, hn, rfl⟩
  · have hn' := NodeMap.input_mem_ids.mp (hpoints _ hC (NodeId.isConnectionPoint_input n))
    refine ⟨by rw [h.input n hn, h'.input n hn'], fun hcp => ?_⟩
    exact absurd (NodeId.isConnectionPoint_input n) hcp
  · obtain ⟨node, hnode⟩ := OrderedMap.exists_get?_of_mem_keys hkey
    have hnode' : board'.nodes.get? id = some node := by
      rw [← hnodes id hC hordinary, hnode]
    rw [portCount_node hordinary hnode] at hread
    have hsame : (values id, after id) = (values' id, after' id) := by
      rw [h.node id node hnode hordinary, h'.node id node hnode' hordinary, gathered_congr hread,
        hbefore id hC hordinary]
    exact ⟨congrArg Prod.fst hsame, fun _ => congrArg Prod.snd hsame⟩
  · have hn' := NodeMap.output_mem_ids.mp (hpoints _ hC (NodeId.isConnectionPoint_output n))
    have hzero : (0 : Nat) < board.portCount (.output n) := by simp
    refine ⟨by rw [h.output n hn, h'.output n hn', hread 0 hzero], fun hcp => ?_⟩
    exact absurd (NodeId.isConnectionPoint_output n) hcp

/-- Ids that no outside input leads into, by way of ports that are there, carry zeros and go on
keeping zeros. -/
theorem quiet (h : board.Cycle ports inputs before values after results)
    (hacyclic : (board.digraph ports).Acyclic) {U : NodeId → Prop}
    (hinput : ∀ n < ports.inputs, ¬ U (.input n))
    (hfeed : ∀ id port wire, U id → port < board.portCount id →
      board.feed? ports id port = some wire → U wire.source.node)
    (hbefore : ∀ id, U id → ¬ id.isConnectionPoint → (before id).Quiet) :
    ∀ id ∈ board.nodes.ids ports, U id →
      AllZero (values id) ∧ (¬ id.isConnectionPoint → (after id).Quiet) := by
  refine induction hacyclic fun id hid ih hU => ?_
  -- what leads in here comes from ids of the same set, which carry zeros already
  have hread : ∀ port < board.portCount id, board.portIn ports values id port = .zero := by
    intro port hport
    cases hwire : board.feed? ports id port with
    | none => exact portIn_of_feed?_none hwire
    | some wire =>
      rw [portIn_of_feed? hwire]
      exact (ih _ (adjacent_of_feed? hwire) (hfeed id port wire hU hport hwire)).1.valueAt _
  -- an outside input is not in the set, a node has only zeros to gather, an outside output passes
  -- one on
  rcases NodeMap.mem_ids.mp hid with ⟨n, hn, rfl⟩ | ⟨hkey, hordinary⟩ | ⟨n, hn, rfl⟩
  · exact absurd hU (hinput n hn)
  · obtain ⟨node, hnode⟩ := OrderedMap.exists_get?_of_mem_keys hkey
    rw [portCount_node hordinary hnode] at hread
    have hgathered : AllZero (board.gathered ports values id node.inputCount.toNat) := by
      intro x hx
      obtain ⟨port, hport, rfl⟩ := List.mem_map.mp hx
      exact hread port (List.mem_range.mp hport)
    have hcall := node.call_quiet hgathered (hbefore id hU hordinary)
    rw [← h.node id node hnode hordinary] at hcall
    exact ⟨hcall.1, fun _ => hcall.2⟩
  · refine ⟨fun x hx => ?_, fun hcp => absurd (NodeId.isConnectionPoint_output n) hcp⟩
    rw [h.output n hn, List.mem_singleton] at hx
    rw [hx, hread 0 (by simp)]

/-- Everything that a board carries is a signal. -/
theorem allSignals (h : board.Cycle ports inputs before values after results)
    (hacyclic : (board.digraph ports).Acyclic) :
    ∀ id ∈ board.nodes.ids ports, AllSignals (values id) := by
  -- only an outside output passes on what comes from further back; all others clamp
  refine induction hacyclic fun id hid ih => ?_
  rcases NodeMap.mem_ids.mp hid with ⟨n, hn, rfl⟩ | ⟨hkey, hordinary⟩ | ⟨n, hn, rfl⟩
  · rw [h.input n hn]
    exact allSignals_map_clamp [_]
  · obtain ⟨node, hnode⟩ := OrderedMap.exists_get?_of_mem_keys hkey
    rw [h.values_node hnode hordinary]
    exact node.call_allSignals _ _
  · rw [h.output n hn]
    intro x hx
    rw [List.mem_singleton.mp hx]
    cases hwire : board.feed? ports (.output n) 0 with
    | none => rw [portIn_of_feed?_none hwire, clamp_zero]
    | some wire =>
      rw [portIn_of_feed? hwire]
      exact (ih _ (adjacent_of_feed? hwire)).clamp_valueAt _

end Cycle
end Board
end SignalBoard
