import SignalBoard.Proofs.Board.Layout
import SignalBoard.Proofs.Circuit.WellFormed

/-!
# Baking gives well-formed circuits

Whatever wires a board has, however many outside ports are asked for and whatever the library holds,
a bake that succeeds gives a well-formed circuit, of which the evaluator loses nothing but edges
into ports that do not exist:

```lean
theorem bake_wellFormed (hkeyed : board.nodes.KeyedById) (h : board.bake ports library = .ok circuit) :
    circuit.WellFormed ∧ … ∧ Complete circuit
```

Ids, parts and edges are picked from the board separately, the ids by the keys of the nodes, the
parts by the ids of the nodes, and the edges by the ids that have come through the sort. They fit
together because every node is kept under its own id.

* `wellFormed_circuitOf`: the circuit that a board bakes to is well formed.
-/

namespace SignalBoard

open Evaluator

namespace Board

variable {board : Board} {ports : PortCounts} {library : Library} {analysis : Analysis}
  {circuit : Circuit}

/-- A bake can only fail in the analysis, so one that succeeds has analysed the board. -/
theorem exists_analyse_of_bake (h : board.bake ports library = .ok circuit) :
    ∃ analysis, board.analyse ports = .ok analysis ∧
      circuit = board.circuitOf library analysis ports := by
  cases hanalysis : board.analyse ports with
  | error loop =>
    rw [bake, hanalysis] at h
    cases h
  | ok analysis =>
    rw [bake_of_analyse hanalysis] at h
    exact ⟨analysis, rfl, (Except.ok.inj h).symm⟩

/-- The circuit that a board bakes to is well formed. The order is that of the sort, which makes the
edges lead forward. -/
theorem wellFormed_circuitOf (library : Library) (hkeyed : board.nodes.KeyedById)
    (h : board.analyse ports = .ok analysis) :
    (board.circuitOf library analysis ports).WellFormed := by
  have hids := partIds_circuitOf library analysis ports hkeyed
  have hpart : ∀ id, id ∈ (board.circuitOf library analysis ports).parts.map (·.id) ↔
      id ∈ board.nodes.keys ∧ ¬ id.isConnectionPoint := by
    intro id
    rw [hids, List.mem_filter]
    simp
  refine ⟨nodup_order h, fun id => ?_, nodup_partIds library analysis ports hkeyed,
    fun part hmem => ?_, fun edge hedge => ?_⟩
  · -- the sorted ids are the inputs, the ordinary keys and the outputs; the definition names the
    -- outputs before the parts
    rw [hpart id]
    show id ∈ analysis.order ↔ _
    rw [mem_order h, NodeMap.mem_ids]
    exact or_congr_right or_comm
  · have hordinary := ((hpart part.id).mp (List.mem_map.mpr ⟨part, hmem, rfl⟩)).2
    exact NodeId.connectionPoint?_eq_none hordinary
  · obtain ⟨wire, hkept, rfl⟩ := List.mem_map.mp hedge
    obtain ⟨hwire, hends⟩ := List.mem_filter.mp hkept
    rw [Bool.and_eq_true, decide_eq_true_eq, decide_eq_true_eq] at hends
    obtain ⟨hsource, htarget⟩ := hends
    -- the wire is an edge of the graph that has been sorted
    have hadjacent := adjacent_of_wire hwire ((mem_order h).mp hsource) ((mem_order h).mp htarget)
    exact ⟨hsource, htarget, (forward_order h).idxOf_lt (nodup_order h) htarget hadjacent⟩

/-- **What is baked fits together.** Of a board whose nodes are kept under their own ids a bake
takes over the ordinary nodes, each once and in order, and the wires between ids that take part, in
order. Its order holds the outside ports that were asked for and the nodes, its edges lead forward,
and the evaluator loses nothing of it but edges into ports that do not exist. -/
theorem bake_wellFormed (hkeyed : board.nodes.KeyedById)
    (h : board.bake ports library = .ok circuit) :
    circuit.WellFormed ∧ circuit.inputCount = ports.inputs ∧ circuit.outputCount = ports.outputs ∧
      circuit.parts.map (·.id) = (board.nodes.keys.filter fun id => !id.isConnectionPoint) ∧
      (∀ part ∈ circuit.parts, ∃ node, board.nodes.get? part.id = some node ∧
        part = Part.resolve library node) ∧
      circuit.edges = (board.wires.filter fun wire =>
        wire.source.node ∈ circuit.order && wire.target.node ∈ circuit.order).map Edge.ofWire ∧
      Complete circuit := by
  obtain ⟨analysis, hanalysis, rfl⟩ := exists_analyse_of_bake h
  have hwell := wellFormed_circuitOf library hkeyed hanalysis
  refine ⟨hwell, rfl, rfl, partIds_circuitOf library analysis ports hkeyed, fun part hpart => ?_, rfl,
    hwell.complete⟩
  obtain ⟨node, hkept, rfl⟩ := List.mem_map.mp hpart
  obtain ⟨entry, hentry, rfl⟩ := List.mem_map.mp (List.mem_filter.mp hkept).1
  -- the part has the id of its node, and this is the key under which the node is kept
  refine ⟨entry.2, ?_, rfl⟩
  rw [id_resolve, hkeyed entry hentry]
  exact OrderedMap.get?_eq_some_iff.mpr hentry

/-- A node before the one that it needs, with a wire into a port that it does not have. Two nodes
stand under ids of outside ports and one under an id that only looks like one; of the outside ports
that are mentioned two take part. -/
def jumbled : Board where
  nodes := .ofList [
    (⟨"late"⟩, (Node.ofKind ⟨"late"⟩ .offset).withPorts 1 1),
    (.input 0, .ofKind (.input 0) .invert),
    (⟨"cp:output:07"⟩, .ofKind ⟨"cp:output:07"⟩ .amp),
    (⟨"cp:input:x"⟩, .ofKind ⟨"cp:input:x"⟩ (.puzzle "gone")),
    (⟨"early"⟩, .ofKind ⟨"early"⟩ .invert)]
  wires := [
    .between ⟨"w1"⟩ ⟨"early"⟩ 0 ⟨"late"⟩ 0,
    .between ⟨"w2"⟩ ⟨"early"⟩ 0 ⟨"late"⟩ 1,
    .between ⟨"w3"⟩ (.input 0) 0 ⟨"early"⟩ 0,
    .between ⟨"w4"⟩ (.input 9) 0 ⟨"early"⟩ 0,
    .between ⟨"w5"⟩ ⟨"cp:output:07"⟩ 0 ⟨"late"⟩ 0,
    .between ⟨"w6"⟩ ⟨"cp:input:x"⟩ 3 ⟨"late"⟩ 0,
    .between ⟨"w7"⟩ ⟨"late"⟩ 0 (.output 0) 0]

/-- The last edge into the first port of the node is the one that it reads, and there is no second
port. -/
theorem bake_wellFormed_jumbled :
    jumbled.nodes.KeyedById ∧
      (∃ circuit, jumbled.bake ⟨2, 1⟩ .empty = .ok circuit ∧ circuit.WellFormed ∧ Complete circuit) ∧
      (jumbled.bake ⟨2, 1⟩ .empty).map (fun circuit => (circuit.order, circuit.parts.map (·.id),
          circuit.edges.map Edge.ends, sourceOf? (ofCircuit circuit).steps ⟨"late"⟩ 0,
          sourceOf? (ofCircuit circuit).steps ⟨"late"⟩ 1))
        = .ok ([.input 0, .input 1, ⟨"cp:input:x"⟩, ⟨"early"⟩, ⟨"late"⟩, .output 0],
            [⟨"late"⟩, ⟨"cp:input:x"⟩, ⟨"early"⟩],
            [(⟨"early"⟩, ⟨"late"⟩), (⟨"early"⟩, ⟨"late"⟩), (.input 0, ⟨"early"⟩),
              (⟨"cp:input:x"⟩, ⟨"late"⟩), (⟨"late"⟩, .output 0)],
            some (some (2, 3)), none) := by
  have hkeyed : jumbled.nodes.KeyedById := by decide +kernel
  have hacyclic : (jumbled.digraph ⟨2, 1⟩).Acyclic := by decide +kernel
  obtain ⟨analysis, hanalysis⟩ := exists_analyse_iff.mpr hacyclic
  obtain ⟨circuit, hbake⟩ : ∃ circuit, jumbled.bake ⟨2, 1⟩ .empty = .ok circuit :=
    ⟨_, bake_of_analyse hanalysis⟩
  obtain ⟨hwell, -, -, -, -, -, hcomplete⟩ := bake_wellFormed hkeyed hbake
  refine ⟨hkeyed, ⟨circuit, hbake, hwell, hcomplete⟩, ?_⟩
  rfl

end Board
end SignalBoard
