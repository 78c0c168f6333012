import SignalBoard.Proofs.Board.WellFormed
import SignalBoard.Proofs.Digraph.Resorting

/-!
# The order of a circuit is the order of its edges

A circuit keeps the order that the wires of its board were sorted into, but of the wires only those
between ids that take part. Its own edges are sorted into the same order again, with the depths that
were found for the board:

```lean
theorem sort_again : … ∧
    ∀ board ports library circuit, board.bake ports library = .ok circuit →
      ∃ analysis, board.analyse ports = .ok analysis ∧
        circuit.digraph.layers = .ok ⟨circuit.order, analysis.depths, analysis.maxDepth⟩
```

Leaving out the other wires changes nothing (`edges_digraph`), since a sort does not look at them
either.
-/

namespace SignalBoard

/-- The graph of a circuit's order and edges. -/
def Circuit.digraph (c : Circuit) : Digraph NodeId :=
  .ofLists c.order (c.edges.map Edge.ends)

namespace Board

variable {board : Board} {ports : PortCounts} {analysis : Analysis}

/-- The order and the depths of an analysis are the layers of the graph of the board. -/
theorem layers_of_analyse (h : board.analyse ports = .ok analysis) :
    (board.digraph ports).layers = .ok ⟨analysis.order, analysis.depths, analysis.maxDepth⟩ := by
  rw [analyse] at h
  split at h
  · cases h
  · next layers hlayers =>
    cases h
    exact hlayers

/-- A baked board has the edges of the board, as far as a sort looks at them. -/
theorem edges_digraph (library : Library) (h : board.analyse ports = .ok analysis) :
    (board.circuitOf library analysis ports).digraph.edges = (board.digraph ports).edges := by
  -- the circuit has the edges of the wires between ids in the order
  have hends : (board.circuitOf library analysis ports).edges.map Edge.ends
      = (board.wires.map Wire.ends).filter fun e =>
          e.1 ∈ analysis.order && e.2 ∈ analysis.order := by
    rw [circuitOf, List.map_map, List.filter_map]
    rfl
  rw [Circuit.digraph, hends, digraph]
  show (Digraph.ofLists analysis.order _).edges = _
  rw [Digraph.edges_ofLists_filter, Digraph.edges_ofLists_congr fun id => mem_order h]
  intro e hsource htarget
  simp [hsource, htarget]

/-- A baked board has the ids of the analysis, in their order. -/
theorem vertices_digraph (library : Library) (h : board.analyse ports = .ok analysis) :
    (board.circuitOf library analysis ports).digraph.vertices = analysis.order :=
  distinct_of_nodup (nodup_order h)

/-- **A stored order is what its edges are sorted into.** Sorting names that have been sorted gives
them back as they are. In particular, sorting the ids of a baked board by its own edges gives its
order, and for every id the depth that it has on the board. -/
theorem sort_again :
    (∀ (names : List NodeId) (pairs : List (NodeId × NodeId)) (order : List NodeId),
      (Digraph.ofLists names pairs).sort = .ok order →
        (Digraph.ofLists order pairs).sort = .ok order) ∧
    ∀ (board : Board) (ports : PortCounts) (library : Library) (circuit : Circuit),
      board.bake ports library = .ok circuit →
        circuit.digraph.sort = .ok circuit.order ∧
          ∃ analysis, board.analyse ports = .ok analysis ∧
            circuit.digraph.layers
              = .ok ⟨circuit.order, analysis.depths, analysis.maxDepth⟩ := by
  refine ⟨fun names pairs order h => ?_, fun board ports library circuit h => ?_⟩
  · have hmem : ∀ id, id ∈ order ↔ id ∈ names := fun id => by
      rw [(Digraph.sort_perm h).mem_iff, Digraph.mem_vertices_ofLists]
    exact Digraph.sort_of_sort (Digraph.edges_ofLists_congr hmem pairs)
      (distinct_of_nodup (Digraph.sort_nodup h)) h
  · -- the graph of the circuit has the same edges, and its vertices stand in the sorted order
    obtain ⟨analysis, hanalysis, rfl⟩ := exists_analyse_of_bake h
    have hlayers := Digraph.layers_of_layers (edges_digraph library hanalysis)
      (vertices_digraph library hanalysis) (layers_of_analyse hanalysis)
    exact ⟨(Digraph.layers_eq_ok_iff.mp hlayers).1, analysis, hanalysis, hlayers⟩

/-- Three names whose last one leads to the first one, and a board some of whose wires do not
count. -/
theorem sort_again_jumbled :
    let names : List NodeId := [⟨"b"⟩, ⟨"c"⟩, ⟨"a"⟩]
    let pairs : List (NodeId × NodeId) := [(⟨"a"⟩, ⟨"b"⟩), (⟨"c"⟩, ⟨"b"⟩), (⟨"x"⟩, ⟨"a"⟩)]
    let order : List NodeId := [⟨"c"⟩, ⟨"a"⟩, ⟨"b"⟩]
    (Digraph.ofLists names pairs).sort = .ok order ∧
      (Digraph.ofLists order pairs).sort = .ok order ∧
      ∃ circuit analysis, jumbled.bake ⟨2, 1⟩ .empty = .ok circuit ∧
        circuit.order = [.input 0, .input 1, ⟨"cp:input:x"⟩, ⟨"early"⟩, ⟨"late"⟩, .output 0] ∧
        circuit.edges.length < jumbled.wires.length ∧ circuit.digraph.sort = .ok circuit.order ∧
        jumbled.analyse ⟨2, 1⟩ = .ok analysis ∧
        circuit.digraph.layers = .ok ⟨circuit.order, analysis.depths, analysis.maxDepth⟩ := by
  intro names pairs order
  have hsort : (Digraph.ofLists names pairs).sort = .ok order := by decide +kernel
  -- what the bake gives is evaluated; that it is sorted again is the theorem
  have hview : (jumbled.bake ⟨2, 1⟩ .empty).map (fun circuit => (circuit.order, circuit.edges.length))
      = .ok ([.input 0, .input 1, ⟨"cp:input:x"⟩, ⟨"early"⟩, ⟨"late"⟩, .output 0], 5) := by
    decide +kernel
  cases hbake : jumbled.bake ⟨2, 1⟩ .empty with
  | error e => rw [hbake] at hview; cases hview
  | ok circuit =>
    rw [hbake] at hview
    obtain ⟨horder, hedges⟩ := Prod.mk.inj (Except.ok.inj hview)
    obtain ⟨hagain, analysis, hanalysis, hlayers⟩ := sort_again.2 jumbled ⟨2, 1⟩ .empty circuit hbake
    refine ⟨hsort, sort_again.1 names pairs order hsort, circuit, analysis, rfl, horder, ?_, hagain,
      hanalysis, hlayers⟩
    rw [hedges]
    decide

end Board
end SignalBoard
