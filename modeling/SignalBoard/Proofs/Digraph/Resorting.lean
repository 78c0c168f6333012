import SignalBoard.Proofs.Digraph.Levels

/-!
# Sorting what has been sorted

A graph whose vertices stand in the order of a sort is sorted into that order, and gets the same
depths:

```lean
theorem layers_of_layers (hedges : g'.edges = g.edges) (hvertices : g'.vertices = layers.order)
    (h : g.layers = .ok layers) : g'.layers = .ok layers
```

The vertices are looked at in their own order at one place only, when the queue is filled for the
first time; the vertices without an edge into them are in front of the sorted order and in their old
order there (`exists_sort_eq_append`). After that the two runs do the same (`SameRun`), although
their counters are kept in different orders.
-/

namespace SignalBoard
namespace Digraph

variable {α : Type} [DecidableEq α] {g g' : Digraph α} {order : List α}

/-! ## What depends on the edges alone -/

/-- Successors stand in the order of the edges, so the vertices do not matter. -/
theorem successors_congr (hedges : g'.edges = g.edges) : g'.successors = g.successors := by
  funext v
  rw [successors, successors, hedges]

/-- Edges are counted without regard to the order of the vertices. -/
theorem inDegree_congr (hedges : g'.edges = g.edges) : g'.inDegree = g.inDegree := by
  funext v
  rw [inDegree, inDegree, predecessors, predecessors, hedges]

/-- Depths along an order depend on the edges. -/
theorem depthsAlong_congr (hedges : g'.edges = g.edges) (order : List α) :
    g'.depthsAlong order = g.depthsAlong order := by
  rw [depthsAlong, depthsAlong, successors_congr hedges]

namespace SortState

/-- One turn of the queue looks at the edges only. -/
theorem turn_congr (hedges : g'.edges = g.edges) : turn g' = turn g := by
  funext s
  rw [turn, turn, successors_congr hedges]

/-! ## Two runs -/

/-- Two states of which the counters need not be in the same order. -/
structure SameRun (s t : SortState α) : Prop where
  order : s.order = t.order
  queue : s.queue = t.queue
  counters : ∀ v, s.inDegree.get? v = t.inDegree.get? v

variable {s t : SortState α}

/-- A released edge counts down the same vertex in both runs, and both queue it at the same time. -/
theorem SameRun.release (h : SameRun s t) (w : α) : SameRun (s.release w) (t.release w) := by
  have hcounters : ∀ (left : Nat) (v : α),
      (s.inDegree.insert w left).get? v = (t.inDegree.insert w left).get? v := by
    intro left v
    rw [OrderedMap.get?_insert, OrderedMap.get?_insert, h.counters v]
  rw [SortState.release, SortState.release, h.counters w]
  dsimp only
  -- the last edge into the vertex is released, or some are left
  split
  · exact ⟨h.order, congrArg (· ++ [w]) h.queue, hcounters _⟩
  · exact ⟨h.order, h.queue, hcounters _⟩

/-- Two runs that look the same do the same in their next turn. -/
theorem SameRun.turn (h : SameRun s t) : SameRun (s.turn g) (t.turn g) := by
  cases hqueue : t.queue with
  | nil =>
    rw [SortState.turn, SortState.turn, h.queue, hqueue]
    exact h
  | cons v rest =>
    rw [turn_of_queue hqueue, turn_of_queue (h.queue.trans hqueue)]
    exact List.foldl_rel ⟨congrArg (· ++ [v]) h.order, rfl, h.counters⟩
      fun w _ _ _ hreleased => hreleased.release w

/-- The vertices of a sorted graph may be brought into the sorted order before the sort. -/
theorem sameRun_start (hedges : g'.edges = g.edges) (hvertices : g'.vertices = order)
    (h : g.sort = .ok order) : SameRun (start g') (start g) := by
  obtain ⟨later, horder, hlater⟩ := exists_sort_eq_append h
  refine ⟨rfl, ?_, fun v => ?_⟩
  · show g'.vertices.filter _ = g.vertices.filter _
    -- behind the front of the sorted order every vertex has an edge into it
    have hrest : later.filter (fun v => g.inDegree v = 0) = [] :=
      List.filter_eq_nil_iff.mpr fun v hv => by simpa using hlater v hv
    rw [hvertices, inDegree_congr hedges, horder, List.filter_append, List.filter_filter, hrest,
      List.append_nil]
    simp only [Bool.and_self]
  · show (OrderedMap.tabulate g'.vertices g'.nodup g'.inDegree).get? v
      = (OrderedMap.tabulate g.vertices g.nodup g.inDegree).get? v
    rw [OrderedMap.get?_tabulate, OrderedMap.get?_tabulate, hvertices, inDegree_congr hedges]
    exact if_congr (sort_perm h).mem_iff rfl rfl

end SortState

/-! ## The second sort -/

/-- **A sorted order is sorted.** -/
theorem sort_of_sort (hedges : g'.edges = g.edges) (hvertices : g'.vertices = order)
    (h : g.sort = .ok order) : g'.sort = .ok order := by
  have hlength : order.length = g.vertices.length := (sort_perm h).length_eq
  -- there are as many turns in both runs, so they end alike if they start alike
  have hruns : SortState.SameRun g'.sorted g.sorted := by
    rw [sorted, sorted, List.foldl_const, List.foldl_const, hvertices, hlength,
      SortState.turn_congr hedges, ← List.foldl_const, ← List.foldl_const]
    exact List.foldl_rel (SortState.sameRun_start hedges hvertices h) fun _ _ _ _ hsame => hsame.turn
  obtain ⟨hall, hsorted⟩ := sort_eq_ok_iff.mp h
  rw [sort_eq_ok_iff, hruns.order, hvertices, hlength]
  exact ⟨hall, hsorted⟩

/-- **A sorted order is layered alike**: it is sorted into itself, with the same depths. -/
theorem layers_of_layers {layers : Layers α} (hedges : g'.edges = g.edges)
    (hvertices : g'.vertices = layers.order) (h : g.layers = .ok layers) :
    g'.layers = .ok layers := by
  obtain ⟨hsort, hdepths, hmax⟩ := layers_eq_ok_iff.mp h
  refine layers_eq_ok_iff.mpr ⟨sort_of_sort hedges hvertices hsort, ?_, hmax⟩
  rw [hdepths, depthsAlong_congr hedges]

/-! ## Graphs from lists -/

/-- It does not matter in which order the names are given, nor how often. -/
theorem edges_ofLists_congr {names names' : List α} (h : ∀ v, v ∈ names' ↔ v ∈ names)
    (pairs : List (α × α)) : (ofLists names' pairs).edges = (ofLists names pairs).edges := by
  refine List.filter_congr fun e _ => ?_
  simp only [mem_distinct, h]

/-- Pairs that do not count may be left out. -/
theorem edges_ofLists_filter {names : List α} {keeps : α × α → Bool} (pairs : List (α × α))
    (h : ∀ e, e.1 ∈ names → e.2 ∈ names → keeps e = true) :
    (ofLists names (pairs.filter keeps)).edges = (ofLists names pairs).edges := by
  show (pairs.filter keeps).filter _ = pairs.filter _
  rw [List.filter_filter]
  refine List.filter_congr fun e _ => ?_
  rw [Bool.and_eq_left_iff_imp]
  intro hends
  simp only [mem_distinct, Bool.and_eq_true, decide_eq_true_eq] at hends
  exact h e hends.1 hends.2

end Digraph
end SignalBoard
