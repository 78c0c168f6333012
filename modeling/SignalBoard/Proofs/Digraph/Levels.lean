import SignalBoard.Proofs.Digraph.Depth

/-!
# The sort goes level by level

```lean
theorem layers_levels (h : (ofLists names pairs).layers = .ok layers) :
    layers.depths.keys = layers.order ∧ layers.depths.values.Pairwise (· ≤ ·) ∧
      (names ≠ [] → ∀ depth, depth ∈ layers.depths.values ↔ depth ≤ layers.maxDepth) ∧ …
```

This does not hold of every order in which the edges lead forward. It comes from the queue being
first in, first out, and is shown for the lengths of longest ways (`height`), however they are
found.

* Between turns the vertices that have entered the queue are in the order of their heights, and what
  is in the queue spans two neighbouring heights at most (`Leveled`).
* In the turn of `v` a vertex that enters the queue is one higher than `v` (`Turning.height_eq`):
  all its predecessors are in the order by then, a highest one among them is one lower than the
  vertex itself, and none is higher than `v`, the last of the order.

What has entered the queue stays in its place (`entered_turn`), so that the vertices from which the
sort sets out make up the front of the result.
-/

namespace SignalBoard
namespace Digraph

variable {α : Type}

/-! ## Longest ways -/

/-- A way of some length comes in by one of its end's predecessors. -/
theorem exists_of_succ_mem_lengthsTo {R : α → α → Prop} {v : α} {n : Nat}
    (h : n + 1 ∈ lengthsTo R v) : ∃ u, R u v ∧ n ∈ lengthsTo R u := by
  obtain ⟨way, ⟨hsteps, hlast⟩, hlength⟩ := h
  obtain ⟨front, rfl⟩ := List.getLast?_eq_some_iff.mp hlast
  rw [List.isChain_append] at hsteps
  obtain ⟨hfront, -, hjoin⟩ := hsteps
  rw [List.length_append, List.length_singleton] at hlength
  -- a way of positive length has a vertex before its end, and this is the predecessor
  have hne : front ≠ [] := by
    rintro rfl
    simp at hlength
  have hu : front.getLast? = some (front.getLast hne) := List.getLast?_eq_some_getLast hne
  exact ⟨front.getLast hne, hjoin _ hu v rfl, front, ⟨hfront, hu⟩, by omega⟩

section height

variable {g : Digraph α} {height : α → Nat}
  (hheight : ∀ v ∈ g.vertices, IsGreatest (lengthsTo g.Adjacent v) (height v))

include hheight

theorem height_lt {u v : α} (huv : g.Adjacent u v) : height u < height v :=
  (hheight v huv.right_mem).2 (succ_mem_lengthsTo (hheight u huv.left_mem).1 huv)

/-- Of the predecessors of a vertex that has some, a highest one is one lower than the vertex. -/
theorem exists_adjacent_height {v : α} {n : Nat} (hv : v ∈ g.vertices) (hn : height v = n + 1) :
    ∃ u, g.Adjacent u v ∧ height u = n := by
  obtain ⟨u, huv, hlength⟩ := exists_of_succ_mem_lengthsTo (hn ▸ (hheight v hv).1)
  have hge := (hheight u huv.left_mem).2 hlength
  have hlt := height_lt hheight huv
  exact ⟨u, huv, by omega⟩

/-- At the bottom are the vertices that no edge leads into. -/
theorem height_eq_zero_iff {v : α} (hv : v ∈ g.vertices) :
    height v = 0 ↔ ∀ u, ¬ g.Adjacent u v := by
  constructor
  · intro hzero u huv
    have hlt := height_lt hheight huv
    omega
  · intro hnone
    by_contra hne
    obtain ⟨n, hn⟩ := Nat.exists_eq_succ_of_ne_zero hne
    obtain ⟨u, huv, -⟩ := exists_adjacent_height hheight hv hn
    exact hnone u huv

end height

namespace SortState

/-! ## Levels -/

/-- The vertices that have entered the queue so far, the first one first. -/
def entered (s : SortState α) : List α :=
  s.order ++ s.queue

variable {height : α → Nat}

/-- Between turns: what has entered the queue is in the order of its heights, and the queue spans
two heights at most. -/
structure Leveled (height : α → Nat) (s : SortState α) : Prop where
  sorted : s.entered.Pairwise fun u v => height u ≤ height v
  span : ∀ u ∈ s.queue, ∀ w ∈ s.queue, height w ≤ height u + 1

/-- In the turn of `v`: nothing in the queue is more than one higher than `v`. -/
structure Turning (height : α → Nat) (v : α) (s : SortState α) : Prop where
  sorted : s.entered.Pairwise fun u v => height u ≤ height v
  last : s.order.getLast? = some v
  near : ∀ w ∈ s.queue, height w ≤ height v + 1

/-- What has come out of the queue before `v` is no higher than `v`. -/
theorem Turning.le_of_mem_order {v u : α} {s : SortState α} (h : Turning height v s)
    (hu : u ∈ s.order) : height u ≤ height v := by
  obtain ⟨before, hbefore⟩ := List.getLast?_eq_some_iff.mp h.last
  have horder := h.sorted.sublist (List.sublist_append_left s.order s.queue)
  rw [hbefore, List.pairwise_append] at horder
  rw [hbefore, List.mem_append, List.mem_singleton] at hu
  rcases hu with hu | rfl
  · exact horder.2.2 u hu v (List.mem_singleton_self v)
  · exact le_rfl

/-- What is still in the queue is no lower than `v`. -/
theorem Turning.le_of_mem_queue {v u : α} {s : SortState α} (h : Turning height v s)
    (hu : u ∈ s.queue) : height v ≤ height u :=
  (List.pairwise_append.mp h.sorted).2.2 v (List.mem_of_getLast? h.last) u hu

/-- What enters the queue in the turn of `v` is one higher than `v`. -/
theorem Turning.height_eq {g : Digraph α}
    (hheight : ∀ v ∈ g.vertices, IsGreatest (lengthsTo g.Adjacent v) (height v)) {v w : α}
    {s : SortState α} (h : Turning height v s) (hvw : g.Adjacent v w)
    (hpredecessors : ∀ u, g.Adjacent u w → u ∈ s.order) : height w = height v + 1 := by
  -- higher than `v` by the edge, and one of its predecessors, all of which are at most as high as
  -- `v`, is just one lower
  have hlt := height_lt hheight hvw
  obtain ⟨n, hn⟩ := Nat.exists_eq_succ_of_ne_zero (Nat.ne_of_gt (Nat.zero_lt_of_lt hlt))
  obtain ⟨u, huw, hu⟩ := exists_adjacent_height hheight hvw.right_mem hn
  have hle := h.le_of_mem_order (hpredecessors u huw)
  omega

/-- The turn of `v` is over. -/
theorem Turning.leveled {v : α} {s : SortState α} (h : Turning height v s) :
    Leveled height s := by
  refine ⟨h.sorted, fun u hu w hw => ?_⟩
  have hnear := h.near w hw
  have hle := h.le_of_mem_queue hu
  omega

/-- The turn of the first vertex of the queue begins. -/
theorem Leveled.pop {s : SortState α} (h : Leveled height s) {v : α} {rest : List α}
    (hqueue : s.queue = v :: rest) :
    Turning height v { s with order := s.order ++ [v], queue := rest } := by
  refine ⟨?_, List.getLast?_concat, fun w hw => ?_⟩
  · simpa [entered, hqueue] using h.sorted
  · exact h.span v (by rw [hqueue]; exact List.mem_cons_self) w
      (by rw [hqueue]; exact List.mem_cons_of_mem _ hw)

end SortState

variable [DecidableEq α] {g : Digraph α}

/-- A counter starts at zero where no edge leads in. -/
theorem inDegree_eq_zero_iff {v : α} : g.inDegree v = 0 ↔ ∀ u, ¬ g.Adjacent u v := by
  rw [← pending_nil, pending_eq_zero]
  simp

namespace SortState

variable {height : α → Nat}

/-! ## What has entered the queue -/

/-- A release puts its vertex at the end of what has entered, or nothing. -/
theorem entered_release (s : SortState α) (w : α) : s.entered <+: (s.release w).entered := by
  rw [SortState.release]
  dsimp only
  split
  · rw [entered, entered, ← List.append_assoc]
    exact List.prefix_append _ _
  · exact List.prefix_rfl

theorem entered_foldl_release (released : List α) (s : SortState α) :
    s.entered <+: (released.foldl SortState.release s).entered := by
  induction released generalizing s with
  | nil => exact List.prefix_rfl
  | cons w released ih => exact (entered_release s w).trans (ih (s.release w))

/-- What has entered the queue keeps its place. -/
theorem entered_turn (g : Digraph α) (s : SortState α) : s.entered <+: (s.turn g).entered := by
  cases hqueue : s.queue with
  | nil =>
    rw [SortState.turn, hqueue]
  | cons v rest =>
    have hpopped : s.entered = entered { s with order := s.order ++ [v], queue := rest } := by
      simp [entered, hqueue]
    rw [turn_of_queue hqueue, hpopped]
    exact entered_foldl_release _ _

/-- What holds at the start and is kept by turns holds at the end. -/
theorem sorted_induction {P : SortState α → Prop} (start : P (.start g))
    (turn : ∀ s, Releasing g [] s → P s → P (s.turn g)) : P g.sorted := by
  -- by induction on the turns; the invariant of the counters goes along, since a turn is only
  -- understood with it
  have hrun : ∀ (turns : List α) (s : SortState α), Releasing g [] s → P s →
      P (turns.foldl (fun s _ => s.turn g) s) := by
    intro turns
    induction turns with
    | nil => exact fun _ _ hs => hs
    | cons _ turns ih => exact fun s hreleasing hs => ih _ hreleasing.turn.1 (turn s hreleasing hs)
  exact hrun g.vertices _ (releasing_start g) start

/-- **The sort sets out from the vertices that no edge leads into**, in the order of the vertices,
and they stay in front. -/
theorem start_prefix_sorted (g : Digraph α) : (start g).queue <+: g.sorted.order := by
  have hentered : (start g).entered <+: g.sorted.entered :=
    sorted_induction (P := fun s => (start g).entered <+: s.entered) List.prefix_rfl
      fun s _ hs => hs.trans (entered_turn g s)
  rwa [entered, entered, (sorted_releasing g).2, List.append_nil] at hentered

/-! ## Heights along a run -/

section height

variable (hheight : ∀ v ∈ g.vertices, IsGreatest (lengthsTo g.Adjacent v) (height v))

include hheight

/-- A run starts with vertices at the bottom alone. -/
theorem leveled_start : Leveled height (.start g) := by
  have hzero : ∀ v ∈ (start g).queue, height v = 0 := by
    intro v hv
    obtain ⟨hmem, hdegree⟩ := List.mem_filter.mp hv
    rw [height_eq_zero_iff hheight hmem, ← inDegree_eq_zero_iff]
    exact of_decide_eq_true hdegree
  refine ⟨List.pairwise_of_forall_mem_list fun u hu v _ => ?_, fun u _ w hw => ?_⟩
  · rw [hzero u hu]
    exact Nat.zero_le _
  · rw [hzero w hw]
    exact Nat.zero_le _

/-- A release keeps the queue in order: a vertex that enters it is one higher than `v`, and nothing
before it is higher than that. -/
theorem Turning.release {v w : α} {todo : List α} {s : SortState α} (h : Turning height v s)
    (hreleasing : Releasing g (w :: todo) s) (hvw : g.Adjacent v w) :
    Turning height v (s.release w) := by
  have hcount : s.inDegree.get? w = some (g.pending s.order w + todo.count w + 1) := by
    rw [hreleasing.count w hvw.right_mem, List.count_cons_self, Nat.add_assoc]
  rw [SortState.release, hcount, Option.getD_some, Nat.add_sub_cancel]
  by_cases hleft : g.pending s.order w + todo.count w = 0
  · -- nothing is pending for `w`, so that all its predecessors are in the order
    have hw : height w = height v + 1 :=
      h.height_eq hheight hvw (pending_eq_zero.mp (Nat.eq_zero_of_add_eq_zero_right hleft))
    simp only [if_pos hleft]
    refine ⟨?_, h.last, fun u hu => ?_⟩
    · show (s.order ++ (s.queue ++ [w])).Pairwise _
      rw [← List.append_assoc, List.pairwise_append]
      refine ⟨h.sorted, List.pairwise_singleton _ _, fun u hu x hx => ?_⟩
      rw [List.mem_singleton.mp hx, hw]
      rcases List.mem_append.mp hu with horder | hqueue
      · exact (h.le_of_mem_order horder).trans (Nat.le_succ _)
      · exact h.near u hqueue
    · rcases List.mem_append.mp hu with hqueue | hself
      · exact h.near u hqueue
      · rw [List.mem_singleton.mp hself, hw]
  · simp only [if_neg hleft]
    exact ⟨h.sorted, h.last, h.near⟩

theorem Turning.foldl_release {v : α} {released : List α} {s : SortState α}
    (h : Turning height v s) (hreleasing : Releasing g released s)
    (hadjacent : ∀ w ∈ released, g.Adjacent v w) :
    Turning height v (released.foldl SortState.release s) := by
  induction released generalizing s with
  | nil => exact h
  | cons w released ih =>
    have hvw := hadjacent w List.mem_cons_self
    exact ih (h.release hheight hreleasing hvw) (hreleasing.release hvw.right_mem)
      fun u hu => hadjacent u (List.mem_cons_of_mem _ hu)

/-- A turn keeps what has entered in the order of its heights. -/
theorem Leveled.turn {s : SortState α} (h : Leveled height s) (hreleasing : Releasing g [] s) :
    Leveled height (s.turn g) := by
  -- a turn with an empty queue does nothing
  cases hqueue : s.queue with
  | nil => rwa [SortState.turn, hqueue]
  | cons v rest =>
    rw [turn_of_queue hqueue]
    exact ((h.pop hqueue).foldl_release hheight (hreleasing.pop hqueue)
      fun _ => mem_successors.mp).leveled

/-- At the end of the run everything is in the order of its heights. -/
theorem leveled_sorted : Leveled height g.sorted :=
  sorted_induction (leveled_start hheight) fun _ hreleasing h => h.turn hheight hreleasing

end height

end SortState

/-! ## The result -/

variable {order : List α}

/-- The heights do not fall along the sorted order. -/
theorem sort_pairwise_height {height : α → Nat} (h : g.sort = .ok order)
    (hheight : ∀ v ∈ g.vertices, IsGreatest (lengthsTo g.Adjacent v) (height v)) :
    order.Pairwise fun u v => height u ≤ height v := by
  obtain ⟨-, rfl⟩ := sort_eq_ok_iff.mp h
  have hsorted := (SortState.leveled_sorted hheight).sorted
  rwa [SortState.entered, (sorted_releasing g).2, List.append_nil] at hsorted

/-- The vertices that no edge leads into come first, in the order of the vertices, and all others
after them. -/
theorem exists_sort_eq_append (h : g.sort = .ok order) :
    ∃ later, order = (g.vertices.filter fun v => g.inDegree v = 0) ++ later ∧
      ∀ v ∈ later, g.inDegree v ≠ 0 := by
  obtain ⟨-, rfl⟩ := sort_eq_ok_iff.mp h
  obtain ⟨later, hlater⟩ := SortState.start_prefix_sorted g
  refine ⟨later, hlater.symm, fun v hv hzero => ?_⟩
  -- what comes later has a predecessor, for the roots are all in front already and none comes twice
  have hn := nodup_sorted_order g
  rw [← hlater] at hn
  have hmem : v ∈ g.vertices := sorted_order_subset g (hlater ▸ List.mem_append_right _ hv)
  exact List.disjoint_of_nodup_append hn
    (List.mem_filter.mpr ⟨hmem, decide_eq_true hzero⟩) hv

/-- The depths in the order in which they are stored. -/
theorem values_eq_map_depthIn (depths : OrderedMap α Nat) :
    depths.values = depths.keys.map (depthIn depths) := by
  rw [OrderedMap.values, OrderedMap.keys, List.map_map]
  refine List.map_congr_left fun e he => ?_
  rw [Function.comp_apply, depthIn, OrderedMap.get?_eq_some_iff.mpr he, Option.getD_some]

/-- The depths of a sort are the lengths of longest ways. -/
theorem isGreatest_depthIn {layers : Layers α} (h : g.layers = .ok layers) :
    layers.depths.keys = layers.order ∧
      ∀ v ∈ g.vertices, layers.depths.get? v = some (depthIn layers.depths v) ∧
        IsGreatest (lengthsTo g.Adjacent v) (depthIn layers.depths v) := by
  obtain ⟨hsort, hdepths, -⟩ := layers_eq_ok_iff.mp h
  have hall : ∀ v ∈ g.vertices, v ∈ layers.order := fun v hv => (sort_perm hsort).mem_iff.mpr hv
  obtain ⟨hkeys, hgreatest⟩ := depthsAlong_spec (sort_forward hsort) (sort_nodup hsort) hall
  rw [← hdepths] at hkeys hgreatest
  refine ⟨hkeys, fun v hv => ?_⟩
  obtain ⟨depth, hdepth, hlongest⟩ := hgreatest v (hall v hv)
  rw [depthIn, hdepth, Option.getD_some]
  exact ⟨rfl, hlongest⟩

/-- Below every depth there is a vertex of each smaller depth. -/
theorem mem_values_of_le {layers : Layers α} (h : g.layers = .ok layers) {depth n : Nat}
    (hmem : depth ∈ layers.depths.values) (hle : n ≤ depth) : n ∈ layers.depths.values := by
  obtain ⟨hsort, -, -⟩ := layers_eq_ok_iff.mp h
  obtain ⟨hkeys, hdepthIn⟩ := isGreatest_depthIn h
  rw [values_eq_map_depthIn, hkeys] at hmem ⊢
  -- down from the depth that is there: a vertex of depth `n + 1` has a predecessor of depth `n`
  induction hle using Nat.decreasingInduction with
  | self => exact hmem
  | of_succ n _ ih =>
    obtain ⟨v, hv, hn⟩ := List.mem_map.mp ih
    obtain ⟨u, huv, hu⟩ := exists_adjacent_height (fun v hv => (hdepthIn v hv).2)
      ((sort_perm hsort).mem_iff.mp hv) hn
    exact List.mem_map.mpr ⟨u, (sort_perm hsort).mem_iff.mpr huv.left_mem, hu⟩

/-- The depths along a sorted order do not fall. -/
theorem pairwise_values {layers : Layers α} (h : g.layers = .ok layers) :
    layers.depths.values.Pairwise (· ≤ ·) := by
  obtain ⟨hsort, -, -⟩ := layers_eq_ok_iff.mp h
  obtain ⟨hkeys, hdepthIn⟩ := isGreatest_depthIn h
  rw [values_eq_map_depthIn, hkeys, List.pairwise_map]
  exact sort_pairwise_height hsort fun v hv => (hdepthIn v hv).2

/-- No depth up to the largest one is left out. -/
theorem mem_values_iff {layers : Layers α} (h : g.layers = .ok layers) (hne : g.vertices ≠ [])
    {depth : Nat} : depth ∈ layers.depths.values ↔ depth ≤ layers.maxDepth := by
  obtain ⟨hsort, -, hmax⟩ := layers_eq_ok_iff.mp h
  obtain ⟨hkeys, -⟩ := isGreatest_depthIn h
  have hsome : layers.depths.values ≠ [] := by
    rw [values_eq_map_depthIn, hkeys, Ne, List.map_eq_nil_iff]
    intro hempty
    rw [hempty] at hsort
    exact hne (sort_perm hsort).nil_eq.symm
  have hgreatest := isGreatest_maxDepth hsome
  rw [hmax]
  exact ⟨fun hdepth => hgreatest.2 hdepth, fun hle => mem_values_of_le h hgreatest.1 hle⟩

/-- The vertices that no edge leads into are those of depth zero. -/
theorem get?_depths_eq_zero_iff {layers : Layers α} (h : g.layers = .ok layers) {v : α}
    (hv : v ∈ g.vertices) : layers.depths.get? v = some 0 ↔ ∀ u, ¬ g.Adjacent u v := by
  obtain ⟨-, hdepthIn⟩ := isGreatest_depthIn h
  rw [(hdepthIn v hv).1, Option.some.injEq,
    height_eq_zero_iff (fun v hv => (hdepthIn v hv).2) hv]

/-- **The order goes level by level.** Along it the depths do not fall, and they take every value up
to the largest one. In front are the names that no pair leads into, pairs counting of which both
ends are among the names, in the order in which they are first named; the depth of all others is not
zero. -/
theorem layers_levels {names : List α} {pairs : List (α × α)} {layers : Layers α}
    (h : (ofLists names pairs).layers = .ok layers) :
    layers.depths.keys = layers.order ∧ layers.depths.values.Pairwise (· ≤ ·) ∧
      (names ≠ [] → ∀ depth, depth ∈ layers.depths.values ↔ depth ≤ layers.maxDepth) ∧
      ∃ roots later, layers.order = roots ++ later ∧
        (∀ v ∈ roots, layers.depths.get? v = some 0) ∧
        (∀ v ∈ later, layers.depths.get? v ≠ some 0) ∧
        (∀ v, v ∈ roots ↔ v ∈ names ∧ ∀ u, ¬ Joined names pairs u v) ∧
        roots.Pairwise fun u v => names.idxOf u < names.idxOf v := by
  obtain ⟨hsort, -, -⟩ := layers_eq_ok_iff.mp h
  refine ⟨(isGreatest_depthIn h).1, pairwise_values h, fun hne depth => mem_values_iff h ?_, ?_⟩
  · obtain ⟨v, hv⟩ := List.exists_mem_of_ne_nil names hne
    exact List.ne_nil_of_mem (mem_vertices_ofLists.mpr hv)
  · obtain ⟨later, horder, hlater⟩ := exists_sort_eq_append hsort
    have hroots : ∀ v, (v ∈ (ofLists names pairs).vertices.filter
        fun v => (ofLists names pairs).inDegree v = 0) ↔
          v ∈ names ∧ ∀ u, ¬ Joined names pairs u v := by
      intro v
      rw [List.mem_filter, decide_eq_true_eq, inDegree_eq_zero_iff, mem_vertices_ofLists, joined_eq]
    refine ⟨_, later, horder, fun v hv => ?_, fun v hv hdepth => ?_, hroots,
      (pairwise_idxOf_distinct names).sublist List.filter_sublist⟩
    · obtain ⟨hmem, hdegree⟩ := List.mem_filter.mp hv
      exact (get?_depths_eq_zero_iff h hmem).mpr
        (inDegree_eq_zero_iff.mp (of_decide_eq_true hdegree))
    · have hmem : v ∈ (ofLists names pairs).vertices :=
        (sort_perm hsort).mem_iff.mp (horder ▸ List.mem_append_right _ hv)
      exact hlater v hv (inDegree_eq_zero_iff.mpr ((get?_depths_eq_zero_iff h hmem).mp hdepth))

/-- Two names that nothing leads into, and a short cut past the level between: `3` is the first of
the names and the last one in the order. The pair from `9` does not count. -/
theorem layers_levels_shortcut :
    let names := [3, 4, 1, 2, 1]
    let pairs := [(1, 3), (1, 2), (9, 4), (2, 3), (2, 3), (4, 3)]
    ∃ layers, (ofLists names pairs).layers = .ok layers ∧ layers.order = [4, 1, 2, 3] ∧
      layers.depths.values = [0, 0, 1, 2] ∧ layers.depths.values.Pairwise (· ≤ ·) ∧
      (∀ depth, depth ∈ layers.depths.values ↔ depth ≤ layers.maxDepth) ∧
      ∃ roots later, layers.order = roots ++ later ∧
        (∀ v ∈ roots, layers.depths.get? v = some 0) ∧
        (∀ v ∈ later, layers.depths.get? v ≠ some 0) ∧
        (∀ v, v ∈ roots ↔ v ∈ names ∧ ∀ u, ¬ Joined names pairs u v) := by
  intro names pairs
  have hview : (ofLists names pairs).layers.map
      (fun layers => (layers.order, layers.depths.values)) = .ok ([4, 1, 2, 3], [0, 0, 1, 2]) := by
    decide +kernel
  cases h : (ofLists names pairs).layers with
  | error loop => rw [h] at hview; cases hview
  | ok layers =>
    rw [h] at hview
    obtain ⟨horder, hvalues⟩ : layers.order = [4, 1, 2, 3] ∧
        layers.depths.values = [0, 0, 1, 2] := by
      simpa [Except.map] using hview
    obtain ⟨-, hsorted, hevery, roots, later, hsplit, hroots, hlater, hmem, -⟩ := layers_levels h
    exact ⟨layers, rfl, horder, hvalues, hsorted, hevery (by decide), roots, later, hsplit, hroots,
      hlater, hmem⟩

end Digraph
end SignalBoard
