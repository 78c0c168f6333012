import SignalBoard.Digraph.Sort
import SignalBoard.Proofs.Digraph.Order
import SignalBoard.Proofs.OrderedMap

/-!
# The sort accepts exactly the acyclic graphs

```lean
theorem exists_sort_iff (g : Digraph α) : (∃ order, g.sort = .ok order) ↔ g.Acyclic
theorem sort_perm (h : g.sort = .ok order) : order.Perm g.vertices
theorem sort_forward (h : g.sort = .ok order) : g.Forward order
```

`sort_ofLists` says the same of a list of names and a list of pairs.

## The invariant

Between two releases the sort has an `order`, a `queue` and, if it is in the middle of a turn, a
rest `todo` of edges that are still to be taken away. `SortState.Releasing` says of such a state:

* the counter of a vertex is the number of edges into it from outside the order (`pending`), plus
  the number of times it is still to be released;
* order and queue together hold, once each, exactly the vertices whose counter is zero;
* the order is a forward order.

Taking a vertex out of the queue moves its edges from `pending` to `todo` (`pending_concat`), and
a release takes one of them off again (`Releasing.release`). After as many turns as there are
vertices the queue is empty (`sorted_releasing`). A vertex that is left over then has a predecessor
that is left over, which in an acyclic graph cannot be the case for all of them.
-/

namespace SignalBoard
namespace Digraph

variable {α : Type} [DecidableEq α] {g : Digraph α}

/-- How many edges lead into a vertex from outside an order. -/
def pending (g : Digraph α) (order : List α) (w : α) : Nat :=
  g.edges.countP fun e => e.2 = w ∧ e.1 ∉ order

/-- As long as the order is empty every edge is pending. -/
theorem pending_nil (w : α) : g.pending [] w = g.inDegree w := by
  rw [pending, inDegree, predecessors, List.length_filterMap_eq_countP]
  refine List.countP_congr fun e _ => ?_
  by_cases h : e.2 = w <;> simp [h]

/-- Nothing is pending for a vertex if all its predecessors are in the order. -/
theorem pending_eq_zero {order : List α} {w : α} :
    g.pending order w = 0 ↔ ∀ u, g.Adjacent u w → u ∈ order := by
  rw [pending, List.countP_eq_zero]
  constructor
  · intro h u hu
    by_contra hnot
    exact h (u, w) hu (by simpa using hnot)
  · rintro h ⟨u, v⟩ he hcontra
    simp only [decide_eq_true_eq] at hcontra
    obtain ⟨rfl, hnot⟩ := hcontra
    exact hnot (h u he)

/-- What is pending before a vertex joins the order is pending afterwards or comes from that
vertex. -/
theorem pending_concat {order : List α} {v : α} (hv : v ∉ order) (w : α) :
    g.pending order w = g.pending (order ++ [v]) w + (g.successors v).count w := by
  unfold pending successors
  -- edge by edge: only edges from `v` into `w` are counted on the left side alone
  induction g.edges with
  | nil => rfl
  | cons e es ih =>
    rw [List.countP_cons, List.countP_cons, List.filterMap_cons, ih]
    by_cases hsource : e.1 = v
    · by_cases htarget : e.2 = w
      · simp [hsource, htarget, hv]; omega
      · simp [hsource, htarget]
    · by_cases htarget : e.2 = w
      · simp [hsource, htarget]; omega
      · simp [hsource, htarget]

namespace SortState

/-- The invariant in the middle of a turn, `todo` being the targets of the edges that are still to
be taken away. -/
structure Releasing (g : Digraph α) (todo : List α) (s : SortState α) : Prop where
  nodup : (s.order ++ s.queue).Nodup
  mem_vertices : ∀ v ∈ s.order ++ s.queue, v ∈ g.vertices
  forward : g.Forward s.order
  count : ∀ v ∈ g.vertices,
    s.inDegree.get? v = some (g.pending s.order v + todo.count v)
  ready : ∀ v ∈ g.vertices, g.pending s.order v + todo.count v = 0 ↔ v ∈ s.order ++ s.queue

/-- The invariant holds at the start, where a counter is the number of edges that lead in. -/
theorem releasing_start (g : Digraph α) : Releasing g [] (.start g) where
  nodup := by simpa [start] using g.nodup.filter _
  mem_vertices v hv := by
    simp only [start, List.nil_append] at hv
    exact (List.mem_filter.mp hv).1
  forward := forward_nil
  count v hv := by simp [start, hv, pending_nil]
  ready v hv := by simp [start, hv, pending_nil]

/-- A release keeps the invariant and takes its vertex off what is to be done. -/
theorem Releasing.release {w : α} {todo : List α} {s : SortState α}
    (h : Releasing g (w :: todo) s) (hw : w ∈ g.vertices) : Releasing g todo (s.release w) := by
  -- the counter of `w` is positive, so the subtraction is exact
  have hcount : s.inDegree.get? w = some (g.pending s.order w + todo.count w + 1) := by
    rw [h.count w hw, List.count_cons_self, Nat.add_assoc]
  have hnot : w ∉ s.order ++ s.queue := by
    rw [← h.ready w hw, List.count_cons_self]
    omega
  have hdegree : ∀ v ∈ g.vertices,
      (s.inDegree.insert w (g.pending s.order w + todo.count w)).get? v
        = some (g.pending s.order v + todo.count v) := by
    intro v hv
    rw [OrderedMap.get?_insert]
    by_cases hvw : v = w
    · rw [if_pos hvw, hvw]
    · rw [if_neg hvw, h.count v hv, List.count_cons_of_ne (Ne.symm hvw)]
  -- for the other vertices nothing has changed
  have hready : ∀ v ∈ g.vertices, v ≠ w →
      (g.pending s.order v + todo.count v = 0 ↔ v ∈ s.order ++ s.queue) := by
    intro v hv hvw
    rw [← h.ready v hv, List.count_cons_of_ne (Ne.symm hvw)]
  rw [SortState.release, hcount, Option.getD_some, Nat.add_sub_cancel]
  by_cases hleft : g.pending s.order w + todo.count w = 0
  · -- the last edge into `w` has gone, so `w` enters the queue
    simp only [if_pos hleft]
    refine ⟨?_, ?_, h.forward, by simpa [hleft] using hdegree, ?_⟩
    · show (s.order ++ (s.queue ++ [w])).Nodup
      rw [← List.append_assoc, ← List.concat_eq_append]
      exact h.nodup.concat hnot
    · intro v hv
      rw [← List.append_assoc, List.mem_append, List.mem_singleton] at hv
      rcases hv with hv | rfl
      · exact h.mem_vertices v hv
      · exact hw
    · intro v hv
      rw [← List.append_assoc, List.mem_append, List.mem_singleton]
      by_cases hvw : v = w
      · simp [hvw, hleft]
      · simp only [hvw, or_false]
        exact hready v hv hvw
  · simp only [if_neg hleft]
    refine ⟨h.nodup, h.mem_vertices, h.forward, hdegree, ?_⟩
    intro v hv
    by_cases hvw : v = w
    · rw [hvw]
      exact iff_of_false hleft hnot
    · exact hready v hv hvw

/-- A release may fill the queue, but does not touch the order. -/
theorem order_release (s : SortState α) (w : α) : (s.release w).order = s.order := by
  rw [SortState.release]
  dsimp only
  split <;> rfl

theorem Releasing.foldl_release {released todo : List α} {s : SortState α}
    (h : Releasing g (released ++ todo) s) (hmem : ∀ w ∈ released, w ∈ g.vertices) :
    Releasing g todo (released.foldl SortState.release s) ∧
      (released.foldl SortState.release s).order = s.order := by
  induction released generalizing s with
  | nil => exact ⟨h, rfl⟩
  | cons w released ih =>
    have hrelease := Releasing.release h (hmem w List.mem_cons_self)
    obtain ⟨hfold, horder⟩ := ih hrelease fun v hv => hmem v (List.mem_cons_of_mem _ hv)
    exact ⟨hfold, horder.trans (order_release s w)⟩

/-- The first vertex of the queue can come next in the order. -/
theorem Releasing.pop {s : SortState α} (h : Releasing g [] s) {v : α} {rest : List α}
    (hqueue : s.queue = v :: rest) :
    Releasing g (g.successors v) { s with order := s.order ++ [v], queue := rest } := by
  have hsplit : s.order ++ v :: rest = s.order ++ [v] ++ rest := by
    rw [List.append_assoc, List.singleton_append]
  have hmem : v ∈ s.order ++ s.queue := by rw [hqueue]; simp
  have hvnot : v ∉ s.order := by
    have hn := h.nodup
    rw [hqueue] at hn
    exact fun hv => (List.disjoint_of_nodup_append hn) hv List.mem_cons_self
  -- nothing is pending for what is in the queue
  have hpreds : ∀ u, g.Adjacent u v → u ∈ s.order := by
    rw [← pending_eq_zero]
    simpa using (h.ready v (h.mem_vertices v hmem)).mpr hmem
  refine ⟨?_, ?_, h.forward.concat hpreds, ?_, ?_⟩
  · simpa only [hqueue, hsplit] using h.nodup
  · simpa only [hqueue, hsplit] using h.mem_vertices
  · intro w hw
    rw [← pending_concat hvnot]
    simpa using h.count w hw
  · intro w hw
    rw [← pending_concat hvnot, ← hsplit, ← hqueue]
    simpa using h.ready w hw

/-- A turn takes the first vertex out of the queue and releases its successors. -/
theorem turn_of_queue {s : SortState α} {v : α} {rest : List α} (hqueue : s.queue = v :: rest) :
    s.turn g = (g.successors v).foldl SortState.release
      { s with order := s.order ++ [v], queue := rest } := by
  rw [SortState.turn, hqueue]

/-- A turn keeps the invariant, and unless the queue is empty the order grows by one. -/
theorem Releasing.turn {s : SortState α} (h : Releasing g [] s) :
    Releasing g [] (s.turn g) ∧
      (s.queue = [] ∧ s.turn g = s ∨ (s.turn g).order.length = s.order.length + 1) := by
  -- without a vertex in the queue a turn does nothing; else the vertex moves to the order and its
  -- edges are taken away one by one
  cases hqueue : s.queue with
  | nil =>
    have hturn : s.turn g = s := by rw [SortState.turn, hqueue]
    rw [hturn]
    exact ⟨h, .inl ⟨rfl, rfl⟩⟩
  | cons v rest =>
    have hpopped := h.pop hqueue
    rw [← List.append_nil (g.successors v)] at hpopped
    obtain ⟨hfold, horder⟩ :=
      hpopped.foldl_release fun w hw => (mem_successors.mp hw).right_mem
    rw [turn_of_queue hqueue]
    exact ⟨hfold, .inr (by rw [horder]; simp)⟩

/-- No more vertices are in the order and the queue than there are. -/
theorem Releasing.length_le {todo : List α} {s : SortState α} (h : Releasing g todo s) :
    s.order.length + s.queue.length ≤ g.vertices.length := by
  rw [← List.length_append]
  exact (List.subperm_of_subset h.nodup h.mem_vertices).length_le

/-- Enough turns empty the queue. -/
theorem Releasing.foldl_turn {s : SortState α} (h : Releasing g [] s) (turns : List α)
    (hturns : s.queue = [] ∨ g.vertices.length ≤ s.order.length + turns.length) :
    Releasing g [] (turns.foldl (fun s _ => s.turn g) s) ∧
      (turns.foldl (fun s _ => s.turn g) s).queue = [] := by
  -- by induction on the turns: a turn brings one more vertex into the order, or the queue is empty
  -- and stays so
  induction turns generalizing s with
  | nil =>
    refine ⟨h, hturns.elim id fun hle => ?_⟩
    -- by now the order holds all vertices, which leaves no room in the queue
    have hroom := h.length_le
    rw [List.length_nil, Nat.add_zero] at hle
    have hnone : s.queue.length = 0 := by omega
    exact List.length_eq_zero_iff.mp hnone
  | cons _ turns ih =>
    obtain ⟨hturn, hprogress⟩ := h.turn
    refine ih hturn ?_
    show (s.turn g).queue = [] ∨ g.vertices.length ≤ (s.turn g).order.length + turns.length
    rcases hprogress with ⟨hqueue, heq⟩ | hlength
    · rw [heq]
      exact .inl hqueue
    · rcases hturns with hqueue | hle
      · left
        rw [SortState.turn, hqueue]
        exact hqueue
      · right
        rw [List.length_cons] at hle
        omega

/-- The invariant holds between any two turns. -/
theorem releasing_iterate (g : Digraph α) (turns : Nat) :
    Releasing g [] ((SortState.turn g)^[turns] (.start g)) := by
  induction turns with
  | zero => exact releasing_start g
  | succ n ih =>
    rw [Function.iterate_succ_apply']
    exact ih.turn.1

/-- **No counter is taken below zero.** Whatever the number of turns so far, when the first vertex
of the queue has been taken out and some of the edges out of it have been taken away, the counter of
the next edge's target is positive. -/
theorem exists_inDegree_succ (g : Digraph α) {turns : Nat} {v : α} {rest : List α}
    (hqueue : ((SortState.turn g)^[turns] (.start g)).queue = v :: rest)
    {released : List α} {w : α} {more : List α} (hsplit : g.successors v = released ++ w :: more) :
    let s := (SortState.turn g)^[turns] (.start g)
    let s := { s with order := s.order ++ [v], queue := rest }
    ∃ left, (released.foldl SortState.release s).inDegree.get? w = some (left + 1) := by
  -- the invariant in the middle of the turn counts the edge that is to be taken away next
  have hpopped := (releasing_iterate g turns).pop hqueue
  rw [hsplit] at hpopped
  have hmem : ∀ u ∈ released ++ w :: more, u ∈ g.vertices := by
    intro u hu
    rw [← hsplit] at hu
    exact (mem_successors.mp hu).right_mem
  obtain ⟨hreleasing, -⟩ := hpopped.foldl_release fun u hu => hmem u (List.mem_append_left _ hu)
  have hcount := hreleasing.count w (hmem w (by simp))
  rw [List.count_cons_self, ← Nat.add_assoc] at hcount
  exact ⟨_, hcount⟩

end SortState

/-! ## The result of the sort -/

/-- After as many turns as there are vertices the invariant holds and the queue is empty. -/
theorem sorted_releasing (g : Digraph α) : g.sorted.Releasing g [] ∧ g.sorted.queue = [] :=
  (SortState.releasing_start g).foldl_turn g.vertices (.inr (Nat.le_add_left _ _))

/-- A vertex is in the sorted order exactly if no edge leads into it from outside the order. -/
theorem mem_sorted_order {v : α} (hv : v ∈ g.vertices) :
    v ∈ g.sorted.order ↔ ∀ u, g.Adjacent u v → u ∈ g.sorted.order := by
  obtain ⟨hsorted, hqueue⟩ := sorted_releasing g
  rw [← pending_eq_zero]
  simpa [hqueue] using (hsorted.ready v hv).symm

theorem nodup_sorted_order (g : Digraph α) : g.sorted.order.Nodup := by
  obtain ⟨hsorted, hqueue⟩ := sorted_releasing g
  simpa [hqueue] using hsorted.nodup

theorem sorted_order_subset (g : Digraph α) : g.sorted.order ⊆ g.vertices := by
  intro v hv
  exact (sorted_releasing g).1.mem_vertices v (List.mem_append_left _ hv)

/-- The sort succeeds if no vertex is left, and then gives the vertices as they have been taken. -/
theorem sort_eq_ok_iff {order : List α} :
    g.sort = .ok order ↔ g.vertices.length ≤ g.sorted.order.length ∧ order = g.sorted.order := by
  simp only [sort]
  split
  · next hlt =>
    simp only [reduceCtorEq, false_iff, not_and]
    omega
  · next hge =>
    simp only [Except.ok.injEq]
    exact ⟨fun h => ⟨by omega, h.symm⟩, fun h => h.2.symm⟩

/-- The order holds every vertex once and nothing else. -/
theorem sort_perm {order : List α} (h : g.sort = .ok order) : order.Perm g.vertices := by
  obtain ⟨hlength, rfl⟩ := sort_eq_ok_iff.mp h
  exact (List.subperm_of_subset (nodup_sorted_order g) (sorted_order_subset g)).perm_of_length_le
    hlength

theorem sort_nodup {order : List α} (h : g.sort = .ok order) : order.Nodup := by
  obtain ⟨-, rfl⟩ := sort_eq_ok_iff.mp h
  exact nodup_sorted_order g

/-- Every edge leads forward in the order. -/
theorem sort_forward {order : List α} (h : g.sort = .ok order) : g.Forward order := by
  obtain ⟨-, rfl⟩ := sort_eq_ok_iff.mp h
  exact (sorted_releasing g).1.forward

/-- The sort succeeds exactly on acyclic graphs. -/
theorem exists_sort_iff (g : Digraph α) : (∃ order, g.sort = .ok order) ↔ g.Acyclic := by
  constructor
  · rintro ⟨order, h⟩
    exact (sort_forward h).acyclic (sort_nodup h) fun v hv => (sort_perm h).mem_iff.mpr hv
  · intro hacyclic
    -- a vertex outside the order would have a predecessor outside it, and so on without end
    have hall : ∀ v ∈ g.vertices, v ∈ g.sorted.order := by
      by_contra hleft
      push Not at hleft
      obtain ⟨v, hv, hnot, hsource⟩ := hacyclic.exists_source (P := (· ∉ g.sorted.order)) hleft
      exact hnot ((mem_sorted_order hv).mpr fun u hu => not_not.mp (hsource u hu))
    exact ⟨g.sorted.order, sort_eq_ok_iff.mpr
      ⟨(List.subperm_of_subset g.nodup hall).length_le, rfl⟩⟩

/-- There is a pair from one name to another, both of them among the names. -/
def Joined (names : List α) (pairs : List (α × α)) (u v : α) : Prop :=
  (u, v) ∈ pairs ∧ u ∈ names ∧ v ∈ names

/-- Joined names are adjacent vertices of the graph that is made of the names and the pairs. -/
theorem joined_eq {names : List α} {pairs : List (α × α)} :
    Joined names pairs = (ofLists names pairs).Adjacent := by
  funext u v
  exact propext adjacent_ofLists.symm

/-- **The sort of a list of names accepts exactly the lists of pairs without a loop.** What it finds
is every name once and nothing else, every pair between two names leading forward, and on the way to
it no counter is taken below zero. -/
theorem sort_ofLists (names : List α) (pairs : List (α × α)) :
    ((∃ order, (ofLists names pairs).sort = .ok order) ↔
        ∀ v, ¬ Relation.TransGen (Joined names pairs) v v) ∧
      (∀ order, (ofLists names pairs).sort = .ok order →
        order.Nodup ∧ (∀ v, v ∈ order ↔ v ∈ names) ∧
          ∀ u v, Joined names pairs u v →
            ∃ i j : Nat, i < j ∧ order[i]? = some u ∧ order[j]? = some v) ∧
      ∀ turns v rest, ((SortState.turn (ofLists names pairs))^[turns]
          (.start (ofLists names pairs))).queue = v :: rest →
        ∀ released w more, (ofLists names pairs).successors v = released ++ w :: more →
          let s := (SortState.turn (ofLists names pairs))^[turns] (.start (ofLists names pairs))
          let s := { s with order := s.order ++ [v], queue := rest }
          ∃ left, (released.foldl SortState.release s).inDegree.get? w = some (left + 1) := by
  rw [joined_eq]
  refine ⟨exists_sort_iff _, fun order h => ?_, ?_⟩
  · have hmem : ∀ v, v ∈ order ↔ v ∈ names := by
      intro v
      rw [(sort_perm h).mem_iff, mem_vertices_ofLists]
    refine ⟨sort_nodup h, hmem, fun u v huv => ?_⟩
    have hu : u ∈ order := (sort_perm h).mem_iff.mpr huv.left_mem
    have hv : v ∈ order := (sort_perm h).mem_iff.mpr huv.right_mem
    exact ⟨order.idxOf u, order.idxOf v, (sort_forward h).idxOf_lt (sort_nodup h) hv huv,
      List.getElem?_idxOf hu, List.getElem?_idxOf hv⟩
  · intro turns v rest hqueue released w more hsplit
    exact SortState.exists_inDegree_succ _ hqueue hsplit

instance (g : Digraph α) : Decidable g.Acyclic :=
  decidable_of_iff (g.vertices.length ≤ g.sorted.order.length) <| by
    rw [← exists_sort_iff]
    simp only [sort_eq_ok_iff, exists_and_left, exists_eq, and_true]

end Digraph
end SignalBoard
