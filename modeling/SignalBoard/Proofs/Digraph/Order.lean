import SignalBoard.Digraph.Basic
import Mathlib.Data.Fintype.EquivFin
import Mathlib.Data.List.Nodup
import Mathlib.Logic.Relation
import Mathlib.Order.WellFounded

/-!
# Forward orders

A list of vertices is a forward order if every edge into one of its members comes from an earlier
member. This module holds what does not depend on how such an order is found.

* `Digraph.Acyclic`: no way along the edges leads from a vertex back to itself.
* `Digraph.Forward`: the property of the order, closed under appending a vertex whose predecessors
  are all there (`Forward.concat`).
* `Forward.induction`: what a vertex inherits from its predecessors holds of a whole forward order.
* `Forward.idxOf_lt`, `Forward.not_back`: edges lead to larger places, and so never back.
* `Forward.acyclic`: a graph that has a forward order of all its vertices is acyclic.
* `Acyclic.exists_source`: in an acyclic graph every nonempty set of vertices has a member without a
  predecessor in the set.
-/

namespace SignalBoard
namespace Digraph

open Relation

variable {α : Type} {g : Digraph α}

/-- No way along the edges leads from a vertex back to itself. -/
def Acyclic (g : Digraph α) : Prop :=
  ∀ v, ¬ TransGen g.Adjacent v v

/-- Every edge into a member of the order comes from a member before it. -/
def Forward (g : Digraph α) (order : List α) : Prop :=
  ∀ before v after, order = before ++ v :: after → ∀ u, g.Adjacent u v → u ∈ before

/-! ## Ends of edges -/

/-- An edge starts at a vertex of the graph. -/
theorem Adjacent.left_mem {u v : α} (h : g.Adjacent u v) : u ∈ g.vertices :=
  (g.ends_mem _ h).1

theorem Adjacent.right_mem {u v : α} (h : g.Adjacent u v) : v ∈ g.vertices :=
  (g.ends_mem _ h).2

/-- Fewer edges make no new loop. -/
theorem Acyclic.mono {h : Digraph α} (hg : g.Acyclic)
    (hsub : ∀ u v, h.Adjacent u v → g.Adjacent u v) : h.Acyclic :=
  fun v hv => hg v (TransGen.mono (fun u w => hsub u w) v v hv)

/-! ## Forward orders -/

/-- The empty order is forward, so a sort can start from it. -/
theorem forward_nil : g.Forward [] := by
  intro before v after h
  cases before <;> cases h

/-- A vertex whose predecessors are all in a forward order can come next. -/
theorem Forward.concat {order : List α} (h : g.Forward order) {v : α}
    (hv : ∀ u, g.Adjacent u v → u ∈ order) : g.Forward (order ++ [v]) := by
  intro before w after heq u hu
  rcases List.eq_nil_or_concat after with rfl | ⟨rest, last, rfl⟩
  · -- `w` is the vertex that has been appended
    obtain ⟨rfl, hw⟩ := List.append_inj' heq rfl
    rw [← List.singleton_inj.mp hw] at hu
    exact hv u hu
  · have hsplit : order ++ [v] = (before ++ w :: rest) ++ [last] := by
      rw [heq, List.concat_eq_append, List.append_assoc, List.cons_append]
    obtain ⟨rfl, -⟩ := List.append_inj' hsplit rfl
    exact h before w rest rfl u hu

/-- What is left of a forward order when vertices are left out still has every predecessor that is
left before its vertex. -/
theorem Forward.filter {order : List α} (h : g.Forward order) {p : α → Bool} {before after : List α}
    {v : α} (heq : order.filter p = before ++ v :: after) {u : α} (huv : g.Adjacent u v)
    (hu : p u = true) : u ∈ before := by
  -- the place in the filtered order comes from a place in the order itself, with what has been left
  -- out between
  obtain ⟨front, back, rfl, rfl, hback⟩ := List.filter_eq_append_iff.mp heq
  obtain ⟨skipped, rest, rfl, hskipped, -, -⟩ := List.filter_eq_cons_iff.mp hback
  have hmem : u ∈ front ++ skipped :=
    h (front ++ skipped) v rest (List.append_assoc _ _ _).symm u huv
  rcases List.mem_append.mp hmem with hfront | hskip
  · exact List.mem_filter.mpr ⟨hfront, hu⟩
  · exact absurd hu (hskipped u hskip)

/-- **Induction along a forward order.** What a member of the order has as soon as all its
predecessors have it, all members have. -/
theorem Forward.induction {order : List α} (h : g.Forward order) {P : α → Prop}
    (step : ∀ v ∈ order, (∀ u ∈ order, g.Adjacent u v → P u) → P v) : ∀ v ∈ order, P v := by
  -- by induction on the part of the order that has been gone through
  have prefixes : ∀ before after, order = before ++ after → ∀ v ∈ before, P v := by
    intro before
    induction before using List.reverseRecOn with
    | nil => intro _ _ v hv; cases hv
    | append_singleton before w ih =>
      intro after heq v hv
      have hsplit : order = before ++ w :: after := by
        rw [heq, List.append_assoc, List.singleton_append]
      rcases List.mem_append.mp hv with hv | hv
      · exact ih _ hsplit v hv
      · rw [List.mem_singleton.mp hv]
        refine step w (by rw [hsplit]; simp) fun u _ hu => ?_
        exact ih _ hsplit u (h before w after hsplit u hu)
  exact prefixes order [] (by rw [List.append_nil])

/-! ## Places in a forward order -/

variable [DecidableEq α]

/-- In a forward order without repetitions an edge leads from a smaller place to a larger one. -/
theorem Forward.idxOf_lt {order : List α} (h : g.Forward order) (hn : order.Nodup) {u v : α}
    (hv : v ∈ order) (huv : g.Adjacent u v) : order.idxOf u < order.idxOf v := by
  obtain ⟨before, after, heq⟩ := List.append_of_mem hv
  have hu : u ∈ before := h before v after heq u huv
  have hv' : v ∉ before := by
    rw [heq] at hn
    exact fun hmem => (List.disjoint_of_nodup_append hn) hmem List.mem_cons_self
  -- the predecessor stands in the part before the vertex, the vertex does not
  rw [heq, List.idxOf_append_of_mem hu, List.idxOf_append_of_notMem hv']
  have := List.idxOf_lt_length_of_mem hu
  omega

/-- What comes up to a member of a list without repetitions has no larger place than the member. -/
theorem idxOf_le_of_mem {order before after : List α} {u v : α} (hn : order.Nodup)
    (horder : order = before ++ v :: after) (hu : u ∈ before ++ [v]) :
    order.idxOf u ≤ order.idxOf v := by
  have hv : v ∉ before := by
    rw [horder] at hn
    exact fun hmem => List.disjoint_of_nodup_append hn hmem List.mem_cons_self
  rcases List.mem_append.mp hu with hbefore | hself
  · rw [horder, List.idxOf_append_of_mem hbefore, List.idxOf_append_of_notMem hv]
    exact (List.idxOf_lt_length_of_mem hbefore).le.trans (Nat.le_add_right _ _)
  · rw [List.mem_singleton.mp hself]

/-- No edge leads from a member of a forward order to itself or to what comes before it. -/
theorem Forward.not_back {order before after : List α} (h : g.Forward order) (hn : order.Nodup)
    {u v : α} (horder : order = before ++ v :: after) (hu : u ∈ before ++ [v]) :
    ¬ g.Adjacent v u := by
  intro hvu
  have hmem : u ∈ order := by
    rw [horder, ← List.singleton_append, ← List.append_assoc]
    exact List.mem_append_left _ hu
  exact (h.idxOf_lt hn hmem hvu).not_ge (idxOf_le_of_mem hn horder hu)

/-- A graph with a forward order of all its vertices is acyclic. -/
theorem Forward.acyclic {order : List α} (h : g.Forward order) (hn : order.Nodup)
    (hall : ∀ v ∈ g.vertices, v ∈ order) : g.Acyclic := by
  intro v hv
  -- along a way the places grow, so no way comes back to its first vertex
  have hlt : ∀ w, TransGen g.Adjacent v w → order.idxOf v < order.idxOf w := by
    intro w hw
    induction hw with
    | single hvw => exact h.idxOf_lt hn (hall _ hvw.right_mem) hvw
    | tail _ huw ih => exact ih.trans (h.idxOf_lt hn (hall _ huw.right_mem) huw)
  exact absurd (hlt v hv) (lt_irrefl _)

/-- In an acyclic graph every nonempty set of vertices has a member that no other member leads
into. -/
theorem Acyclic.exists_source (h : g.Acyclic) {P : α → Prop} (hne : ∃ v ∈ g.vertices, P v) :
    ∃ v ∈ g.vertices, P v ∧ ∀ u, g.Adjacent u v → ¬ P u := by
  let below : {v // v ∈ g.vertices} → {v // v ∈ g.vertices} → Prop :=
    fun u v => TransGen g.Adjacent u v
  have : IsTrans _ below := ⟨fun _ _ _ huv hvw => TransGen.trans huv hvw⟩
  have : Std.Irrefl below := ⟨fun v hv => h v hv⟩
  -- the vertices are finitely many, so there is no way backwards without end
  have hwf : WellFounded below := Finite.wellFounded_of_trans_of_irrefl below
  obtain ⟨v₀, hv₀, hP₀⟩ := hne
  obtain ⟨⟨v, hv⟩, hP, hmin⟩ := hwf.has_min {v | P v} ⟨⟨v₀, hv₀⟩, hP₀⟩
  exact ⟨v, hv, hP, fun u hu hPu => hmin ⟨u, hu.left_mem⟩ hPu (TransGen.single hu)⟩

/-! ## Successors and predecessors -/

/-- The successors of a vertex are where its edges lead. -/
theorem mem_successors {u v : α} : v ∈ g.successors u ↔ g.Adjacent u v := by
  simp only [successors, List.mem_filterMap, Option.ite_none_right_eq_some, Option.some.injEq,
    Adjacent, Prod.exists]
  constructor
  · rintro ⟨a, b, he, rfl, rfl⟩
    exact he
  · intro he
    exact ⟨u, v, he, rfl, rfl⟩

/-- The predecessors of a vertex are where the edges into it come from. -/
theorem mem_predecessors {u v : α} : u ∈ g.predecessors v ↔ g.Adjacent u v := by
  simp only [predecessors, List.mem_filterMap, Option.ite_none_right_eq_some, Option.some.injEq,
    Adjacent, Prod.exists]
  constructor
  · rintro ⟨a, b, he, rfl, rfl⟩
    exact he
  · intro he
    exact ⟨u, v, he, rfl, rfl⟩

/-! ## Graphs from lists -/

/-- Distinct members come in the order of their first occurrences. -/
theorem pairwise_idxOf_distinct (xs : List α) :
    (distinct xs).Pairwise fun x y => xs.idxOf x < xs.idxOf y := by
  induction xs with
  | nil => exact .nil
  | cons x xs ih =>
    -- a member other than the first moves one place back in the list with the first put before it
    have hother : ∀ y ∈ (distinct xs).filter (· ≠ x), (x :: xs).idxOf y = xs.idxOf y + 1 := by
      intro y hy
      have hne : y ≠ x := by simpa using (List.mem_filter.mp hy).2
      exact List.idxOf_cons_ne xs (Ne.symm hne)
    rw [distinct, List.pairwise_cons]
    refine ⟨fun y hy => ?_, ?_⟩
    · rw [List.idxOf_cons_self, hother y hy]
      exact Nat.succ_pos _
    · refine (ih.sublist List.filter_sublist).imp_of_mem fun {y z} hy hz hlt => ?_
      rw [hother y hy, hother z hz]
      exact Nat.succ_lt_succ hlt

/-- Leaving out repetitions makes nothing longer. -/
theorem length_distinct_le (xs : List α) : (distinct xs).length ≤ xs.length :=
  (List.subperm_of_subset (nodup_distinct xs) fun _ hx => mem_distinct.mp hx).length_le

/-- The vertices are the names that are given, each once. -/
@[simp] theorem mem_vertices_ofLists {names : List α} {pairs : List (α × α)} {v : α} :
    v ∈ (ofLists names pairs).vertices ↔ v ∈ names := by
  simp [ofLists]

/-- Of the pairs that are given those count as edges whose ends are both given as names. -/
theorem adjacent_ofLists {names : List α} {pairs : List (α × α)} {u v : α} :
    (ofLists names pairs).Adjacent u v ↔ (u, v) ∈ pairs ∧ u ∈ names ∧ v ∈ names := by
  simp [Adjacent, ofLists]

end Digraph
end SignalBoard
