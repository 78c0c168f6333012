/-!
# Directed graphs

A graph has distinct vertices, in an order that breaks ties, and edges between them, in an order of
their own; edges may be parallel. It is made from any list of names and any list of pairs: repeated
names count once, and pairs of which an end is no vertex do not count.
-/

namespace SignalBoard

/-- The first occurrences of the members of a list. -/
def distinct {α : Type} [DecidableEq α] : List α → List α
  | [] => []
  | x :: xs => x :: (distinct xs).filter (· ≠ x)

section distinct

variable {α : Type} [DecidableEq α]

@[simp] theorem mem_distinct {x : α} {xs : List α} : x ∈ distinct xs ↔ x ∈ xs := by
  induction xs with
  | nil => simp [distinct]
  | cons y ys ih =>
    simp only [distinct, List.mem_cons, List.mem_filter, ih, decide_eq_true_eq]
    by_cases h : x = y <;> simp [h]

/-- First occurrences are distinct. -/
theorem nodup_distinct (xs : List α) : (distinct xs).Nodup := by
  induction xs with
  | nil => exact List.nodup_nil
  | cons y ys ih =>
    refine List.nodup_cons.mpr ⟨by simp, ih.sublist List.filter_sublist⟩

/-- Where nothing is repeated, nothing is left out. -/
theorem distinct_of_nodup {xs : List α} (h : xs.Nodup) : distinct xs = xs := by
  induction xs with
  | nil => rfl
  | cons x rest ih =>
    rw [List.nodup_cons] at h
    rw [distinct, ih h.2, List.filter_eq_self.mpr]
    intro y hy
    have hne : y ≠ x := fun heq => h.1 (heq ▸ hy)
    simpa using hne

end distinct

/-- A directed graph with ordered vertices and ordered, possibly parallel edges. -/
structure Digraph (α : Type) where
  vertices : List α
  edges : List (α × α)
  nodup : vertices.Nodup
  ends_mem : ∀ e ∈ edges, e.1 ∈ vertices ∧ e.2 ∈ vertices

namespace Digraph

variable {α : Type} [DecidableEq α]

/-- The graph on the given names whose edges are the given pairs with both ends among the names. -/
def ofLists (names : List α) (pairs : List (α × α)) : Digraph α where
  vertices := distinct names
  edges := pairs.filter fun e => e.1 ∈ distinct names && e.2 ∈ distinct names
  nodup := nodup_distinct names
  ends_mem := by
    intro e he
    have h := (List.mem_filter.mp he).2
    simp only [Bool.and_eq_true, decide_eq_true_eq] at h
    exact h

/-- The targets of the edges out of a vertex, in the order of the edges, each as often as there are
edges to it. -/
def successors (g : Digraph α) (v : α) : List α :=
  g.edges.filterMap fun e => if e.1 = v then some e.2 else none

/-- The sources of the edges into a vertex, in the order of the edges, each as often as there are
edges from it. -/
def predecessors (g : Digraph α) (v : α) : List α :=
  g.edges.filterMap fun e => if e.2 = v then some e.1 else none

/-- How many edges lead into a vertex. -/
def inDegree (g : Digraph α) (v : α) : Nat :=
  (g.predecessors v).length

/-- There is an edge from one vertex to another. -/
def Adjacent (g : Digraph α) (v w : α) : Prop :=
  (v, w) ∈ g.edges

end Digraph
end SignalBoard
