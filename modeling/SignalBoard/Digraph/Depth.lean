import SignalBoard.Digraph.Sort
/-!
# Depths

The depth of a vertex is the number of edges of a longest path that ends there. Going along a sorted
order, the depth of a vertex is known when its turn comes, and it makes its successors at least one
deeper.
-/

namespace SignalBoard
namespace Digraph

variable {α : Type} [DecidableEq α]

/-- Makes a vertex at least so deep. -/
def deepen (depths : OrderedMap α Nat) (v : α) (depth : Nat) : OrderedMap α Nat :=
  depths.insert v (Nat.max ((depths.get? v).getD 0) depth)

/-- The depths of the vertices of a sorted order, in that order. -/
def depthsAlong (g : Digraph α) (order : List α) : OrderedMap α Nat :=
  order.foldl
    (fun depths v =>
      -- final by now: all edges into `v` come from earlier vertices
      let depth := (depths.get? v).getD 0
      (g.successors v).foldl (fun depths w => deepen depths w (depth + 1)) depths)
    (.ofList (order.map fun v => (v, 0)))

/-- The largest of some depths, zero where there are none. -/
def maxDepth (depths : OrderedMap α Nat) : Nat :=
  depths.values.foldl Nat.max 0

/-- A sorted order with its depths. -/
structure Layers (α : Type) where
  order : List α
  /-- The depth of every vertex, in the sorted order. -/
  depths : OrderedMap α Nat
  maxDepth : Nat

/-- The sorted order with its depths, or else a loop. -/
def layers (g : Digraph α) : Except (List α) (Layers α) :=
  g.sort.map fun order =>
    let depths := g.depthsAlong order
    ⟨order, depths, maxDepth depths⟩

end Digraph
end SignalBoard
