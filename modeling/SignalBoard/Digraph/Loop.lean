import SignalBoard.Digraph.Basic
import SignalBoard.OrderedMap
/-!
# Finding a loop

The search goes depth first through some of the vertices. It keeps a stack of the vertices that it
is following up, each with the successors that have not been looked at yet, and of every vertex that
it enters along an edge the vertex from which it came, its parent. As soon as a successor is on the
stack already, the way from there along the parents is a loop.
-/

namespace SignalBoard
namespace Digraph

variable {α : Type} [DecidableEq α]

/-- How far the search has come. -/
structure LoopSearch (α : Type) where
  /-- The vertices from which the search may still start. -/
  starts : List α
  /-- The vertices that are being followed up, the last one first, with the successors that are
  still to be looked at. -/
  stack : List (α × List α)
  visited : List α
  onStack : List α
  /-- The vertex from which a vertex has been entered; none for a start. -/
  parents : OrderedMap α α

namespace LoopSearch

/-- Before the first step of a search among the vertices that pass a test. -/
def start (g : Digraph α) (within : α → Bool) : LoopSearch α :=
  ⟨g.vertices.filter within, [], [], [], .empty⟩

/-- Begins to follow up a vertex. -/
def enter (g : Digraph α) (s : LoopSearch α) (v : α) : LoopSearch α :=
  { s with
    stack := (v, g.successors v) :: s.stack
    visited := v :: s.visited
    onStack := v :: s.onStack }

/-- The vertices from a vertex up along the parents to `top`, in at most so many steps. The walk
ends early at a vertex without a parent. -/
def climb (parents : OrderedMap α α) (top : α) : Nat → α → List α
  | 0, v => [v]
  | n + 1, v =>
    if v = top then [v]
    else
      match parents.get? v with
      | some up => v :: climb parents top n up
      | none => [v]

/-- The walk from `v` up to `top`. No vertex comes twice on it. -/
def walk (s : LoopSearch α) (v top : α) : List α :=
  climb s.parents top s.visited.length v

/-- The loop that an edge from `v` to `top` closes. -/
def closeLoop (s : LoopSearch α) (v top : α) : List α :=
  (s.walk v top).reverse ++ [top]

/-- One step of the search among the vertices that pass a test: the loop that it closes, or how far
it has come. -/
def next (g : Digraph α) (within : α → Bool) (s : LoopSearch α) : Except (List α) (LoopSearch α) :=
  match s.stack with
  | [] =>
    match s.starts with
    | [] => .ok s
    | v :: rest =>
      -- the start may have been visited on the way from an earlier one
      let s := { s with starts := rest }
      .ok (if v ∈ s.visited then s else s.enter g v)
  -- all that `v` leads to has been seen without a loop
  | (v, []) :: below => .ok { s with stack := below, onStack := s.onStack.filter (· ≠ v) }
  | (v, w :: more) :: below =>
    let s := { s with stack := (v, more) :: below }
    if !within w then .ok s
    -- the stack is looked at first, since what is on it has been visited as well
    else if w ∈ s.onStack then .error (s.closeLoop v w)
    else if w ∈ s.visited then .ok s
    else .ok ({ s with parents := s.parents.insert w v }.enter g w)

/-- At most so many steps of the search. Without a loop the result is empty. -/
def run (g : Digraph α) (within : α → Bool) : Nat → LoopSearch α → List α
  | 0, _ => []
  | n + 1, s =>
    match s.next g within with
    | .error loop => loop
    | .ok s => run g within n s

end LoopSearch

/-- A loop among the vertices that pass a test: it begins and ends with the same vertex. Every step
starts at a vertex, goes back from one or looks at an edge, and none of this happens twice. -/
def findLoop (g : Digraph α) (within : α → Bool) : List α :=
  LoopSearch.run g within (2 * g.vertices.length + g.edges.length) (.start g within)

end Digraph
end SignalBoard
