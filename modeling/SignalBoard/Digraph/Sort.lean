import SignalBoard.Digraph.Loop
import SignalBoard.OrderedMap
/-!
# Sorting a graph

The vertices are put in an order in which every edge leads forward. A queue holds the vertices into
which no edge leads any more, first those without any edge into them, in the order of the vertices.
A turn takes the first one out of the queue, appends it to the order and takes away its edges. If
vertices are left in the end, there is a loop among them.
-/

namespace SignalBoard
namespace Digraph

variable {α : Type} [DecidableEq α]

/-- How far the sort has come. -/
structure SortState (α : Type) where
  order : List α
  queue : List α
  /-- How many edges still lead into each vertex. -/
  inDegree : OrderedMap α Nat

namespace SortState

/-- Before the first turn. -/
def start (g : Digraph α) : SortState α where
  order := []
  queue := g.vertices.filter fun v => g.inDegree v = 0
  inDegree := .tabulate g.vertices g.nodup g.inDegree

/-- Takes away an edge into a vertex. With its last one the vertex enters the queue. -/
def release (s : SortState α) (v : α) : SortState α :=
  -- parallel edges are taken away one by one
  let left := (s.inDegree.get? v).getD 0 - 1
  let s := { s with inDegree := s.inDegree.insert v left }
  if left = 0 then { s with queue := s.queue ++ [v] } else s

/-- One turn; nothing happens once the queue is empty. -/
def turn (g : Digraph α) (s : SortState α) : SortState α :=
  match s.queue with
  | [] => s
  | v :: rest => (g.successors v).foldl release { s with order := s.order ++ [v], queue := rest }

end SortState

/-- The state after one turn for every vertex. -/
def sorted (g : Digraph α) : SortState α :=
  g.vertices.foldl (fun s _ => s.turn g) (.start g)

/-- The vertices in an order in which every edge leads forward, or else a loop. -/
def sort (g : Digraph α) : Except (List α) (List α) :=
  let order := g.sorted.order
  -- a vertex is left over only where it is on a loop or behind one
  if order.length < g.vertices.length then .error (g.findLoop (· ∉ order)) else .ok order

end Digraph
end SignalBoard
