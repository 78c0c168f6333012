import SignalBoard.Digraph.Basic
/-!
# Reachability

The vertices that can be reached from some seeds are found breadth first. A vertex is live if it can
be reached from a source and a sink can be reached from it.
-/

namespace SignalBoard
namespace Digraph

variable {α : Type} [DecidableEq α]

/-- How far a search has come: all that has been seen, and what of it has not been followed up yet.
-/
structure ReachState (α : Type) where
  seen : List α
  queue : List α

namespace ReachState

/-- Enters a vertex unless it has been seen already. -/
def visit (s : ReachState α) (v : α) : ReachState α :=
  if v ∈ s.seen then s else ⟨s.seen ++ [v], s.queue ++ [v]⟩

/-- Follows up the first vertex of the queue. -/
def turn (next : α → List α) (s : ReachState α) : ReachState α :=
  match s.queue with
  | [] => s
  | v :: rest => (next v).foldl visit { s with queue := rest }

end ReachState

/-- What can be reached from the seeds, themselves included. Every vertex has one turn at most. -/
def reach (g : Digraph α) (next : α → List α) (seeds : List α) : List α :=
  (g.vertices.foldl (fun s _ => s.turn next) (seeds.foldl ReachState.visit ⟨[], []⟩)).seen

/-- The vertices on the paths from sources to sinks, in the order of the vertices. -/
def live (g : Digraph α) (isSource isSink : α → Bool) : List α :=
  let forward := g.reach g.successors (g.vertices.filter isSource)
  let backward := g.reach g.predecessors (g.vertices.filter isSink)
  g.vertices.filter fun v => v ∈ forward && v ∈ backward

end Digraph
end SignalBoard
