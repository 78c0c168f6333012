import SignalBoard.Digraph.Reach
import SignalBoard.Proofs.Digraph.Order
import Mathlib.Data.List.Lemmas

/-!
# What a search finds

The breadth-first search finds exactly what can be reached from its seeds, and a vertex is live
exactly if it lies on a way from a source to a sink:

```lean
theorem mem_live :
    v ∈ g.live isSource isSink ↔ v ∈ g.vertices ∧
      (∃ s ∈ g.vertices, isSource s ∧ ReflTransGen g.Adjacent s v) ∧
      (∃ t ∈ g.vertices, isSink t ∧ ReflTransGen g.Adjacent v t)
```

What has been seen is always what has been followed up, then the queue (`Searched`). A turn follows
up one more vertex, and no vertex is seen twice, so after as many turns as there are vertices the
queue is empty and everything seen has been followed up (`over_iterate`). Loops do not matter.
-/

namespace SignalBoard
namespace Digraph

open Relation

variable {α : Type} [DecidableEq α] {g : Digraph α} {next : α → List α} {seeds : List α}

namespace ReachState

/-- The invariant of a search of which `done` has been followed up. -/
structure Searched (g : Digraph α) (next : α → List α) (seeds done : List α)
    (s : ReachState α) : Prop where
  seen : s.seen = done ++ s.queue
  nodup : s.seen.Nodup
  subset : ∀ v ∈ s.seen, v ∈ g.vertices
  sound : ∀ v ∈ s.seen, ∃ seed ∈ seeds, ReflTransGen (fun u w => w ∈ next u) seed v

variable {done : List α} {s : ReachState α}

/-- A visit keeps the invariant, and afterwards the vertex has been seen, like all that was seen
before. -/
theorem Searched.visit (h : Searched g next seeds done s) {v : α} (hv : v ∈ g.vertices)
    (hsound : ∃ seed ∈ seeds, ReflTransGen (fun u w => w ∈ next u) seed v) :
    Searched g next seeds done (s.visit v) ∧ v ∈ (s.visit v).seen ∧
      ∀ u ∈ s.seen, u ∈ (s.visit v).seen := by
  -- a vertex that has been seen is passed over; any other one is noted as seen and queued
  by_cases hseen : v ∈ s.seen
  · rw [ReachState.visit, if_pos hseen]
    exact ⟨h, hseen, fun _ hu => hu⟩
  · rw [ReachState.visit, if_neg hseen]
    have hmem : ∀ u, u ∈ s.seen ++ [v] → u ∈ s.seen ∨ u = v := by simp
    refine ⟨⟨?_, ?_, ?_, ?_⟩, by simp, fun u hu => List.mem_append_left _ hu⟩
    · show s.seen ++ [v] = done ++ (s.queue ++ [v])
      rw [h.seen, List.append_assoc]
    · exact List.nodup_append_comm.mp (List.nodup_cons.mpr ⟨hseen, h.nodup⟩)
    · exact fun u hu => (hmem u hu).elim (h.subset u) fun heq => heq ▸ hv
    · exact fun u hu => (hmem u hu).elim (h.sound u) fun heq => heq ▸ hsound

theorem Searched.foldl_visit (vs : List α) (h : Searched g next seeds done s)
    (hvs : ∀ v ∈ vs, v ∈ g.vertices ∧
      ∃ seed ∈ seeds, ReflTransGen (fun u w => w ∈ next u) seed v) :
    Searched g next seeds done (vs.foldl ReachState.visit s) ∧
      (∀ v ∈ vs, v ∈ (vs.foldl ReachState.visit s).seen) ∧
      ∀ u ∈ s.seen, u ∈ (vs.foldl ReachState.visit s).seen := by
  induction vs generalizing s with
  | nil => exact ⟨h, fun _ hv => absurd hv List.not_mem_nil, fun _ hu => hu⟩
  | cons v rest ih =>
    obtain ⟨hv, hsound⟩ := hvs v List.mem_cons_self
    obtain ⟨hone, hvisited, hgrown⟩ := h.visit hv hsound
    obtain ⟨hall, hrest, hkept⟩ := ih hone fun u hu => hvs u (List.mem_cons_of_mem _ hu)
    refine ⟨hall, fun u hu => ?_, fun u hu => hkept u (hgrown u hu)⟩
    rcases List.mem_cons.mp hu with rfl | hu
    · exact hkept u hvisited
    · exact hrest u hu

/-- A turn follows up one more vertex, unless the queue is empty. -/
theorem Searched.turn (h : Searched g next seeds done s)
    (hnext : ∀ v ∈ g.vertices, ∀ w ∈ next v, w ∈ g.vertices)
    (hfollowed : ∀ v ∈ done, ∀ w ∈ next v, w ∈ s.seen) :
    ∃ done', Searched g next seeds done' (s.turn next) ∧
      (∀ v ∈ done', ∀ w ∈ next v, w ∈ (s.turn next).seen) ∧
      (∀ u ∈ s.seen, u ∈ (s.turn next).seen) ∧
      (s.queue = [] ∧ s.turn next = s ∨ done'.length = done.length + 1) := by
  -- the first vertex of the queue moves to what has been followed up, and its neighbours are
  -- visited
  cases hqueue : s.queue with
  | nil =>
    have hturn : s.turn next = s := by rw [ReachState.turn, hqueue]
    rw [hturn]
    exact ⟨done, h, hfollowed, fun _ hu => hu, .inl ⟨rfl, rfl⟩⟩
  | cons v rest =>
    have hturn : s.turn next = (next v).foldl ReachState.visit { s with queue := rest } := by
      rw [ReachState.turn, hqueue]
    have hv : v ∈ s.seen := by rw [h.seen, hqueue]; simp
    obtain ⟨seed, hseed, hway⟩ := h.sound v hv
    have hpopped : Searched g next seeds (done ++ [v]) { s with queue := rest } := by
      refine ⟨?_, h.nodup, h.subset, h.sound⟩
      show s.seen = done ++ [v] ++ rest
      rw [h.seen, hqueue, List.append_assoc, List.singleton_append]
    obtain ⟨hall, hvisited, hkept⟩ := hpopped.foldl_visit (next v) fun w hw =>
      ⟨hnext v (h.subset v hv) w hw, seed, hseed, hway.tail hw⟩
    rw [hturn]
    refine ⟨done ++ [v], hall, fun u hu w hw => ?_, hkept, .inr (by simp)⟩
    rcases List.mem_append.mp hu with hu | hu
    · exact hkept w (hfollowed u hu w hw)
    · rw [List.mem_singleton.mp hu] at hw
      exact hvisited w hw

/-- After as many turns as there are vertices the queue is empty: by then either it has been empty
before or as many vertices have been followed up as there are. -/
theorem Searched.foldl_turn (turns : List α) (h : Searched g next seeds done s)
    (hnext : ∀ v ∈ g.vertices, ∀ w ∈ next v, w ∈ g.vertices)
    (hfollowed : ∀ v ∈ done, ∀ w ∈ next v, w ∈ s.seen) :
    ∃ done', Searched g next seeds done' (turns.foldl (fun s _ => s.turn next) s) ∧
      (∀ v ∈ done', ∀ w ∈ next v, w ∈ (turns.foldl (fun s _ => s.turn next) s).seen) ∧
      (∀ u ∈ s.seen, u ∈ (turns.foldl (fun s _ => s.turn next) s).seen) ∧
      ((turns.foldl (fun s _ => s.turn next) s).queue = [] ∨
        done.length + turns.length ≤ done'.length) := by
  -- by induction on the turns, with what has been followed up growing by one in each as long as the
  -- queue lasts
  induction turns generalizing done s with
  | nil => exact ⟨done, h, hfollowed, fun _ hu => hu, .inr (by simp)⟩
  | cons _ rest ih =>
    obtain ⟨done₁, h₁, hfollowed₁, hkept₁, hcount₁⟩ := h.turn hnext hfollowed
    obtain ⟨done₂, h₂, hfollowed₂, hkept₂, hcount₂⟩ := ih h₁ hfollowed₁
    refine ⟨done₂, h₂, hfollowed₂, fun u hu => hkept₂ u (hkept₁ u hu), ?_⟩
    rcases hcount₁ with ⟨hqueue, hturn⟩ | hlength
    · -- once empty, the queue stays empty
      left
      have hstay : ∀ turns : List α, turns.foldl (fun s _ => s.turn next) s = s := by
        intro turns
        induction turns with
        | nil => rfl
        | cons _ _ ihs => rw [List.foldl_cons, hturn, ihs]
      rw [List.foldl_cons, hturn, hstay, hqueue]
    · rcases hcount₂ with hempty | hlength₂
      · exact .inl hempty
      · refine .inr ?_
        rw [List.length_cons]
        omega

/-- A search before its first turn. -/
def start (seeds : List α) : ReachState α :=
  seeds.foldl visit ⟨[], []⟩

/-- A search that is over: it has seen the seeds and what the seen leads to, and nothing else. -/
structure Over (next : α → List α) (seeds : List α) (s : ReachState α) : Prop where
  queue : s.queue = []
  begun : ∀ v ∈ seeds, v ∈ s.seen
  followed : ∀ v ∈ s.seen, ∀ w ∈ next v, w ∈ s.seen
  sound : ∀ v ∈ s.seen, ∃ seed ∈ seeds, ReflTransGen (fun u w => w ∈ next u) seed v

/-- **A search comes to an end**, in no more turns than there are vertices. -/
theorem over_iterate (hseeds : ∀ v ∈ seeds, v ∈ g.vertices)
    (hnext : ∀ v ∈ g.vertices, ∀ w ∈ next v, w ∈ g.vertices) :
    Over next seeds ((turn next)^[g.vertices.length] (.start seeds)) := by
  have hblank : Searched g next seeds [] ⟨[], []⟩ :=
    ⟨rfl, List.nodup_nil, fun _ hv => absurd hv List.not_mem_nil,
      fun _ hv => absurd hv List.not_mem_nil⟩
  obtain ⟨hseeded, hvisited, -⟩ := hblank.foldl_visit seeds fun seed hseed =>
    ⟨hseeds seed hseed, seed, hseed, .refl⟩
  obtain ⟨done, hall, hfollowed, hkept, hcount⟩ := hseeded.foldl_turn g.vertices hnext
    fun _ hv => by cases hv
  rw [List.foldl_const, ← start] at hall hfollowed hkept hcount
  generalize (turn next)^[g.vertices.length] (.start seeds) = s at hall hfollowed hkept hcount ⊢
  have hqueue : s.queue = [] := by
    rcases hcount with hempty | hlength
    · exact hempty
    · -- nothing is seen twice, so no more can have been seen than there is
      have hle : s.seen.length ≤ g.vertices.length :=
        (hall.nodup.subperm hall.subset).length_le
      rw [hall.seen, List.length_append] at hle
      simp only [List.length_nil] at hlength
      exact List.length_eq_zero_iff.mp (by omega)
  -- with an empty queue all that has been seen has been followed up
  have hdone : s.seen = done := by rw [hall.seen, hqueue, List.append_nil]
  exact ⟨hqueue, fun v hv => hkept v (hvisited v hv), fun v hv => hfollowed v (hdone ▸ hv),
    hall.sound⟩

end ReachState

open ReachState

/-- A search takes as many turns as the graph has vertices. -/
theorem reach_eq (g : Digraph α) (next : α → List α) (seeds : List α) :
    g.reach next seeds = ((turn next)^[g.vertices.length] (.start seeds)).seen := by
  rw [reach, List.foldl_const]
  rfl

/-- **A search finds exactly what can be reached** from its seeds. -/
theorem mem_reach (g : Digraph α) {next : α → List α} {seeds : List α}
    (hseeds : ∀ v ∈ seeds, v ∈ g.vertices)
    (hnext : ∀ v ∈ g.vertices, ∀ w ∈ next v, w ∈ g.vertices) {v : α} :
    v ∈ g.reach next seeds ↔ ∃ seed ∈ seeds, ReflTransGen (fun u w => w ∈ next u) seed v := by
  have hover := over_iterate hseeds hnext
  rw [reach_eq]
  constructor
  · exact hover.sound v
  · rintro ⟨seed, hseed, hway⟩
    -- by induction on the way: the seed has been seen, and what has been seen is followed up
    induction hway with
    | refl => exact hover.begun seed hseed
    | tail _ hstep ih => exact hover.followed _ ih _ hstep

/-- Along the edges a search finds what there is a way to from a seed. -/
theorem mem_reach_successors {g : Digraph α} {seeds : List α} (hseeds : ∀ v ∈ seeds, v ∈ g.vertices)
    {v : α} :
    v ∈ g.reach g.successors seeds ↔ ∃ seed ∈ seeds, ReflTransGen g.Adjacent seed v := by
  have hsucc : (fun u w => w ∈ g.successors u) = g.Adjacent := by
    funext u w
    exact propext mem_successors
  rw [mem_reach g hseeds fun _ _ w hw => (mem_successors.mp hw).right_mem, hsucc]

/-- Against the edges it finds what there is a way from to a seed. -/
theorem mem_reach_predecessors {g : Digraph α} {seeds : List α}
    (hseeds : ∀ v ∈ seeds, v ∈ g.vertices) {v : α} :
    v ∈ g.reach g.predecessors seeds ↔ ∃ seed ∈ seeds, ReflTransGen g.Adjacent v seed := by
  have hpred : (fun u w => w ∈ g.predecessors u) = Function.swap g.Adjacent := by
    funext u w
    exact propext mem_predecessors
  rw [mem_reach g hseeds fun _ _ w hw => (mem_predecessors.mp hw).left_mem, hpred]
  simp only [reflTransGen_swap]

/-- **A vertex is live exactly if it lies on a way from a source to a sink.** -/
theorem mem_live {isSource isSink : α → Bool} {v : α} :
    v ∈ g.live isSource isSink ↔ v ∈ g.vertices ∧
      (∃ s ∈ g.vertices, isSource s ∧ ReflTransGen g.Adjacent s v) ∧
      (∃ t ∈ g.vertices, isSink t ∧ ReflTransGen g.Adjacent v t) := by
  have hforward : v ∈ g.reach g.successors (g.vertices.filter isSource) ↔ _ :=
    mem_reach_successors fun _ hs => (List.mem_filter.mp hs).1
  have hbackward : v ∈ g.reach g.predecessors (g.vertices.filter isSink) ↔ _ :=
    mem_reach_predecessors fun _ hs => (List.mem_filter.mp hs).1
  simp only [live, List.mem_filter, Bool.and_eq_true, decide_eq_true_eq, hforward, hbackward,
    and_assoc]

/-- The live vertices keep the order of all vertices. -/
theorem live_sublist (g : Digraph α) (isSource isSink : α → Bool) :
    (g.live isSource isSink).Sublist g.vertices :=
  List.filter_sublist

end Digraph
end SignalBoard
