import SignalBoard.Digraph.Loop
import SignalBoard.Proofs.Digraph.Order
import SignalBoard.Proofs.OrderedMap
import Mathlib.Algebra.BigOperators.Group.List.Basic
import Mathlib.Algebra.GroupWithZero.Nat
import Mathlib.Data.List.Chain

/-!
# The search for a loop finds one

If every vertex that passes a test has a predecessor that passes it, and there is such a vertex at
all, then the search among these vertices ends by closing a loop:

```lean
theorem exists_closes (hne : ∃ v ∈ g.vertices, within v)
    (hback : ∀ v ∈ g.vertices, within v → ∃ u, g.Adjacent u v ∧ within u) :
    ∃ s v w, Reached g within s ∧ s.Closes within v w ∧ g.findLoop within = s.closeLoop v w
```

## The architecture

* `LoopSearch.Step`: what one step of the search can do, one constructor for each kind of step
  (`step_of_next`); `Closes` is the one case in which there is no step.
* `LoopSearch.Searching`: the invariant. The stack is the chain of parents (`linked`), `onStack`
  holds exactly what is on it, and the vertices that have left the stack (`done`, the last one
  first) lead only to such as have left it before (`closed`).
* `walk_eq`: on such a stack the walk along the parents goes down the stack as far as its end, so it
  does not end early and what is closed is a loop (`simpleLoop_closeLoop`).
* `work`: how many steps are left. A step takes one of them off (`Step.work_lt`), and when nothing
  is left all vertices have left the stack. The last one then has no predecessor
  (`Searching.not_idle`).
-/

namespace SignalBoard
namespace Digraph

variable {α : Type}

/-- A way along a relation that comes back to where it began and meets nothing twice before. -/
structure SimpleLoop (R : α → α → Prop) (loop : List α) : Prop where
  two_le : 2 ≤ loop.length
  closed : loop.head? = loop.getLast?
  steps : loop.IsChain R
  simple : loop.dropLast.Nodup

variable [DecidableEq α] {g : Digraph α} {within : α → Bool}

namespace LoopSearch

variable {s s' : LoopSearch α} {done : List α}

/-- The vertices on the stack, the last one first. -/
def path (s : LoopSearch α) : List α :=
  s.stack.map Prod.fst

/-! ## One step -/

/-- What a step of the search can do. -/
inductive Step (g : Digraph α) (within : α → Bool) : LoopSearch α → LoopSearch α → Prop where
  /-- Everything has been searched. -/
  | idle {s : LoopSearch α} (hstack : s.stack = []) (hstarts : s.starts = []) : Step g within s s
  /-- The next start has been visited. -/
  | skip {s : LoopSearch α} {v : α} {rest : List α} (hstack : s.stack = [])
      (hstarts : s.starts = v :: rest) (hv : v ∈ s.visited) :
      Step g within s { s with starts := rest }
  /-- The search starts once more. -/
  | begin {s : LoopSearch α} {v : α} {rest : List α} (hstack : s.stack = [])
      (hstarts : s.starts = v :: rest) (hv : v ∉ s.visited) :
      Step g within s (enter g { s with starts := rest } v)
  /-- All edges out of a vertex have been looked at. -/
  | leave {s : LoopSearch α} {v : α} {below : List (α × List α)}
      (hstack : s.stack = (v, []) :: below) :
      Step g within s { s with stack := below, onStack := s.onStack.filter (· ≠ v) }
  /-- An edge leads nowhere new. -/
  | pass {s : LoopSearch α} {v w : α} {more : List α} {below : List (α × List α)}
      (hstack : s.stack = (v, w :: more) :: below)
      (hw : within w → w ∉ s.onStack ∧ w ∈ s.visited) :
      Step g within s { s with stack := (v, more) :: below }
  /-- An edge leads to a vertex that has not been visited. -/
  | enter {s : LoopSearch α} {v w : α} {more : List α} {below : List (α × List α)}
      (hstack : s.stack = (v, w :: more) :: below) (hwithin : within w) (hw : w ∉ s.visited) :
      Step g within s
        (enter g { s with stack := (v, more) :: below, parents := s.parents.insert w v } w)

/-- The next edge to be looked at leads from `v` to `w`, which is on the stack. -/
structure Closes (within : α → Bool) (s : LoopSearch α) (v w : α) : Prop where
  stack : ∃ more below, s.stack = (v, w :: more) :: below
  within : within w
  onStack : w ∈ s.onStack

/-- A search that goes on does one of these steps. -/
theorem step_of_next (h : s.next g within = .ok s') : Step g within s s' := by
  rw [next] at h
  -- the stack is empty, its top has no edge left, or its top has a next edge
  split at h
  · next hstack =>
    split at h
    · next hstarts =>
      cases h
      exact .idle hstack hstarts
    · next v rest hstarts =>
      cases h
      by_cases hv : v ∈ s.visited
      · rw [if_pos hv]
        exact .skip hstack hstarts hv
      · rw [if_neg hv]
        exact .begin hstack hstarts hv
  · next v below hstack =>
    cases h
    exact .leave hstack
  · next v w more below hstack =>
    by_cases hwithin : within w
    · by_cases hon : w ∈ s.onStack
      · simp [hwithin, hon] at h
      · by_cases hw : w ∈ s.visited
        · simp only [hwithin, hon, hw, Bool.not_true, Bool.false_eq_true, if_false, if_true] at h
          cases h
          exact .pass hstack fun _ => ⟨hon, hw⟩
        · simp only [hwithin, hon, hw, Bool.not_true, Bool.false_eq_true, if_false] at h
          cases h
          exact .enter hstack hwithin hw
    · simp only [hwithin, Bool.not_false, if_true] at h
      cases h
      exact .pass hstack fun h => absurd h hwithin

/-- A search that stops has found an edge to a vertex on its stack. -/
theorem closes_of_next {loop : List α} (h : s.next g within = .error loop) :
    ∃ v w, s.Closes within v w ∧ loop = s.closeLoop v w := by
  rw [next] at h
  split at h
  · split at h <;> cases h
  · cases h
  · next v w more below hstack =>
    dsimp only at h
    split at h
    · cases h
    · next hwithin =>
      split at h
      · next hon =>
        cases h
        exact ⟨v, w, ⟨⟨more, below, hstack⟩, by simpa using hwithin, hon⟩, rfl⟩
      · split at h <;> cases h

/-! ## The invariant -/

/-- The invariant of a search from which the vertices `done` have left the stack, the last one
first. -/
structure Searching (g : Digraph α) (within : α → Bool) (done : List α) (s : LoopSearch α) :
    Prop where
  linked : s.path.IsChain fun v u => s.parents.get? v = some u ∧ g.Adjacent u v
  mem_onStack : ∀ v, v ∈ s.onStack ↔ v ∈ s.path
  nodup : (s.path ++ done).Nodup
  mem_visited : ∀ v, v ∈ s.visited ↔ v ∈ s.path ++ done
  starts : ∀ v ∈ s.starts, v ∈ g.vertices ∧ within v
  visited : ∀ v ∈ s.visited, v ∈ g.vertices ∧ within v
  covered : ∀ v ∈ g.vertices, within v → v ∈ s.starts ∨ v ∈ s.visited
  remaining : ∀ v rest, (v, rest) ∈ s.stack → ∀ w ∈ rest, g.Adjacent v w
  /-- What an edge leads to that has been looked at has left the stack or is higher up on it. -/
  followed : ∀ above v rest below, s.stack = above ++ (v, rest) :: below →
    ∀ w, g.Adjacent v w → within w → w ∈ rest ∨ w ∈ done ∨ w ∈ above.map Prod.fst
  closed : ∀ newer v older, done = newer ++ v :: older →
    ∀ w, g.Adjacent v w → within w → w ∈ older

/-- The invariant holds before anything has been visited. -/
theorem searching_start : Searching g within [] (start g within) where
  linked := .nil
  mem_onStack v := by simp [start, path]
  nodup := by simp [start, path]
  mem_visited v := by simp [start, path]
  starts v hv := List.mem_filter.mp hv
  visited v hv := by cases hv
  covered v hv hwithin := .inl (List.mem_filter.mpr ⟨hv, hwithin⟩)
  remaining v rest h := by cases h
  followed above v rest below h := by cases above <;> cases h
  closed newer v older h := by cases newer <;> cases h

/-- A start that has been visited is dropped. -/
theorem Searching.skip (h : Searching g within done s) {v : α} {rest : List α}
    (hstarts : s.starts = v :: rest) (hv : v ∈ s.visited) :
    Searching g within done { s with starts := rest } where
  linked := h.linked
  mem_onStack := h.mem_onStack
  nodup := h.nodup
  mem_visited := h.mem_visited
  starts w hw := h.starts w (by rw [hstarts]; exact List.mem_cons_of_mem _ hw)
  visited := h.visited
  covered w hw hwithin := by
    rcases h.covered w hw hwithin with hstart | hvisited
    · rw [hstarts] at hstart
      rcases List.mem_cons.mp hstart with rfl | hrest
      · exact .inr hv
      · exact .inl hrest
    · exact .inr hvisited
  remaining := h.remaining
  followed := h.followed
  closed := h.closed

/-- A new start is the one vertex on the stack. -/
theorem Searching.begin (h : Searching g within done s) {v : α} {rest : List α}
    (hstack : s.stack = []) (hstarts : s.starts = v :: rest) (hv : v ∉ s.visited) :
    Searching g within done (LoopSearch.enter g { s with starts := rest } v) := by
  have hpath : s.path = [] := by rw [path, hstack]; rfl
  have hstart := h.starts v (by rw [hstarts]; exact List.mem_cons_self)
  have hstack' : (LoopSearch.enter g { s with starts := rest } v).stack = [(v, g.successors v)] := by
    rw [LoopSearch.enter, hstack]
  have hpath' : (LoopSearch.enter g { s with starts := rest } v).path = [v] := by
    rw [path, hstack']
    rfl
  have hdone : v ∉ done := by
    have := (h.mem_visited v).not.mp hv
    simpa [hpath] using this
  refine ⟨?_, fun w => ?_, ?_, fun w => ?_, fun w hw => ?_, fun w hw => ?_, fun w hw hwithin => ?_,
    fun w more hmem u hu => ?_, fun above w more below heq u hu hwithin => ?_, h.closed⟩
  · rw [hpath']
    exact .singleton v
  · rw [hpath']
    show w ∈ v :: s.onStack ↔ w ∈ [v]
    simp [h.mem_onStack, hpath]
  · rw [hpath']
    have := h.nodup
    rw [hpath] at this
    exact List.nodup_cons.mpr ⟨hdone, this⟩
  · rw [hpath']
    show w ∈ v :: s.visited ↔ w ∈ [v] ++ done
    simp [h.mem_visited, hpath]
  · exact h.starts w (by rw [hstarts]; exact List.mem_cons_of_mem _ hw)
  · rcases List.mem_cons.mp hw with rfl | hw
    · exact hstart
    · exact h.visited w hw
  · show w ∈ rest ∨ w ∈ v :: s.visited
    rcases h.covered w hw hwithin with hmem | hmem
    · rw [hstarts] at hmem
      rcases List.mem_cons.mp hmem with rfl | hmem
      · exact .inr List.mem_cons_self
      · exact .inl hmem
    · exact .inr (List.mem_cons_of_mem _ hmem)
  · rw [hstack', List.mem_singleton] at hmem
    cases hmem
    exact mem_successors.mp hu
  · -- the one vertex on the stack still has all its successors to be looked at
    rw [hstack'] at heq
    rcases above with _ | ⟨_, above⟩
    · cases heq
      exact .inl (mem_successors.mpr hu)
    · simp at heq

/-- The top of the stack has been followed up and joins what has left it. -/
theorem Searching.leave (h : Searching g within done s) {v : α} {below : List (α × List α)}
    (hstack : s.stack = (v, []) :: below) :
    Searching g within (v :: done)
      { s with stack := below, onStack := s.onStack.filter (· ≠ v) } := by
  have hpath : s.path = v :: below.map Prod.fst := by rw [path, hstack]; rfl
  have hnodup := h.nodup
  rw [hpath] at hnodup
  -- the vertex does not come again further down, so to filter it out takes off the top alone
  have hv : v ∉ below.map Prod.fst := by
    rw [List.cons_append, List.nodup_cons, List.mem_append] at hnodup
    exact fun hmem => hnodup.1 (.inl hmem)
  refine ⟨?_, fun w => ?_, ?_, fun w => ?_, h.starts, h.visited, h.covered,
    fun w rest hmem => ?_, fun above w rest below' heq u hu hwithin => ?_,
    fun newer w older heq u hu hwithin => ?_⟩
  · have hlinked := h.linked
    rw [hpath] at hlinked
    exact hlinked.tail
  · show w ∈ s.onStack.filter (· ≠ v) ↔ w ∈ below.map Prod.fst
    rw [List.mem_filter, h.mem_onStack, hpath, List.mem_cons]
    constructor
    · rintro ⟨rfl | hmem, hne⟩
      · simp at hne
      · exact hmem
    · intro hmem
      exact ⟨.inr hmem, by simpa using fun heq : w = v => hv (heq ▸ hmem)⟩
  · exact (List.perm_middle (a := v)).nodup_iff.mpr hnodup
  · show w ∈ s.visited ↔ w ∈ below.map Prod.fst ++ v :: done
    rw [h.mem_visited, hpath]
    simp only [List.cons_append, List.mem_cons, List.mem_append]
    tauto
  · exact h.remaining w rest (by rw [hstack]; exact List.mem_cons_of_mem _ hmem)
  · -- the stack loses its top, which has left it now
    have hfollowed := h.followed ((v, []) :: above) w rest below'
      (by rw [hstack, List.cons_append]; exact congrArg _ heq) u hu hwithin
    rw [List.map_cons, List.mem_cons] at hfollowed
    rw [List.mem_cons]
    tauto
  · rcases newer with _ | ⟨_, newer⟩
    · -- nothing is above the top, so all it leads to has left the stack
      cases heq
      have hfollowed := h.followed [] v [] below hstack u hu hwithin
      simpa using hfollowed
    · cases heq
      exact h.closed newer w older rfl u hu hwithin

/-- An edge that leads nowhere new is not looked at again. -/
theorem Searching.pass (h : Searching g within done s) {v w : α} {more : List α}
    {below : List (α × List α)} (hstack : s.stack = (v, w :: more) :: below)
    (hw : within w → w ∉ s.onStack ∧ w ∈ s.visited) :
    Searching g within done { s with stack := (v, more) :: below } := by
  have hpath : ({ s with stack := (v, more) :: below } : LoopSearch α).path = s.path := by
    rw [path, path, hstack]
    rfl
  refine ⟨by rw [hpath]; exact h.linked, fun u => ?_, by rw [hpath]; exact h.nodup, fun u => ?_,
    h.starts, h.visited, h.covered, fun u rest hmem x hx => ?_,
    fun above u rest below' heq x hx hwithin => ?_, h.closed⟩
  · rw [hpath]
    exact h.mem_onStack u
  · rw [hpath]
    exact h.mem_visited u
  · rcases List.mem_cons.mp hmem with heq | hmem
    · cases heq
      exact h.remaining v (w :: more) (by rw [hstack]; exact List.mem_cons_self) x
        (List.mem_cons_of_mem _ hx)
    · exact h.remaining u rest (by rw [hstack]; exact List.mem_cons_of_mem _ hmem) x hx
  · rcases above with _ | ⟨top, above⟩
    · cases heq
      rcases h.followed [] v (w :: more) below hstack x hx hwithin with hmem | hrest
      · rcases List.mem_cons.mp hmem with rfl | hmem
        · -- the edge that has just been looked at leads to what has left the stack
          obtain ⟨hon, hvisited⟩ := hw hwithin
          rw [h.mem_onStack] at hon
          rcases List.mem_append.mp ((h.mem_visited x).mp hvisited) with hpath | hdone
          · exact absurd hpath hon
          · exact .inr (.inl hdone)
        · exact .inl hmem
      · exact .inr hrest
    · cases heq
      exact h.followed ((v, w :: more) :: above) u rest below' hstack x hx hwithin

/-- A new vertex comes on top of the stack, with the one below for its parent. -/
theorem Searching.enter (h : Searching g within done s) {v w : α} {more : List α}
    {below : List (α × List α)} (hstack : s.stack = (v, w :: more) :: below)
    (hwithin : within w) (hw : w ∉ s.visited) :
    Searching g within done (LoopSearch.enter g
      { s with stack := (v, more) :: below, parents := s.parents.insert w v } w) := by
  have hpath : s.path = v :: below.map Prod.fst := by rw [path, hstack]; rfl
  have hnot : w ∉ s.path ++ done := (h.mem_visited w).not.mp hw
  have hadjacent : g.Adjacent v w :=
    h.remaining v (w :: more) (by rw [hstack]; exact List.mem_cons_self) w List.mem_cons_self
  refine ⟨?_, fun u => ?_, ?_, fun u => ?_, h.starts, fun u hu => ?_, fun u hu hin => ?_,
    fun u rest hmem x hx => ?_, fun above u rest below' heq x hx hin => ?_, h.closed⟩
  · -- the vertices below keep their parents, since none of them is `w`
    show List.IsChain _ (w :: v :: below.map Prod.fst)
    rw [List.isChain_cons_cons, ← hpath]
    refine ⟨⟨by simp [LoopSearch.enter], hadjacent⟩, ?_⟩
    refine h.linked.imp_of_mem_imp fun a b ha _ hab => ⟨?_, hab.2⟩
    have hne : a ≠ w := fun heq => hnot (List.mem_append_left _ (heq ▸ ha))
    rw [LoopSearch.enter, OrderedMap.get?_insert, if_neg hne]
    exact hab.1
  · show u ∈ w :: s.onStack ↔ u ∈ w :: v :: below.map Prod.fst
    rw [← hpath, List.mem_cons, List.mem_cons, h.mem_onStack]
  · show (w :: v :: below.map Prod.fst ++ done).Nodup
    rw [List.cons_append, ← hpath]
    exact List.nodup_cons.mpr ⟨hnot, h.nodup⟩
  · show u ∈ w :: s.visited ↔ u ∈ w :: v :: below.map Prod.fst ++ done
    rw [List.cons_append, ← hpath, List.mem_cons, List.mem_cons, h.mem_visited]
  · rcases List.mem_cons.mp hu with rfl | hu
    · exact ⟨hadjacent.right_mem, hwithin⟩
    · exact h.visited u hu
  · exact (h.covered u hu hin).imp_right (List.mem_cons_of_mem _)
  · rcases List.mem_cons.mp hmem with heq | hmem
    · cases heq
      exact mem_successors.mp hx
    · rcases List.mem_cons.mp hmem with heq | hmem
      · cases heq
        exact h.remaining v (w :: more) (by rw [hstack]; exact List.mem_cons_self) x
          (List.mem_cons_of_mem _ hx)
      · exact h.remaining u rest (by rw [hstack]; exact List.mem_cons_of_mem _ hmem) x hx
  · have heq : (w, g.successors w) :: (v, more) :: below = above ++ (u, rest) :: below' := heq
    rcases above with _ | ⟨_, _ | ⟨_, above⟩⟩
    · cases heq
      exact .inl (mem_successors.mpr hx)
    · simp only [List.cons_append, List.nil_append, List.cons.injEq, Prod.mk.injEq] at heq
      -- the frame is that of `v`, whose edge to `w` has just been used up
      obtain ⟨rfl, ⟨rfl, rfl⟩, rfl⟩ := heq
      rcases h.followed [] v (w :: more) below hstack x hx hin with hmem | hdone | hnone
      · rcases List.mem_cons.mp hmem with rfl | hmem
        · exact .inr (.inr List.mem_cons_self)
        · exact .inl hmem
      · exact .inr (.inl hdone)
      · cases hnone
    · simp only [List.cons_append, List.cons.injEq] at heq
      obtain ⟨rfl, rfl, rfl⟩ := heq
      have hfollowed := h.followed ((v, w :: more) :: above) u rest below' hstack x hx hin
      exact hfollowed.imp_right (Or.imp_right (List.mem_cons_of_mem _))

/-- The states that a search goes through. -/
inductive Reached (g : Digraph α) (within : α → Bool) : LoopSearch α → Prop where
  | start : Reached g within (start g within)
  | next {s s' : LoopSearch α} (h : Reached g within s) (hnext : s.next g within = .ok s') :
      Reached g within s'

/-- The invariant holds in all states that a search goes through. -/
theorem Reached.searching (h : Reached g within s) : ∃ done, Searching g within done s := by
  induction h with
  | start => exact ⟨[], searching_start⟩
  | next _ hnext ih =>
    obtain ⟨done, hs⟩ := ih
    cases step_of_next hnext with
    | idle => exact ⟨done, hs⟩
    | skip _ hstarts hv => exact ⟨done, hs.skip hstarts hv⟩
    | begin hstack hstarts hv => exact ⟨done, hs.begin hstack hstarts hv⟩
    | leave hstack => exact ⟨_, hs.leave hstack⟩
    | pass hstack hw => exact ⟨done, hs.pass hstack hw⟩
    | enter hstack hwithin hw => exact ⟨done, hs.enter hstack hwithin hw⟩

/-! ## What is closed is a loop -/

/-- Along a chain of parents the walk goes as far as its end. -/
theorem climb_eq {parents : OrderedMap α α} {top v : α} {below front rest : List α} {steps : Nat}
    (hlinked : (v :: below).IsChain fun v u => parents.get? v = some u)
    (hsplit : v :: below = front ++ top :: rest) (htop : top ∉ front)
    (hsteps : front.length ≤ steps) : climb parents top steps v = front ++ [top] := by
  -- the induction is on the part of the stack above the vertex to which the edge leads
  induction front generalizing v below steps with
  | nil =>
    obtain ⟨rfl, -⟩ := List.cons.inj hsplit
    cases steps <;> simp [climb]
  | cons w front ih =>
    obtain ⟨rfl, hbelow⟩ := List.cons.inj hsplit
    rw [List.mem_cons, not_or] at htop
    obtain ⟨u, below, rfl⟩ := List.exists_cons_of_ne_nil (l := below) (by rw [hbelow]; simp)
    obtain ⟨hparent, hrest⟩ := List.isChain_cons_cons.mp hlinked
    rw [List.length_cons] at hsteps
    obtain ⟨steps, rfl⟩ : ∃ n, steps = n + 1 := ⟨steps - 1, by omega⟩
    rw [climb, if_neg (Ne.symm htop.1), hparent]
    show v :: climb parents top steps u = v :: front ++ [top]
    rw [ih hrest hbelow htop.2 (by omega), List.cons_append]

variable {v w : α}

/-- The walk goes down the stack to the vertex to which the edge leads. -/
theorem Searching.walk_eq (h : Searching g within done s) (hcloses : s.Closes within v w) :
    ∃ front rest, s.path = front ++ w :: rest ∧ s.walk v w = front ++ [w] := by
  obtain ⟨⟨more, below, hstack⟩, -, honStack⟩ := hcloses
  have hpath : s.path = v :: below.map Prod.fst := by rw [path, hstack]; rfl
  obtain ⟨front, rest, hsplit, hnot⟩ :=
    List.eq_append_cons_of_mem ((h.mem_onStack w).mp honStack)
  have hlinked := h.linked.imp fun _ _ hab => hab.1
  rw [hpath] at hlinked
  -- the walk may take as many steps as there are visited vertices, and the stack is no higher
  have hsteps : s.path.length ≤ s.visited.length := by
    refine (List.subperm_of_subset (h.nodup.sublist (List.sublist_append_left _ _)) ?_).length_le
    exact fun u hu => (h.mem_visited u).mpr (List.mem_append_left _ hu)
  rw [hsplit, List.length_append] at hsteps
  exact ⟨front, rest, hsplit, climb_eq hlinked (by rw [← hpath, hsplit]) hnot (by omega)⟩

/-- The walk is the part of the stack from its top on. -/
theorem Searching.walk_prefix (h : Searching g within done s) (hcloses : s.Closes within v w) :
    s.walk v w <+: s.path := by
  obtain ⟨front, rest, hsplit, hwalk⟩ := h.walk_eq hcloses
  exact ⟨rest, by rw [hwalk, hsplit, List.append_assoc, List.singleton_append]⟩

/-- **What is closed is a loop**: the walk backwards, and then the edge that was looked at. -/
theorem Searching.simpleLoop_closeLoop (h : Searching g within done s)
    (hcloses : s.Closes within v w) : SimpleLoop g.Adjacent (s.closeLoop v w) := by
  obtain ⟨more, below, hstack⟩ := hcloses.stack
  have hpath : s.path = v :: below.map Prod.fst := by rw [path, hstack]; rfl
  have hprefix := h.walk_prefix hcloses
  obtain ⟨front, rest, hsplit, hwalk⟩ := h.walk_eq hcloses
  have hhead : (s.walk v w).head? = some v := by
    rw [hpath] at hsplit
    cases front <;> simp_all
  -- the edge that closes the loop is the one that is looked at next
  have hclosing : g.Adjacent v w :=
    h.remaining v (w :: more) (by rw [hstack]; exact List.mem_cons_self) w List.mem_cons_self
  refine ⟨?_, ?_, ?_, ?_⟩
  · rw [closeLoop, hwalk]
    simp
  · rw [closeLoop, hwalk, List.getLast?_append, List.reverse_append]
    simp
  · rw [closeLoop]
    refine List.IsChain.append ?_ (.singleton w) fun x hx y hy => ?_
    · rw [List.isChain_reverse]
      have hlinked := List.IsChain.prefix h.linked hprefix
      exact hlinked.imp fun _ _ hab => hab.2
    · rw [List.getLast?_reverse, hhead] at hx
      cases hx
      cases hy
      exact hclosing
  · rw [closeLoop, List.dropLast_concat, List.nodup_reverse]
    exact (h.nodup.sublist (List.sublist_append_left _ _)).sublist hprefix.sublist

/-- The loop is one of vertices of the graph. -/
theorem Searching.closeLoop_subset (h : Searching g within done s) (hcloses : s.Closes within v w) :
    s.closeLoop v w ⊆ g.vertices := by
  have hpath : ∀ u ∈ s.path, u ∈ g.vertices := fun u hu =>
    (h.visited u ((h.mem_visited u).mpr (List.mem_append_left _ hu))).1
  intro u hu
  rcases List.mem_append.mp hu with hu | hu
  · exact hpath u ((h.walk_prefix hcloses).subset (List.mem_reverse.mp hu))
  · rw [List.mem_singleton.mp hu]
    exact hpath w ((h.mem_onStack w).mp hcloses.onStack)

/-- The walk ends where it is to end, and goes from vertex to parent all the way. -/
theorem Searching.walk_complete (h : Searching g within done s) (hcloses : s.Closes within v w) :
    (s.walk v w).getLast? = some w ∧
      (s.walk v w).IsChain fun v u => s.parents.get? v = some u := by
  obtain ⟨front, rest, -, hwalk⟩ := h.walk_eq hcloses
  have hlinked := List.IsChain.prefix h.linked (h.walk_prefix hcloses)
  exact ⟨by rw [hwalk, List.getLast?_concat], hlinked.imp fun _ _ hab => hab.1⟩

/-! ## The search comes to an end -/

/-- What is still to be done for the vertices that have not been seen: each has to be followed up
and left. -/
def effort (g : Digraph α) (seen : List α) : Nat :=
  ((g.vertices.filter (· ∉ seen)).map fun v => (g.successors v).length + 1).sum

/-- How many steps are left at most. -/
def work (g : Digraph α) (s : LoopSearch α) : Nat :=
  s.starts.length + (s.stack.map fun frame => frame.2.length + 1).sum + effort g s.visited

/-- A vertex that is seen now has not to be entered any more. -/
theorem effort_cons {seen : List α} (hv : v ∈ g.vertices) (hnot : v ∉ seen) :
    effort g (v :: seen) + ((g.successors v).length + 1) = effort g seen := by
  have hmem : v ∈ g.vertices.filter (· ∉ seen) := List.mem_filter.mpr ⟨hv, by simpa using hnot⟩
  -- the vertex leaves the list of those that have not been seen, and no other does
  have herase : (g.vertices.filter (· ∉ seen)).erase v = g.vertices.filter (· ∉ v :: seen) := by
    rw [(g.nodup.filter _).erase_eq_filter, List.filter_filter]
    refine List.filter_congr fun u _ => ?_
    by_cases heq : u = v <;> simp [heq]
  rw [effort, effort, ← herase, Nat.add_comm]
  exact List.sum_map_erase (fun v => (g.successors v).length + 1) hmem

/-- A step that is not idle takes one off the work. -/
theorem Step.work_lt (h : Step g within s s') (hs : Searching g within done s) :
    (s.stack = [] ∧ s.starts = []) ∨ work g s' < work g s := by
  cases h with
  | idle hstack hstarts => exact .inl ⟨hstack, hstarts⟩
  | skip _ hstarts _ =>
    right
    simp only [work, hstarts, List.length_cons]
    omega
  | begin hstack hstarts hv =>
    right
    have hvertex := (hs.starts _ (by rw [hstarts]; exact List.mem_cons_self)).1
    have hvisit := effort_cons hvertex hv
    simp only [work, LoopSearch.enter, hstack, hstarts, List.length_cons, List.map_cons,
      List.map_nil, List.sum_cons, List.sum_nil]
    omega
  | leave hstack =>
    right
    simp only [work, hstack, List.map_cons, List.sum_cons, List.length_nil]
    omega
  | pass hstack _ =>
    right
    simp only [work, hstack, List.map_cons, List.sum_cons, List.length_cons]
    omega
  | enter hstack _ hw =>
    right
    have hadjacent := hs.remaining _ _ (by rw [hstack]; exact List.mem_cons_self) _
      List.mem_cons_self
    -- what the vertex brings onto the stack is what it has been expected to cost
    have hvisit := effort_cons hadjacent.right_mem hw
    simp only [work, LoopSearch.enter, hstack, List.map_cons, List.sum_cons, List.length_cons]
    omega

/-- A search that has nothing left to do has gone through vertices of which one has no predecessor
among them. -/
theorem Searching.not_idle (h : Searching g within done s) (hne : ∃ v ∈ g.vertices, within v)
    (hback : ∀ v ∈ g.vertices, within v → ∃ u, g.Adjacent u v ∧ within u) :
    ¬ (s.stack = [] ∧ s.starts = []) := by
  rintro ⟨hstack, hstarts⟩
  have hpath : s.path = [] := by rw [path, hstack]; rfl
  have hall : ∀ v ∈ g.vertices, within v → v ∈ done := by
    intro v hv hwithin
    have hvisited := (h.covered v hv hwithin).resolve_left (by rw [hstarts]; simp)
    simpa [hpath] using (h.mem_visited v).mp hvisited
  cases done with
  | nil =>
    obtain ⟨v, hv, hwithin⟩ := hne
    cases hall v hv hwithin
  | cons v older =>
    -- the last vertex that has left the stack is none that another one leads to
    have hnodup := h.nodup
    rw [hpath, List.nil_append, List.nodup_cons] at hnodup
    obtain ⟨hv, hwithin⟩ := h.visited v ((h.mem_visited v).mpr (by simp))
    obtain ⟨u, hu, huin⟩ := hback v hv hwithin
    obtain ⟨newer, rest, hsplit⟩ := List.append_of_mem (hall u hu.left_mem huin)
    have hrest : v ∈ rest := h.closed newer u rest hsplit v hu hwithin
    rcases newer with _ | ⟨_, newer⟩
    · cases hsplit
      exact hnodup.1 hrest
    · cases hsplit
      exact hnodup.1 (by simp [hrest])

/-- With steps enough for the work that is left a search closes a loop. -/
theorem run_closes (hs : Reached g within s) (hne : ∃ v ∈ g.vertices, within v)
    (hback : ∀ v ∈ g.vertices, within v → ∃ u, g.Adjacent u v ∧ within u) {steps : Nat}
    (hsteps : work g s ≤ steps) :
    ∃ s' v w, Reached g within s' ∧ s'.Closes within v w ∧
      run g within steps s = s'.closeLoop v w := by
  induction steps generalizing s with
  | zero =>
    -- without any work left the search would be idle, which it never is
    obtain ⟨done, hsearching⟩ := hs.searching
    refine absurd ⟨?_, ?_⟩ (hsearching.not_idle hne hback)
    · cases hstack : s.stack with
      | nil => rfl
      | cons =>
        rw [work, hstack, List.map_cons, List.sum_cons] at hsteps
        omega
    · rw [work] at hsteps
      exact List.length_eq_zero_iff.mp (by omega)
  | succ n ih =>
    rw [run]
    cases hnext : s.next g within with
    | error loop =>
      obtain ⟨v, w, hcloses, rfl⟩ := closes_of_next hnext
      exact ⟨s, v, w, hs, hcloses, rfl⟩
    | ok s' =>
      obtain ⟨done, hsearching⟩ := hs.searching
      have hless := ((step_of_next hnext).work_lt hsearching).resolve_left
        (hsearching.not_idle hne hback)
      exact ih (.next hs hnext) (by omega)

/-- Of distinct vertices no two are the source of one edge. -/
theorem sum_indicator_le {vs : List α} (hvs : vs.Nodup) (u : α) :
    (vs.map fun v => if u = v then 1 else 0).sum ≤ 1 := by
  have hcount : (vs.map fun v => if u = v then 1 else 0).sum = vs.count u := by
    induction vs with
    | nil => rfl
    | cons v vs ih =>
      rw [List.map_cons, List.sum_cons, ih (List.nodup_cons.mp hvs).2, List.count_cons]
      by_cases heq : u = v
      · simp [heq, Nat.add_comm]
      · simp [heq, Ne.symm heq]
  rw [hcount]
  exact List.nodup_iff_count_le_one.mp hvs u

/-- Over all vertices there are no more successors than edges. -/
theorem sum_length_successors_le (g : Digraph α) :
    (g.vertices.map fun v => (g.successors v).length).sum ≤ g.edges.length := by
  simp only [successors, List.length_filterMap_eq_countP]
  -- each edge is counted at its source and nowhere else
  induction g.edges with
  | nil => simp
  | cons e es ih =>
    have hcons : ∀ v, (e :: es).countP (fun e => (if e.1 = v then some e.2 else none).isSome)
        = es.countP (fun e => (if e.1 = v then some e.2 else none).isSome) +
          if e.1 = v then 1 else 0 := by
      intro v
      rw [List.countP_cons]
      by_cases heq : e.1 = v <;> simp [heq]
    have hone := sum_indicator_le g.nodup e.1
    simp only [hcons, List.sum_map_add, List.length_cons]
    omega

/-- In the beginning there is no more work than the search has steps for. -/
theorem work_start_le (g : Digraph α) (within : α → Bool) :
    work g (start g within) ≤ 2 * g.vertices.length + g.edges.length := by
  have hstarts : (g.vertices.filter within).length ≤ g.vertices.length := List.length_filter_le _ _
  have heffort : effort g []
      = (g.vertices.map fun v => (g.successors v).length).sum + g.vertices.length := by
    simp [effort, List.sum_map_add]
  have hedges := sum_length_successors_le g
  show (g.vertices.filter within).length + 0 + effort g [] ≤ _
  rw [heffort]
  omega

end LoopSearch

open LoopSearch

/-- **The search for a loop ends by closing one**, if every vertex that it goes through has a
predecessor that it goes through. -/
theorem exists_closes (hne : ∃ v ∈ g.vertices, within v)
    (hback : ∀ v ∈ g.vertices, within v → ∃ u, g.Adjacent u v ∧ within u) :
    ∃ s v w, Reached g within s ∧ s.Closes within v w ∧ g.findLoop within = s.closeLoop v w :=
  run_closes .start hne hback (work_start_le g within)

end Digraph
end SignalBoard
