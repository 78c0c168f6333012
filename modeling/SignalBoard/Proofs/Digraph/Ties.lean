import SignalBoard.Proofs.Digraph.Levels
import Mathlib.Data.List.Dedup
import Mathlib.Data.List.Sort

/-!
# What decides about ties

Where the edges leave a choice, the sort takes the vertices in the order in which they enter the
queue. That is the order of the vertices for those that no edge leads into. All others come in with
the last of their predecessors, and those that come in with the same one do so in the order of the
edges from there:

```lean
theorem sort_eq_append_flatMap (h : g.sort = .ok order) :
    order = (g.vertices.filter fun v => g.inDegree v = 0) ++ order.flatMap (g.opened order)
```

* `Releasing.entered_foldl_release`: what some releases let into the queue.
* `opened_eq`, `opened_append`: what the turn of a vertex lets in depends on the order up to there.
* `eq_iff_opened_eq`: two graphs that differ in the order of their edges have the same sorted order
  just if every vertex opens the same ones in both. If they do, the two runs hold the same vertices
  turn by turn (`order_queue_turn`, `order_queue_iterate`).
* `map_height_of_perm`: the two orders can differ inside a level only.

`sort_tied` puts this together for a list of names and two lists of the same pairs.
-/

namespace SignalBoard
namespace Digraph

variable {α : Type} [DecidableEq α] {g g' : Digraph α} {order : List α}

/-! ## What enters the queue -/

namespace SortState

variable {s : SortState α} {w : α} {todo : List α}

/-- A vertex enters the queue with its last edge, and then all its predecessors are in the order. -/
theorem Releasing.entered_release (h : Releasing g (w :: todo) s) (hw : w ∈ g.vertices) :
    (s.release w).entered
      = s.entered ++ if g.pending s.order w = 0 ∧ w ∉ todo then [w] else [] := by
  have hcount : s.inDegree.get? w = some (g.pending s.order w + todo.count w + 1) := by
    rw [h.count w hw, List.count_cons_self, Nat.add_assoc]
  have hlast : g.pending s.order w + todo.count w = 0 ↔ g.pending s.order w = 0 ∧ w ∉ todo := by
    rw [Nat.add_eq_zero_iff, List.count_eq_zero]
  rw [SortState.release, hcount, Option.getD_some, Nat.add_sub_cancel]
  -- the counter of `w` comes down to zero or stays positive
  by_cases hleft : g.pending s.order w + todo.count w = 0
  · simp only [if_pos hleft, if_pos (hlast.mp hleft)]
    exact (List.append_assoc _ _ _).symm
  · simp only [if_neg hleft, if_neg (mt hlast.mpr hleft)]
    exact (List.append_nil _).symm

/-- **What some releases let in**: the vertices for which nothing is pending any more, each at its
last place among the releases. -/
theorem Releasing.entered_foldl_release (h : Releasing g todo s) (hmem : ∀ w ∈ todo, w ∈ g.vertices) :
    (todo.foldl SortState.release s).entered
      = s.entered ++ (todo.filter fun w => g.pending s.order w = 0).dedup := by
  induction todo generalizing s with
  | nil => exact (List.append_nil _).symm
  | cons w todo ih =>
    rw [List.forall_mem_cons] at hmem
    have hrest := ih (h.release hmem.1) hmem.2
    rw [order_release, h.entered_release hmem.1] at hrest
    rw [List.foldl_cons, hrest, List.append_assoc]
    refine congrArg (s.entered ++ ·) ?_
    by_cases hpending : g.pending s.order w = 0
    · rw [List.filter_cons_of_pos (by simpa using hpending)]
      -- if the vertex is released again later, it enters then and not now
      by_cases hagain : w ∈ todo
      · have hfilter : w ∈ todo.filter fun w => g.pending s.order w = 0 :=
          List.mem_filter.mpr ⟨hagain, by simpa using hpending⟩
        rw [if_neg fun hlast => hlast.2 hagain, List.dedup_cons_of_mem hfilter, List.nil_append]
      · have hfilter : w ∉ todo.filter fun w => g.pending s.order w = 0 :=
          fun hmem => hagain (List.mem_filter.mp hmem).1
        rw [if_pos ⟨hpending, hagain⟩, List.dedup_cons_of_notMem hfilter, List.singleton_append]
    · rw [List.filter_cons_of_neg (by simpa using hpending), if_neg fun hlast => hpending hlast.1,
        List.nil_append]

variable {v : α} {rest : List α}

/-- A turn puts the first vertex of the queue at the end of the order. -/
theorem Releasing.order_turn (h : Releasing g [] s) (hqueue : s.queue = v :: rest) :
    (s.turn g).order = s.order ++ [v] := by
  have hpopped := h.pop hqueue
  rw [← List.append_nil (g.successors v)] at hpopped
  rw [turn_of_queue hqueue]
  exact (hpopped.foldl_release fun w hw => (mem_successors.mp hw).right_mem).2

/-- A turn lets in the successors of its vertex for which nothing is pending any more. -/
theorem Releasing.entered_turn (h : Releasing g [] s) (hqueue : s.queue = v :: rest) :
    (s.turn g).entered = s.entered ++
      ((g.successors v).filter fun w => g.pending (s.order ++ [v]) w = 0).dedup := by
  have hentered : s.entered = entered { s with order := s.order ++ [v], queue := rest } := by
    simp [entered, hqueue]
  rw [turn_of_queue hqueue, hentered]
  exact (h.pop hqueue).entered_foldl_release fun w hw => (mem_successors.mp hw).right_mem

/-- What has entered the queue on the way is in front at the end. -/
theorem entered_iterate_prefix (g : Digraph α) {turns : Nat} (hturns : turns ≤ g.vertices.length) :
    ((turn g)^[turns] (.start g)).entered <+: g.sorted.entered := by
  obtain ⟨more, hmore⟩ := Nat.exists_eq_add_of_le' hturns
  -- what is in front stays in front, turn by turn
  have hrun : ∀ more s, entered s <+: ((turn g)^[more] s).entered := by
    intro more
    induction more with
    | zero => exact fun s => List.prefix_rfl
    | succ more ih => exact fun s => (entered_turn g s).trans (ih (s.turn g))
  rw [sorted, List.foldl_const, hmore, Function.iterate_add_apply]
  exact hrun more _

end SortState

/-! ## What a vertex opens -/

/-- The vertices that come into the queue in the turn of a vertex: its successors that have no later
predecessor in the order. Of several edges to one of them the last one counts. -/
def opened (g : Digraph α) (order : List α) (v : α) : List α :=
  ((g.successors v).filter fun w =>
    ∀ u ∈ g.predecessors w, order.idxOf u ≤ order.idxOf v).dedup

/-- What comes up to a member of a list without repetitions has no larger place than the member, and
everything else has. -/
theorem mem_iff_idxOf_le {before after : List α} {u v : α} (hn : order.Nodup)
    (horder : order = before ++ v :: after) :
    u ∈ before ++ [v] ↔ order.idxOf u ≤ order.idxOf v := by
  refine ⟨idxOf_le_of_mem hn horder, fun hle => ?_⟩
  -- anything else would stand after the member
  by_contra hu
  have hsplit : order = (before ++ [v]) ++ after := by
    rw [horder, List.append_assoc, List.singleton_append]
  have hv : order.idxOf v ≤ before.length := by
    have hlt := List.idxOf_lt_length_of_mem (List.mem_append_right before (List.mem_singleton_self v))
    rw [hsplit, List.idxOf_append_of_mem (by simp)]
    rw [List.length_append, List.length_singleton] at hlt
    omega
  rw [hsplit, List.idxOf_append_of_notMem hu, ← hsplit, List.length_append,
    List.length_singleton] at hle
  omega

/-- What a vertex opens can be told from the order up to the vertex. -/
theorem opened_eq {before after : List α} {v : α} (hn : order.Nodup)
    (horder : order = before ++ v :: after) : g.opened order v
      = ((g.successors v).filter fun w => g.pending (before ++ [v]) w = 0).dedup := by
  rw [opened]
  refine congrArg List.dedup (List.filter_congr fun w _ => ?_)
  rw [decide_eq_decide, pending_eq_zero]
  simp only [mem_predecessors, mem_iff_idxOf_le hn horder]

/-- What comes later in the order does not matter. -/
theorem opened_append {more : List α} {v : α} (hn : (order ++ more).Nodup) (hv : v ∈ order) :
    g.opened (order ++ more) v = g.opened order v := by
  obtain ⟨before, after, horder⟩ := List.append_of_mem hv
  have hsplit : order ++ more = before ++ v :: (after ++ more) := by
    rw [horder, List.append_assoc, List.cons_append]
  rw [opened_eq hn hsplit, opened_eq (hn.sublist (List.sublist_append_left order more)) horder]

namespace SortState

/-- What has entered the queue so far are the vertices that no edge leads into and what the members
of the order have opened. -/
def Opened (g : Digraph α) (s : SortState α) : Prop :=
  s.entered = (start g).queue ++ s.order.flatMap (g.opened s.order)

theorem Opened.turn {s : SortState α} (h : Opened g s) (hreleasing : Releasing g [] s) :
    Opened g (s.turn g) := by
  cases hqueue : s.queue with
  | nil => rwa [SortState.turn, hqueue]
  | cons v rest =>
    have hn : (s.order ++ [v]).Nodup := by
      have hnodup := hreleasing.nodup
      rw [hqueue, ← List.singleton_append, ← List.append_assoc] at hnodup
      exact hnodup.sublist (List.sublist_append_left _ rest)
    -- what was opened before does not depend on the vertex that has come to the order
    have hbefore : s.order.flatMap (g.opened (s.order ++ [v])) = s.order.flatMap (g.opened s.order) :=
      List.flatMap_congr fun u hu => opened_append hn hu
    rw [Opened, hreleasing.order_turn hqueue, hreleasing.entered_turn hqueue, List.flatMap_append,
      hbefore, List.flatMap_singleton, opened_eq hn rfl, h, List.append_assoc]

/-- At the end everything but the roots has been opened by a vertex of the order. -/
theorem opened_sorted (g : Digraph α) : Opened g g.sorted := by
  refine sorted_induction ?_ fun s hreleasing hs => hs.turn hreleasing
  exact (List.append_nil _).symm

end SortState

/-- **The order is made of what is opened**: first come the vertices that no edge leads into, and
then, vertex by vertex of the order itself, what each of them opens. -/
theorem sort_eq_append_flatMap (h : g.sort = .ok order) :
    order = (g.vertices.filter fun v => g.inDegree v = 0) ++ order.flatMap (g.opened order) := by
  obtain ⟨-, rfl⟩ := sort_eq_ok_iff.mp h
  have hopened := SortState.opened_sorted g
  rwa [SortState.Opened, SortState.entered, (sorted_releasing g).2, List.append_nil] at hopened

/-! ## The same edges in another order -/

/-- A turn of two runs that hold the same vertices in the same order, if the vertex of the turn
opens the same ones in both. -/
theorem SortState.order_queue_turn {s s' : SortState α}
    (hopened : ∀ v ∈ g.sorted.order, g.opened g.sorted.order v = g'.opened g.sorted.order v)
    (hreleasing : Releasing g [] s) (hreleasing' : Releasing g' [] s')
    (hstart : s.entered <+: g.sorted.entered) (horder : s.order = s'.order)
    (hqueue : s.queue = s'.queue) :
    (s.turn g).order = (s'.turn g').order ∧ (s.turn g).queue = (s'.turn g').queue := by
  -- with an empty queue neither run does anything; else the next vertex is the same in both and
  -- opens the same ones
  cases hs : s.queue with
  | nil =>
    have hturn : s.turn g = s := by rw [SortState.turn, hs]
    have hturn' : s'.turn g' = s' := by rw [SortState.turn, ← hqueue, hs]
    rw [hturn, hturn']
    exact ⟨horder, hqueue⟩
  | cons v rest =>
    have hs' : s'.queue = v :: rest := hqueue ▸ hs
    have horders : (s.turn g).order = (s'.turn g').order := by
      rw [hreleasing.order_turn hs, hreleasing'.order_turn hs', horder]
    obtain ⟨after, hafter⟩ := hstart
    have hsplit : g.sorted.order = s.order ++ v :: (rest ++ after) := by
      rw [SortState.entered, SortState.entered, (sorted_releasing g).2, List.append_nil, hs,
        List.append_assoc, List.cons_append] at hafter
      exact hafter.symm
    have hsame := hopened v (by rw [hsplit]; simp)
    rw [opened_eq (nodup_sorted_order g) hsplit, opened_eq (nodup_sorted_order g) hsplit] at hsame
    have hentered : (s.turn g).entered = (s'.turn g').entered := by
      rw [hreleasing.entered_turn hs, hreleasing'.entered_turn hs', hsame, SortState.entered,
        SortState.entered, hs, hs', horder]
    rw [SortState.entered, SortState.entered, horders] at hentered
    exact ⟨horders, List.append_cancel_left hentered⟩

section Reordered

variable (hvertices : g'.vertices = g.vertices) (hedges : g.edges.Perm g'.edges)

include hedges

omit [DecidableEq α] in
/-- The order of the edges does not matter for which vertices are adjacent. -/
theorem adjacent_of_perm : g'.Adjacent = g.Adjacent := by
  funext u v
  exact propext hedges.symm.mem_iff

omit [DecidableEq α] in
theorem acyclic_iff_of_perm : g.Acyclic ↔ g'.Acyclic := by
  rw [Acyclic, Acyclic, adjacent_of_perm hedges]

/-- As many edges lead into a vertex in any order. -/
theorem inDegree_of_perm : g'.inDegree = g.inDegree := by
  funext v
  exact (hedges.symm.filterMap _).length_eq

/-- A vertex has the same predecessors, whatever the order of the edges. -/
theorem mem_predecessors_of_perm {u w : α} : u ∈ g'.predecessors w ↔ u ∈ g.predecessors w := by
  rw [mem_predecessors, mem_predecessors, adjacent_of_perm hedges]

/-- A vertex opens the same ones, if not in the same order. -/
theorem opened_perm (order : List α) (v : α) : (g.opened order v).Perm (g'.opened order v) := by
  rw [opened, opened]
  simp only [mem_predecessors_of_perm hedges]
  exact ((hedges.filterMap _).filter _).dedup

/-- If the successors come in the same order, so does what is opened. -/
theorem opened_of_successors_eq {v : α} (hv : g.successors v = g'.successors v) (order : List α) :
    g.opened order v = g'.opened order v := by
  rw [opened, opened, hv]
  simp only [mem_predecessors_of_perm hedges]

include hvertices

/-- As long as every vertex opens the same ones, two runs hold the same vertices in the same
order. -/
theorem order_queue_iterate (hopened : ∀ v ∈ g.sorted.order,
      g.opened g.sorted.order v = g'.opened g.sorted.order v) {turns : Nat}
    (hturns : turns ≤ g.vertices.length) :
    let s := (SortState.turn g)^[turns] (.start g)
    let s' := (SortState.turn g')^[turns] (.start g')
    s.order = s'.order ∧ s.queue = s'.queue := by
  -- by induction on the turns, from queues that hold the same roots
  induction turns with
  | zero =>
    refine ⟨rfl, ?_⟩
    show g.vertices.filter _ = g'.vertices.filter _
    rw [hvertices, inDegree_of_perm hedges]
  | succ turns ih =>
    obtain ⟨horder, hqueue⟩ := ih (Nat.le_of_succ_le hturns)
    rw [Function.iterate_succ_apply', Function.iterate_succ_apply']
    exact SortState.order_queue_turn hopened (SortState.releasing_iterate g turns)
      (SortState.releasing_iterate g' turns)
      (SortState.entered_iterate_prefix g (Nat.le_of_succ_le hturns)) horder hqueue

/-- **The order stays as it is just if every vertex opens the same ones.** -/
theorem eq_iff_opened_eq {order' : List α} (h : g.sort = .ok order) (h' : g'.sort = .ok order') :
    order = order' ↔ ∀ v ∈ order, g.opened order v = g'.opened order v := by
  have hroots : (g'.vertices.filter fun v => g'.inDegree v = 0)
      = g.vertices.filter fun v => g.inDegree v = 0 := by
    rw [hvertices, inDegree_of_perm hedges]
  constructor
  · -- the order is made of what is opened, so equal orders are cut into the same pieces: the pieces
    -- have the same lengths, as the two sides of each are permutations of one another
    rintro rfl
    have hsplit := (sort_eq_append_flatMap h).symm.trans (sort_eq_append_flatMap h')
    rw [hroots, List.append_cancel_left_eq, List.flatMap, List.flatMap] at hsplit
    have hlengths : (order.map (g.opened order)).map List.length
        = (order.map (g'.opened order)).map List.length := by
      rw [List.map_map, List.map_map]
      exact List.map_congr_left fun v _ => (opened_perm hedges order v).length_eq
    exact List.map_inj_left.mp (List.eq_iff_flatten_eq.mpr ⟨hsplit, hlengths⟩)
  · intro hopened
    obtain ⟨-, rfl⟩ := sort_eq_ok_iff.mp h
    obtain ⟨-, rfl⟩ := sort_eq_ok_iff.mp h'
    have hruns := order_queue_iterate hvertices hedges hopened le_rfl
    rw [sorted, sorted, List.foldl_const, List.foldl_const, hvertices]
    exact hruns.1

/-- The heights along the order are the same in any case. -/
theorem map_height_of_perm {order' : List α} (h : g.sort = .ok order) (h' : g'.sort = .ok order')
    {height : α → Nat} (hheight : ∀ v ∈ g.vertices, IsGreatest (lengthsTo g.Adjacent v) (height v)) :
    order.map height = order'.map height := by
  have hperm : order.Perm order' :=
    (sort_perm h).trans (hvertices ▸ (sort_perm h').symm)
  have hheight' : ∀ v ∈ g'.vertices, IsGreatest (lengthsTo g'.Adjacent v) (height v) := by
    rwa [hvertices, adjacent_of_perm hedges]
  refine (hperm.map height).eq_of_pairwise (fun _ _ _ _ => Nat.le_antisymm) ?_ ?_
  · exact List.pairwise_map.mpr (sort_pairwise_height h hheight)
  · exact List.pairwise_map.mpr (sort_pairwise_height h' hheight')

end Reordered

/-! ## The order of the pairs -/

/-- Reordering the pairs reorders the edges that are made of them. -/
theorem edges_ofLists_perm {pairs pairs' : List (α × α)} (hpairs : pairs.Perm pairs')
    (names : List α) : (ofLists names pairs).edges.Perm (ofLists names pairs').edges :=
  hpairs.filter _

/-- **What the order of the pairs decides.** Whether there is an order does not depend on it, nor
does the level at each place of the order. In front are the names that nothing leads into, as the
names have them. Then follows what is opened, vertex by vertex, and this is the one thing that can
differ: the two orders are the same just if every name opens the same ones in both. That is so if
the pairs from each name come in the same order. -/
theorem sort_tied {names : List α} {pairs pairs' : List (α × α)} (hpairs : pairs.Perm pairs') :
    ((∃ order, (ofLists names pairs).sort = .ok order) ↔
        ∃ order, (ofLists names pairs').sort = .ok order) ∧
      ∀ order order',
        (ofLists names pairs).sort = .ok order → (ofLists names pairs').sort = .ok order' →
          (∀ height : α → Nat,
            (∀ v ∈ names, IsGreatest (lengthsTo (Joined names pairs) v) (height v)) →
              order.map height = order'.map height) ∧
          order = ((distinct names).filter fun v => (ofLists names pairs).inDegree v = 0) ++
            order.flatMap ((ofLists names pairs).opened order) ∧
          (order = order' ↔ ∀ v ∈ order,
            (ofLists names pairs).opened order v = (ofLists names pairs').opened order v) ∧
          ((∀ v ∈ names, (ofLists names pairs).successors v = (ofLists names pairs').successors v) →
            order = order') := by
  have hvertices : (ofLists names pairs').vertices = (ofLists names pairs).vertices := rfl
  have hedges := edges_ofLists_perm hpairs names
  refine ⟨?_, fun order order' h h' => ⟨fun height hheight => ?_, sort_eq_append_flatMap h,
    eq_iff_opened_eq hvertices hedges h h', fun hsuccessors => ?_⟩⟩
  · -- success, the levels along the order, and the case in which the successors agree
    rw [exists_sort_iff, exists_sort_iff, acyclic_iff_of_perm hedges]
  · rw [joined_eq] at hheight
    exact map_height_of_perm hvertices hedges h h' fun v hv => hheight v (mem_vertices_ofLists.mp hv)
  · refine (eq_iff_opened_eq hvertices hedges h h').mpr fun v hv => ?_
    have hmem : v ∈ names := mem_vertices_ofLists.mp ((sort_perm h).mem_iff.mp hv)
    exact opened_of_successors_eq hedges (hsuccessors v hmem) order

/-- Two names that open others, of which one closes a diamond. The pairs come in two orders that
have the pairs from each name in the same order. -/
theorem sort_tied_diamond :
    let names := [1, 2, 3, 4, 5]
    let pairs := [(1, 3), (1, 4), (2, 4), (2, 5)]
    let pairs' := [(2, 4), (1, 3), (2, 5), (1, 4)]
    pairs.Perm pairs' ∧
      (∀ v ∈ names, (ofLists names pairs).successors v = (ofLists names pairs').successors v) ∧
      (ofLists names pairs).sort = .ok [1, 2, 3, 4, 5] ∧
      ∀ order, (ofLists names pairs').sort = .ok order → [1, 2, 3, 4, 5] = order := by
  intro names pairs pairs'
  have hpairs : pairs.Perm pairs' := by decide
  have hsuccessors : ∀ v ∈ names,
      (ofLists names pairs).successors v = (ofLists names pairs').successors v := by decide
  have hsort : (ofLists names pairs).sort = .ok [1, 2, 3, 4, 5] := by decide +kernel
  exact ⟨hpairs, hsuccessors, hsort, fun order h =>
    ((sort_tied hpairs).2 _ order hsort h).2.2.2 hsuccessors⟩

/-- The order of the names does not decide about all ties: of two names that are opened by one pair
each from the same name, the one whose pair comes first is first. -/
theorem sort_untied :
    let names := [1, 2, 3]
    let pairs := [(1, 3), (1, 2)]
    let pairs' := [(1, 2), (1, 3)]
    pairs.Perm pairs' ∧ (ofLists names pairs).sort = .ok [1, 3, 2] ∧
      (ofLists names pairs').sort = .ok [1, 2, 3] := by
  decide +kernel

end Digraph
end SignalBoard
