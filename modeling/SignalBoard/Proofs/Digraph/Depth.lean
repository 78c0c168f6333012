import SignalBoard.Digraph.Depth
import SignalBoard.Proofs.Digraph.Sort
import Mathlib.Data.List.Chain
import Mathlib.Order.Bounds.Defs

/-!
# The depth of a vertex is the length of a longest way to it

```lean
theorem layers_ofLists (h : (ofLists names pairs).layers = .ok layers) :
    (ofLists names pairs).sort = .ok layers.order ∧ layers.depths.keys = layers.order ∧
      (∀ v ∈ names, ∃ depth, layers.depths.get? v = some depth ∧
        IsGreatest (lengthsTo (Joined names pairs) v) depth) ∧ …
```

Two things are kept while the order is gone through (`Deepened`). Every depth is the length of some
way, for it is only ever raised along an edge. And the edges out of what has been gone through lead
to something deeper: later turns raise no depth on the near side of such an edge, since no edge
leads back in a forward order. In the end that holds of all edges, so that along a way the depths
grow with every step, and no way is longer than the depth at its end (`WayTo.length_le`).
-/

namespace SignalBoard
namespace Digraph

variable {α : Type}

/-! ## Ways and their lengths -/

/-- A way along a relation, from vertex to vertex, that ends at `v`. -/
structure WayTo (R : α → α → Prop) (v : α) (way : List α) : Prop where
  steps : way.IsChain R
  last : way.getLast? = some v

/-- The lengths of the ways that end at `v`, in steps. -/
def lengthsTo (R : α → α → Prop) (v : α) : Set Nat :=
  {n | ∃ way, WayTo R v way ∧ way.length = n + 1}

variable {R : α → α → Prop} {u v : α}

/-- To stay where one is is a way, of no length. -/
theorem zero_mem_lengthsTo (R : α → α → Prop) (v : α) : 0 ∈ lengthsTo R v :=
  ⟨[v], ⟨.singleton v, rfl⟩, rfl⟩

theorem succ_mem_lengthsTo {n : Nat} (hn : n ∈ lengthsTo R u) (huv : R u v) :
    n + 1 ∈ lengthsTo R v := by
  obtain ⟨way, ⟨hsteps, hlast⟩, hlength⟩ := hn
  refine ⟨way ++ [v], ⟨?_, List.getLast?_concat⟩, by rw [List.length_append, hlength]; rfl⟩
  refine hsteps.append (.singleton v) fun a ha b hb => ?_
  rw [hlast] at ha
  cases ha
  cases hb
  exact huv

/-- If something grows along every step, no way is longer than it is at the end. -/
theorem WayTo.length_le {way : List α} (h : WayTo R v way) {height : α → Nat}
    (hgrows : ∀ u v, R u v → height u < height v) : way.length ≤ height v + 1 := by
  -- the last step first: what is left is a way to the vertex before
  induction way using List.reverseRecOn generalizing v with
  | nil => exact Nat.zero_le _
  | append_singleton front w ih =>
    obtain ⟨hsteps, hlast⟩ := h
    obtain rfl : w = v := by simpa using hlast
    rw [List.isChain_append] at hsteps
    obtain ⟨hfront, -, hjoin⟩ := hsteps
    rw [List.length_append, List.length_singleton]
    cases hu : front.getLast? with
    | none =>
      rw [List.getLast?_eq_none_iff.mp hu]
      exact Nat.le_add_left _ _
    | some u =>
      have hlength := ih ⟨hfront, hu⟩
      have hstep := hgrows u w (hjoin u hu w rfl)
      omega

/-! ## Making vertices deeper -/

/-- The largest of some depths is one of them. -/
theorem isGreatest_maxDepth {depths : OrderedMap α Nat} (hne : depths.values ≠ []) :
    IsGreatest {depth | depth ∈ depths.values} (maxDepth depths) := by
  obtain ⟨depth, hdepth⟩ := Option.isSome_iff_exists.mp (List.isSome_max?_of_ne_nil hne)
  have hmax : maxDepth depths = depth := by
    show depths.values.foldl max 0 = depth
    rw [List.foldl_max, hdepth, Option.getD_some, Nat.zero_max]
  rw [hmax]
  exact List.max?_eq_some_iff.mp hdepth

variable [DecidableEq α] {g : Digraph α} {depths : OrderedMap α Nat} {order done rest : List α}

/-- The depth that is noted for a vertex, zero if there is none. -/
def depthIn (depths : OrderedMap α Nat) (v : α) : Nat :=
  (depths.get? v).getD 0

/-- Of several vertices each is made at least as deep as asked for, and no other vertex changes. -/
theorem get?_foldl_deepen (ws : List α) (depths : OrderedMap α Nat) (depth : Nat) (u : α) :
    (ws.foldl (fun depths w => deepen depths w depth) depths).get? u
      = if u ∈ ws then some (max (depthIn depths u) depth) else depths.get? u := by
  induction ws generalizing depths with
  | nil => simp
  | cons w ws ih =>
    have hfirst : (deepen depths w depth).get? u
        = if u = w then some (max (depthIn depths w) depth) else depths.get? u := by
      rw [deepen, OrderedMap.get?_insert]
      rfl
    rw [List.foldl_cons, ih, depthIn, hfirst]
    -- a vertex that comes again is raised to the same depth once more
    by_cases hw : u = w
    · subst hw
      simp
    · simp [hw, depthIn]

/-- Depths are noted for the same vertices, in the same order. -/
theorem keys_foldl_deepen {ws : List α} {depths : OrderedMap α Nat} (depth : Nat)
    (hws : ∀ w ∈ ws, w ∈ depths.keys) :
    (ws.foldl (fun depths w => deepen depths w depth) depths).keys = depths.keys := by
  induction ws generalizing depths with
  | nil => rfl
  | cons w ws ih =>
    have hkeys : (deepen depths w depth).keys = depths.keys := by
      rw [deepen, OrderedMap.keys_insert, if_pos (hws w List.mem_cons_self)]
    rw [List.foldl_cons, ih, hkeys]
    rw [hkeys]
    exact fun x hx => hws x (List.mem_cons_of_mem _ hx)

/-- Makes the successors of a vertex deeper than the vertex. -/
def deepenFrom (g : Digraph α) (depths : OrderedMap α Nat) (v : α) : OrderedMap α Nat :=
  let depth := depthIn depths v
  (g.successors v).foldl (fun depths w => deepen depths w (depth + 1)) depths

/-- The successors of a vertex get at least the depth below it. -/
theorem depthIn_deepenFrom (g : Digraph α) (depths : OrderedMap α Nat) (v u : α) :
    depthIn (deepenFrom g depths v) u
      = if u ∈ g.successors v then max (depthIn depths u) (depthIn depths v + 1)
        else depthIn depths u := by
  rw [depthIn, deepenFrom, get?_foldl_deepen]
  split <;> rfl

/-- What is kept while an order is gone through, `done` having been gone through. -/
structure Deepened (g : Digraph α) (order done : List α) (depths : OrderedMap α Nat) : Prop where
  keys : depths.keys = order
  attained : ∀ v ∈ order, depthIn depths v ∈ lengthsTo g.Adjacent v
  deeper : ∀ u ∈ done, ∀ v, g.Adjacent u v → depthIn depths u < depthIn depths v

/-- In the beginning every depth is zero, the length of a way without steps. -/
theorem deepened_start (g : Digraph α) (hn : order.Nodup) :
    Deepened g order [] (.ofList (order.map fun v => (v, 0))) := by
  -- no vertex comes twice, so the entries stand as they were put in
  have hentries : (OrderedMap.ofList (order.map fun v => (v, 0))).entries
      = order.map fun v => (v, 0) := by
    rw [OrderedMap.ofList, OrderedMap.entries_foldl_insert]
    · rfl
    · simpa [OrderedMap.empty, Function.comp_def] using hn
  refine ⟨?_, fun v hv => ?_, fun u hu => absurd hu List.not_mem_nil⟩
  · rw [OrderedMap.keys, hentries, List.map_map]
    exact List.map_id order
  · have hzero : (OrderedMap.ofList (order.map fun v => (v, 0))).get? v = some 0 := by
      rw [OrderedMap.get?_eq_some_iff, hentries]
      exact List.mem_map.mpr ⟨v, hv, rfl⟩
    rw [depthIn, hzero]
    exact zero_mem_lengthsTo g.Adjacent v

/-- The turn of the next vertex. -/
theorem Deepened.step (h : Deepened g order done depths) (hforward : g.Forward order)
    (hn : order.Nodup) (hall : ∀ v ∈ g.vertices, v ∈ order) (horder : order = done ++ v :: rest) :
    Deepened g order (done ++ [v]) (deepenFrom g depths v) := by
  have hv : v ∈ order := by rw [horder]; simp
  have hsuccessors : ∀ w ∈ g.successors v, w ∈ order := fun w hw =>
    hall w (mem_successors.mp hw).right_mem
  refine ⟨?_, fun u hu => ?_, fun u hu w huw => ?_⟩
  · rw [deepenFrom, keys_foldl_deepen _ (by rwa [h.keys]), h.keys]
  · rw [depthIn_deepenFrom]
    split
    · next hvu =>
      -- the depth is the old one or comes by the edge from `v`
      rcases max_choice (depthIn depths u) (depthIn depths v + 1) with hmax | hmax
      · rw [hmax]
        exact h.attained u hu
      · rw [hmax]
        exact succ_mem_lengthsTo (h.attained v hv) (mem_successors.mp hvu)
    · exact h.attained u hu
  · -- the near side of the edge keeps its depth, since nothing leads back to it
    have hkept : depthIn (deepenFrom g depths v) u = depthIn depths u := by
      rw [depthIn_deepenFrom, if_neg fun hvu =>
        hforward.not_back hn horder hu (mem_successors.mp hvu)]
    rw [hkept, depthIn_deepenFrom]
    rcases List.mem_append.mp hu with hdone | hself
    · have hlt := h.deeper u hdone w huw
      split
      · exact lt_max_of_lt_left hlt
      · exact hlt
    · rw [List.mem_singleton.mp hself] at huw ⊢
      rw [if_pos (mem_successors.mpr huw)]
      exact lt_max_of_lt_right (Nat.lt_succ_self _)

/-- From turn to turn, until the order has been gone through. -/
theorem Deepened.foldl (h : Deepened g order done depths) (hforward : g.Forward order)
    (hn : order.Nodup) (hall : ∀ v ∈ g.vertices, v ∈ order) (horder : order = done ++ rest) :
    Deepened g order order (rest.foldl (deepenFrom g) depths) := by
  induction rest generalizing done depths with
  | nil =>
    rw [List.append_nil] at horder
    rw [← horder] at h
    exact h
  | cons v rest ih =>
    refine ih (h.step hforward hn hall horder) ?_
    rw [horder, List.append_assoc, List.singleton_append]

/-- **Going along a forward order of all vertices** finds for each of them the length of a longest
way to it. -/
theorem depthsAlong_spec (hforward : g.Forward order) (hn : order.Nodup)
    (hall : ∀ v ∈ g.vertices, v ∈ order) :
    (g.depthsAlong order).keys = order ∧ ∀ v ∈ order,
      ∃ depth, (g.depthsAlong order).get? v = some depth ∧
        IsGreatest (lengthsTo g.Adjacent v) depth := by
  have hdone : Deepened g order order (g.depthsAlong order) :=
    (deepened_start g hn).foldl hforward hn hall rfl
  refine ⟨hdone.keys, fun v hv => ?_⟩
  obtain ⟨depth, hdepth⟩ := OrderedMap.exists_get?_of_mem_keys (hdone.keys ▸ hv)
  have hin : depthIn (g.depthsAlong order) v = depth := by rw [depthIn, hdepth, Option.getD_some]
  refine ⟨depth, hdepth, hin ▸ hdone.attained v hv, ?_⟩
  -- a longer way is excluded, since depths grow with each of its steps
  rintro n ⟨way, hway, hlength⟩
  have hle := hway.length_le fun u w huw => hdone.deeper u (hall u huw.left_mem) w huw
  rw [hlength, hin] at hle
  omega

/-! ## The depths of a sort -/

/-- The layers of a graph are made of its sort and of the depths along it. -/
theorem layers_eq_ok_iff {layers : Layers α} : g.layers = .ok layers ↔
    g.sort = .ok layers.order ∧ layers.depths = g.depthsAlong layers.order ∧
      layers.maxDepth = maxDepth layers.depths := by
  rw [Digraph.layers]
  cases g.sort with
  | error loop => simp [Except.map]
  | ok order =>
    obtain ⟨order', depths, largest⟩ := layers
    simp only [Except.map, Except.ok.injEq, Layers.mk.injEq]
    constructor
    · rintro ⟨rfl, rfl, rfl⟩
      exact ⟨rfl, rfl, rfl⟩
    · rintro ⟨rfl, rfl, rfl⟩
      exact ⟨rfl, rfl, rfl⟩

/-- **A depth is the number of edges of a longest path**, along pairs of which both ends are among
the names. The depths are kept in the sorted order, and the largest one is zero if there are no
names. -/
theorem layers_ofLists {names : List α} {pairs : List (α × α)} {layers : Layers α}
    (h : (ofLists names pairs).layers = .ok layers) :
    (ofLists names pairs).sort = .ok layers.order ∧ layers.depths.keys = layers.order ∧
      (∀ v ∈ names, ∃ depth, layers.depths.get? v = some depth ∧
        IsGreatest (lengthsTo (Joined names pairs) v) depth) ∧
      (names = [] → layers.maxDepth = 0) ∧
      (names ≠ [] → IsGreatest {depth | depth ∈ layers.depths.values} layers.maxDepth) := by
  obtain ⟨hsort, hdepths, hmax⟩ := layers_eq_ok_iff.mp h
  have hall : ∀ v ∈ (ofLists names pairs).vertices, v ∈ layers.order := fun v hv =>
    (sort_perm hsort).mem_iff.mpr hv
  obtain ⟨hkeys, hgreatest⟩ := depthsAlong_spec (sort_forward hsort) (sort_nodup hsort) hall
  rw [← hdepths] at hkeys hgreatest
  refine ⟨hsort, hkeys, fun v hv => ?_, ?_, fun hne => ?_⟩
  · rw [joined_eq]
    exact hgreatest v (hall v (mem_vertices_ofLists.mpr hv))
  · -- without names there is nothing to take the largest of
    rintro rfl
    have horder : layers.order = [] := (sort_perm hsort).eq_nil
    rw [horder] at hkeys
    have hentries : layers.depths.entries = [] := List.map_eq_nil_iff.mp hkeys
    rw [hmax, maxDepth, OrderedMap.values, hentries]
    rfl
  · obtain ⟨v, hv⟩ := List.exists_mem_of_ne_nil names hne
    obtain ⟨depth, hdepth, -⟩ := hgreatest v (hall v (mem_vertices_ofLists.mpr hv))
    rw [hmax]
    exact isGreatest_maxDepth (List.ne_nil_of_mem (OrderedMap.mem_values_of_get? hdepth))

/-- Two ways to `3`, the shorter one twice. The name `1` comes twice, and `9` is no name. -/
theorem layers_ofLists_detour :
    let names := [3, 1, 2, 1]
    let pairs := [(1, 3), (1, 2), (9, 1), (2, 3), (1, 3)]
    ∃ layers, (ofLists names pairs).layers = .ok layers ∧ layers.order = [1, 2, 3] ∧
      layers.depths.entries = [(1, 0), (2, 1), (3, 2)] ∧
      IsGreatest (lengthsTo (Joined names pairs) 3) 2 ∧ layers.maxDepth = 2 := by
  intro names pairs
  -- the run is evaluated; that the depths are those of longest ways is the theorem
  have hview : (ofLists names pairs).layers.map
      (fun layers => (layers.order, layers.depths.entries, layers.maxDepth))
        = .ok ([1, 2, 3], [(1, 0), (2, 1), (3, 2)], 2) := by decide +kernel
  cases h : (ofLists names pairs).layers with
  | error loop => rw [h] at hview; cases hview
  | ok layers =>
    rw [h] at hview
    obtain ⟨horder, hentries, hmax⟩ : layers.order = [1, 2, 3] ∧
        layers.depths.entries = [(1, 0), (2, 1), (3, 2)] ∧ layers.maxDepth = 2 := by
      simpa [Except.map] using hview
    obtain ⟨-, -, hdepths, -⟩ := layers_ofLists h
    obtain ⟨depth, hdepth, hgreatest⟩ := hdepths 3 (by decide)
    rw [OrderedMap.get?_eq_some_iff, hentries] at hdepth
    obtain rfl : depth = 2 := by simpa using hdepth
    exact ⟨layers, rfl, horder, hentries, hgreatest, hmax⟩

end Digraph
end SignalBoard
