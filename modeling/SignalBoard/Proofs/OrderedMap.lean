import SignalBoard.OrderedMap

/-!
# Looking up in ordered maps

What each operation on an ordered map does to look-up. Since no key occurs twice, a map holds a
value under a key exactly if the pair of the two is one of its entries (`get?_eq_some_iff`), and
everything else here is read off that. Putting in the entries of a map in their order gives the map
(`ofList_entries`).
-/

namespace SignalBoard
namespace OrderedMap

variable {κ α β : Type}

/-- A map is its entries; that no key comes twice is no further data. -/
theorem ext_entries {m m' : OrderedMap κ α} (h : m.entries = m'.entries) : m = m' := by
  obtain ⟨entries, _⟩ := m
  obtain ⟨entries', _⟩ := m'
  obtain rfl : entries = entries' := h
  rfl

variable [DecidableEq κ]

/-- In a list of pairs without a repeated first component, the pair that is found is any pair that
is there. -/
theorem find?_of_mem_nodup {entries : List (κ × α)} (hn : (entries.map Prod.fst).Nodup)
    {k : κ} {v : α} (h : (k, v) ∈ entries) : entries.find? (fun e => e.1 = k) = some (k, v) := by
  induction entries with
  | nil => cases h
  | cons e rest ih =>
    rw [List.map_cons, List.nodup_cons] at hn
    rcases List.mem_cons.mp h with rfl | hrest
    · simp
    · -- the head has another key, since that key comes again in the rest
      have hne : e.1 ≠ k := fun he => hn.1 (List.mem_map.mpr ⟨(k, v), hrest, he.symm⟩)
      rw [List.find?_cons_of_neg (by simpa using hne)]
      exact ih hn.2 hrest

/-- **Look-up** finds a value just if the pair is an entry. -/
theorem get?_eq_some_iff {m : OrderedMap κ α} {k : κ} {v : α} :
    m.get? k = some v ↔ (k, v) ∈ m.entries := by
  constructor
  · intro h
    obtain ⟨e, he, hv⟩ := Option.map_eq_some_iff.mp h
    have hk : e.1 = k := by simpa using List.find?_some he
    rw [← hk, ← hv]
    exact List.mem_of_find?_eq_some he
  · intro h
    rw [get?, find?_of_mem_nodup m.nodup h]
    rfl

theorem mem_keys_of_get? {m : OrderedMap κ α} {k : κ} {v : α} (h : m.get? k = some v) :
    k ∈ m.keys :=
  get?_isSome_iff.mp (by rw [h]; rfl)

theorem exists_get?_of_mem_keys {m : OrderedMap κ α} {k : κ} (h : k ∈ m.keys) :
    ∃ v, m.get? k = some v :=
  Option.isSome_iff_exists.mp (get?_isSome_iff.mpr h)

/-- A value that is found is one of the values. -/
theorem mem_values_of_get? {m : OrderedMap κ α} {k : κ} {v : α} (h : m.get? k = some v) :
    v ∈ m.values :=
  List.mem_map.mpr ⟨(k, v), get?_eq_some_iff.mp h, rfl⟩

/-- To put in a value replaces the entry of its key and no other, wherever the entry goes. -/
theorem mem_entries_insert {m : OrderedMap κ α} {k k' : κ} {v v' : α} :
    (k', v') ∈ (m.insert k v).entries ↔ if k' = k then v' = v else (k', v') ∈ m.entries := by
  by_cases hk : k ∈ m.keys
  · rw [insert, dif_pos hk]
    simp only [replaceIn, List.mem_map]
    -- the key is there: its entry is replaced in its place
    constructor
    · rintro ⟨e, he, heq⟩
      by_cases hek : e.1 = k
      · rw [if_pos hek] at heq
        obtain ⟨rfl, rfl⟩ := Prod.mk.inj heq
        rw [if_pos hek]
      · rw [if_neg hek] at heq
        subst heq
        rw [if_neg hek]
        exact he
    · intro h
      by_cases hk' : k' = k
      · rw [if_pos hk'] at h
        subst hk' h
        obtain ⟨e, he, hek⟩ := List.mem_map.mp hk
        exact ⟨e, he, by rw [if_pos hek, hek]⟩
      · rw [if_neg hk'] at h
        exact ⟨(k', v'), h, if_neg hk'⟩
  · rw [insert, dif_neg hk]
    -- the key is new: its entry comes last
    simp only [List.mem_append, List.mem_singleton, Prod.mk.injEq]
    by_cases hk' : k' = k
    · subst hk'
      have hnot : (k', v') ∉ m.entries := fun h => hk (List.mem_map.mpr ⟨_, h, rfl⟩)
      simp [hnot]
    · simp [hk']

/-- After putting in a value it is found under its key, and the rest as before. -/
@[simp] theorem get?_insert (m : OrderedMap κ α) (k k' : κ) (v : α) :
    (m.insert k v).get? k' = if k' = k then some v else m.get? k' := by
  ext v'
  rw [get?_eq_some_iff, mem_entries_insert]
  by_cases h : k' = k
  · simp [h, eq_comm]
  · simp only [if_neg h, get?_eq_some_iff]

/-- To change all values changes what is found. -/
@[simp] theorem get?_mapValues (f : α → β) (m : OrderedMap κ α) (k : κ) :
    (m.mapValues f).get? k = (m.get? k).map f := by
  ext w
  rw [get?_eq_some_iff, Option.map_eq_some_iff]
  simp only [mapValues, List.mem_map, Prod.mk.injEq, get?_eq_some_iff]
  constructor
  · rintro ⟨⟨k₀, v⟩, he, rfl, rfl⟩
    exact ⟨v, he, rfl⟩
  · rintro ⟨v, he, rfl⟩
    exact ⟨(k, v), he, rfl, rfl⟩

/-- An entry that is taken out is not found. -/
@[simp] theorem get?_filter (p : κ → α → Bool) (m : OrderedMap κ α) (k : κ) :
    (m.filter p).get? k = (m.get? k).filter (p k) := by
  ext v
  rw [get?_eq_some_iff, Option.filter_eq_some_iff, get?_eq_some_iff]
  simp only [filter, List.mem_filter]

/-- In a table every key finds its own value. -/
@[simp] theorem get?_tabulate (ks : List κ) (h : ks.Nodup) (f : κ → α) (k : κ) :
    (tabulate ks h f).get? k = if k ∈ ks then some (f k) else none := by
  ext v
  rw [get?_eq_some_iff]
  simp only [tabulate, List.mem_map, Prod.mk.injEq]
  constructor
  · rintro ⟨_, hk, rfl, rfl⟩
    rw [if_pos hk]
  · intro hv
    by_cases hk : k ∈ ks
    · rw [if_pos hk] at hv
      exact ⟨k, hk, rfl, (Option.some.inj hv)⟩
    · rw [if_neg hk] at hv
      cases hv

/-! ## Maps from lists -/

/-- New keys are put in behind the others, in their order. -/
theorem entries_foldl_insert {pairs : List (κ × α)} {m : OrderedMap κ α}
    (h : ((m.entries ++ pairs).map Prod.fst).Nodup) :
    (pairs.foldl (fun m e => m.insert e.1 e.2) m).entries = m.entries ++ pairs := by
  induction pairs generalizing m with
  | nil => simp
  | cons e pairs ih =>
    have hnew : e.1 ∉ m.keys := by
      intro hmem
      rw [List.map_append, List.nodup_append] at h
      exact h.2.2 e.1 hmem e.1 (by simp) rfl
    have hinsert : (m.insert e.1 e.2).entries = m.entries ++ [e] := by
      rw [insert, dif_neg hnew]
    rw [List.foldl_cons, ih (by rw [hinsert]; simpa using h), hinsert]
    simp

/-- Putting in the entries of a map in their order gives the map. -/
theorem ofList_entries (m : OrderedMap κ α) : ofList m.entries = m := by
  apply ext_entries
  rw [ofList, entries_foldl_insert]
  · rfl
  · exact m.nodup

/-- Every entry was put in. -/
theorem mem_of_mem_entries_ofList {pairs : List (κ × α)} {e : κ × α}
    (he : e ∈ (ofList pairs).entries) : e ∈ pairs := by
  have hfold : ∀ {m : OrderedMap κ α}, e ∈ (pairs.foldl (fun m e => m.insert e.1 e.2) m).entries →
      e ∈ m.entries ∨ e ∈ pairs := by
    clear he
    induction pairs with
    | nil => exact fun h => .inl h
    | cons p pairs ih =>
      intro m h
      -- by induction: the entry was put in by the rest, or it was there after the first pair
      rcases ih h with hmem | hmem
      · obtain ⟨k, v⟩ := e
        rw [mem_entries_insert] at hmem
        split at hmem
        · next hk =>
          refine .inr (List.mem_cons.mpr (.inl ?_))
          rw [hk, hmem]
        · exact .inl hmem
      · exact .inr (List.mem_cons_of_mem _ hmem)
  exact (hfold he).resolve_left List.not_mem_nil

end OrderedMap
end SignalBoard
