/-!
# Maps in order of insertion

A map is the list of its entries, no key twice. A new key goes to the end and a known one keeps its
place, so the entries are in the order in which their keys first came in. The view of a map is
`entries`; the lemmas here say what each operation does to the keys and to look-up.
-/

namespace SignalBoard

/-- A finite map that keeps the order in which its keys came in. -/
structure OrderedMap (κ α : Type) where
  entries : List (κ × α)
  nodup : (entries.map Prod.fst).Nodup

namespace OrderedMap

variable {κ α β : Type}

def keys (m : OrderedMap κ α) : List κ :=
  m.entries.map Prod.fst

def values (m : OrderedMap κ α) : List α :=
  m.entries.map Prod.snd

def size (m : OrderedMap κ α) : Nat :=
  m.entries.length

def empty : OrderedMap κ α :=
  ⟨[], List.nodup_nil⟩

instance : Inhabited (OrderedMap κ α) := ⟨empty⟩

instance [DecidableEq κ] [DecidableEq α] : DecidableEq (OrderedMap κ α)
  | ⟨xs, _⟩, ⟨ys, _⟩ =>
    if h : xs = ys then isTrue (by subst h; rfl)
    else isFalse fun e => h (congrArg OrderedMap.entries e)

/-- A map with the given keys, the value of each computed from it. -/
def tabulate (ks : List κ) (h : ks.Nodup) (f : κ → α) : OrderedMap κ α :=
  ⟨ks.map fun k => (k, f k), by
    have e : (ks.map fun k => (k, f k)).map Prod.fst = ks := by
      rw [List.map_map]; exact List.map_id ks
    rw [e]; exact h⟩

/-- Keeps the entries that pass a test. -/
def filter (p : κ → α → Bool) (m : OrderedMap κ α) : OrderedMap κ α where
  entries := m.entries.filter fun e => p e.1 e.2
  nodup := m.nodup.sublist (List.filter_sublist.map Prod.fst)

/-- Applies a function to every value. -/
def mapValues (f : α → β) (m : OrderedMap κ α) : OrderedMap κ β where
  entries := m.entries.map fun e => (e.1, f e.2)
  nodup := by
    have h : (m.entries.map fun e => (e.1, f e.2)).map Prod.fst = m.entries.map Prod.fst := by simp
    rw [h]; exact m.nodup

theorem nodup_keys (m : OrderedMap κ α) : m.keys.Nodup := m.nodup

@[simp] theorem keys_empty : (empty : OrderedMap κ α).keys = [] := rfl

@[simp] theorem keys_mapValues (f : α → β) (m : OrderedMap κ α) :
    (m.mapValues f).keys = m.keys := by
  simp [keys, mapValues]

variable [DecidableEq κ]

/-- The value under a key. -/
def get? (m : OrderedMap κ α) (k : κ) : Option α :=
  (m.entries.find? fun e => e.1 = k).map Prod.snd

def contains (m : OrderedMap κ α) (k : κ) : Bool :=
  k ∈ m.keys

/-- The entries with the value under one key replaced. -/
def replaceIn (k : κ) (v : α) (entries : List (κ × α)) : List (κ × α) :=
  entries.map fun e => if e.1 = k then (e.1, v) else e

@[simp] theorem map_fst_replaceIn (k : κ) (v : α) (entries : List (κ × α)) :
    (replaceIn k v entries).map Prod.fst = entries.map Prod.fst := by
  simp only [replaceIn, List.map_map]
  refine List.map_congr_left fun e _ => ?_
  by_cases h : e.1 = k <;> simp [h]

/-- Puts a value under a key. A known key keeps its place, a new one goes to the end. -/
def insert (m : OrderedMap κ α) (k : κ) (v : α) : OrderedMap κ α :=
  if h : k ∈ m.keys then ⟨replaceIn k v m.entries, by rw [map_fst_replaceIn]; exact m.nodup⟩
  else
    ⟨m.entries ++ [(k, v)], by
      rw [List.map_append, List.nodup_append]
      refine ⟨m.nodup, by simp, ?_⟩
      intro a ha b hb hab
      simp only [List.map_cons, List.map_nil, List.mem_singleton] at hb
      exact h (by rw [← hb, ← hab]; exact ha)⟩

/-- Takes a key out; the others keep their order. -/
def erase (m : OrderedMap κ α) (k : κ) : OrderedMap κ α :=
  m.filter fun k' _ => k' ≠ k

/-- The map that results from putting in the pairs of a list one after the other. -/
def ofList (pairs : List (κ × α)) : OrderedMap κ α :=
  pairs.foldl (fun m e => m.insert e.1 e.2) empty

/-! ## Keys -/

/-- A new key goes to the end, a known one keeps its place. -/
theorem keys_insert (m : OrderedMap κ α) (k : κ) (v : α) :
    (m.insert k v).keys = if k ∈ m.keys then m.keys else m.keys ++ [k] := by
  by_cases h : k ∈ m.keys
  · rw [insert, dif_pos h, if_pos h]; exact map_fst_replaceIn k v m.entries
  · rw [insert, dif_neg h, if_neg h]; simp [keys]

/-- After putting in a value its key is there, and so are the others. -/
theorem mem_keys_insert {m : OrderedMap κ α} {k k' : κ} {v : α} :
    k' ∈ (m.insert k v).keys ↔ k' = k ∨ k' ∈ m.keys := by
  rw [keys_insert]
  by_cases h : k ∈ m.keys
  · rw [if_pos h]
    exact ⟨Or.inr, fun h' => h'.elim (fun e => e ▸ h) id⟩
  · rw [if_neg h]; simp [or_comm]

/-! ## Look-up -/

@[simp] theorem get?_empty (k : κ) : (empty : OrderedMap κ α).get? k = none := rfl

theorem get?_eq_none_iff {m : OrderedMap κ α} {k : κ} : m.get? k = none ↔ k ∉ m.keys := by
  rw [get?, Option.map_eq_none_iff, List.find?_eq_none, keys, List.mem_map]
  exact ⟨fun h ⟨e, he, hk⟩ => h e he (by simpa using hk),
    fun h e he hk => h ⟨e, he, by simpa using hk⟩⟩

theorem get?_isSome_iff {m : OrderedMap κ α} {k : κ} : (m.get? k).isSome ↔ k ∈ m.keys := by
  rw [← Decidable.not_iff_not, ← get?_eq_none_iff]
  cases m.get? k <;> simp

end OrderedMap
end SignalBoard
