import SignalBoard.Value.Fields
import SignalBoard.Proofs.Json.Reader
import SignalBoard.Proofs.Json.RoundTrip

/-!
# Records and lists of values

How values that are put together from fields and items are taken apart again, and what is known of
the fields and items of a value that was read.

* `fields?_record`: a record with known names, none of them twice, gives back its fields.
* `exists_of_required`, `exists_of_mem_of_list?`: what a field or an item is read from is part of
  the value.
* `nesting_record_le`, `nesting_list_le`: how deep a value is, one level at a time.
-/

namespace SignalBoard

/-! ## Fields of records -/

namespace Fields

variable {names : List String} {fields : Fields} {name : String} {v : Value}

/-- A field that is found is one of the entries. -/
theorem mem_of_get? (h : fields.get? name = some v) : ∃ e ∈ fields.entries, e.2 = v := by
  obtain ⟨e, he, hv⟩ := Option.map_eq_some_iff.mp h
  exact ⟨e, List.mem_of_find?_eq_some he, hv⟩

theorem get?_eq_none (h : name ∉ fields.entries.map Prod.fst) : fields.get? name = none := by
  rw [get?, Option.map_eq_none_iff, List.find?_eq_none]
  intro e he heq
  exact h (List.mem_map.mpr ⟨e, he, by simpa using heq⟩)

/-- The entries of a record are taken in one after the other. -/
theorem foldlM_addEntry {entries : List (String × Value)} (hknown : ∀ e ∈ entries, e.1 ∈ names)
    (hnodup : ((fields.entries ++ entries).map Prod.fst).Nodup) :
    (entries.map fun (name, v) => (Value.text name, v)).foldlM (Fields.addEntry? names) fields
      = some ⟨fields.entries ++ entries⟩ := by
  induction entries generalizing fields with
  | nil => simp
  | cons e entries ih =>
    obtain ⟨name, v⟩ := e
    rw [List.forall_mem_cons] at hknown
    -- no entry that is left has a name that was taken in before, so none is refused as a duplicate
    have hnew : fields.get? name = none := by
      refine get?_eq_none fun hmem => ?_
      rw [List.map_append, List.nodup_append] at hnodup
      exact hnodup.2.2 name hmem name (by simp) rfl
    have hadd : Fields.addEntry? names fields (.text name, v)
        = some ⟨fields.entries ++ [(name, v)]⟩ := by
      simp [Fields.addEntry?, name?, hknown.1, hnew]
    rw [List.map_cons, List.foldlM_cons, hadd]
    refine (ih hknown.2 (by simpa using hnodup)).trans ?_
    simp

/-- The first entry is found under its name and hides no other. -/
theorem get?_cons (k : String) (v : Value) (rest : List (String × Value)) (name : String) :
    get? ⟨(k, v) :: rest⟩ name = if k = name then some v else get? ⟨rest⟩ name := by
  by_cases h : k = name <;> simp [get?, h]

/-- A field that must be there, looked up one entry at a time. -/
theorem required_cons {α : Type} (k : String) (v : Value) (rest : List (String × Value))
    (name : String) (read : Value → Option α) :
    required ⟨(k, v) :: rest⟩ name read
      = if k = name then read v else required ⟨rest⟩ name read := by
  by_cases h : k = name <;> simp [required, get?_cons, h]

/-- A field with a default, looked up one entry at a time. -/
theorem withDefault_cons {α : Type} (k : String) (v : Value) (rest : List (String × Value))
    (name : String) (default : α) (read : Value → Option α) :
    withDefault ⟨(k, v) :: rest⟩ name default read
      = if k = name then read v else withDefault ⟨rest⟩ name default read := by
  by_cases h : k = name <;> simp [withDefault, get?_cons, h]

/-- A field that is not there has its default. -/
theorem withDefault_nil {α : Type} (name : String) (default : α) (read : Value → Option α) :
    withDefault ⟨[]⟩ name default read = some default := by
  rw [withDefault, get?_eq_none List.not_mem_nil]

/-- The values of all fields are in range. -/
def InRange (fields : Fields) : Prop :=
  ∀ e ∈ fields.entries, e.2.InRange

/-- To take in an entry that is in range keeps the fields in range; an unknown name is passed
over. -/
theorem inRange_of_addEntry {next : Fields} {entry : Value × Value} (hfields : fields.InRange)
    (hentry : entry.2.InRange) (h : Fields.addEntry? names fields entry = some next) :
    next.InRange := by
  rw [Fields.addEntry?.eq_def] at h
  -- no name at all, a name that is not known, and a known one, which must not come twice
  split at h
  · cases h
  · obtain rfl := Option.some.inj h
    exact hfields
  · split at h
    · cases h
    · obtain rfl := Option.some.inj h
      intro e he
      rcases List.mem_append.mp he with he | he
      · exact hfields e he
      · rw [List.mem_singleton.mp he]
        exact hentry

/-- The fields that are collected from entries in range are in range. -/
theorem inRange_of_foldlM {entries : List (Value × Value)} {last : Fields}
    (hfields : fields.InRange) (hentries : ∀ e ∈ entries, e.2.InRange)
    (h : entries.foldlM (Fields.addEntry? names) fields = some last) : last.InRange := by
  induction entries generalizing fields with
  | nil =>
    obtain rfl := Option.some.inj h
    exact hfields
  | cons e entries ih =>
    rw [List.forall_mem_cons] at hentries
    rw [List.foldlM_cons] at h
    obtain ⟨next, hnext, hlast⟩ := Option.bind_eq_some_iff.mp h
    exact ih (inRange_of_addEntry hfields hentries.1 hnext) hentries.2 hlast

/-- A field that was read has a value. -/
theorem exists_of_required {α : Type} {read : Value → Option α} {a : α}
    (h : fields.required name read = some a) : ∃ e ∈ fields.entries, read e.2 = some a := by
  obtain ⟨v, hv, ha⟩ := Option.bind_eq_some_iff.mp h
  obtain ⟨e, he, rfl⟩ := mem_of_get? hv
  exact ⟨e, he, ha⟩

/-- A field that was read has a value or its default. -/
theorem eq_or_exists_of_withDefault {α : Type} {read : Value → Option α} {a default : α}
    (h : fields.withDefault name default read = some a) :
    a = default ∨ ∃ e ∈ fields.entries, read e.2 = some a := by
  rw [withDefault] at h
  split at h
  · next v hv =>
    obtain ⟨e, he, rfl⟩ := mem_of_get? hv
    exact .inr ⟨e, he, h⟩
  · exact .inl (Option.some.inj h).symm

end Fields

namespace Value

variable {names : List String} {v : Value}

/-- A record gives back its fields. -/
theorem fields?_record {entries : List (String × Value)} (hknown : ∀ e ∈ entries, e.1 ∈ names)
    (hnodup : (entries.map Prod.fst).Nodup) :
    (record entries).fields? names = some ⟨entries⟩ :=
  Fields.foldlM_addEntry hknown hnodup

/-- The fields of a value in range are in range, whether they stood in a map or, without their
names, in a list. -/
theorem inRange_of_fields? {fields : Fields} (hv : v.InRange) (h : v.fields? names = some fields) :
    fields.InRange := by
  cases hv with
  | map hvalues =>
    have hempty : Fields.empty.InRange := fun e he => absurd he List.not_mem_nil
    exact Fields.inRange_of_foldlM hempty hvalues h
  -- a list without names stands for a record, its items in the order of the names
  | list hitems =>
    rw [fields?, Option.ite_none_right_eq_some] at h
    obtain rfl := Option.some.inj h.2
    exact fun e he => hitems _ (List.of_mem_zip he).2
  | _ => cases h

/-- A record is printed and read back as it is if this holds of its fields. -/
theorem written_record {entries : List (String × Value)} (h : ∀ e ∈ entries, e.2.Written) :
    (record entries).Written := by
  refine .map ?_ ?_
  · rw [List.forall_mem_map]
    exact fun e _ => ⟨e.1, rfl⟩
  · rw [List.forall_mem_map]
    exact h

/-! ## Words -/

theorem word64?_ofWord64 (n : UInt64) : (ofWord64 n).word64? = some n := by
  have hlt : n.toNat < UInt64.size := n.toNat_lt
  simp [ofWord64, word64?, hlt]

theorem word32?_ofWord32 (n : UInt32) : (ofWord32 n).word32? = some n := by
  have hlt : n.toNat < UInt32.size := n.toNat_lt
  simp [ofWord32, word32?, hlt]

/-- A word of 64 bits is an integer that documents can hold. -/
theorem written_ofWord64 (n : UInt64) : (ofWord64 n).Written := by
  have hlt := n.toNat_lt
  refine .int (by omega) ?_
  exact_mod_cast hlt

/-- A word of 32 bits is an integer that documents can hold. -/
theorem written_ofWord32 (n : UInt32) : (ofWord32 n).Written := by
  have hlt := n.toNat_lt
  have hsize : UInt64.size = 18446744073709551616 := rfl
  refine .int (by omega) ?_
  rw [hsize]
  omega

/-! ## Lists -/

section

variable {α β : Type}

/-- A list is read back if each of its items is. -/
theorem mapM_map_eq_some {read : β → Option α} {write : α → β} {xs : List α}
    (h : ∀ x ∈ xs, read (write x) = some x) : (xs.map write).mapM read = some xs := by
  induction xs with
  | nil => rfl
  | cons x xs ih =>
    rw [List.forall_mem_cons] at h
    rw [List.map_cons, List.mapM_cons, h.1, ih h.2]
    rfl

/-- One item that cannot be read back spoils the list. -/
theorem mapM_map_eq_none {read : β → Option α} {write : α → β} {xs : List α} {x : α} (hx : x ∈ xs)
    (h : read (write x) = none) : (xs.map write).mapM read = none := by
  induction xs with
  | nil => exact absurd hx List.not_mem_nil
  | cons y xs ih =>
    rw [List.map_cons, List.mapM_cons]
    -- whether the bad item is the first or a later one, nothing comes out of what is bound to it
    rcases List.mem_cons.mp hx with rfl | hx
    · rw [h]
      rfl
    · cases read (write y) with
      | none => rfl
      | some z =>
        rw [ih hx]
        rfl

/-- Whatever is in a list that was read was read from one of the items. -/
theorem exists_of_mem_of_mapM {read : β → Option α} {bs : List β} {xs : List α}
    (h : bs.mapM read = some xs) {x : α} (hx : x ∈ xs) : ∃ b ∈ bs, read b = some x := by
  induction bs generalizing xs with
  | nil =>
    obtain rfl := Option.some.inj h
    exact absurd hx List.not_mem_nil
  | cons b bs ih =>
    rw [List.mapM_cons] at h
    obtain ⟨y, hy, h⟩ := Option.bind_eq_some_iff.mp h
    obtain ⟨ys, hys, h⟩ := Option.bind_eq_some_iff.mp h
    obtain rfl := Option.some.inj h
    rcases List.mem_cons.mp hx with rfl | hx
    · exact ⟨b, List.mem_cons_self, hy⟩
    · obtain ⟨b', hb', hx⟩ := ih hys hx
      exact ⟨b', List.mem_cons_of_mem _ hb', hx⟩

variable {read : Value → Option α}

/-- Every item of a list that was read was read from an item in range. -/
theorem exists_of_mem_of_list? (hv : v.InRange) {xs : List α} (h : v.list? read = some xs) {x : α}
    (hx : x ∈ xs) : ∃ w : Value, w.InRange ∧ read w = some x := by
  rw [list?.eq_def] at h
  split at h
  · next items =>
    obtain ⟨w, hw, hread⟩ := exists_of_mem_of_mapM h hx
    cases hv with
    | list hitems => exact ⟨w, hitems w hw, hread⟩
  · obtain rfl := Option.some.inj h
    exact absurd hx List.not_mem_nil
  · cases h

/-- Where there is no null, there is something to read. -/
theorem option?_of_ne_null {v : Value} (h : v ≠ null) : v.option? read = (read v).map some := by
  cases v with
  | null => exact absurd rfl h
  | _ => rfl

/-- A value that may be null gives nothing or what is read from it. -/
theorem eq_none_or_of_option? {a : Option α} (h : v.option? read = some a) :
    a = none ∨ ∃ b, a = some b ∧ read v = some b := by
  rw [option?.eq_def] at h
  split at h
  · exact .inl (Option.some.inj h).symm
  · obtain ⟨b, hb, rfl⟩ := Option.map_eq_some_iff.mp h
    exact .inr ⟨b, rfl, hb⟩

end

/-! ## Nesting -/

mutual

/-- How many lists and maps are nested in each other in a value. -/
def nesting : Value → Nat
  | list items => 1 + itemsNesting items
  | map entries => 1 + entriesNesting entries
  | _ => 0

/-- The deepest nesting in the items of a list. -/
def itemsNesting : List Value → Nat
  | [] => 0
  | v :: rest => max v.nesting (itemsNesting rest)

/-- The deepest nesting in the values of a map. -/
def entriesNesting : List (Value × Value) → Nat
  | [] => 0
  | (_, v) :: rest => max v.nesting (entriesNesting rest)

end

/-- The items of a list are nested as deep as the deepest of them. -/
theorem itemsNesting_le {items : List Value} {n : Nat} :
    itemsNesting items ≤ n ↔ ∀ v ∈ items, v.nesting ≤ n := by
  induction items with
  | nil => simp [itemsNesting]
  | cons v items ih => rw [itemsNesting, Nat.max_le, ih, List.forall_mem_cons]

/-- The values of a map are nested as deep as the deepest of them. -/
theorem entriesNesting_le {entries : List (Value × Value)} {n : Nat} :
    entriesNesting entries ≤ n ↔ ∀ e ∈ entries, e.2.nesting ≤ n := by
  induction entries with
  | nil => simp [entriesNesting]
  | cons e entries ih =>
    obtain ⟨k, v⟩ := e
    rw [entriesNesting, Nat.max_le, ih, List.forall_mem_cons]

@[simp] theorem nesting_text (s : String) : (text s).nesting = 0 := by rw [nesting] <;> simp

@[simp] theorem nesting_ofWord64 (n : UInt64) : (ofWord64 n).nesting = 0 := by
  rw [ofWord64, nesting] <;> simp

@[simp] theorem nesting_ofWord32 (n : UInt32) : (ofWord32 n).nesting = 0 := by
  rw [ofWord32, nesting] <;> simp

/-- A list takes one level more than its items. -/
theorem nesting_list_le {items : List Value} {n : Nat} :
    (list items).nesting ≤ n + 1 ↔ ∀ v ∈ items, v.nesting ≤ n := by
  rw [nesting, Nat.add_comm, Nat.add_le_add_iff_right, itemsNesting_le]

/-- A record takes one level more than its fields. -/
theorem nesting_record_le {entries : List (String × Value)} {n : Nat} :
    (record entries).nesting ≤ n + 1 ↔ ∀ e ∈ entries, e.2.nesting ≤ n := by
  rw [record, nesting, Nat.add_comm, Nat.add_le_add_iff_right, entriesNesting_le,
    List.forall_mem_map]

end Value
end SignalBoard
