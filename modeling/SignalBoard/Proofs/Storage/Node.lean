import SignalBoard.Storage.Node
import SignalBoard.Proofs.Value.Record
import SignalBoard.Proofs.OrderedMap
import SignalBoard.Proofs.Node.Kind

/-!
# Ids, kinds and parameters read back

Ids, kinds that come from type texts, and parameters are read back from their values, and what is
read has finite numbers only.

* `NodeKind.ofValue?_toValue`: kinds survive although two of them have an alias, because the text
  that is written is one for the same kind (`ofText_text_ofText`).
* `Params.ofValue?_toValue`, `Params.storable_of_ofValue?`: the two directions for parameters.
-/

namespace SignalBoard

namespace NodeId

/-- An id is written as its text and read back from it. -/
theorem ofValue?_toValue (id : NodeId) : ofValue? id.toValue = some id := by
  rw [toValue, ofValue?, Value.text?, Option.map_some]

end NodeId

namespace NodeKind

/-- A kind is read back if it came from a type text. For one that did not, such as an unknown kind
with the name of a built-in one, the text that is written means another kind. -/
theorem ofValue?_toValue {kind : NodeKind} (h : ∃ s, kind = ofText s) :
    ofValue? kind.toValue = some kind := by
  obtain ⟨s, rfl⟩ := h
  show some (ofText (ofText s).text) = _
  rw [ofText_text_ofText]

/-- Every kind that is read comes from a type text, so it can be written and read again. -/
theorem exists_of_ofValue? {v : Value} {kind : NodeKind} (h : ofValue? v = some kind) :
    ∃ s, kind = ofText s := by
  obtain ⟨s, -, hs⟩ := Option.map_eq_some_iff.mp h
  exact ⟨s, hs.symm⟩

end NodeKind

namespace ParamValue

/-- Numbers that documents can hold. -/
def Storable : ParamValue → Prop
  | number x => x.isFinite = true
  | _ => True

/-- A parameter is read back from its value, also a number that is not finite: it is the printing
that turns it into null. -/
theorem ofValue?_toValue (v : ParamValue) : ofValue? v.toValue = some v := by
  cases v <;> rfl

/-- The value of a storable parameter is one that is printed and read back as it is. -/
theorem written_toValue {v : ParamValue} (h : v.Storable) : v.toValue.Written := by
  cases v with
  | bool b => exact .bool b
  | number x => exact .real h
  | text s => exact .text s
  | null => exact .null

theorem nesting_toValue (v : ParamValue) : v.toValue.nesting = 0 := by
  cases v <;> rfl

/-- What is read from a value in range can be stored. An integer becomes a finite number, because
none in range is too large. -/
theorem storable_of_ofValue? {v : Value} {p : ParamValue} (hv : v.InRange)
    (h : ofValue? v = some p) : p.Storable := by
  -- every value but null, a truth value and a number is taken for a text, if for anything
  have htext : ∀ {w : Value}, ofValue? w = w.text?.map text → ofValue? w = some p → p.Storable := by
    intro w hw hp
    rw [hw] at hp
    obtain ⟨s, -, rfl⟩ := Option.map_eq_some_iff.mp hp
    trivial
  cases hv with
  | null =>
    obtain rfl := Option.some.inj h
    trivial
  | bool b =>
    obtain rfl := Option.some.inj h
    trivial
  | int hsize =>
    obtain rfl := Option.some.inj h
    exact Binary64.isFinite_ofInt hsize
  | real hfinite =>
    obtain rfl := Option.some.inj h
    exact hfinite
  | text s => exact htext rfl h
  | bytes bs => exact htext rfl h
  | list => exact htext rfl h
  | map => exact htext rfl h
  | unreadable => exact htext rfl h

/-- A normalized parameter holds no infinity and no NaN. -/
theorem storable_normalized (v : ParamValue) : v.normalized.Storable := by
  cases v with
  | number x =>
    rw [normalized]
    split
    · next h => exact h
    · trivial
  | _ => trivial

end ParamValue

namespace Params

/-- Parameters that documents can hold. -/
def Storable (params : Params) : Prop :=
  ∀ e ∈ params.entries, e.2.Storable

/-- Parameters are read back from their record, in their order. -/
theorem ofValue?_toValue (params : Params) : ofValue? params.toValue = some params := by
  have hentries : (params.entries.map fun e => (Value.text e.1, e.2.toValue)).mapM entry?
      = some params.entries := by
    refine Value.mapM_map_eq_some fun e _ => ?_
    simp [Params.entry?, Value.text?, ParamValue.ofValue?_toValue]
  -- the keys of a map differ, so to collect them again changes nothing
  rw [toValue, Value.record, List.map_map, ofValue?]
  show (((params.entries.map fun e => (Value.text e.1, e.2.toValue)).mapM entry?).map _) = _
  rw [hentries, Option.map_some, OrderedMap.ofList_entries]

/-- The record of storable parameters is one that is printed and read back as it is. -/
theorem written_toValue {params : Params} (h : params.Storable) : params.toValue.Written := by
  refine Value.written_record ?_
  rw [List.forall_mem_map]
  exact fun e he => ParamValue.written_toValue (h e he)

/-- Parameters take one level. -/
theorem nesting_toValue_le (params : Params) : params.toValue.nesting ≤ 1 := by
  rw [toValue, Value.nesting_record_le, List.forall_mem_map]
  exact fun e _ => (ParamValue.nesting_toValue e.2).le

/-- Parameters that are read from a value in range can be stored. -/
theorem storable_of_ofValue? {v : Value} {params : Params} (hv : v.InRange)
    (h : ofValue? v = some params) : params.Storable := by
  -- only a map is read as parameters
  cases hv with
  | map hvalues =>
    obtain ⟨pairs, hpairs, rfl⟩ := Option.map_eq_some_iff.mp h
    intro e he
    -- every parameter that is kept was read from an entry of the map
    obtain ⟨entry, hentry, hread⟩ :=
      Value.exists_of_mem_of_mapM hpairs (OrderedMap.mem_of_mem_entries_ofList he)
    obtain ⟨key, -, hread⟩ := Option.bind_eq_some_iff.mp hread
    obtain ⟨p, hp, heq⟩ := Option.bind_eq_some_iff.mp hread
    obtain rfl := Option.some.inj heq
    exact ParamValue.storable_of_ofValue? (hvalues entry hentry) hp
  | _ => cases h

theorem storable_empty : Params.Storable .empty :=
  fun _ he => absurd he List.not_mem_nil

/-- Normalized parameters hold no infinity and no NaN. -/
theorem storable_normalized (params : Params) : (Params.normalized params).Storable := by
  intro e he
  obtain ⟨e', -, rfl⟩ := List.mem_map.mp he
  exact ParamValue.storable_normalized e'.2

end Params
end SignalBoard
