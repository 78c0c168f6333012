import SignalBoard.Proofs.Circuit.Normalized
import SignalBoard.Proofs.Storage.Document

/-!
# What JSON does to numbers that are not finite, and why it does not matter

JSON writes infinities and NaNs as null, so a circuit that is stored and loaded again comes back
normalized, and nothing that can be asked of its evaluator tells the two apart:

```lean
theorem ofJson?_toJson_of_named (hc : c.Named) : ofJson? c.toJson =
    if c.toValue.nesting ≤ Json.maxNesting then some c.normalized else none
theorem normalized_unseen (c : Circuit) (requests : List Request) : …
```

* `Json.print_normalized`: a value and its normalized form have one text.
* `Circuit.toValue_normalized`: the normalized circuit has the normalized value.
* `Circuit.storable_normalized`: so it is one that is read back as it is.
-/

namespace SignalBoard

/-! ## Values -/

namespace Value

mutual

/-- The value with null in the place of infinities and NaNs. -/
def normalized : Value → Value
  | real x => if x.isFinite then real x else null
  | list items => list (itemsNormalized items)
  | map entries => map (entriesNormalized entries)
  | v => v

/-- The items of a list one by one. -/
def itemsNormalized : List Value → List Value
  | [] => []
  | v :: rest => v.normalized :: itemsNormalized rest

/-- The values of a map one by one; keys stay as they are. -/
def entriesNormalized : List (Value × Value) → List (Value × Value)
  | [] => []
  | (k, v) :: rest => (k, v.normalized) :: entriesNormalized rest

end

theorem normalized_list (items : List Value) :
    (list items).normalized = list (items.map normalized) := by
  have hitems : itemsNormalized items = items.map normalized := by
    induction items with
    | nil => rw [itemsNormalized, List.map_nil]
    | cons v rest ih => rw [itemsNormalized, ih, List.map_cons]
  rw [normalized, hitems]

theorem normalized_record (fields : List (String × Value)) :
    (record fields).normalized = record (fields.map fun e => (e.1, e.2.normalized)) := by
  -- the keys are texts, so only the values change
  have hentries : ∀ fields : List (String × Value),
      entriesNormalized (fields.map fun e => (.text e.1, e.2))
        = fields.map fun e => (.text e.1, e.2.normalized) := by
    intro fields
    induction fields with
    | nil => rw [List.map_nil, entriesNormalized, List.map_nil]
    | cons e rest ih => rw [List.map_cons, entriesNormalized, ih, List.map_cons]
  rw [record, normalized, hentries, record, List.map_map]
  rfl

@[simp] theorem normalized_text (s : String) : (text s).normalized = text s := rfl

@[simp] theorem normalized_ofWord64 (n : UInt64) : (ofWord64 n).normalized = ofWord64 n := rfl

@[simp] theorem normalized_ofWord32 (n : UInt32) : (ofWord32 n).normalized = ofWord32 n := rfl

mutual

/-- Null is nested no deeper than a number. -/
theorem nesting_normalized : ∀ v : Value, v.normalized.nesting = v.nesting
  | real x => by
    rw [normalized]
    split <;> rfl
  | list items => by rw [normalized, nesting, nesting, itemsNesting_normalized items]
  | map entries => by rw [normalized, nesting, nesting, entriesNesting_normalized entries]
  | null => rfl
  | bool _ => rfl
  | int _ => rfl
  | text _ => rfl
  | bytes _ => rfl
  | unreadable => rfl

/-- The items of a list are nested as deep as before. -/
theorem itemsNesting_normalized : ∀ items : List Value,
    itemsNesting (itemsNormalized items) = itemsNesting items
  | [] => rfl
  | v :: rest => by
    rw [itemsNormalized, itemsNesting, itemsNesting, nesting_normalized v,
      itemsNesting_normalized rest]

/-- The values of a map are nested as deep as before. -/
theorem entriesNesting_normalized : ∀ entries : List (Value × Value),
    entriesNesting (entriesNormalized entries) = entriesNesting entries
  | [] => rfl
  | (k, v) :: rest => by
    rw [entriesNormalized, entriesNesting, entriesNesting, nesting_normalized v,
      entriesNesting_normalized rest]

end

end Value

namespace Json

mutual

/-- A number that is not finite is written like null. -/
theorem print_normalized : ∀ v : Value, print v.normalized = print v
  | .real x => by
    rw [Value.normalized]
    by_cases hfinite : x.isFinite = true
    · rw [if_pos hfinite]
    · rw [if_neg hfinite, print, print, printReal, if_neg hfinite]
  | .list items => by rw [Value.normalized, print, print, printItems_normalized items]
  | .map entries => by rw [Value.normalized, print, print, printEntries_normalized entries]
  | .null => rfl
  | .bool _ => rfl
  | .int _ => rfl
  | .text _ => rfl
  | .bytes _ => rfl
  | .unreadable => rfl

theorem printItems_normalized : ∀ items : List Value,
    printItems (Value.itemsNormalized items) = printItems items
  | [] => rfl
  | [v] => by
    simp only [Value.itemsNormalized, printItems, print_normalized v]
  | v :: w :: rest => by
    -- the comma comes from the shape of the list, which is the same
    have hrest := printItems_normalized (w :: rest)
    simp only [Value.itemsNormalized] at hrest ⊢
    simp only [printItems, print_normalized v, hrest]

/-- The entries of a map are written alike. -/
theorem printEntries_normalized : ∀ entries : List (Value × Value),
    printEntries (Value.entriesNormalized entries) = printEntries entries
  | [] => rfl
  | [(k, v)] => by
    simp only [Value.entriesNormalized, printEntries, print_normalized v]
  | (k, v) :: (l, w) :: rest => by
    have hrest := printEntries_normalized ((l, w) :: rest)
    simp only [Value.entriesNormalized] at hrest ⊢
    simp only [printEntries, print_normalized v, hrest]

end

end Json

/-! ## Circuits -/

namespace ParamValue

/-- A normalized parameter has the normalized value. -/
theorem toValue_normalized (v : ParamValue) : v.normalized.toValue = v.toValue.normalized := by
  cases v with
  | number x =>
    rw [normalized, toValue, Value.normalized]
    split <;> rfl
  | _ => rfl

end ParamValue

namespace Params

/-- Normalized parameters have the normalized record. -/
theorem toValue_normalized (params : Params) :
    (Params.normalized params).toValue = (Params.toValue params).normalized := by
  rw [toValue, toValue, Value.normalized_record, normalized, OrderedMap.mapValues, List.map_map,
    List.map_map]
  refine congrArg Value.record (List.map_congr_left fun e _ => ?_)
  exact congrArg (Prod.mk e.1) (ParamValue.toValue_normalized e.2)

end Params

namespace Edge

/-- The record of an edge holds no number that could be infinite. -/
theorem normalized_toValue (edge : Edge) : edge.toValue.normalized = edge.toValue := by
  obtain ⟨source, sourcePort, target, targetPort, delay⟩ := edge
  rw [toValue, Value.normalized_record]
  cases delay <;> simp [delayFields, NodeId.toValue]

end Edge

namespace Part

/-- A normalized part has the normalized record, if this holds of the circuit behind it. -/
theorem toValue_normalized {p : Part}
    (h : ∀ c, p.nested = some c → c.normalized.toValue = c.toValue.normalized) :
    p.normalized.toValue = p.toValue.normalized := by
  rw [toValue_eq, toValue_eq, Value.normalized_record, normalized_eq]
  cases hc : p.nested with
  | none => simp [nestedFields, NodeId.toValue, NodeKind.toValue, Params.toValue_normalized]
  | some c =>
    simp [nestedFields, NodeId.toValue, NodeKind.toValue, Params.toValue_normalized, h c hc]

end Part

namespace Circuit

/-- A normalized circuit has the normalized record, however deep. -/
theorem toValue_normalized (c : Circuit) : c.normalized.toValue = c.toValue.normalized := by
  induction c using Circuit.induction with
  | step c ih =>
    -- of a circuit only the parameters of its parts can hold an infinity
    have hparts : (c.parts.map Part.normalized).map Part.toValue
        = (c.parts.map Part.toValue).map Value.normalized := by
      rw [List.map_map, List.map_map]
      exact List.map_congr_left fun p hp => Part.toValue_normalized (ih p hp)
    have hedges : (c.edges.map Edge.toValue).map Value.normalized = c.edges.map Edge.toValue := by
      rw [List.map_map]
      exact List.map_congr_left fun edge _ => Edge.normalized_toValue edge
    have horder : (c.order.map NodeId.toValue).map Value.normalized
        = c.order.map NodeId.toValue := by
      rw [List.map_map]
      exact List.map_congr_left fun id _ => Value.normalized_text id.text
    rw [toValue_eq, toValue_eq, Value.normalized_record, normalized_eq]
    simp [Value.normalized_list, hparts, hedges, horder]

/-- What is normalized can be stored, if its kinds come from type texts. -/
theorem storable_normalized {c : Circuit} (hc : c.Named) : c.normalized.Storable := by
  induction hc with
  | @mk c kinds _ ih =>
    rw [normalized_eq]
    refine .mk ?_ ?_ ?_
    · rw [List.forall_mem_map]
      intro p hp
      rw [Part.normalized_eq]
      exact kinds p hp
    · rw [List.forall_mem_map]
      intro p _
      rw [Part.normalized_eq]
      exact Params.storable_normalized p.params
    · rw [List.forall_mem_map]
      intro p hp d hd
      rw [Part.normalized_eq] at hd
      obtain ⟨d, hnested, rfl⟩ := Option.map_eq_some_iff.mp hd
      exact ih p hp d hnested

/-- **Storing as JSON normalizes.** A circuit whose kinds come from type texts is loaded with
nothing in the place of infinities and NaNs, unless it is nested too deep. -/
theorem ofJson?_toJson_of_named {c : Circuit} (hc : c.Named) : ofJson? c.toJson =
    if c.toValue.nesting ≤ Json.maxNesting then some c.normalized else none := by
  have htext : c.normalized.toJson = c.toJson := by
    rw [toJson, toJson, toValue_normalized, Json.text, Json.text, Json.print_normalized]
  have hdepth : c.normalized.toValue.nesting = c.toValue.nesting := by
    rw [toValue_normalized, Value.nesting_normalized]
  -- so it is the normalized circuit that is read back, and that one as it is
  rw [← htext, ofJson?_toJson (storable_normalized hc), hdepth]

end Circuit

/-! ## Evaluators -/

namespace Evaluator

/-- **Infinities and NaNs are not seen.** Whatever circuit an evaluator is built from, it answers
any requests as the evaluator of the normalized circuit does, and what can be seen inside is the
same. The normalized circuit is what is loaded if the circuit has been stored as JSON. -/
theorem normalized_unseen (c : Circuit) (requests : List Request) :
    let given := ofCircuit c
    let normalized := ofCircuit c.normalized
    normalized.answersTo requests = given.answersTo requests ∧
      (∀ id port, (normalized.afterAll requests).portValue? id port
        = (given.afterAll requests).portValue? id port) ∧
      (normalized.afterAll requests).memories = (given.afterAll requests).memories ∧
      (c.Named → Circuit.ofJson? c.toJson =
        if c.toValue.nesting ≤ Json.maxNesting then some c.normalized else none) := by
  intro given normalized
  have hsame : normalized = given.normalized := ofCircuit_normalized c
  rw [hsame, afterAll_normalized]
  exact ⟨answersTo_normalized given requests, portValue?_normalized _, memories_normalized _,
    Circuit.ofJson?_toJson_of_named⟩

/-- A delay by an infinite number of calls. -/
def endless : Circuit where
  order := [.input 0, ⟨"lag"⟩, .output 0]
  parts := [⟨⟨"lag"⟩, .delay, .ofList [("subdivisions", .number .infinity)], 1, 1, none⟩]
  edges := [⟨.input 0, 0, ⟨"lag"⟩, 0, none⟩, ⟨⟨"lag"⟩, 0, .output 0, 0, none⟩]
  inputCount := 1
  outputCount := 1

/-- Nodes that cannot read their parameters, one of them with such a node behind it. -/
def feverish : Circuit where
  order := [.input 0, ⟨"mix"⟩, ⟨"lag"⟩, ⟨"box"⟩, .output 0]
  parts := [
    ⟨⟨"mix"⟩, .mix, .ofList [("ratio", .number .nan)], 2, 1, none⟩,
    ⟨⟨"lag"⟩, .delay, .ofList [("level", .text "NaN"), ("subdivisions", .number .negInfinity)], 1, 1,
      none⟩,
    ⟨⟨"box"⟩, .utility "endless", .ofList [("volume", .number .infinity)], 1, 1, some endless⟩]
  edges := [⟨.input 0, 0, ⟨"mix"⟩, 1, none⟩, ⟨⟨"mix"⟩, 0, ⟨"lag"⟩, 0, none⟩,
    ⟨⟨"lag"⟩, 0, ⟨"box"⟩, 0, none⟩, ⟨⟨"box"⟩, 0, .output 0, 0, none⟩]
  inputCount := 1
  outputCount := 1

/-- The kinds in both circuits come from type texts. -/
theorem named_feverish : feverish.Named := by
  have hkinds : ∀ p ∈ feverish.parts, p.kind = NodeKind.ofText p.kind.text := by decide +kernel
  have hinner : ∀ p ∈ endless.parts, p.kind = NodeKind.ofText p.kind.text := by decide +kernel
  refine .mk (fun p hp => ⟨p.kind.text, hkinds p hp⟩) ?_
  refine List.forall_mem_cons.mpr ⟨nofun, List.forall_mem_cons.mpr ⟨nofun, ?_⟩⟩
  refine List.forall_mem_singleton.mpr fun d hd => ?_
  obtain rfl : endless = d := Option.some.inj hd
  exact .mk (fun p hp => ⟨p.kind.text, hinner p hp⟩) (List.forall_mem_singleton.mpr nofun)

/-- What is loaded is not what has been stored, but answers the same. -/
theorem normalized_unseen_feverish :
    feverish.Named ∧ ∃ loaded, Circuit.ofJson? feverish.toJson = some loaded ∧
      loaded.parts.map (·.params) ≠ feverish.parts.map (·.params) ∧
      ∀ requests, (ofCircuit loaded).answersTo requests = (ofCircuit feverish).answersTo requests ∧
        ((ofCircuit loaded).afterAll requests).memories
          = ((ofCircuit feverish).afterAll requests).memories := by
  refine ⟨named_feverish, feverish.normalized, ?_, by decide +kernel, fun requests => ?_⟩
  · have hdepth : feverish.toValue.nesting ≤ Json.maxNesting := by decide +kernel
    obtain ⟨-, -, -, hload⟩ := normalized_unseen feverish []
    rw [hload named_feverish, if_pos hdepth]
  · obtain ⟨hanswers, -, hmemories, -⟩ := normalized_unseen feverish requests
    exact ⟨hanswers, hmemories⟩

end Evaluator
end SignalBoard
