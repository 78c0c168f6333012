import SignalBoard.Storage.Document
import SignalBoard.Proofs.Storage.Circuit

/-!
# Circuits as JSON text

Storing a circuit as JSON and loading it again gives the circuit, bit for bit:

```lean
theorem ofJson?_lossless :
    (∀ c, c.Storable → c.toValue.nesting ≤ Json.maxNesting → ofJson? c.toJson = some c) ∧
    ∀ s c, ofJson? s = some c → c.Storable ∧ c.toValue.nesting ≤ Json.maxNesting ∧
      ofJson? c.toJson = some c
```

The text of a storable circuit holds the value of the circuit whatever its depth (`ofText?_toJson`);
how deep the value is nested decides whether the circuit is found in it (`ofJson?_toJson`).
-/

namespace SignalBoard
namespace Circuit

variable {c : Circuit}

/-- The text of a storable circuit holds the value of the circuit. -/
theorem ofText?_toJson (hc : c.Storable) : Json.ofText? c.toJson = some c.toValue := by
  rw [Json.ofText?, toJson, Json.text, String.toList_ofList]
  exact Json.read?_print (written_toValue hc)

/-- A storable circuit is loaded again or refused, depending on the depth of its value alone. -/
theorem ofJson?_toJson (hc : c.Storable) :
    ofJson? c.toJson = if c.toValue.nesting ≤ Json.maxNesting then some c else none := by
  -- there is room for 42 circuits, one behind the other
  have hlevels : Json.maxNesting = levelsOf 42 := rfl
  rw [ofJson?, ofText?_toJson hc, Option.bind_some, hlevels]
  split
  · next hdepth => exact ofValue?_toValue hc.named hdepth
  · next hdepth => exact ofValue?_toValue_eq_none hc hdepth

/-- What is loaded is storable, and not nested too deep to be loaded again. -/
theorem storable_of_ofJson? {s : String} (h : ofJson? s = some c) :
    c.Storable ∧ c.toValue.nesting ≤ Json.maxNesting := by
  obtain ⟨v, hv, hc⟩ := Option.bind_eq_some_iff.mp h
  exact storable_of_ofValue? (k := 42) (Json.inRange_of_read? hv) hc

/-- **Storing as JSON loses nothing.** A circuit whose kinds come from type texts, whose numbers are
finite and whose value is not nested too deep is loaded as it was stored; and whatever is loaded
from any text is such a circuit. -/
theorem ofJson?_lossless :
    (∀ c : Circuit, c.Storable → c.toValue.nesting ≤ Json.maxNesting → ofJson? c.toJson = some c) ∧
      ∀ (s : String) (c : Circuit), ofJson? s = some c →
        c.Storable ∧ c.toValue.nesting ≤ Json.maxNesting ∧ ofJson? c.toJson = some c := by
  constructor
  · intro c hc hdepth
    rw [ofJson?_toJson hc, if_pos hdepth]
  · intro s c h
    obtain ⟨hc, hdepth⟩ := storable_of_ofJson? h
    exact ⟨hc, hdepth, by rw [ofJson?_toJson hc, if_pos hdepth]⟩

/-- A text that is not how it would be written: fields in another order, a part as a list, a kind by
its other name, a key that comes again, a field that is not known and one that is missing. -/
def foreignText : String :=
  "\x7b\"edges\":[],\"outputCount\":0,\"inputCount\":0,\"more\":1e400,\"topoOrder\":[\"a\"]," ++
    "\"nodeConfigs\":[[\"a\",\"negate\",\x7b\"k\":1,\"k\":-0\x7d,1,1]]\x7d"

/-- The text is loaded, and stored again it comes out as it would be written. -/
theorem ofJson?_lossless_foreign :
    ∃ c, ofJson? foreignText = some c ∧ c.parts.map (·.kind) = [.invert] ∧ c.Storable ∧
      c.toValue.nesting ≤ Json.maxNesting ∧ ofJson? c.toJson = some c := by
  have hread : (ofJson? foreignText).map (fun c => c.parts.map (·.kind)) = some [.invert] := by
    decide +kernel
  obtain ⟨c, hc, hkinds⟩ := Option.map_eq_some_iff.mp hread
  -- the second half says that what has been loaded can be stored, the first half that it then comes
  -- back
  obtain ⟨hstorable, hdepth, -⟩ := ofJson?_lossless.2 foreignText c hc
  exact ⟨c, hc, hkinds, hstorable, hdepth, ofJson?_lossless.1 c hstorable hdepth⟩

end Circuit
end SignalBoard
