import SignalBoard.Proofs.MessagePack.RoundTrip
import SignalBoard.Proofs.Storage.Document

/-!
# Circuits as MessagePack bytes

Unlike JSON, MessagePack can say every number. A circuit that is stored and loaded again is the same
bit for bit, whatever its parameters are, and its bytes say where they end:

```lean
theorem ofMessagePack?_append (hc : c.Named) (hdepth : c.toValue.nesting ≤ MessagePack.maxNesting)
    (hsize : c.toValue.longest ≤ MessagePack.maxLength) (rest : List UInt8) :
    ofMessagePack? (c.toMessagePack ++ rest) = some c
```

The two limits are those of the format: how deep lists and maps may be nested, and how long a text,
a list or a map may be.

* `packable_toValue`: circuits are laid out in values that are read back from their bytes.
-/

namespace SignalBoard

namespace Value

/-- A record can be packed if its fields can. -/
theorem packable_record {fields : List (String × Value)} (h : ∀ e ∈ fields, e.2.Packable) :
    (record fields).Packable := by
  refine .map ?_ ?_
  · rw [List.forall_mem_map]
    exact fun e _ => ⟨e.1, rfl⟩
  · rw [List.forall_mem_map]
    exact h

theorem packable_ofWord64 (n : UInt64) : (ofWord64 n).Packable :=
  .int n.toNat_lt

theorem packable_ofWord32 (n : UInt32) : (ofWord32 n).Packable :=
  .int (Nat.lt_trans n.toNat_lt (by decide))

end Value

namespace ParamValue

/-- Any parameter can be packed, also an infinity or a NaN. -/
theorem packable_toValue (v : ParamValue) : v.toValue.Packable := by
  cases v with
  | bool b => exact .bool b
  | number x => exact .real x
  | text s => exact .text s
  | null => exact .null

end ParamValue

namespace Params

theorem packable_toValue (params : Params) : (Params.toValue params).Packable := by
  refine Value.packable_record ?_
  rw [List.forall_mem_map]
  exact fun e _ => ParamValue.packable_toValue e.2

end Params

namespace Edge

/-- An edge can be packed, with or without its delay. -/
theorem packable_toValue (edge : Edge) : edge.toValue.Packable := by
  refine Value.packable_record ?_
  obtain ⟨source, sourcePort, target, targetPort, delay⟩ := edge
  cases delay <;> simp [delayFields, NodeId.toValue, Value.packable_ofWord64,
    Value.packable_ofWord32, Value.Packable.text]

end Edge

namespace Part

/-- A part can be packed if the circuit behind it can. -/
theorem packable_toValue {p : Part} (hnested : ∀ c, p.nested = some c → c.toValue.Packable) :
    p.toValue.Packable := by
  rw [toValue_eq]
  refine Value.packable_record ?_
  have hparams := Params.packable_toValue p.params
  cases hc : p.nested with
  | none => simp [nestedFields, NodeId.toValue, NodeKind.toValue, Value.packable_ofWord64,
      Value.Packable.text, hparams]
  | some c => simp [nestedFields, NodeId.toValue, NodeKind.toValue, Value.packable_ofWord64,
      Value.Packable.text, hparams, hnested c hc]

end Part

namespace Circuit

theorem packable_toValue (c : Circuit) : c.toValue.Packable := by
  induction c using Circuit.induction with
  | step c ih =>
    -- the three lists of the record, of which the parts are what the induction is about
    have horder : ∀ v ∈ c.order.map NodeId.toValue, v.Packable :=
      List.forall_mem_map.mpr fun id _ => .text id.text
    have hparts : ∀ v ∈ c.parts.map Part.toValue, v.Packable :=
      List.forall_mem_map.mpr fun p hp => Part.packable_toValue (ih p hp)
    have hedges : ∀ v ∈ c.edges.map Edge.toValue, v.Packable :=
      List.forall_mem_map.mpr fun edge _ => Edge.packable_toValue edge
    rw [toValue_eq]
    refine Value.packable_record ?_
    simp [Value.Packable.list horder, Value.Packable.list hparts, Value.Packable.list hedges,
      Value.packable_ofWord64]

/-- **Storing as MessagePack loses nothing.** A circuit whose kinds come from type texts and that
the format can hold is loaded as it was stored, with the bits of all its numbers and its parameters
in order, and what follows its bytes does not matter. -/
theorem ofMessagePack?_append {c : Circuit} (hc : c.Named)
    (hdepth : c.toValue.nesting ≤ MessagePack.maxNesting)
    (hsize : c.toValue.longest ≤ MessagePack.maxLength) (rest : List UInt8) :
    ofMessagePack? (c.toMessagePack ++ rest) = some c := by
  rw [ofMessagePack?, toMessagePack,
    MessagePack.read?_print_append c.packable_toValue hsize hdepth rest]
  exact ofValue?_toValue hc hdepth

/-- Numbers of all widths, a long list, a long text and parameters that JSON cannot say. -/
def motley : Circuit where
  order := List.replicate 16 ⟨"again"⟩
  parts := [
    ⟨⟨String.ofList (List.replicate 20 'ä')⟩, .utility "inner",
      .ofList [("z", .number ⟨0xfff8000000000001⟩), ("a", .number .negInfinity), ("m", .bool true),
        ("", .number .negZero), ("n", .null)], 127, 128,
      some ⟨[.input 0], [⟨⟨"lag"⟩, .delay, .ofList [("subdivisions", .number .infinity)], 1, 1, none⟩],
        [], 0xff, 0x100⟩⟩,
    ⟨⟨""⟩, .unknown "what", .empty, 0, 0, none⟩]
  edges := [⟨⟨"again"⟩, 0xffff, ⟨"gone"⟩, 0x10000, some 0xffffffff⟩,
    ⟨⟨"gone"⟩, 0xffffffff, ⟨"again"⟩, 0x100000000, none⟩]
  inputCount := 0xffffffffffffffff
  outputCount := 0

/-- The bytes that follow begin with one that is no marker. -/
theorem ofMessagePack?_append_motley :
    motley.Named ∧ motley.toValue.nesting ≤ MessagePack.maxNesting ∧
      motley.toValue.longest ≤ MessagePack.maxLength ∧
      ofMessagePack? (motley.toMessagePack ++ [0xc1, 0]) = some motley := by
  -- both circuits have kinds that come from type texts
  have hkinds : ∀ p ∈ motley.parts, p.kind = NodeKind.ofText p.kind.text := by decide +kernel
  have hdelay : NodeKind.delay = NodeKind.ofText "delay" := by decide +kernel
  have hnamed : motley.Named := by
    refine .mk (fun p hp => ⟨p.kind.text, hkinds p hp⟩) ?_
    refine List.forall_mem_cons.mpr ⟨fun d hd => ?_, List.forall_mem_singleton.mpr nofun⟩
    rw [← Option.some.inj hd]
    exact .mk (List.forall_mem_singleton.mpr ⟨"delay", hdelay⟩) (List.forall_mem_singleton.mpr nofun)
  have hdepth : motley.toValue.nesting ≤ MessagePack.maxNesting := by decide +kernel
  have hsize : motley.toValue.longest ≤ MessagePack.maxLength := by decide +kernel
  exact ⟨hnamed, hdepth, hsize, ofMessagePack?_append hnamed hdepth hsize [0xc1, 0]⟩

end Circuit
end SignalBoard
