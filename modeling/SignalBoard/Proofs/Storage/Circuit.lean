import SignalBoard.Storage.Circuit
import SignalBoard.Proofs.Storage.Node

/-!
# Circuits read back

A circuit with kinds that come from type texts is read back from its value wherever the value is not
nested too deep (`ofValue?_toValue`), and what is read from a value with finite numbers is such a
circuit with finite numbers, whose value is not nested too deep in turn (`storable_of_ofValue?`).

A circuit takes three levels: its own, that of the list of parts and that of a part. So the circuits
behind its parts are read with three levels less, and with a number of levels that is one more than
a multiple of three (`levelsOf`) there is room for everything in a circuit or for nothing.

* `nesting_toValue_le`: the depth of a value in terms of the circuits behind the parts.
* `ofValue?_toValue_eq_none`: a value that is nested too deep is refused.
-/

namespace SignalBoard

/-- The kinds of a circuit come from type texts, and so do those of the circuits behind its
parts. -/
inductive Circuit.Named : Circuit → Prop where
  | mk {c : Circuit} (kinds : ∀ p ∈ c.parts, ∃ s, p.kind = NodeKind.ofText s)
      (nested : ∀ p ∈ c.parts, ∀ d, p.nested = some d → Named d) : Named c

/-- A circuit that documents can hold: its kinds come from type texts and its numbers are finite,
and so are those of the circuits behind its parts. -/
inductive Circuit.Storable : Circuit → Prop where
  | mk {c : Circuit} (kinds : ∀ p ∈ c.parts, ∃ s, p.kind = NodeKind.ofText s)
      (params : ∀ p ∈ c.parts, Params.Storable p.params)
      (nested : ∀ p ∈ c.parts, ∀ d, p.nested = some d → Storable d) : Storable c

/-- The kinds of a storable circuit have names. -/
theorem Circuit.Storable.named {c : Circuit} (hc : c.Storable) : c.Named := by
  induction hc with
  | mk kinds _ _ ih => exact .mk kinds ih

namespace NodeId

theorem list?_toValue (ids : List NodeId) :
    Value.list? ofValue? (.list (ids.map toValue)) = some ids :=
  Value.mapM_map_eq_some fun id _ => ofValue?_toValue id

end NodeId

/-! ## Edges -/

namespace Edge

/-- What is found in the fields of an edge. -/
theorem exists_fields_toValue (edge : Edge) : ∃ fields,
    edge.toValue.fields? fieldNames = some fields ∧
    fields.required "fromNodeId" NodeId.ofValue? = some edge.source ∧
    fields.required "fromPort" Value.word64? = some edge.sourcePort ∧
    fields.required "toNodeId" NodeId.ofValue? = some edge.target ∧
    fields.required "toPort" Value.word64? = some edge.targetPort ∧
    fields.withDefault "wtsDelay" none (Value.option? Value.word32?) = some edge.delay := by
  obtain ⟨source, sourcePort, target, targetPort, delay⟩ := edge
  have hdelay : ∀ d : UInt32, (Value.ofWord32 d).option? Value.word32? = some (some d) := by
    intro d
    have hne : Value.ofWord32 d ≠ .null := by
      rw [Value.ofWord32]
      intro h
      cases h
    rw [Value.option?_of_ne_null hne, Value.word32?_ofWord32]
    rfl
  -- the keys are known and distinct, so each field is found by going along the record
  refine ⟨_, Value.fields?_record ?_ ?_, ?_⟩
  · cases delay <;> simp [delayFields, fieldNames]
  · cases delay <;> simp [delayFields]
  · cases delay <;> simp [delayFields, Fields.required_cons, Fields.withDefault_cons,
      Fields.withDefault_nil, NodeId.ofValue?_toValue, Value.word64?_ofWord64, hdelay]

theorem ofValue?_toValue (edge : Edge) : ofValue? edge.toValue = some edge := by
  obtain ⟨fields, hfields, hsource, hsourcePort, htarget, htargetPort, hdelay⟩ :=
    exists_fields_toValue edge
  rw [ofValue?, hfields]
  simp [hsource, hsourcePort, htarget, htargetPort, hdelay]

theorem written_toValue (edge : Edge) : edge.toValue.Written := by
  refine Value.written_record ?_
  obtain ⟨source, sourcePort, target, targetPort, delay⟩ := edge
  cases delay <;> simp [delayFields, NodeId.toValue, Value.written_ofWord64, Value.written_ofWord32,
    Value.Written.text]

theorem nesting_toValue (edge : Edge) : edge.toValue.nesting = 1 := by
  refine Nat.le_antisymm ?_ ?_
  · rw [toValue, Value.nesting_record_le]
    obtain ⟨source, sourcePort, target, targetPort, delay⟩ := edge
    cases delay <;> simp [delayFields, NodeId.toValue]
  · rw [toValue, Value.record, Value.nesting]
    exact Nat.le_add_right 1 _

end Edge

/-! ## Parts -/

namespace Part

/-- A part is a record, which ends with the circuit behind it if there is one. -/
theorem toValue_eq (p : Part) : p.toValue =
    .record ([("id", p.id.toValue), ("type", p.kind.toValue), ("params", p.params.toValue),
      ("inputCount", .ofWord64 p.inputCount), ("outputCount", .ofWord64 p.outputCount)] ++
      nestedFields p.nested) := by
  cases p
  rw [toValue]

variable {levels : Nat} {nested? : Value → Option Circuit} {p : Part}

/-- The circuit behind a part, as it is read. -/
theorem withDefault_nestedFields (nested : Option Circuit) :
    (Fields.mk (nestedFields nested)).withDefault "baked" none (Value.option? nested?)
      = match nested with
        | none => some none
        | some c => (nested? c.toValue).map some := by
  -- without a circuit behind the part the field is not there at all
  cases nested with
  | none => rw [nestedFields, Fields.withDefault_nil]
  | some c =>
    have hne : c.toValue ≠ .null := by
      obtain ⟨order, parts, edges, inputCount, outputCount⟩ := c
      rw [Circuit.toValue]
      exact nofun
    rw [nestedFields, Fields.withDefault_cons, if_pos rfl, Value.option?_of_ne_null hne]

/-- What is found in the fields of a part. -/
theorem exists_fields_toValue (nested? : Value → Option Circuit)
    (hkind : ∃ s, p.kind = NodeKind.ofText s) : ∃ fields,
      p.toValue.fields? fieldNames = some fields ∧
      fields.required "id" NodeId.ofValue? = some p.id ∧
      fields.required "type" NodeKind.ofValue? = some p.kind ∧
      fields.withDefault "params" .empty Params.ofValue? = some p.params ∧
      fields.required "inputCount" Value.word64? = some p.inputCount ∧
      fields.required "outputCount" Value.word64? = some p.outputCount ∧
      fields.withDefault "baked" none (Value.option? nested?)
        = match p.nested with
          | none => some none
          | some c => (nested? c.toValue).map some := by
  rw [toValue_eq]
  refine ⟨_, Value.fields?_record ?_ ?_, ?_⟩
  · cases p.nested <;> simp [nestedFields, fieldNames]
  · cases p.nested <;> simp [nestedFields]
  · simp [Fields.required_cons, Fields.withDefault_cons, withDefault_nestedFields,
      NodeId.ofValue?_toValue, NodeKind.ofValue?_toValue hkind, Params.ofValue?_toValue,
      Value.word64?_ofWord64]

/-- A part is read back if the circuit behind it is. -/
theorem ofValue?_toValue (hlevels : 2 ≤ levels) (hkind : ∃ s, p.kind = NodeKind.ofText s)
    (hnested : ∀ c, p.nested = some c → nested? c.toValue = some c) :
    ofValue? levels nested? p.toValue = some p := by
  obtain ⟨fields, hfields, hid, hkind, hparams, hinputs, houtputs, hback⟩ :=
    exists_fields_toValue nested? hkind
  have hone : 1 ≤ levels := by omega
  have hcircuit : fields.withDefault "baked" none (Value.option? nested?) = some p.nested := by
    rw [hback]
    split
    · next h => rw [h]
    · next c h => rw [h, hnested c h, Option.map_some]
  rw [ofValue?, hfields]
  simp [hone, hlevels, hid, hkind, hparams, hinputs, houtputs, hcircuit]
  cases p
  rfl

/-- A part is refused if the circuit behind it is. -/
theorem ofValue?_toValue_eq_none {c : Circuit} (hkind : ∃ s, p.kind = NodeKind.ofText s)
    (hc : p.nested = some c) (hnone : nested? c.toValue = none) :
    ofValue? levels nested? p.toValue = none := by
  obtain ⟨fields, hfields, -, -, -, -, -, hback⟩ :=
    exists_fields_toValue nested? hkind
  rw [hc] at hback
  have hcircuit : fields.withDefault "baked" none (Value.option? nested?) = none := by
    rw [hback]
    simp [hnone]
  rw [ofValue?, hfields]
  simp [hcircuit]

/-- What is known of a part that was read: the circuit behind it was read from a value in range. -/
theorem of_ofValue? {v : Value} (hv : v.InRange) (h : ofValue? levels nested? v = some p) :
    (∃ s, p.kind = NodeKind.ofText s) ∧ Params.Storable p.params ∧
      ∀ c, p.nested = some c → ∃ w : Value, w.InRange ∧ nested? w = some c := by
  simp only [ofValue?, Option.bind_eq_bind, Option.bind_eq_some_iff] at h
  obtain ⟨-, -, fields, hfields, id, -, kind, hkind, params, hparams, inputs, -, outputs, -, nested,
    hnested, h⟩ := h
  obtain rfl := Option.some.inj h
  have hrange := Value.inRange_of_fields? hv hfields
  -- a field that is missing leaves its default, which is as good as one that was read
  refine ⟨?_, ?_, ?_⟩
  · obtain ⟨e, -, hkind⟩ := Fields.exists_of_required hkind
    exact NodeKind.exists_of_ofValue? hkind
  · rcases Fields.eq_or_exists_of_withDefault hparams with rfl | ⟨e, he, hread⟩
    · exact Params.storable_empty
    · rw [Option.ite_none_right_eq_some] at hread
      exact Params.storable_of_ofValue? (hrange e he) hread.2
  · intro c hc
    rcases Fields.eq_or_exists_of_withDefault hnested with rfl | ⟨e, he, hread⟩
    · cases hc
    · rcases Value.eq_none_or_of_option? hread with rfl | ⟨d, rfl, hd⟩
      · cases hc
      · obtain rfl := Option.some.inj hc
        exact ⟨e.2, hrange e he, hd⟩

/-- A part takes more than one level: it holds parameters. -/
theorem one_lt_nesting_toValue (p : Part) : 1 < p.toValue.nesting := by
  refine Nat.lt_of_not_le fun hle => ?_
  rw [toValue_eq, Value.nesting_record_le] at hle
  have hparams := hle ("params", p.params.toValue) (by simp)
  rw [Params.toValue, Value.record, Value.nesting] at hparams
  omega

/-- Below the level of a part and that of its parameters only the circuit behind it counts. -/
theorem nesting_toValue_le {n : Nat} : p.toValue.nesting ≤ n + 2 ↔
    ∀ c, p.nested = some c → c.toValue.nesting ≤ n + 1 := by
  have hparams := (Params.nesting_toValue_le p.params).trans (Nat.le_add_left 1 n)
  rw [toValue_eq, Value.nesting_record_le]
  cases p.nested <;> simp [nestedFields, NodeId.toValue, NodeKind.toValue, Value.ofWord64,
    Value.nesting, hparams]

/-- A part is a value that JSON can say if the circuit behind it is. -/
theorem written_toValue (hparams : Params.Storable p.params)
    (hnested : ∀ c, p.nested = some c → c.toValue.Written) : p.toValue.Written := by
  rw [toValue_eq]
  refine Value.written_record ?_
  cases hc : p.nested with
  | none => simp [nestedFields, NodeId.toValue, NodeKind.toValue, Value.written_ofWord64,
      Value.Written.text, Params.written_toValue hparams]
  | some c => simp [nestedFields, NodeId.toValue, NodeKind.toValue, Value.written_ofWord64,
      Value.Written.text, Params.written_toValue hparams, hnested c hc]

end Part

/-! ## Circuits -/

namespace Circuit

/-- The parts are written one after the other. -/
theorem partValues_eq (parts : List Part) : partValues parts = parts.map Part.toValue := by
  induction parts with
  | nil => rw [partValues, List.map_nil]
  | cons p parts ih => rw [partValues, ih, List.map_cons]

/-- A circuit is a record of three lists and two counts. -/
theorem toValue_eq (c : Circuit) : c.toValue =
    .record [("topoOrder", .list (c.order.map NodeId.toValue)),
      ("nodeConfigs", .list (c.parts.map Part.toValue)),
      ("edges", .list (c.edges.map Edge.toValue)), ("inputCount", .ofWord64 c.inputCount),
      ("outputCount", .ofWord64 c.outputCount)] := by
  cases c
  rw [toValue, partValues_eq]

/-- What is found in the fields of a circuit. -/
theorem exists_fields_toValue (c : Circuit) (part? : Value → Option Part)
    (edge? : Value → Option Edge) :
    ∃ fields, c.toValue.fields? fieldNames = some fields ∧
      fields.required "topoOrder" (Value.list? NodeId.ofValue?) = some c.order ∧
      fields.required "nodeConfigs" (Value.list? part?)
        = Value.list? part? (.list (c.parts.map Part.toValue)) ∧
      fields.required "edges" (Value.list? edge?)
        = Value.list? edge? (.list (c.edges.map Edge.toValue)) ∧
      fields.required "inputCount" Value.word64? = some c.inputCount ∧
      fields.required "outputCount" Value.word64? = some c.outputCount := by
  rw [toValue_eq]
  refine ⟨_, Value.fields?_record ?_ ?_, ?_⟩
  · simp [fieldNames]
  · simp
  · simp [Fields.required_cons, NodeId.list?_toValue, Value.word64?_ofWord64]

variable {levels : Nat} {nested? : Value → Option Circuit} {c : Circuit}

/-- A circuit is read back if its parts are and there is room for its edges. -/
theorem ofValueWith?_toValue (hlevels : 2 ≤ levels) (hedges : ∀ edge ∈ c.edges, 3 ≤ levels)
    (hparts : ∀ p ∈ c.parts, Part.ofValue? (levels - 2) nested? p.toValue = some p) :
    ofValueWith? levels nested? c.toValue = some c := by
  have hread : Value.list? (fun v => if 3 ≤ levels then Edge.ofValue? v else none)
      (.list (c.edges.map Edge.toValue)) = some c.edges :=
    Value.mapM_map_eq_some fun edge hedge =>
      (if_pos (hedges edge hedge)).trans (Edge.ofValue?_toValue edge)
  obtain ⟨fields, hfields, horder, hpartsField, hedgesField, hinputs, houtputs⟩ :=
    exists_fields_toValue c (Part.ofValue? (levels - 2) nested?)
      fun v => if 3 ≤ levels then Edge.ofValue? v else none
  rw [Value.list?, Value.mapM_map_eq_some hparts] at hpartsField
  rw [hread] at hedgesField
  rw [ofValueWith?, hfields]
  simp [hlevels, horder, hpartsField, hedgesField, hinputs, houtputs]
  cases c
  rfl

/-- A circuit is refused if one of its parts is. -/
theorem ofValueWith?_toValue_eq_none {p : Part} (hp : p ∈ c.parts)
    (hnone : Part.ofValue? (levels - 2) nested? p.toValue = none) :
    ofValueWith? levels nested? c.toValue = none := by
  obtain ⟨fields, hfields, -, hpartsField, -⟩ :=
    exists_fields_toValue c (Part.ofValue? (levels - 2) nested?) Edge.ofValue?
  rw [Value.list?, Value.mapM_map_eq_none hp hnone] at hpartsField
  rw [ofValueWith?, hfields]
  simp [hpartsField]

/-- Every part of a circuit that was read was read from a value in range. -/
theorem exists_of_mem_parts {v : Value} (hv : v.InRange)
    (h : ofValueWith? levels nested? v = some c) {p : Part} (hp : p ∈ c.parts) :
    ∃ w : Value, w.InRange ∧ Part.ofValue? (levels - 2) nested? w = some p := by
  simp only [ofValueWith?, Option.bind_eq_bind, Option.bind_eq_some_iff] at h
  obtain ⟨-, -, fields, hfields, order, -, parts, hparts, edges, -, inputs, -, outputs, -, h⟩ := h
  obtain rfl := Option.some.inj h
  obtain ⟨e, he, hread⟩ := Fields.exists_of_required hparts
  exact Value.exists_of_mem_of_list? (Value.inRange_of_fields? hv hfields e he) hread hp

/-- Below the level of a circuit and that of its lists there are its parts and its edges. -/
theorem nesting_toValue_le_add_two {n : Nat} : c.toValue.nesting ≤ n + 2 ↔
    (∀ p ∈ c.parts, p.toValue.nesting ≤ n) ∧ ∀ edge ∈ c.edges, 1 ≤ n := by
  have horder : (Value.list (c.order.map NodeId.toValue)).nesting ≤ n + 1 := by
    refine Value.nesting_list_le.mpr (List.forall_mem_map.mpr fun id _ => ?_)
    rw [NodeId.toValue, Value.nesting_text]
    exact Nat.zero_le _
  have hparts : (Value.list (c.parts.map Part.toValue)).nesting ≤ n + 1 ↔
      ∀ p ∈ c.parts, p.toValue.nesting ≤ n := by
    rw [Value.nesting_list_le, List.forall_mem_map]
  have hedges : (Value.list (c.edges.map Edge.toValue)).nesting ≤ n + 1 ↔
      ∀ edge ∈ c.edges, 1 ≤ n := by
    rw [Value.nesting_list_le, List.forall_mem_map]
    simp only [Edge.nesting_toValue]
  rw [toValue_eq, Value.nesting_record_le]
  simp [horder, hparts, hedges]

/-- Below the three levels of a circuit, and that of the parameters of its parts, only the circuits
behind its parts count. -/
theorem nesting_toValue_le {n : Nat} : c.toValue.nesting ≤ n + 4 ↔
    ∀ p ∈ c.parts, ∀ d, p.nested = some d → d.toValue.nesting ≤ n + 1 := by
  rw [nesting_toValue_le_add_two]
  simp only [Part.nesting_toValue_le]
  exact ⟨fun h => h.1, fun h => ⟨h, fun _ _ => Nat.le_add_left 1 _⟩⟩

/-- A circuit takes more than one level: it holds lists. -/
theorem one_lt_nesting_toValue (c : Circuit) : 1 < c.toValue.nesting := by
  refine Nat.lt_of_not_le fun hle => ?_
  rw [toValue_eq, Value.nesting_record_le] at hle
  have horder := hle _ List.mem_cons_self
  rw [Value.nesting] at horder
  omega

/-! ## Reading within a number of levels -/

/-- A circuit behind a part has three levels less: those of the circuit, its list of parts and the
part. -/
theorem ofValue?_eq (levels : Nat) :
    ofValue? levels
      = ofValueWith? levels fun v => if 3 ≤ levels then ofValue? (levels - 3) v else none := by
  -- too few levels for a circuit behind a part are a matter of definition
  match levels with
  | 0 => rfl
  | 1 => rfl
  | 2 => rfl
  | n + 3 =>
    have hlevels : 3 ≤ n + 3 := Nat.le_add_left 3 n
    simp only [hlevels, if_true, Nat.add_sub_cancel]
    rfl

/-- A circuit that is not nested too deep is read back, in whatever number of levels. -/
theorem ofValue?_toValue {levels : Nat} (hc : c.Named) (hdepth : c.toValue.nesting ≤ levels) :
    ofValue? levels c.toValue = some c := by
  -- by induction on the circuit, for any number of levels, since the circuits behind the parts have
  -- fewer
  induction hc generalizing levels with
  | @mk c kinds _ ih =>
    have hlevels : 2 ≤ levels := Nat.le_trans c.one_lt_nesting_toValue hdepth
    obtain ⟨n, rfl⟩ := Nat.exists_eq_add_of_le' hlevels
    obtain ⟨hparts, hedges⟩ := nesting_toValue_le_add_two.mp hdepth
    rw [ofValue?_eq]
    refine ofValueWith?_toValue hlevels ?_ fun p hp => ?_
    · intro edge hedge
      have hone := hedges edge hedge
      omega
    · -- where there is a part, there is room for the circuit behind it
      have hpart := hparts p hp
      obtain ⟨m, rfl⟩ := Nat.exists_eq_add_of_le' (Nat.le_trans p.one_lt_nesting_toValue hpart)
      refine Part.ofValue?_toValue (by omega) (kinds p hp) fun d hd => ?_
      rw [if_pos (by omega)]
      exact ih p hp d hd (Part.nesting_toValue_le.mp hpart d hd)

/-- The levels in which `k` circuits fit, one behind the other. -/
def levelsOf (k : Nat) : Nat := 3 * k + 1

theorem ofValue?_levelsOf_zero (v : Value) : ofValue? (levelsOf 0) v = none := by
  rw [levelsOf, ofValue?]
  · simp [ofValueWith?]
  · omega

/-- Of `k + 1` circuits one behind the other, all but the first are read in the levels for `k`. -/
theorem ofValue?_levelsOf_succ (k : Nat) :
    ofValue? (levelsOf (k + 1)) = ofValueWith? (levelsOf (k + 1)) (ofValue? (levelsOf k)) := rfl

/-- A circuit fits for `k + 1` if those behind its parts fit for `k`. -/
theorem nesting_toValue_le_levelsOf_succ {k : Nat} : c.toValue.nesting ≤ levelsOf (k + 1) ↔
    ∀ p ∈ c.parts, ∀ d, p.nested = some d → d.toValue.nesting ≤ levelsOf k :=
  nesting_toValue_le (n := 3 * k)

/-- A circuit that is nested too deep is refused. -/
theorem ofValue?_toValue_eq_none {k : Nat} (hc : c.Storable)
    (hdepth : ¬ c.toValue.nesting ≤ levelsOf k) : ofValue? (levelsOf k) c.toValue = none := by
  -- by induction on the number of circuits that fit: some part is too deep for the levels that are
  -- left to it
  induction k generalizing c with
  | zero => exact ofValue?_levelsOf_zero _
  | succ k ih =>
    obtain ⟨hkinds, -, hnested⟩ := hc
    rw [nesting_toValue_le_levelsOf_succ] at hdepth
    push Not at hdepth
    obtain ⟨p, hp, d, hd, hdeep⟩ := hdepth
    rw [ofValue?_levelsOf_succ]
    refine ofValueWith?_toValue_eq_none hp ?_
    exact Part.ofValue?_toValue_eq_none (hkinds p hp) hd
      (ih (hnested p hp d hd) (Nat.not_le.mpr hdeep))

/-- What is read can be held by documents, and is not nested too deep to be read back. -/
theorem storable_of_ofValue? {k : Nat} {v : Value} (hv : v.InRange)
    (h : ofValue? (levelsOf k) v = some c) : c.Storable ∧ c.toValue.nesting ≤ levelsOf k := by
  -- by induction on the number of circuits that fit
  induction k generalizing v c with
  | zero =>
    rw [ofValue?_levelsOf_zero] at h
    cases h
  | succ k ih =>
    rw [ofValue?_levelsOf_succ] at h
    have hparts : ∀ p ∈ c.parts, (∃ s, p.kind = NodeKind.ofText s) ∧ Params.Storable p.params ∧
        ∀ d, p.nested = some d → d.Storable ∧ d.toValue.nesting ≤ levelsOf k := by
      intro p hp
      obtain ⟨w, hw, hread⟩ := exists_of_mem_parts hv h hp
      obtain ⟨hkind, hparams, hnested⟩ := Part.of_ofValue? hw hread
      refine ⟨hkind, hparams, fun d hd => ?_⟩
      obtain ⟨u, hu, hd⟩ := hnested d hd
      exact ih hu hd
    constructor
    · exact .mk (fun p hp => (hparts p hp).1) (fun p hp => (hparts p hp).2.1)
        fun p hp d hd => ((hparts p hp).2.2 d hd).1
    · rw [nesting_toValue_le_levelsOf_succ]
      exact fun p hp d hd => ((hparts p hp).2.2 d hd).2

/-- A circuit that documents can hold is a value that JSON can say. -/
theorem written_toValue (hc : c.Storable) : c.toValue.Written := by
  -- by induction on the circuit
  induction hc with
  | mk kinds params nested ih =>
    next c =>
    have horder : ∀ v ∈ c.order.map NodeId.toValue, v.Written :=
      List.forall_mem_map.mpr fun id _ => .text id.text
    have hparts : ∀ v ∈ c.parts.map Part.toValue, v.Written :=
      List.forall_mem_map.mpr fun p hp => Part.written_toValue (params p hp) (ih p hp)
    have hedges : ∀ v ∈ c.edges.map Edge.toValue, v.Written :=
      List.forall_mem_map.mpr fun edge _ => Edge.written_toValue edge
    rw [toValue_eq]
    refine Value.written_record ?_
    simp [Value.Written.list horder, Value.Written.list hparts, Value.Written.list hedges,
      Value.written_ofWord64]

end Circuit
end SignalBoard
