import SignalBoard.Proofs.Storage.Normalized

/-!
# Nodes, wires and memory as JSON text

JSON says null in the place of infinities and NaNs. Among the parameters of a node null may stand.
The coordinates of a position, the signals on a wire and what memory keeps must be numbers, so that
these are what decides whether the thing is found in its own text:

```lean
theorem Node.ofJson?_toJson (hkind : ∃ s, node.kind = NodeKind.ofText s) :
    ofJson? node.toJson = if node.position.isFinite then some node.normalized else none
theorem Wire.ofJson?_toJson : ofJson? wire.toJson = if wire.isFinite then some wire else none
theorem NodeMemory.ofJson?_toJson : ofJson? m.toJson = if m.isFinite then some m else none
```

`found_in_text` puts the three together. A text holds the normalized form of the value that it was
printed from (`Json.ofText?_text`), and for each sort of thing two facts about this form are enough:
it is one that JSON can say (`written_normalized`), and what is read from it
(`ofValue?_normalized`). Memory is looked at as a whole before its sort is known, so that its value
must not be nested too deep either (`Value.isReadable_of_written`).
-/

namespace SignalBoard

/-! ## Numbers and lists of them -/

namespace Value

/-- A number, or null in its place, is printed and read back as it is. -/
@[simp] theorem written_normalized_real (x : Binary64) : (real x).normalized.Written := by
  rw [normalized]
  split
  · next h => exact .real h
  · exact .null

/-- Where a number is needed null will not do. -/
@[simp] theorem number?_normalized_real (x : Binary64) :
    (real x).normalized.number? = if x.isFinite then some x else none := by
  rw [normalized]
  split <;> rfl

/-- A list of which some items are refused is refused. -/
theorem list?_map_eq_ite {α : Type} {read : Value → Option α} {write : α → Value} {ok : α → Bool}
    {xs : List α} (h : ∀ x ∈ xs, read (write x) = if ok x then some x else none) :
    list? read (list (xs.map write)) = if xs.all ok then some xs else none := by
  rw [list?]
  -- either every item is read back, or one is refused and the list with it
  split
  · next hall =>
    rw [List.all_eq_true] at hall
    exact mapM_map_eq_some fun x hx => (h x hx).trans (if_pos (hall x hx))
  · next hsome =>
    rw [List.all_eq_true] at hsome
    push Not at hsome
    obtain ⟨x, hx, hbad⟩ := hsome
    exact mapM_map_eq_none hx ((h x hx).trans (if_neg hbad))

end Value

namespace Json

/-- What a text holds is the normalized form of the value that it was printed from. -/
theorem ofText?_text {v : Value} (h : v.normalized.Written) : ofText? (text v) = some v.normalized := by
  rw [text, ← print_normalized, ofText?, String.toList_ofList]
  exact read?_print h

end Json

/-! ## Nodes -/

namespace Position

/-- Whether both coordinates are finite. -/
def isFinite (p : Position) : Bool :=
  p.x.isFinite && p.y.isFinite

/-- A position with nulls in the place of coordinates is still a value that JSON can say. -/
theorem written_normalized (p : Position) : p.toValue.normalized.Written := by
  rw [toValue, Value.normalized_record]
  exact Value.written_record (by simp)

theorem ofValue?_normalized (p : Position) :
    ofValue? p.toValue.normalized = if p.isFinite then some p else none := by
  rw [toValue, Value.normalized_record, ofValue?, Value.fields?_record (by simp) (by simp)]
  cases hx : p.x.isFinite <;> cases hy : p.y.isFinite <;>
    simp [Fields.required_cons, isFinite, hx, hy]

end Position

namespace Node

/-- The node with nothing in the place of infinities and NaNs among its parameters. -/
def normalized (node : Node) : Node :=
  { node with params := node.params.normalized }

/-- The normalized value of a node is one that JSON can say. -/
theorem written_normalized (node : Node) : node.toValue.normalized.Written := by
  have hparams : node.params.toValue.normalized.Written := by
    rw [← Params.toValue_normalized]
    exact Params.written_toValue (Params.storable_normalized node.params)
  rw [toValue, Value.normalized_record]
  refine Value.written_record ?_
  simp [NodeId.toValue, NodeKind.toValue, Value.Written.text, Value.written_ofWord64, hparams,
    Position.written_normalized]

/-- A node is read from its normalized value with normalized parameters, if its position is
finite. -/
theorem ofValue?_normalized {node : Node} (hkind : ∃ s, node.kind = NodeKind.ofText s) :
    ofValue? node.toValue.normalized
      = if node.position.isFinite then some node.normalized else none := by
  -- ids and kinds are texts, which normalizing leaves alone
  have hid : NodeId.ofValue? node.id.toValue.normalized = some node.id :=
    NodeId.ofValue?_toValue node.id
  have htype : NodeKind.ofValue? node.kind.toValue.normalized = some node.kind :=
    NodeKind.ofValue?_toValue hkind
  have hparams : Params.ofValue? node.params.toValue.normalized = some node.params.normalized := by
    rw [← Params.toValue_normalized, Params.ofValue?_toValue]
  rw [toValue, Value.normalized_record, ofValue?,
    Value.fields?_record (by simp [fieldNames]) (by simp)]
  cases hposition : node.position.isFinite <;>
    simp [Fields.required_cons, Fields.withDefault_cons, hid, htype, hparams,
      Position.ofValue?_normalized, hposition, Value.word64?_ofWord64, normalized]

/-- A node is found in its text just if its position is finite. -/
theorem ofJson?_toJson {node : Node} (hkind : ∃ s, node.kind = NodeKind.ofText s) :
    ofJson? node.toJson = if node.position.isFinite then some node.normalized else none := by
  rw [ofJson?, toJson, Json.ofText?_text (written_normalized node), Option.bind_some,
    ofValue?_normalized hkind]

end Node

/-! ## Wires -/

namespace PortSide

/-- The side of a port is read back from its text. -/
theorem ofText?_text (side : PortSide) : ofText? side.text = some side := by
  cases side <;> simp [text, ofText?]

/-- The side of a port is read back from its value. -/
theorem ofValue?_toValue (side : PortSide) : ofValue? side.toValue = some side := by
  rw [toValue, ofValue?, Value.text?, Option.bind_some, ofText?_text]
  intro key h
  cases h

end PortSide

namespace PortRef

/-- A reference to a port holds no number that could be infinite. -/
theorem normalized_toValue (ref : PortRef) : ref.toValue.normalized = ref.toValue := by
  rw [toValue, Value.normalized_record]
  simp [NodeId.toValue, PortSide.toValue]

/-- A reference to a port is a value that JSON can say. -/
theorem written_toValue (ref : PortRef) : ref.toValue.Written := by
  refine Value.written_record ?_
  simp [NodeId.toValue, PortSide.toValue, Value.Written.text, Value.written_ofWord64]

/-- What is found in the fields of a reference to a port. -/
theorem exists_fields_toValue (ref : PortRef) : ∃ fields,
    ref.toValue.fields? ["nodeId", "portIndex", "side"] = some fields ∧
    fields.required "nodeId" NodeId.ofValue? = some ref.node ∧
    fields.required "portIndex" Value.word64? = some ref.port ∧
    fields.required "side" PortSide.ofValue? = some ref.side := by
  refine ⟨_, Value.fields?_record ?_ ?_, ?_⟩
  · simp
  · simp
  · simp [Fields.required_cons, NodeId.ofValue?_toValue, Value.word64?_ofWord64,
      PortSide.ofValue?_toValue]

theorem ofValue?_toValue (ref : PortRef) : ofValue? ref.toValue = some ref := by
  obtain ⟨fields, hfields, hnode, hport, hside⟩ := exists_fields_toValue ref
  rw [ofValue?, hfields]
  simp [hnode, hport, hside]

end PortRef

namespace InFlightSignal

/-- A signal under way is a value that JSON can say, maybe with null in it. -/
theorem written_normalized (signal : InFlightSignal) : signal.toValue.normalized.Written := by
  rw [toValue, Value.normalized_record]
  exact Value.written_record (by simp [Value.written_ofWord32])

/-- A signal under way is read back if its value is finite. -/
theorem ofValue?_normalized (signal : InFlightSignal) :
    ofValue? signal.toValue.normalized = if signal.value.isFinite then some signal else none := by
  rw [toValue, Value.normalized_record, ofValue?, Value.fields?_record (by simp) (by simp)]
  cases hvalue : signal.value.isFinite <;>
    simp [Fields.required_cons, Value.word32?_ofWord32, hvalue]

end InFlightSignal

namespace Wire

/-- Whether all signals under way are finite. -/
def isFinite (wire : Wire) : Bool :=
  wire.signals.all (·.value.isFinite)

/-- The signals under way, as they are written. -/
theorem normalized_signalFields (signals : List InFlightSignal) :
    (signalFields signals).map (fun e => (e.1, e.2.normalized))
      = if signals.isEmpty then [] else
          [("signals", .list (signals.map fun signal => signal.toValue.normalized))] := by
  rw [signalFields]
  split
  · rfl
  · rw [List.map_singleton, Value.normalized_list, List.map_map]
    rfl

/-- The normalized value of a wire is one that JSON can say. -/
theorem written_normalized (wire : Wire) : wire.toValue.normalized.Written := by
  have hsignals : ∀ v ∈ wire.signals.map fun signal => signal.toValue.normalized, v.Written :=
    List.forall_mem_map.mpr fun signal _ => InFlightSignal.written_normalized signal
  rw [toValue, Value.normalized_record, List.map_append, normalized_signalFields]
  refine Value.written_record ?_
  cases hempty : wire.signals.isEmpty <;>
    simp [WireId.toValue, PortRef.normalized_toValue, PortRef.written_toValue, Value.Written.text,
      Value.written_ofWord32, Value.Written.list hsignals]

/-- The signals under way, as they are read. -/
theorem withDefault_signalFields (signals : List InFlightSignal) :
    (Fields.mk ((signalFields signals).map fun e => (e.1, e.2.normalized))).withDefault "signals" []
      (Value.list? InFlightSignal.ofValue?)
        = if signals.all (·.value.isFinite) then some signals else none := by
  rw [normalized_signalFields]
  cases signals with
  -- the field is left out if there are no signals, and its default is none
  | nil => exact Fields.withDefault_nil _ _ _
  | cons signal rest =>
    rw [if_neg (by simp), Fields.withDefault_cons, if_pos rfl]
    exact Value.list?_map_eq_ite fun signal _ => InFlightSignal.ofValue?_normalized signal

/-- What is found in the fields of a wire, as they are written. -/
theorem exists_fields_normalized (wire : Wire) : ∃ fields,
    wire.toValue.normalized.fields? fieldNames = some fields ∧
    fields.required "id" WireId.ofValue? = some wire.id ∧
    fields.required "source" PortRef.ofValue? = some wire.source ∧
    fields.required "target" PortRef.ofValue? = some wire.target ∧
    fields.withDefault "wtsDelay" ticksPerStep Value.word32? = some wire.delay ∧
    fields.withDefault "signals" [] (Value.list? InFlightSignal.ofValue?)
      = if wire.isFinite then some wire.signals else none := by
  have hid : WireId.ofValue? wire.id.toValue.normalized = some wire.id := rfl
  rw [toValue, Value.normalized_record, List.map_append]
  refine ⟨_, Value.fields?_record ?_ ?_, ?_⟩
  · rw [normalized_signalFields]
    cases wire.signals.isEmpty <;> simp [fieldNames]
  · rw [normalized_signalFields]
    cases wire.signals.isEmpty <;> simp
  · simp [Fields.required_cons, Fields.withDefault_cons, withDefault_signalFields, hid,
      PortRef.normalized_toValue, PortRef.ofValue?_toValue, Value.word32?_ofWord32, isFinite]

/-- A wire is read from its normalized value if all signals under way are finite. -/
theorem ofValue?_normalized (wire : Wire) :
    ofValue? wire.toValue.normalized = if wire.isFinite then some wire else none := by
  obtain ⟨fields, hfields, hid, hsource, htarget, hdelay, hsignals⟩ :=
    exists_fields_normalized wire
  rw [ofValue?, hfields]
  cases hfinite : wire.isFinite <;> simp [hid, hsource, htarget, hdelay, hsignals, hfinite]

/-- A wire is found in its text just if all signals under way are finite. -/
theorem ofJson?_toJson (wire : Wire) :
    ofJson? wire.toJson = if wire.isFinite then some wire else none := by
  rw [ofJson?, toJson, Json.ofText?_text (written_normalized wire), Option.bind_some,
    ofValue?_normalized]

/-- What has been sent off is under way, so all of it must be finite. -/
theorem isFinite_foldl_send (wire : Wire) (values : List Binary64) :
    (values.foldl send wire).isFinite = (wire.isFinite && values.all (·.isFinite)) := by
  induction values generalizing wire with
  | nil => rw [List.foldl_nil, List.all_nil, Bool.and_true]
  | cons x values ih =>
    rw [List.foldl_cons, ih, List.all_cons, ← Bool.and_assoc]
    simp [isFinite, send]

end Wire

/-! ## Memory -/

namespace Value

/-- The recursion over the items of a list asks each of them. -/
theorem itemsReadable_eq (levels : Nat) (items : List Value) :
    itemsReadable levels items = items.all (isReadable levels) := by
  induction items with
  | nil => rw [itemsReadable, List.all_nil]
  | cons v rest ih => rw [itemsReadable, ih, List.all_cons]

/-- The recursion over the entries of a map asks each key and each value. -/
theorem entriesReadable_eq (levels : Nat) (entries : List (Value × Value)) :
    entriesReadable levels entries
      = entries.all fun e => e.1.isReadable levels && e.2.isReadable levels := by
  induction entries with
  | nil => rw [entriesReadable, List.all_nil]
  | cons e rest ih => rw [entriesReadable, ih, List.all_cons]

/-- Everything that JSON can say is readable as long as it is not nested too deep. -/
theorem isReadable_of_written {v : Value} (hv : v.Written) {levels : Nat}
    (hdepth : v.nesting ≤ levels) : v.isReadable levels = true := by
  -- each list or map uses up one level
  induction hv generalizing levels with
  | @list items _ ih =>
    obtain ⟨n, rfl⟩ : ∃ n, levels = n + 1 := Nat.exists_eq_add_of_le' (by
      rw [nesting] at hdepth
      omega)
    rw [nesting_list_le] at hdepth
    rw [isReadable, itemsReadable_eq]
    simp only [Nat.add_sub_cancel, Nat.zero_lt_succ, decide_true, Bool.true_and, List.all_eq_true]
    exact fun v hv => ih v hv (hdepth v hv)
  | @map entries hkeys _ ih =>
    obtain ⟨n, rfl⟩ : ∃ n, levels = n + 1 := Nat.exists_eq_add_of_le' (by
      rw [nesting] at hdepth
      omega)
    rw [nesting, Nat.add_comm, Nat.add_le_add_iff_right, entriesNesting_le] at hdepth
    rw [isReadable, entriesReadable_eq]
    simp only [Nat.add_sub_cancel, Nat.zero_lt_succ, decide_true, Bool.true_and, List.all_eq_true,
      Bool.and_eq_true]
    intro e he
    obtain ⟨key, hkey⟩ := hkeys e he
    rw [hkey]
    exact ⟨rfl, ih e he (hdepth e he)⟩
  | _ => rfl

end Value

namespace NodeMemory

/-- Whether everything that is kept is finite. -/
def isFinite : NodeMemory → Bool
  | stateless => true
  | latch value => value.isFinite
  | delay buffer _ => buffer.all (·.isFinite)

/-- The sort of memory is found in a record in which it comes first. -/
theorem split?_record {sort : String} {fields : List (String × Value)}
    (hfields : ∀ e ∈ fields, e.1 ≠ tag) :
    split? (.record ((tag, .text sort) :: fields)) = some (sort, .record fields) := by
  have hothers : ∀ e ∈ fields.map fun e => (Value.text e.1, e.2), isTag e = false := by
    refine List.forall_mem_map.mpr fun e he => ?_
    simpa [isTag, Value.text?] using hfields e he
  -- exactly one entry is the tag, so there is no doubt about the sort
  have hnone : (fields.map fun e => (Value.text e.1, e.2)).filter isTag = [] :=
    List.filter_eq_nil_iff.mpr fun e he => by simp [hothers e he]
  have hall : (fields.map fun e => (Value.text e.1, e.2)).filter (fun e => !isTag e)
      = fields.map fun e => (Value.text e.1, e.2) :=
    List.filter_eq_self.mpr fun e he => by simp [hothers e he]
  have htag : isTag (.text tag, .text sort) = true := by simp [isTag, Value.text?]
  simp [split?, Value.record, htag, hnone, hall, Value.text?]

/-- The value of memory, as it is written. -/
theorem normalized_toValue (m : NodeMemory) : m.toValue.normalized =
    match m with
    | stateless => .record [(tag, .text "stateless")]
    | latch value => .record [(tag, .text "latch"), ("value", (Value.real value).normalized)]
    | delay buffer cursor => .record [(tag, .text "delay"),
        ("buffer", .list (buffer.map fun x => (Value.real x).normalized)),
        ("writeIndex", .ofWord64 cursor)] := by
  cases m with
  | stateless => simp [toValue, Value.normalized_record]
  | latch value => simp [toValue, Value.normalized_record]
  | delay buffer cursor =>
    simp [toValue, Value.normalized_record, Value.normalized_list, Function.comp_def]

/-- The normalized value of memory is one that JSON can say. -/
theorem written_normalized (m : NodeMemory) : m.toValue.normalized.Written := by
  rw [normalized_toValue]
  cases m with
  | stateless => exact Value.written_record (by simp [Value.Written.text])
  | latch value => exact Value.written_record (by simp [Value.Written.text])
  | delay buffer cursor =>
    have hbuffer : ∀ v ∈ buffer.map fun x => (Value.real x).normalized, v.Written :=
      List.forall_mem_map.mpr fun x _ => Value.written_normalized_real x
    exact Value.written_record
      (by simp [Value.Written.text, Value.written_ofWord64, Value.Written.list hbuffer])

/-- Memory takes two levels at most, for the record and the ring. -/
theorem nesting_toValue_le (m : NodeMemory) : m.toValue.nesting ≤ 2 := by
  have hreal : ∀ x : Binary64, (Value.real x).nesting = 0 := fun _ => rfl
  rw [toValue.eq_def]
  cases m with
  | stateless => simp [Value.nesting_record_le]
  | latch value => simp [Value.nesting_record_le, hreal]
  | delay buffer cursor =>
    have hbuffer : (Value.list (buffer.map .real)).nesting ≤ 1 :=
      Value.nesting_list_le.mpr (List.forall_mem_map.mpr fun x _ => (hreal x).le)
    simp [Value.nesting_record_le, hbuffer]

theorem ofFields?_latch (value : Binary64) :
    ofFields? "latch" (.record [("value", (Value.real value).normalized)])
      = if value.isFinite then some (latch value) else none := by
  rw [ofFields?.eq_def, Value.fields?_record (by simp) (by simp)]
  cases hvalue : value.isFinite <;> simp [Fields.required_cons, hvalue]

/-- A ring needs finite values in all its slots. -/
theorem ofFields?_delay (buffer : List Binary64) (cursor : UInt64) :
    ofFields? "delay" (.record [("buffer", .list (buffer.map fun x => (Value.real x).normalized)),
        ("writeIndex", .ofWord64 cursor)])
      = if buffer.all (·.isFinite) then some (delay buffer cursor) else none := by
  have hbuffer : Value.list? Value.number?
      (.list (buffer.map fun x => (Value.real x).normalized))
        = if buffer.all (·.isFinite) then some buffer else none :=
    Value.list?_map_eq_ite fun x _ => Value.number?_normalized_real x
  have hfields : ∃ fields, Value.fields? ["buffer", "writeIndex"]
      (.record [("buffer", .list (buffer.map fun x => (Value.real x).normalized)),
        ("writeIndex", .ofWord64 cursor)]) = some fields ∧
      fields.required "buffer" (Value.list? Value.number?)
        = (if buffer.all (·.isFinite) then some buffer else none) ∧
      fields.required "writeIndex" Value.word64? = some cursor :=
    ⟨_, Value.fields?_record (by simp) (by simp),
      by simp [Fields.required_cons, hbuffer, Value.word64?_ofWord64]⟩
  obtain ⟨fields, hfields, hvalues, hcursor⟩ := hfields
  rw [ofFields?.eq_def, hfields]
  cases hfinite : buffer.all (·.isFinite) <;> simp [hvalues, hcursor, hfinite]

/-- Memory is read from its normalized value if everything that it keeps is finite. -/
theorem ofValue?_normalized (m : NodeMemory) :
    ofValue? Json.maxNesting m.toValue.normalized = if m.isFinite then some m else none := by
  -- the look at the whole value finds nothing unreadable, for the limit is far off
  have hreadable : m.toValue.normalized.isReadable Json.maxNesting = true := by
    refine Value.isReadable_of_written (written_normalized m) ?_
    rw [Value.nesting_normalized]
    exact (nesting_toValue_le m).trans (by decide)
  rw [ofValue?, if_pos hreadable, normalized_toValue]
  cases m with
  | stateless =>
    dsimp only
    rw [split?_record (by simp), Option.bind_some]
    rfl
  | latch value =>
    dsimp only
    rw [split?_record (by simp [tag]), Option.bind_some]
    exact ofFields?_latch value
  | delay buffer cursor =>
    dsimp only
    rw [split?_record (by simp [tag]), Option.bind_some]
    exact ofFields?_delay buffer cursor

/-- Memory is found in its text just if everything that is kept is finite. -/
theorem ofJson?_toJson (m : NodeMemory) :
    ofJson? m.toJson = if m.isFinite then some m else none := by
  rw [ofJson?, toJson, Json.ofText?_text (written_normalized m), Option.bind_some,
    ofValue?_normalized]

end NodeMemory

/-! ## What comes back -/

/-- **A board's things are found in their own text just if their numbers are finite.** For a node,
whose kind comes from a type text, the coordinates of its position count, for a wire what is under
way, whatever has been sent off on it, and for memory what it keeps. What is found is the same, bit
for bit and in the same order, but for the parameters of a node: these have nothing in the place of
infinities and NaNs. -/
theorem found_in_text :
    (∀ (node : Node) (s : String), node.kind = NodeKind.ofText s →
      Node.ofJson? node.toJson
        = if node.position.x.isFinite && node.position.y.isFinite then
            some { node with params := node.params.normalized }
          else none) ∧
      (∀ (wire : Wire) (values : List Binary64),
        Wire.ofJson? (values.foldl Wire.send wire).toJson
          = if wire.signals.all (·.value.isFinite) && values.all (·.isFinite) then
              some (values.foldl Wire.send wire)
            else none) ∧
      ∀ m : NodeMemory, NodeMemory.ofJson? m.toJson
        = if match m with
            | .stateless => true
            | .latch value => value.isFinite
            | .delay buffer _ => buffer.all (·.isFinite)
          then some m else none := by
  refine ⟨fun node s hkind => ?_, fun wire values => ?_, fun m => ?_⟩
  · exact Node.ofJson?_toJson ⟨s, hkind⟩
  · rw [Wire.ofJson?_toJson, Wire.isFinite_foldl_send, Wire.isFinite]
  · rw [NodeMemory.ofJson?_toJson, NodeMemory.isFinite.eq_def]

/-- A node at a negative zero, of a kind with an alias, with a NaN among its parameters. -/
def restless : Node :=
  { Node.ofKind ⟨"n"⟩ (.ofText "negate") with
    position := ⟨.negZero, .zero⟩
    params := .ofList [("ratio", .number .nan), ("level", .number .negZero)] }

/-- Such a node comes back with null for the NaN and with the sign of its zeros. At an infinite
position it would be lost, and so are a wire with a NaN on it and a ring with an infinity in it. -/
theorem found_in_text_restless :
    restless.kind = NodeKind.ofText "negate" ∧
      (∃ node, Node.ofJson? restless.toJson = some node ∧ node.position = ⟨.negZero, .zero⟩ ∧
        node.params.entries = [("ratio", .null), ("level", .number .negZero)]) ∧
      Node.ofJson? (restless.movedTo ⟨.zero, .infinity⟩).toJson = none ∧
      Wire.ofJson? ((Wire.between ⟨"w"⟩ ⟨"n"⟩ 0 ⟨"m"⟩ 0).send .nan).toJson = none ∧
      NodeMemory.ofJson? (NodeMemory.delay [.zero, .negInfinity] 1).toJson = none := by
  have hkind : restless.kind = NodeKind.ofText "negate" := rfl
  obtain ⟨hnode, hwire, hmemory⟩ := found_in_text
  refine ⟨hkind, ⟨_, hnode restless "negate" hkind, rfl, ?_⟩, ?_, ?_, ?_⟩
  · decide +kernel
  · exact hnode (restless.movedTo ⟨.zero, .infinity⟩) "negate" hkind
  · exact hwire (Wire.between ⟨"w"⟩ ⟨"n"⟩ 0 ⟨"m"⟩ 0) [.nan]
  · exact hmemory (.delay [.zero, .negInfinity] 1)

end SignalBoard
