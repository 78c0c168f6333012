import SignalBoard.Node.Id
import SignalBoard.Proofs.Decimal.Digits

/-!
# Reading the ids of connection points

The id of a connection point reads back as that connection point (`connectionPoint?_input`,
`connectionPoint?_output`), because the digits of a number read back as the number
(`Decimal.natural?_digits`). So the ids of two connection points differ, and none of them is an
ordinary id.
-/

namespace SignalBoard

namespace ConnectionPoint

/-- An index is read back from its digits: they have no sign to strip, and a word is below the limit
by its type. -/
theorem index?_digits (n : UInt64) : index? (Decimal.digits n.toNat) = some n := by
  have hlt : n.toNat < UInt64.size := n.toNat_lt
  simp only [index?]
  split
  · -- the branch that strips a plus sign is not taken
    next ds h => exact absurd h (Decimal.digits_ne_plus _ _)
  · rw [Decimal.natural?_digits, Option.filter_some, if_pos (by simpa using hlt)]
    simp

end ConnectionPoint

namespace NodeId

/-- The id of an external input is read as that input. -/
@[simp] theorem connectionPoint?_input (n : UInt64) :
    (input n).connectionPoint? = some (.input n) := by
  have h : (input n).text.toList
      = ConnectionPoint.inputMark.toList ++ Decimal.digits n.toNat := by
    simp [input, ConnectionPoint.id]
  rw [connectionPoint?, h, List.isPrefixOf?_eq_some_iff_append_eq.mpr rfl]
  simp [ConnectionPoint.index?_digits]

/-- The id of an external output is read as that output. -/
@[simp] theorem connectionPoint?_output (n : UInt64) :
    (output n).connectionPoint? = some (.output n) := by
  have h : (output n).text.toList
      = ConnectionPoint.outputMark.toList ++ Decimal.digits n.toNat := by
    simp [output, ConnectionPoint.id]
  -- the mark of the inputs is no beginning: the two differ in their fourth character
  have hnot : ConnectionPoint.inputMark.toList.isPrefixOf? (output n).text.toList = none := by
    rw [h]
    rfl
  rw [connectionPoint?, hnot, h, List.isPrefixOf?_eq_some_iff_append_eq.mpr rfl]
  simp [ConnectionPoint.index?_digits]

/-- Inputs with different indices have different ids, since an id tells its index. -/
theorem input_injective {m n : UInt64} (h : input m = input n) : m = n := by
  -- reading is the left inverse of writing
  have := congrArg connectionPoint? h
  simpa using this

/-- Outputs with different indices have different ids. -/
theorem output_injective {m n : UInt64} (h : output m = output n) : m = n := by
  have := congrArg connectionPoint? h
  simpa using this

/-- No id is that of an input and of an output. -/
theorem input_ne_output (m n : UInt64) : input m ≠ output n := by
  intro h
  have := congrArg connectionPoint? h
  simp at this

/-- The input ids are those that are read as an input. These are more than the ids `input n`: an
index with leading zeros or a plus sign is read as well. -/
theorem isInput_iff {id : NodeId} : id.isInput ↔ ∃ n, id.connectionPoint? = some (.input n) := by
  rw [isInput]
  split
  · next n h => simp [h]
  · next h =>
    simp only [Bool.false_eq_true, false_iff, not_exists]
    exact fun n hn => h n hn

/-- The output ids are those that are read as an output, however the index is written. -/
theorem isOutput_iff {id : NodeId} :
    id.isOutput ↔ ∃ n, id.connectionPoint? = some (.output n) := by
  rw [isOutput]
  split
  · next n h => simp [h]
  · next h =>
    simp only [Bool.false_eq_true, false_iff, not_exists]
    exact fun n hn => h n hn

@[simp] theorem isInput_input (n : UInt64) : (input n).isInput := by
  simp [isInput]

@[simp] theorem isOutput_output (n : UInt64) : (output n).isOutput := by
  simp [isOutput]

@[simp] theorem isConnectionPoint_input (n : UInt64) : (input n).isConnectionPoint := by
  simp [isConnectionPoint]

@[simp] theorem isConnectionPoint_output (n : UInt64) : (output n).isConnectionPoint := by
  simp [isConnectionPoint]

@[simp] theorem not_isInput_output (n : UInt64) : ¬ (output n).isInput := by
  simp [isInput]

@[simp] theorem not_isOutput_input (n : UInt64) : ¬ (input n).isOutput := by
  simp [isOutput]

/-- An ordinary id is not read as a connection point. -/
theorem connectionPoint?_eq_none {id : NodeId} (h : ¬ id.isConnectionPoint) :
    id.connectionPoint? = none := by
  simpa [isConnectionPoint] using h

theorem not_isInput_of_ordinary {id : NodeId} (h : ¬ id.isConnectionPoint) : ¬ id.isInput := by
  intro hinput
  obtain ⟨n, hn⟩ := isInput_iff.mp hinput
  rw [connectionPoint?_eq_none h] at hn
  cases hn

theorem not_isOutput_of_ordinary {id : NodeId} (h : ¬ id.isConnectionPoint) :
    ¬ id.isOutput := by
  intro houtput
  obtain ⟨n, hn⟩ := isOutput_iff.mp houtput
  rw [connectionPoint?_eq_none h] at hn
  cases hn

end NodeId
end SignalBoard
