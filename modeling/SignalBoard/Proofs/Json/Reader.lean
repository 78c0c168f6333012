import SignalBoard.Json.Reader
import SignalBoard.Proofs.Binary64.Rounding

/-!
# What the reader gives

Whatever text is read, the numbers of the value that it holds are finite and its integers have at
most 64 bits (`inRange_of_read?`). The one place where a number comes in is the end of a numeral,
where what is infinite is refused; `inRange_of_step` carries this from character to character.
-/

namespace SignalBoard

/-- All numbers in a value are finite, and all integers have at most 64 bits. -/
inductive Value.InRange : Value → Prop where
  | null : InRange .null
  | bool (b : Bool) : InRange (.bool b)
  | int {n : Int} (hsize : n.natAbs ≤ UInt64.size) : InRange (.int n)
  | real {x : Binary64} (hfinite : x.isFinite = true) : InRange (.real x)
  | text (s : String) : InRange (.text s)
  | bytes (bs : List UInt8) : InRange (.bytes bs)
  | list {items : List Value} (hitems : ∀ v ∈ items, InRange v) : InRange (.list items)
  | map {entries : List (Value × Value)} (hvalues : ∀ e ∈ entries, InRange e.2) :
      InRange (.map entries)
  | unreadable : InRange .unreadable

namespace Binary64

/-- Rounding stops at the magnitude of the infinities. -/
theorem decimalMagnitude_le (m : Nat) (e : Int) : decimalMagnitude m e ≤ infiniteMagnitude := by
  simp only [decimalMagnitude]
  split
  · exact Nat.zero_le _
  split
  · exact le_rfl
  split
  · exact Nat.zero_le _
  split
  · exact roundUnits_le _ _
  · exact roundUnits_le _ _

/-- A decimal is read as a finite number or as an infinity. -/
theorem isFinite_ofDecimal {negative : Bool} {m : Nat} {e : Int}
    (h : (ofDecimal negative m e).isInfinite = false) :
    (ofDecimal negative m e).isFinite = true := by
  have hle := decimalMagnitude_le m e
  rw [isInfinite, ofDecimal, magnitude_ofMagnitude negative (hle.trans_lt infiniteMagnitude_lt),
    decide_eq_false_iff_not] at h
  exact isFinite_ofMagnitude negative (lt_of_le_of_ne hle h)

end Binary64

namespace Json

/-- However many digits are looked at, a decimal is rounded. -/
theorem exists_toBinary64Within_eq (negative : Bool) (n : Numeral) (count : Nat) :
    ∃ m e, n.toBinary64Within count negative = .ofDecimal negative m e := by
  rw [Numeral.toBinary64Within]
  generalize n.significant = digits
  obtain ⟨ds, e⟩ := digits
  by_cases hfew : ds.length ≤ count
  · exact ⟨_, _, if_pos hfew⟩
  · exact ⟨_, _, if_neg hfew⟩

/-- What a numeral becomes is in range: an integer that fits, or else a number that is rounded, and
what is rounded to an infinity is unreadable. -/
theorem inRange_numberValue (negative : Bool) (n : Numeral) : (numberValue negative n).InRange := by
  have hsize : UInt64.size = 18446744073709551616 := rfl
  simp only [numberValue]
  split
  · next h =>
    simp only [Bool.and_eq_true, decide_eq_true_eq] at h
    exact .int (by simpa using h.2.le)
  split
  · next h =>
    simp only [Bool.and_eq_true, decide_eq_true_eq] at h
    refine .int ?_
    rw [Int.natAbs_neg, Int.natAbs_natCast, hsize]
    omega
  split
  · exact .unreadable
  · next h =>
    obtain ⟨m, e, hx⟩ := exists_toBinary64Within_eq negative n maxDigits
    rw [hx, Bool.not_eq_true] at h
    rw [hx]
    exact .real (Binary64.isFinite_ofDecimal h)

theorem inRange_of_number? {cs : List Char} {v : Value} (h : number? cs = some v) : v.InRange := by
  simp only [number?] at h
  obtain ⟨n, -, rfl⟩ := Option.map_eq_some_iff.mp h
  exact inRange_numberValue _ n

/-- The values of a container that is still open are in range. -/
def Frame.InRange : Frame → Prop
  | .list items => ∀ v ∈ items, v.InRange
  | .map entries => ∀ e ∈ entries, e.2.InRange
  | .entry entries _ => ∀ e ∈ entries, e.2.InRange

/-- The value that is about to be completed, or has been completed, is in range. -/
def Mode.InRange : Mode → Prop
  | .word _ v => v.InRange
  | .done v => v.InRange
  | _ => True

namespace ReaderState

/-- Everything that has been read is in range. -/
structure InRange (s : ReaderState) : Prop where
  frames : ∀ f ∈ s.frames, f.InRange
  mode : s.mode.InRange

variable {frames : List Frame} {s t : ReaderState} {c : Char}

/-- A completed value goes into the innermost open container, or it is the whole. -/
theorem inRange_of_complete (hframes : ∀ f ∈ frames, f.InRange) {v : Value} (hv : v.InRange)
    (h : complete frames v = some t) : t.InRange := by
  rw [complete.eq_def] at h
  -- nothing is open, a list, a map that waits for a value, and a map that does not
  split at h
  · obtain rfl := Option.some.inj h
    exact ⟨hframes, hv⟩
  · obtain rfl := Option.some.inj h
    rw [List.forall_mem_cons] at hframes
    refine ⟨List.forall_mem_cons.mpr ⟨?_, hframes.2⟩, trivial⟩
    exact List.forall_mem_cons.mpr ⟨hv, hframes.1⟩
  · obtain rfl := Option.some.inj h
    rw [List.forall_mem_cons] at hframes
    refine ⟨List.forall_mem_cons.mpr ⟨?_, hframes.2⟩, trivial⟩
    exact List.forall_mem_cons.mpr ⟨hv, hframes.1⟩
  · cases h

/-- A completed string is a key or a value; neither holds a number. -/
theorem inRange_of_completeString (hframes : ∀ f ∈ frames, f.InRange) {isKey : Bool}
    {codes : List Nat} (h : completeString frames isKey codes = some t) : t.InRange := by
  simp only [completeString] at h
  split at h
  · split at h
    · obtain rfl := Option.some.inj h
      rw [List.forall_mem_cons] at hframes
      exact ⟨List.forall_mem_cons.mpr hframes, trivial⟩
    · cases h
  · refine inRange_of_complete hframes ?_ h
    split
    · exact .text _
    · exact .unreadable

/-- A completed number is in range. This is where numbers come in. -/
theorem inRange_of_completeNumber (hframes : ∀ f ∈ frames, f.InRange) {chars : List Char}
    (h : completeNumber frames chars = some t) : t.InRange := by
  obtain ⟨v, hv, ht⟩ := Option.bind_eq_some_iff.mp h
  exact inRange_of_complete hframes (inRange_of_number? hv) ht

/-- The first character of a value opens a container, a string, a number or a word. -/
theorem inRange_of_openValue (hframes : ∀ f ∈ frames, f.InRange)
    (h : openValue frames c = some t) : t.InRange := by
  have hnil : ∀ {f : Frame}, f.InRange → ∀ g ∈ f :: frames, g.InRange :=
    fun hf => List.forall_mem_cons.mpr ⟨hf, hframes⟩
  simp only [openValue] at h
  split_ifs at h <;> obtain rfl := Option.some.inj h
  · exact ⟨hnil (fun _ hv => absurd hv List.not_mem_nil), trivial⟩
  · exact ⟨hnil (fun _ he => absurd he List.not_mem_nil), trivial⟩
  · exact ⟨hframes, trivial⟩
  · exact ⟨hframes, trivial⟩
  · exact ⟨hframes, .bool true⟩
  · exact ⟨hframes, .bool false⟩
  · exact ⟨hframes, .null⟩

/-- The first character of a key adds no value. -/
theorem inRange_of_openKey (hframes : ∀ f ∈ frames, f.InRange) (h : openKey frames c = some t) :
    t.InRange := by
  rw [openKey, Option.ite_none_right_eq_some] at h
  obtain rfl := Option.some.inj h.2
  exact ⟨hframes, trivial⟩

/-- A closed container has the values that it had while it was open. -/
theorem inRange_of_close (hframes : ∀ f ∈ frames, f.InRange) (h : close frames c = some t) :
    t.InRange := by
  rw [close.eq_def] at h
  split at h
  · rw [Option.ite_none_right_eq_some] at h
    rw [List.forall_mem_cons] at hframes
    refine inRange_of_complete hframes.2 (.list fun v hv => hframes.1 v ?_) h.2
    exact List.mem_reverse.mp hv
  · rw [Option.ite_none_right_eq_some] at h
    rw [List.forall_mem_cons] at hframes
    refine inRange_of_complete hframes.2 (.map fun e he => hframes.1 e ?_) h.2
    exact List.mem_reverse.mp he
  · cases h

/-- A comma or a closing bracket adds no value. -/
theorem inRange_of_separate (hframes : ∀ f ∈ frames, f.InRange) (h : separate frames c = some t) :
    t.InRange := by
  rw [separate.eq_def] at h
  split at h
  · split at h
    · obtain rfl := Option.some.inj h
      exact ⟨hframes, trivial⟩
    · obtain rfl := Option.some.inj h
      exact ⟨hframes, trivial⟩
    · cases h
  · exact inRange_of_close hframes h

/-- Between two values no character adds one that is out of range. -/
theorem inRange_of_stepBetween (hs : s.InRange) (h : stepBetween s.frames s.mode c = some t) :
    t.InRange := by
  rw [stepBetween.eq_def] at h
  -- blanks first, then one case for each thing that may be waited for
  split at h
  · obtain rfl := Option.some.inj h
    exact hs
  split at h
  · exact inRange_of_openValue hs.frames h
  · split at h
    · exact inRange_of_close hs.frames h
    · exact inRange_of_openValue hs.frames h
  · exact inRange_of_openKey hs.frames h
  · split at h
    · exact inRange_of_close hs.frames h
    · exact inRange_of_openKey hs.frames h
  · rw [Option.ite_none_right_eq_some] at h
    obtain rfl := Option.some.inj h.2
    exact ⟨hs.frames, trivial⟩
  · exact inRange_of_separate hs.frames h
  · cases h

/-- One more character keeps what has been read in range. -/
theorem inRange_of_step (hs : s.InRange) (h : step s c = some t) : t.InRange := by
  rw [step.eq_def] at h
  -- one case for each mode: in a string, after a backslash, in a code, in a word, in a number,
  -- between values
  split at h
  · split_ifs at h
    · exact inRange_of_completeString hs.frames h
    · obtain rfl := Option.some.inj h
      exact ⟨hs.frames, trivial⟩
    · obtain rfl := Option.some.inj h
      exact ⟨hs.frames, trivial⟩
  · split at h
    · obtain rfl := Option.some.inj h
      exact ⟨hs.frames, trivial⟩
    · obtain ⟨code, -, rfl⟩ := Option.map_eq_some_iff.mp h
      exact ⟨hs.frames, trivial⟩
  · obtain ⟨digit, -, rfl⟩ := Option.map_eq_some_iff.mp h
    dsimp only
    split <;> exact ⟨hs.frames, trivial⟩
  · next rest v hmode =>
    have hv : (Mode.word rest v).InRange := hmode ▸ hs.mode
    split at h
    · cases h
    · rw [Option.ite_none_right_eq_some] at h
      exact inRange_of_complete hs.frames hv h.2
    · rw [Option.ite_none_right_eq_some] at h
      obtain rfl := Option.some.inj h.2
      exact ⟨hs.frames, hv⟩
  · split at h
    · obtain rfl := Option.some.inj h
      exact ⟨hs.frames, trivial⟩
    · -- a character that ends a number is looked at once more, after the number
      obtain ⟨u, hu, ht⟩ := Option.bind_eq_some_iff.mp h
      exact inRange_of_stepBetween (inRange_of_completeNumber hs.frames hu) ht
  · exact inRange_of_stepBetween hs h

theorem inRange_of_foldlM {cs : List Char} (hs : s.InRange) (h : cs.foldlM step s = some t) :
    t.InRange := by
  induction cs generalizing s with
  | nil =>
    obtain rfl := Option.some.inj h
    exact hs
  | cons c cs ih =>
    rw [List.foldlM_cons] at h
    obtain ⟨u, hu, ht⟩ := Option.bind_eq_some_iff.mp h
    exact ih (inRange_of_step hs hu) ht

/-- The end of the text may complete a number, and otherwise gives what is there. -/
theorem inRange_of_finish (hs : s.InRange) {v : Value} (h : s.finish = some v) : v.InRange := by
  rw [finish.eq_def] at h
  split at h
  · next w hmode =>
    obtain rfl := Option.some.inj h
    have hw : (Mode.done w).InRange := hmode ▸ hs.mode
    exact hw
  · obtain ⟨u, hu, hv⟩ := Option.bind_eq_some_iff.mp h
    have hrange := inRange_of_completeNumber hs.frames hu
    split at hv
    · next w hmode =>
      obtain rfl := Option.some.inj hv
      have hw : (Mode.done w).InRange := hmode ▸ hrange.mode
      exact hw
    · cases hv
  · cases h

end ReaderState

/-- What a text holds is in range. -/
theorem inRange_of_read? {cs : List Char} {v : Value} (h : read? cs = some v) : v.InRange := by
  obtain ⟨s, hs, hv⟩ := Option.bind_eq_some_iff.mp h
  have hstart : ReaderState.start.InRange := ⟨fun _ hf => absurd hf List.not_mem_nil, trivial⟩
  exact ReaderState.inRange_of_finish (ReaderState.inRange_of_foldlM hstart hs) hv

end Json
end SignalBoard
