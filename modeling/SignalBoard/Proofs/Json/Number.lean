import SignalBoard.Json.Printer
import SignalBoard.Json.Reader
import SignalBoard.Proofs.Decimal.Shortest

/-!
# Numbers read back

A finite number that is written as JSON is read back bit for bit (`number?_printReal`), and so is a
whole number in the range of the words (`number?_printInt`).

* `renders_of_digits`: wherever the point stands among the digits, and whatever zeros are around
  them, the numeral says the same.
* `exists_numeral_plain`, `exists_numeral_scientific`: each layout is a numeral with the point in
  the place that was asked for, and never one for a whole number.
* `isNumberChar_of_ofChars?`: a numeral is made of characters at which the reader does not stop.
-/

namespace SignalBoard

open Binary64

/-- A numeral that is well formed, not mistaken for a whole number and read as the magnitude `m`,
and that has no more digits than are looked at. -/
structure Numeral.Renders (n : Numeral) (m : Nat) : Prop where
  wellFormed : Json.wellFormed n = true
  not_whole : n.isWhole = false
  value : ∀ negative, n.toBinary64 negative = .ofMagnitude negative m
  few : n.significant.1.length ≤ Json.maxDigits

namespace Numeral

variable {n : Numeral} {ds : List Char}

/-- Without the zeros in front there are no more digits than those behind them. -/
theorem length_dropWhile_zeros_le {cs : List Char} :
    ∀ {k : Nat}, cs <+: List.replicate k '0' ++ ds →
      (cs.dropWhile (· = '0')).length ≤ ds.length := by
  intro k
  induction k generalizing cs with
  | zero => exact fun h => (List.dropWhile_sublist _).length_le.trans h.length_le
  | succ k ih =>
    intro h
    cases cs with
    | nil => exact Nat.zero_le _
    | cons c cs =>
      obtain ⟨rfl, hcs⟩ := List.cons_prefix_cons.mp h
      rw [List.dropWhile_cons_of_pos (by simp)]
      exact ih hcs

/-- Zeros before the digits and at the end of the fraction are not significant. -/
theorem length_significant_le {k : Nat}
    (h : n.whole ++ n.fractionDigits = List.replicate k '0' ++ ds) :
    n.significant.1.length ≤ ds.length := by
  obtain ⟨j, hj⟩ := Decimal.exists_trimmed n.fractionDigits
  refine length_dropWhile_zeros_le (k := k) ?_
  rw [← h]
  exact List.prefix_append_right_inj _ |>.mpr ⟨_, hj.symm⟩

/-- What a numeral is read as depends on its digits and on the place of its point among them, not on
the zeros around them. -/
theorem toBinary64_eq {k j : Nat} {point : Int}
    (hdigits : n.whole ++ n.fractionDigits = List.replicate k '0' ++ (ds ++ List.replicate j '0'))
    (hpoint : n.exponent.getD 0 - n.fractionDigits.length + j = point - ds.length)
    (negative : Bool) :
    n.toBinary64 negative
      = .ofMagnitude negative (decimalMagnitude (Decimal.value ds) (point - ds.length)) := by
  rw [toBinary64, hdigits, Decimal.value_zeros_append, Decimal.value_append_zeros, ofDecimal,
    decimalMagnitude_mul_pow, hpoint]

/-- A well-formed numeral with a fraction or an exponent says the digits in it, with the point where
it stands among them. -/
theorem renders_of_digits {k j : Nat} {point : Int}
    (hdigits : n.whole ++ n.fractionDigits = List.replicate k '0' ++ (ds ++ List.replicate j '0'))
    (hpoint : n.exponent.getD 0 - n.fractionDigits.length + j = point - ds.length)
    (hfew : ds.length + j ≤ Json.maxDigits) (hwell : Json.wellFormed n = true)
    (hwhole : n.isWhole = false) :
    n.Renders (decimalMagnitude (Decimal.value ds) (point - ds.length)) where
  wellFormed := hwell
  not_whole := hwhole
  value := toBinary64_eq hdigits hpoint
  few := (length_significant_le hdigits).trans (by simpa using hfew)

end Numeral

/-! ## The two layouts -/

namespace NumberStyle

variable {ds : List Char}

theorem isDigit_of_mem_zeros {k : Nat} {c : Char} (h : c ∈ List.replicate k '0') :
    c.isDigit = true := by
  rw [List.eq_of_mem_replicate h]
  rfl

/-- The plain layout: the point stands in front of all digits, among them or behind them, and zeros
fill the gap. -/
theorem exists_numeral_plain (hne : ds ≠ []) (hdigits : ∀ c ∈ ds, c.isDigit = true)
    (hhead : ds.head? ≠ some '0') {point : Int} (hfew : ds.length < Json.maxDigits)
    (hpoint : point < Json.maxDigits) :
    ∃ n, Numeral.ofChars? (plain ds point) = some n ∧
      n.Renders (decimalMagnitude (Decimal.value ds) (point - ds.length)) := by
  have hpos : 0 < ds.length := List.length_pos_iff.mpr hne
  by_cases hbehind : point ≤ 0
  · -- the point is in front of all digits: a zero before it and zeros behind it
    refine ⟨⟨['0'], some (List.replicate (-point).toNat '0' ++ ds), none⟩, ?_, ?_⟩
    · rw [plain, if_pos hbehind]
      have hzero : ∀ c ∈ ['0'], c.isDigit = true := by simp
      refine Numeral.ofChars?_point hzero fun c hc => ?_
      exact (List.mem_append.mp hc).elim isDigit_of_mem_zeros (hdigits c)
    · refine Numeral.renders_of_digits (k := (-point).toNat + 1) (j := 0) ?_ ?_ hfew.le ?_ rfl
      · simp [Numeral.fractionDigits, List.replicate_succ]
      · simp [Numeral.fractionDigits]
        omega
      · simp [Json.wellFormed, hne]
  obtain ⟨p, rfl⟩ : ∃ p : Nat, point = p := ⟨point.toNat, by omega⟩
  by_cases hamong : p < ds.length
  · -- the point is among the digits
    refine ⟨⟨ds.take p, some (ds.drop p), none⟩, ?_, ?_⟩
    · rw [plain, if_neg hbehind, Int.toNat_natCast, if_pos hamong]
      exact Numeral.ofChars?_point (fun c hc => hdigits c (List.mem_of_mem_take hc))
        fun c hc => hdigits c (List.mem_of_mem_drop hc)
    · refine Numeral.renders_of_digits (k := 0) (j := 0) ?_ ?_ hfew.le ?_ rfl
      · simp [Numeral.fractionDigits]
      · simp [Numeral.fractionDigits]
        omega
      · have hp : p ≠ 0 := by omega
        simp [Json.wellFormed, hne, hp, List.head?_take, hhead, hamong]
  · -- the point is behind all digits: zeros up to it and one behind it
    refine ⟨⟨ds ++ List.replicate (p - ds.length) '0', some ['0'], none⟩, ?_, ?_⟩
    · rw [plain, if_neg hbehind, Int.toNat_natCast, if_neg hamong]
      refine Numeral.ofChars?_point (fun c hc => ?_) (by simp)
      exact (List.mem_append.mp hc).elim (hdigits c) isDigit_of_mem_zeros
    · refine Numeral.renders_of_digits (k := 0) (j := p - ds.length + 1) ?_ ?_ (by omega) ?_ rfl
      · simp [Numeral.fractionDigits, List.replicate_succ']
      · simp [Numeral.fractionDigits]
        omega
      · simp [Json.wellFormed, hne, List.head?_append_of_ne_nil _ hne, hhead]

/-- The scientific layout: the point stands behind the first digit, and an exponent says where it
belongs. -/
theorem exists_numeral_scientific (plusSign : Bool) (hne : ds ≠ [])
    (hdigits : ∀ c ∈ ds, c.isDigit = true) {point : Int} (hfew : ds.length ≤ Json.maxDigits) :
    ∃ n, Numeral.ofChars? (scientific plusSign ds (point - 1)) = some n ∧
      n.Renders (decimalMagnitude (Decimal.value ds) (point - ds.length)) := by
  have hexp := Decimal.integer?_signed plusSign (point - 1)
  -- a single digit is written without a point
  match ds, hne, hdigits with
  | [c], _, hdigits =>
    refine ⟨⟨[c], none, some (point - 1)⟩, Numeral.ofChars?_exponent hdigits hexp, ?_⟩
    refine Numeral.renders_of_digits (k := 0) (j := 0) rfl ?_ hfew (by simp [Json.wellFormed]) rfl
    simp [Numeral.fractionDigits]
  | c :: d :: rest, _, hdigits =>
    refine ⟨⟨[c], some (d :: rest), some (point - 1)⟩, ?_, ?_⟩
    · have hc : ∀ x ∈ [c], x.isDigit = true := by
        simpa using hdigits c List.mem_cons_self
      have hrest : ∀ x ∈ d :: rest, x.isDigit = true :=
        fun x hx => hdigits x (List.mem_cons_of_mem _ hx)
      simpa [scientific] using Numeral.ofChars?_point_exponent hc hrest hexp
    · refine Numeral.renders_of_digits (k := 0) (j := 0) ?_ ?_ hfew ?_ rfl
      · simp [Numeral.fractionDigits]
      · simp [Numeral.fractionDigits]
        omega
      · simp [Json.wellFormed]

end NumberStyle

namespace Json

/-- The text of a finite magnitude is a numeral for it. -/
theorem exists_numeral_magnitudeText {m : Nat} (hm : m < infiniteMagnitude) :
    ∃ n, Numeral.ofChars? (numberStyle.magnitudeText m) = some n ∧ n.Renders m := by
  by_cases hzero : m = 0
  · subst hzero
    refine ⟨⟨['0'], some ['0'], none⟩, rfl, ?_⟩
    show Numeral.Renders _ (decimalMagnitude (Decimal.value []) (-1 - ([] : List Char).length))
    exact Numeral.renders_of_digits (k := 2) (j := 0) rfl rfl (by decide) rfl rfl
  have hpos : 0 < m := Nat.pos_of_ne_zero hzero
  rw [NumberStyle.magnitudeText, if_neg hzero]
  -- the shortest digits are rounded back to the magnitude, and there are few enough to be looked at
  have hback := ScaledDecimal.magnitude_shortest numberStyle.tie hpos hm
  have hlen := ScaledDecimal.length_significantDigits_shortest_le numberStyle.tie hpos hm
  generalize ScaledDecimal.shortest numberStyle.tie m = d at hback hlen
  have hcoefficient : 0 < d.coefficient := by
    refine Nat.pos_of_ne_zero fun hnone => hzero ?_
    rw [← hback, ScaledDecimal.magnitude, decimalMagnitude, if_pos hnone]
  have hne := ScaledDecimal.significantDigits_ne_nil hcoefficient
  have hdigits : ∀ c ∈ d.significantDigits, c.isDigit = true :=
    fun c => ScaledDecimal.isDigit_of_mem_significantDigits
  rw [← hback, ← ScaledDecimal.decimalMagnitude_significantDigits d]
  dsimp only
  split
  · next hplain =>
    have hpoint : d.wholeDigits - 1 ≤ 15 := hplain.2
    refine NumberStyle.exists_numeral_plain hne hdigits
      (ScaledDecimal.head?_significantDigits hcoefficient) ?_ ?_
    · simp only [maxDigits]
      omega
    · simp only [maxDigits]
      omega
  · refine NumberStyle.exists_numeral_scientific _ hne hdigits ?_
    simp only [maxDigits]
    omega

/-! ## Reading a numeral as a value -/

/-- The whole part of a numeral is what stands before the first character that is no digit. -/
theorem whole_of_ofChars? {cs : List Char} {n : Numeral} (h : Numeral.ofChars? cs = some n) :
    n.whole = cs.takeWhile Char.isDigit := by
  have hparts : ∀ {whole fraction cs n}, Numeral.withExponent? whole fraction cs = some n →
      n.whole = whole := by
    intro whole fraction cs n h
    cases cs with
    | nil =>
      obtain rfl := Option.some.inj h
      rfl
    | cons c cs =>
      simp only [Numeral.withExponent?] at h
      split at h
      · obtain ⟨e, -, rfl⟩ := Option.map_eq_some_iff.mp h
        rfl
      · cases h
  simp only [Numeral.ofChars?] at h
  split at h
  · exact hparts h
  · exact hparts h

variable {cs : List Char} {n : Numeral}

/-- A well-formed numeral begins with a digit. -/
theorem exists_digit_cons (h : Numeral.ofChars? cs = some n) (hwell : wellFormed n = true) :
    ∃ c rest, cs = c :: rest ∧ c.isDigit = true := by
  have hwhole := whole_of_ofChars? h
  cases cs with
  | nil => simp [wellFormed, hwhole] at hwell
  | cons c rest =>
    refine ⟨c, rest, rfl, ?_⟩
    by_contra hc
    rw [List.takeWhile_cons_of_neg hc] at hwhole
    simp [wellFormed, hwhole] at hwell

theorem number?_minus (h : Numeral.ofChars? cs = some n) (hwell : wellFormed n = true) :
    number? ('-' :: cs) = some (numberValue true n) := by
  simp [number?, h, hwell]

/-- A number without a sign. It begins with a digit, so it is not mistaken for one with a sign. -/
theorem number?_unsigned (h : Numeral.ofChars? cs = some n) (hwell : wellFormed n = true) :
    number? cs = some (numberValue false n) := by
  obtain ⟨c, rest, rfl, hc⟩ := exists_digit_cons h hwell
  have hminus : c ≠ '-' := by
    rintro rfl
    exact absurd hc (by decide)
  simp [number?, h, hwell, hminus]

/-- A numeral for the magnitude of a number is read as the number, with its sign. -/
theorem numberValue_of_renders {x : Binary64} (hx : x.isFinite = true)
    (h : n.Renders x.magnitude) : numberValue x.isNegative n = .real x := by
  have hback : n.toBinary64Within maxDigits x.isNegative = x := by
    rw [Numeral.toBinary64Within_eq h.few, h.value, ofMagnitude_magnitude]
  have hinfinite : x.isInfinite = false := by
    simp only [isFinite, isInfinite, decide_eq_true_eq, decide_eq_false_iff_not] at hx ⊢
    omega
  simp [numberValue, hback, h.not_whole, hinfinite]

/-- A finite number is read back bit for bit. -/
theorem number?_printReal {x : Binary64} (hx : x.isFinite = true) :
    number? (printReal x) = some (.real x) := by
  obtain ⟨n, hn, hrenders⟩ :=
    exists_numeral_magnitudeText (m := x.magnitude) (by simpa [isFinite] using hx)
  have hvalue := numberValue_of_renders hx hrenders
  rw [printReal, if_pos hx, NumberStyle.text]
  -- the sign is written as a character of its own, also that of a zero
  cases hsign : x.isNegative with
  | true =>
    rw [hsign] at hvalue
    rw [if_pos rfl, number?_minus hn hrenders.wellFormed, hvalue]
  | false =>
    rw [hsign] at hvalue
    rw [if_neg Bool.false_ne_true, number?_unsigned hn hrenders.wellFormed, hvalue]

/-- Written-out whole numbers are well formed: none but zero begins with a zero. -/
theorem wellFormed_digits (k : Nat) : wellFormed ⟨Decimal.digits k, none, none⟩ = true := by
  by_cases hzero : k = 0
  · subst hzero
    rfl
  · simp [wellFormed, Decimal.digits_ne_nil, Decimal.head?_digits (Nat.pos_of_ne_zero hzero)]

/-- Written-out whole numbers are numerals without fraction and exponent. -/
theorem ofChars?_digits (k : Nat) :
    Numeral.ofChars? (Decimal.digits k) = some ⟨Decimal.digits k, none, none⟩ :=
  Numeral.ofChars?_whole fun _ => Decimal.isDigit_of_mem_digits

/-- A whole number in the range of the words is read back. -/
theorem number?_printInt {i : Int} (hlow : -0x8000000000000000 ≤ i) (hhigh : i < UInt64.size) :
    number? (printInt i) = some (.int i) := by
  rw [printInt]
  split
  · next hneg =>
    obtain ⟨k, rfl⟩ : ∃ k : Nat, i = -(k : Int) := ⟨i.natAbs, by omega⟩
    have hpos : 0 < k := by omega
    have hle : k ≤ 9223372036854775808 := by omega
    rw [Int.natAbs_neg, Int.natAbs_natCast, number?_minus (ofChars?_digits k) (wellFormed_digits k)]
    simp [numberValue, Numeral.isWhole, Decimal.value_digits, hpos, hle]
  · next hpos =>
    obtain ⟨k, rfl⟩ : ∃ k : Nat, i = k := ⟨i.natAbs, by omega⟩
    have hlt : k < UInt64.size := by omega
    rw [Int.natAbs_natCast, number?_unsigned (ofChars?_digits k) (wellFormed_digits k)]
    simp [numberValue, Numeral.isWhole, Decimal.value_digits, hlt]

/-! ## The characters of a numeral -/

/-- The reader of a number goes on at a digit. -/
theorem isNumberChar_of_isDigit {c : Char} (h : c.isDigit = true) : isNumberChar c = true := by
  simp [isNumberChar, h]

/-- The reader of a number goes on throughout a natural number. -/
theorem isNumberChar_of_natural? {k : Nat} (h : Decimal.natural? cs = some k) :
    ∀ c ∈ cs, isNumberChar c = true := by
  rw [Decimal.natural?, Option.ite_none_right_eq_some] at h
  exact fun c hc => isNumberChar_of_isDigit (List.all_eq_true.mp h.1.2 c hc)

/-- The reader of a number goes on throughout an exponent, also at its sign. -/
theorem isNumberChar_of_integer? {e : Int} (h : Decimal.integer? cs = some e) :
    ∀ c ∈ cs, isNumberChar c = true := by
  have hnatural : ∀ {ds : List Char}, (Decimal.natural? ds).isSome → ∀ c ∈ ds, isNumberChar c := by
    intro ds hds
    obtain ⟨k, hk⟩ := Option.isSome_iff_exists.mp hds
    exact isNumberChar_of_natural? hk
  have hsign : ∀ {c : Char} {ds : List Char}, isNumberChar c → (Decimal.natural? ds).isSome →
      ∀ x ∈ c :: ds, isNumberChar x := by
    intro c ds hc hds
    exact List.forall_mem_cons.mpr ⟨hc, hnatural hds⟩
  rw [Decimal.integer?.eq_def] at h
  split at h
  · next ds => exact hsign rfl (by cases hds : Decimal.natural? ds <;> simp_all)
  · next ds => exact hsign rfl (by cases hds : Decimal.natural? ds <;> simp_all)
  · exact hnatural (by cases hds : Decimal.natural? cs <;> simp_all)

theorem isNumberChar_of_withExponent? {whole : List Char} {fraction : Option (List Char)}
    (h : Numeral.withExponent? whole fraction cs = some n) : ∀ c ∈ cs, isNumberChar c = true := by
  cases cs with
  | nil => exact fun c hc => absurd hc List.not_mem_nil
  | cons c cs =>
    simp only [Numeral.withExponent?, Option.ite_none_right_eq_some] at h
    obtain ⟨e, he, -⟩ := Option.map_eq_some_iff.mp h.2
    refine List.forall_mem_cons.mpr ⟨?_, isNumberChar_of_integer? he⟩
    rcases h.1 with rfl | rfl <;> rfl

/-- A numeral is made of characters at which the reader of a number does not stop. -/
theorem isNumberChar_of_ofChars? (h : Numeral.ofChars? cs = some n) :
    ∀ c ∈ cs, isNumberChar c = true := by
  have htake : ∀ {ds : List Char}, ∀ c ∈ ds.takeWhile Char.isDigit, isNumberChar c :=
    fun c hc => isNumberChar_of_isDigit (List.mem_takeWhile_imp hc)
  -- a run of digits can be taken off in front, once for the whole part and once for the fraction
  have hsplit : ∀ {ds : List Char}, (∀ c ∈ ds.dropWhile Char.isDigit, isNumberChar c) →
      ∀ c ∈ ds, isNumberChar c := by
    intro ds hdrop c hc
    rw [← List.takeWhile_append_dropWhile (p := Char.isDigit) (l := ds)] at hc
    exact (List.mem_append.mp hc).elim (htake c) (hdrop c)
  simp only [Numeral.ofChars?] at h
  refine hsplit ?_
  split at h
  · next rest hrest =>
    rw [hrest]
    exact List.forall_mem_cons.mpr ⟨rfl, hsplit (isNumberChar_of_withExponent? h)⟩
  · exact isNumberChar_of_withExponent? h

/-- How the text of a number looks to the reader: it begins with a digit or a minus sign, and it
goes on with characters of numbers. -/
def NumberText (cs : List Char) : Prop :=
  ∃ c rest, cs = c :: rest ∧ (c = '-' ∨ c.isDigit = true) ∧ ∀ d ∈ rest, isNumberChar d = true

/-- A well-formed numeral is the text of a number. -/
theorem numberText_of_ofChars? (h : Numeral.ofChars? cs = some n) (hwell : wellFormed n = true) :
    NumberText cs := by
  obtain ⟨c, rest, rfl, hc⟩ := exists_digit_cons h hwell
  refine ⟨c, rest, rfl, .inr hc, fun d hd => ?_⟩
  exact isNumberChar_of_ofChars? h d (List.mem_cons_of_mem _ hd)

theorem numberText_minus (h : Numeral.ofChars? cs = some n) : NumberText ('-' :: cs) :=
  ⟨'-', cs, rfl, .inl rfl, isNumberChar_of_ofChars? h⟩

/-- What is written for a finite number looks like a number to the reader. -/
theorem numberText_printReal {x : Binary64} (hx : x.isFinite = true) :
    NumberText (printReal x) := by
  obtain ⟨n, hn, hrenders⟩ :=
    exists_numeral_magnitudeText (m := x.magnitude) (by simpa [isFinite] using hx)
  rw [printReal, if_pos hx, NumberStyle.text]
  split
  · exact numberText_minus hn
  · exact numberText_of_ofChars? hn hrenders.wellFormed

theorem numberText_printInt (i : Int) : NumberText (printInt i) := by
  rw [printInt]
  split
  · exact numberText_minus (ofChars?_digits _)
  · exact numberText_of_ofChars? (ofChars?_digits _) (wellFormed_digits _)

end Json
end SignalBoard
