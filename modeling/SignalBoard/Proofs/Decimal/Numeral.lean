import SignalBoard.Decimal.Numeral
import SignalBoard.Proofs.Binary64.Rounding
import SignalBoard.Proofs.Decimal.Digits

/-!
# What numerals say

* `decimalMagnitude_mul_pow`: a power of ten may stand in the coefficient or in the exponent, so
  that zeros at the end of a numeral and the place of its point do not matter.
* `toBinary64Within_eq`: a bound on the digits that are looked at does no harm to a numeral with few
  significant digits.
* `ofChars?_point`, `ofChars?_exponent`, `ofChars?_point_exponent`: the parts of a numeral are found
  where they were written.
-/

namespace SignalBoard

namespace Binary64

/-- Within the cutoffs a decimal is rounded once, whichever power of ten its fraction is formed
with. -/
theorem decimalMagnitude_eq {m : Nat} {e : Int} (hm : m ≠ 0)
    (hhigh : e + (Decimal.digits m).length ≤ 310) (hlow : -330 ≤ e + (Decimal.digits m).length)
    {j : Nat} (hj : 0 ≤ e + j) :
    decimalMagnitude m e = roundUnits (m * 10 ^ (e + j).toNat * unitsPerOne) (10 ^ j) := by
  simp only [decimalMagnitude, if_neg hm, if_neg (Int.not_lt.mpr hhigh),
    if_neg (Int.not_lt.mpr hlow), Nat.pow_eq]
  split
  · -- the exponent is not negative: ten to it multiplies the coefficient
    next he =>
    have hexp : (e + j).toNat = e.toNat + j := by omega
    have hnum : m * 10 ^ (e.toNat + j) * unitsPerOne
        = m * 10 ^ e.toNat * unitsPerOne * 10 ^ j := by ring
    have hpos : 0 < 10 ^ j := Nat.pow_pos (by decide)
    rw [hexp, hnum, ← roundUnits_mul _ 1 hpos, Nat.one_mul]
  · next he =>
    obtain ⟨i, hi, hj'⟩ : ∃ i : Nat, (e + j).toNat = i ∧ j = (-e).toNat + i :=
      ⟨(e + j).toNat, rfl, by omega⟩
    have hnum : m * 10 ^ i * unitsPerOne = m * unitsPerOne * 10 ^ i := by ring
    rw [hi, hnum, hj', pow_add, roundUnits_mul _ _ (Nat.pow_pos (by decide))]

/-- A power of ten may stand in the coefficient or in the exponent. -/
theorem decimalMagnitude_mul_pow (m k : Nat) (e : Int) :
    decimalMagnitude (m * 10 ^ k) e = decimalMagnitude m (e + k) := by
  by_cases hm : m = 0
  · simp [decimalMagnitude, hm]
  have hne : m * 10 ^ k ≠ 0 := Nat.mul_ne_zero hm (Nat.pow_pos (by decide)).ne'
  -- the first digit stands at the same place, so the same cutoff applies on both sides
  have htop : e + (Decimal.digits (m * 10 ^ k)).length = e + k + (Decimal.digits m).length := by
    rw [Decimal.digits_mul_pow (Nat.pos_of_ne_zero hm), List.length_append, List.length_replicate]
    omega
  by_cases hhigh : 310 < e + k + (Decimal.digits m).length
  · simp only [decimalMagnitude, if_neg hm, if_neg hne, htop, if_pos hhigh]
  by_cases hlow : e + k + (Decimal.digits m).length < -330
  · simp only [decimalMagnitude, if_neg hm, if_neg hne, htop, if_neg hhigh, if_pos hlow]
  -- between the cutoffs both sides are roundings of one fraction
  have hexp : (e + k + (-e).toNat).toNat = k + (e + (-e).toNat).toNat := by omega
  rw [decimalMagnitude_eq hne (htop ▸ Int.not_lt.mp hhigh) (htop ▸ Int.not_lt.mp hlow)
      (j := (-e).toNat) (by omega),
    decimalMagnitude_eq hm (Int.not_lt.mp hhigh) (Int.not_lt.mp hlow) (j := (-e).toNat) (by omega),
    hexp, pow_add, Nat.mul_assoc m]

end Binary64

namespace Numeral

/-- Few significant digits are all looked at. -/
theorem toBinary64Within_eq {n : Numeral} {count : Nat} (h : n.significant.1.length ≤ count)
    (negative : Bool) : n.toBinary64Within count negative = n.toBinary64 negative := by
  obtain ⟨k, hk⟩ := Decimal.exists_trimmed n.fractionDigits
  rw [toBinary64Within]
  simp only [if_pos h]
  simp only [toBinary64, significant, Decimal.value_dropWhile]
  generalize (n.fractionDigits.reverse.dropWhile (· = '0')).reverse = fraction at hk
  -- the zeros that are not looked at move the point by their number
  have hexp : (n.exponent.getD 0 - (fraction.length + k : Nat) : Int) + k
      = n.exponent.getD 0 - fraction.length := by omega
  rw [hk, ← List.append_assoc, Decimal.value_append_zeros, List.length_append,
    List.length_replicate, Binary64.ofDecimal, Binary64.ofDecimal,
    Binary64.decimalMagnitude_mul_pow, hexp]

/-! ## Finding the parts -/

variable {whole fraction : List Char}

/-- The digits in front of something else are found. -/
theorem takeWhile_isDigit_append (hwhole : ∀ c ∈ whole, c.isDigit = true) {c : Char}
    (hc : c.isDigit = false) (rest : List Char) :
    (whole ++ c :: rest).takeWhile Char.isDigit = whole := by
  rw [List.takeWhile_append_of_pos hwhole, List.takeWhile_cons_of_neg (by simp [hc]),
    List.append_nil]

theorem dropWhile_isDigit_append (hwhole : ∀ c ∈ whole, c.isDigit = true) {c : Char}
    (hc : c.isDigit = false) (rest : List Char) :
    (whole ++ c :: rest).dropWhile Char.isDigit = c :: rest := by
  rw [List.dropWhile_append_of_pos hwhole, List.dropWhile_cons_of_neg (by simp [hc])]

theorem withExponent?_mark (whole : List Char) (fraction : Option (List Char)) {e : Int}
    {cs : List Char} (he : Decimal.integer? cs = some e) :
    withExponent? whole fraction ('e' :: cs) = some ⟨whole, fraction, some e⟩ := by
  simp [withExponent?, he]

/-- Digits alone are a whole number. -/
theorem ofChars?_whole (hwhole : ∀ c ∈ whole, c.isDigit = true) :
    ofChars? whole = some ⟨whole, none, none⟩ := by
  have htake : whole.takeWhile Char.isDigit = whole := List.takeWhile_eq_self_iff.mpr hwhole
  have hdrop : whole.dropWhile Char.isDigit = [] := List.dropWhile_eq_nil_iff.mpr hwhole
  rw [ofChars?, htake, hdrop]
  rfl

theorem ofChars?_point (hwhole : ∀ c ∈ whole, c.isDigit = true)
    (hfraction : ∀ c ∈ fraction, c.isDigit = true) :
    ofChars? (whole ++ '.' :: fraction) = some ⟨whole, some fraction, none⟩ := by
  have htake : fraction.takeWhile Char.isDigit = fraction :=
    List.takeWhile_eq_self_iff.mpr hfraction
  have hdrop : fraction.dropWhile Char.isDigit = [] := List.dropWhile_eq_nil_iff.mpr hfraction
  simp only [ofChars?, takeWhile_isDigit_append hwhole (by decide : Char.isDigit '.' = false),
    dropWhile_isDigit_append hwhole (by decide : Char.isDigit '.' = false), htake, hdrop]
  rfl

/-- What is behind the mark is the exponent, also without a fraction. -/
theorem ofChars?_exponent (hwhole : ∀ c ∈ whole, c.isDigit = true) {e : Int} {cs : List Char}
    (he : Decimal.integer? cs = some e) :
    ofChars? (whole ++ 'e' :: cs) = some ⟨whole, none, some e⟩ := by
  simp only [ofChars?, takeWhile_isDigit_append hwhole (by decide : Char.isDigit 'e' = false),
    dropWhile_isDigit_append hwhole (by decide : Char.isDigit 'e' = false)]
  exact withExponent?_mark _ _ he

theorem ofChars?_point_exponent (hwhole : ∀ c ∈ whole, c.isDigit = true)
    (hfraction : ∀ c ∈ fraction, c.isDigit = true) {e : Int} {cs : List Char}
    (he : Decimal.integer? cs = some e) :
    ofChars? (whole ++ '.' :: (fraction ++ 'e' :: cs)) = some ⟨whole, some fraction, some e⟩ := by
  simp only [ofChars?, takeWhile_isDigit_append hwhole (by decide : Char.isDigit '.' = false),
    dropWhile_isDigit_append hwhole (by decide : Char.isDigit '.' = false),
    takeWhile_isDigit_append hfraction (by decide : Char.isDigit 'e' = false),
    dropWhile_isDigit_append hfraction (by decide : Char.isDigit 'e' = false)]
  exact withExponent?_mark _ _ he

end Numeral

namespace Decimal

/-- The first character of a number is a digit. -/
theorem exists_digits_eq_cons (n : Nat) : ∃ d ds, digits n = d :: ds ∧ d.isDigit = true := by
  obtain ⟨d, ds, h⟩ := List.exists_cons_of_ne_nil (digits_ne_nil n)
  exact ⟨d, ds, h, isDigit_of_mem_digits (by rw [h]; exact List.mem_cons_self)⟩

theorem integer?_digits (n : Nat) : integer? (digits n) = some (n : Int) := by
  obtain ⟨d, ds, hds, hdigit⟩ := exists_digits_eq_cons n
  have hminus : d ≠ '-' := by
    rintro rfl
    exact absurd hdigit (by decide)
  have hplus : d ≠ '+' := by
    rintro rfl
    exact absurd hdigit (by decide)
  rw [integer?.eq_def]
  split
  · next h => exact absurd (List.cons.inj (hds.symm.trans h)).1 hminus
  · next h => exact absurd (List.cons.inj (hds.symm.trans h)).1 hplus
  · rw [natural?_digits]
    rfl

/-- A number with a minus sign is read as its opposite. -/
theorem integer?_minus_digits (n : Nat) : integer? ('-' :: digits n) = some (-(n : Int)) := by
  rw [integer?, natural?_digits]
  rfl

theorem integer?_plus_digits (n : Nat) : integer? ('+' :: digits n) = some (n : Int) := by
  rw [integer?, natural?_digits]
  rfl

/-- An exponent with its sign is read back, also where a plus sign is left out. -/
theorem integer?_signed (plusSign : Bool) (e : Int) :
    integer? ((if e < 0 then ['-'] else if plusSign then ['+'] else []) ++ digits e.natAbs)
      = some e := by
  by_cases he : e < 0
  · have habs : -(e.natAbs : Int) = e := by omega
    rw [if_pos he, List.singleton_append, integer?_minus_digits, habs]
  · have habs : (e.natAbs : Int) = e := by omega
    rw [if_neg he]
    cases plusSign with
    | false => rw [if_neg Bool.false_ne_true, List.nil_append, integer?_digits, habs]
    | true => rw [if_pos rfl, List.singleton_append, integer?_plus_digits, habs]

end Decimal
end SignalBoard
