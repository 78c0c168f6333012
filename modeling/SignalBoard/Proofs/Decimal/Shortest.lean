import SignalBoard.Decimal.Shortest
import SignalBoard.Proofs.Decimal.Numeral
import Mathlib.Tactic.NormNum

/-!
# The shortest decimal

The decimal that is chosen for a number reads back as the number (`magnitude_shortest`). For one
that was found on a grid this is what the search asks for; where the search ends without one, the
exact value is taken, whose fraction of units is a whole number again.

* `decimalMagnitude_significantDigits`: the zeros at the end may be left out, the point staying
  where it is.
* `length_significantDigits_le`: what is left are at most 767 digits. The exact value may have more,
  but a power of two among the units makes zeros of them.
-/

namespace SignalBoard
namespace ScaledDecimal
open Binary64

/-! ## Powers of ten and their neighbours -/

/-- Thirteen factors of five outweigh nine of ten. -/
theorem ten_pow_le_five_pow {a b q : Nat} (ha : a = 9 * q + 5) (hb : b = 13 * q + 8) :
    10 ^ a ≤ 5 ^ b := by
  rw [ha, hb, pow_add, pow_add, pow_mul, pow_mul]
  exact Nat.mul_le_mul (Nat.pow_le_pow_left (by norm_num) q) (by norm_num)

/-- Seventy-two factors of ten outweigh a hundred and three of five. -/
theorem five_pow_le_ten_pow {a b q : Nat} (ha : a = 103 * q + 44) (hb : b = 72 * q + 31) :
    5 ^ a ≤ 10 ^ b := by
  rw [ha, hb, pow_add, pow_add, pow_mul, pow_mul]
  exact Nat.mul_le_mul (Nat.pow_le_pow_left (by norm_num) q) (by norm_num)

/-- Twenty-eight factors of ten outweigh ninety-three of two. -/
theorem two_pow_le_ten_pow {a b q : Nat} (ha : a = 93 * q + 1) (hb : b = 28 * q + 1) :
    2 ^ a ≤ 10 ^ b := by
  rw [ha, hb, pow_add, pow_add, pow_mul, pow_mul]
  exact Nat.mul_le_mul (Nat.pow_le_pow_left (by norm_num) q) (by norm_num)

theorem five_mul_two_pow (bits : Nat) : 5 ^ bits * 2 ^ bits = 10 ^ bits := by
  rw [← mul_pow, show 5 * 2 = 10 from rfl]

/-! ## Candidates -/

/-- What is chosen reads back, and is one of the two grid points around the number. -/
theorem between?_spec {tie : TieRule} {m n step : Nat} {e : Int} {d : ScaledDecimal}
    (h : between? tie m n step e = some d) :
    d.magnitude = m ∧ d.coefficient ≤ n / step + 1 := by
  simp only [between?] at h
  generalize hlow : ScaledDecimal.mk (n / step) e = lower at h
  generalize hupp : ScaledDecimal.mk (n / step + 1) e = upper at h
  have hlowLe : lower.coefficient ≤ n / step + 1 := by
    rw [← hlow]
    exact Nat.le_succ _
  have huppLe : upper.coefficient ≤ n / step + 1 := by rw [← hupp]
  -- whichever of the two is taken, it has been tested that it reads back
  split at h
  · next hlower =>
    rw [← Option.some.inj h]
    split
    · next hupper => exact ⟨hupper.1, huppLe⟩
    · exact ⟨hlower, hlowLe⟩
  · split at h
    · next hupper =>
      rw [← Option.some.inj h]
      exact ⟨hupper, huppLe⟩
    · cases h

/-- Of a number that ends `L` digits above the step `10 ^ (-scale)` a grid of `count` digits leaves
no more than these. -/
theorem inSteps_div_lt {units L scale : Nat} (count : Nat)
    (h : units * 10 ^ scale < 10 ^ L * unitsPerOne) :
    (inSteps units (L - scale - count)).1 / (inSteps units (L - scale - count)).2 < 10 ^ count := by
  have hscale : 0 < 10 ^ scale := Nat.pow_pos (by decide)
  have hone := unitsPerOne_pos
  -- whether the steps of the grid are whole numbers of ones or fractions of one
  by_cases he : (0 : Int) ≤ L - scale - count
  · obtain ⟨j, hj, hL⟩ : ∃ j : Nat, ((L : Int) - scale - count).toNat = j ∧
        L = count + j + scale := ⟨_, rfl, by omega⟩
    simp only [inSteps, if_pos he, hj, Nat.pow_eq]
    rw [Nat.div_lt_iff_lt_mul (Nat.mul_pos hone (Nat.pow_pos (by decide)))]
    refine Nat.lt_of_mul_lt_mul_right (a := 10 ^ scale) ?_
    calc units * 10 ^ scale < 10 ^ L * unitsPerOne := h
      _ = 10 ^ count * (unitsPerOne * 10 ^ j) * 10 ^ scale := by
        rw [hL]
        ring
  · obtain ⟨j, hj, hL⟩ : ∃ j : Nat, (-((L : Int) - scale - count)).toNat = j ∧
        L + j = count + scale := ⟨_, rfl, by omega⟩
    simp only [inSteps, if_neg he, hj, Nat.pow_eq]
    rw [Nat.div_lt_iff_lt_mul hone]
    refine Nat.lt_of_mul_lt_mul_right (a := 10 ^ scale) ?_
    calc units * 10 ^ j * 10 ^ scale = units * 10 ^ scale * 10 ^ j := by ring
      _ < 10 ^ L * unitsPerOne * 10 ^ j := Nat.mul_lt_mul_of_pos_right h (Nat.pow_pos (by decide))
      _ = 10 ^ (L + j) * unitsPerOne := by ring
      _ = 10 ^ count * unitsPerOne * 10 ^ scale := by
        rw [hL]
        ring

/-- A number is below the power of ten that has a digit more. -/
theorem lt_pow_length_digits (n : Nat) : n < 10 ^ (Decimal.digits n).length :=
  (Decimal.length_digits_le_iff (List.length_pos_iff.mpr (Decimal.digits_ne_nil n))).mp le_rfl

/-- Where the point stands is read off the digits of the number in small enough steps. -/
theorem exists_pointPosition_eq (units : Nat) :
    ∃ L scale : Nat, pointPosition units = L - scale ∧
      units * 10 ^ scale < 10 ^ L * unitsPerOne := by
  have hpoint : pointPosition units
      = (Decimal.digits (units * Nat.pow 10 330 / unitsPerOne)).length - ((330 : Nat) : Int) := rfl
  generalize 330 = scale at hpoint
  refine ⟨_, scale, hpoint, ?_⟩
  rw [← Nat.div_lt_iff_lt_mul unitsPerOne_pos]
  exact lt_pow_length_digits _

/-- A value on a grid has no more digits than the grid. -/
theorem coefficient_of_onGrid?_le {tie : TieRule} {m count : Nat} {d : ScaledDecimal}
    (h : onGrid? tie m count = some d) : d.coefficient ≤ 10 ^ count := by
  obtain ⟨L, scale, hpoint, hunits⟩ := exists_pointPosition_eq (unitsOf m)
  have hlt := inSteps_div_lt count hunits
  rw [← hpoint] at hlt
  exact (between?_spec h).2.trans hlt

/-- The value that is chosen lies on a grid of at most seventeen digits or is the exact one. -/
theorem shortest_cases (tie : TieRule) (m : Nat) :
    (∃ count ≤ 17, onGrid? tie m count = some (shortest tie m)) ∨
      shortest tie m = ofUnits (unitsOf m) := by
  rw [shortest]
  cases h : (List.range 17).findSome? fun i => onGrid? tie m (i + 1) with
  | none => exact .inr rfl
  | some d =>
    obtain ⟨i, hi, hd⟩ := List.exists_of_findSome?_eq_some h
    exact .inl ⟨i + 1, List.mem_range.mp hi, hd⟩

/-! ## The exact value -/

/-- The exact value is a coefficient on the grid that is as many decimal digits fine as a unit is
binary digits. -/
theorem exists_bits : ∃ bits : Nat, bits = 1074 ∧ unitsPerOne = 2 ^ bits ∧
    ∀ units, ofUnits units = ⟨units * 5 ^ bits, -(bits : Int)⟩ := by
  refine ⟨1074, rfl, ?_⟩
  have hofUnits : ∀ units, ofUnits units = ⟨units * Nat.pow 5 1074, -((1074 : Nat) : Int)⟩ :=
    fun units => rfl
  unfold unitsPerOne
  generalize 1074 = bits at hofUnits ⊢
  exact ⟨Nat.pow_eq, hofUnits⟩

/-- The digits of the exact value: one that is not zero is not too small for its fraction to be
formed, and a finite one not too large. -/
theorem length_digits_ofUnits {m bits : Nat} (hpos : 0 < m) (hm : m < infiniteMagnitude)
    (hbits : bits = 1074) :
    bits ≤ (Decimal.digits (unitsOf m * 5 ^ bits)).length + 330 ∧
      (Decimal.digits (unitsOf m * 5 ^ bits)).length ≤ bits + 310 := by
  -- from below by the smallest number, from above by the largest one
  constructor
  · obtain ⟨q, hq⟩ : ∃ q, q = 82 := ⟨82, rfl⟩
    have hle : 10 ^ (9 * q + 5) ≤ unitsOf m * 5 ^ bits :=
      (ten_pow_le_five_pow rfl (by omega)).trans (Nat.le_mul_of_pos_left _ (unitsOf_pos hpos))
    have hlen : ¬ (Decimal.digits (unitsOf m * 5 ^ bits)).length ≤ 9 * q + 5 := by
      rw [Decimal.length_digits_le_iff (by omega)]
      exact Nat.not_lt.mpr hle
    omega
  · obtain ⟨shift, hshift, significand, hsig, hunits⟩ := exists_unitsOf_shift hm
    obtain ⟨q, hq⟩ : ∃ q, q = 11 := ⟨11, rfl⟩
    have hunitsLt : unitsOf m < 2 ^ (93 * q + 1) * 2 ^ bits := by
      calc unitsOf m = significand * 2 ^ shift := hunits
        _ < 2 ^ 53 * 2 ^ shift := Nat.mul_lt_mul_of_pos_right hsig (Nat.two_pow_pos _)
        _ = 2 ^ (53 + shift) := (pow_add 2 53 shift).symm
        _ ≤ 2 ^ (93 * q + 1 + bits) := Nat.pow_le_pow_right (by decide) (by omega)
        _ = 2 ^ (93 * q + 1) * 2 ^ bits := pow_add _ _ _
    have hlt : unitsOf m * 5 ^ bits < 10 ^ (28 * q + 1 + bits) := by
      calc unitsOf m * 5 ^ bits < 2 ^ (93 * q + 1) * 2 ^ bits * 5 ^ bits :=
            Nat.mul_lt_mul_of_pos_right hunitsLt (Nat.pow_pos (by decide))
        _ = 2 ^ (93 * q + 1) * 10 ^ bits := by
          rw [Nat.mul_assoc, Nat.mul_comm (2 ^ bits), five_mul_two_pow]
        _ ≤ 10 ^ (28 * q + 1) * 10 ^ bits := Nat.mul_le_mul_right _ (two_pow_le_ten_pow rfl rfl)
        _ = 10 ^ (28 * q + 1 + bits) := (pow_add _ _ _).symm
    have hlen := (Decimal.length_digits_le_iff (by omega)).mpr hlt
    omega

/-- The exact value reads back: nothing is rounded. -/
theorem magnitude_ofUnits {m : Nat} (hpos : 0 < m) (hm : m < infiniteMagnitude) :
    (ofUnits (unitsOf m)).magnitude = m := by
  obtain ⟨bits, hbits, hone, hofUnits⟩ := exists_bits
  obtain ⟨hlow, hhigh⟩ := length_digits_ofUnits hpos hm hbits
  have hne : unitsOf m * 5 ^ bits ≠ 0 :=
    (Nat.mul_pos (unitsOf_pos hpos) (Nat.pow_pos (by decide))).ne'
  have hexp : -(bits : Int) + bits = 0 := Int.add_left_neg _
  -- the fives of the coefficient and the twos of a unit make tens, which the fraction cancels
  have hscale : unitsOf m * 5 ^ bits * 10 ^ 0 * 2 ^ bits = unitsOf m * 10 ^ bits := by
    rw [pow_zero, Nat.mul_one, Nat.mul_assoc, five_mul_two_pow]
  show decimalMagnitude (ofUnits (unitsOf m)).coefficient (ofUnits (unitsOf m)).exponent = m
  rw [hofUnits]
  show decimalMagnitude (unitsOf m * 5 ^ bits) (-(bits : Int)) = m
  calc decimalMagnitude (unitsOf m * 5 ^ bits) (-(bits : Int))
      = roundUnits (unitsOf m * 10 ^ bits) (1 * 10 ^ bits) := by
        rw [decimalMagnitude_eq hne (by omega) (by omega) hexp.ge, hexp, Int.toNat_zero, hone,
          hscale, Nat.one_mul]
    _ = roundUnits (unitsOf m) 1 := roundUnits_mul _ _ (Nat.pow_pos (by decide))
    _ = m := roundUnits_unitsOf hm

/-- What is written for a finite number reads back as the number. -/
theorem magnitude_shortest (tie : TieRule) {m : Nat} (hpos : 0 < m) (hm : m < infiniteMagnitude) :
    (shortest tie m).magnitude = m := by
  rcases shortest_cases tie m with ⟨count, -, hd⟩ | hexact
  · exact (between?_spec hd).1
  · rw [hexact]
    exact magnitude_ofUnits hpos hm

/-! ## Digits without the zeros at their end -/

/-- The digits are the significant ones and zeros behind them. -/
theorem exists_digits_eq (d : ScaledDecimal) :
    ∃ k, Decimal.digits d.coefficient = d.significantDigits ++ List.replicate k '0' :=
  Decimal.exists_trimmed _

theorem isDigit_of_mem_significantDigits {d : ScaledDecimal} {c : Char}
    (h : c ∈ d.significantDigits) : c.isDigit = true := by
  obtain ⟨k, hk⟩ := exists_digits_eq d
  exact Decimal.isDigit_of_mem_digits (by rw [hk]; exact List.mem_append_left _ h)

/-- A number other than zero has a significant digit. -/
theorem significantDigits_ne_nil {d : ScaledDecimal} (h : 0 < d.coefficient) :
    d.significantDigits ≠ [] := by
  intro hnil
  obtain ⟨k, hk⟩ := exists_digits_eq d
  have hvalue := Decimal.value_digits d.coefficient
  rw [hk, hnil, List.nil_append, Decimal.value_zeros] at hvalue
  omega

/-- The first significant digit is not zero. -/
theorem head?_significantDigits {d : ScaledDecimal} (h : 0 < d.coefficient) :
    d.significantDigits.head? ≠ some '0' := by
  obtain ⟨k, hk⟩ := exists_digits_eq d
  have hhead := Decimal.head?_digits h
  rwa [hk, List.head?_append_of_ne_nil _ (significantDigits_ne_nil h)] at hhead

/-- Without the zeros at their end the digits say the same, the point staying where it is. -/
theorem decimalMagnitude_significantDigits (d : ScaledDecimal) :
    decimalMagnitude (Decimal.value d.significantDigits)
      (d.wholeDigits - d.significantDigits.length) = d.magnitude := by
  obtain ⟨k, hk⟩ := exists_digits_eq d
  have hvalue : Decimal.value d.significantDigits * 10 ^ k = d.coefficient := by
    rw [← Decimal.value_append_zeros, ← hk, Decimal.value_digits]
  have hexp : d.wholeDigits - d.significantDigits.length = d.exponent + k := by
    rw [wholeDigits, hk, List.length_append, List.length_replicate]
    omega
  rw [hexp, ← decimalMagnitude_mul_pow, hvalue, magnitude]

theorem length_significantDigits_mul_pow {n : Nat} (hn : 0 < n) (k : Nat) (e : Int) :
    (significantDigits ⟨n * 10 ^ k, e⟩).length ≤ (Decimal.digits n).length := by
  rw [significantDigits, Decimal.digits_mul_pow hn]
  exact Decimal.length_trimmed_le _ _

/-- The significant digits of the exact value: what is not a power of ten in it is a significand of
53 bits and a power of five or of two. -/
theorem length_significantDigits_ofUnits {m : Nat} (hpos : 0 < m) (hm : m < infiniteMagnitude) :
    (ofUnits (unitsOf m)).significantDigits.length ≤ 767 := by
  obtain ⟨bits, hbits, -, hofUnits⟩ := exists_bits
  obtain ⟨shift, hshift, significand, hsig, hunits⟩ := exists_unitsOf_shift hm
  have hsigPos : 0 < significand := by
    refine Nat.pos_of_ne_zero fun hzero => ?_
    have := unitsOf_pos hpos
    rw [hunits, hzero, Nat.zero_mul] at this
    exact absurd this (Nat.lt_irrefl 0)
  rw [hofUnits, hunits]
  -- the twos of the significand meet fives of the unit, and one of the two sorts is used up first
  by_cases hsmall : shift ≤ bits
  · obtain ⟨rest, hrest⟩ := Nat.exists_eq_add_of_le hsmall
    obtain ⟨q, hq⟩ : ∃ q, q = 10 := ⟨10, rfl⟩
    have hsplit : significand * 2 ^ shift * 5 ^ bits = significand * 5 ^ rest * 10 ^ shift := by
      rw [hrest, pow_add, ← five_mul_two_pow]
      ring
    have hlt : significand * 5 ^ rest < 10 ^ (16 + (72 * q + 31)) := by
      calc significand * 5 ^ rest < 10 ^ 16 * 5 ^ rest :=
            Nat.mul_lt_mul_of_pos_right (hsig.trans (by norm_num)) (Nat.pow_pos (by decide))
        _ ≤ 10 ^ 16 * 5 ^ (103 * q + 44) :=
            Nat.mul_le_mul_left _ (Nat.pow_le_pow_right (by decide) (by omega))
        _ ≤ 10 ^ 16 * 10 ^ (72 * q + 31) := Nat.mul_le_mul_left _ (five_pow_le_ten_pow rfl rfl)
        _ = 10 ^ (16 + (72 * q + 31)) := (pow_add _ _ _).symm
    have hlen := (Decimal.length_digits_le_iff (by omega)).mpr hlt
    have hdigits := length_significantDigits_mul_pow
      (Nat.mul_pos hsigPos (Nat.pow_pos (n := rest) (by decide : 0 < 5))) shift (-(bits : Int))
    rw [hsplit]
    omega
  · obtain ⟨rest, hrest⟩ := Nat.exists_eq_add_of_le (Nat.not_le.mp hsmall).le
    obtain ⟨q, hq⟩ : ∃ q, q = 11 := ⟨11, rfl⟩
    have hsplit : significand * 2 ^ shift * 5 ^ bits = significand * 2 ^ rest * 10 ^ bits := by
      rw [hrest, pow_add, ← five_mul_two_pow]
      ring
    have hlt : significand * 2 ^ rest < 10 ^ (28 * q + 1) := by
      calc significand * 2 ^ rest < 2 ^ 53 * 2 ^ rest :=
            Nat.mul_lt_mul_of_pos_right hsig (Nat.two_pow_pos _)
        _ = 2 ^ (53 + rest) := (pow_add 2 53 rest).symm
        _ ≤ 2 ^ (93 * q + 1) := Nat.pow_le_pow_right (by decide) (by omega)
        _ ≤ 10 ^ (28 * q + 1) := two_pow_le_ten_pow rfl rfl
    have hlen := (Decimal.length_digits_le_iff (by omega)).mpr hlt
    have hdigits := length_significantDigits_mul_pow
      (Nat.mul_pos hsigPos (Nat.two_pow_pos rest)) bits (-(bits : Int))
    rw [hsplit]
    omega

/-- There are no more significant digits than digits. -/
theorem length_significantDigits_le (d : ScaledDecimal) :
    d.significantDigits.length ≤ (Decimal.digits d.coefficient).length := by
  obtain ⟨k, hk⟩ := exists_digits_eq d
  rw [hk, List.length_append]
  exact Nat.le_add_right _ _

/-- What is written for a finite number has at most 767 digits, the zeros around them apart. -/
theorem length_significantDigits_shortest_le (tie : TieRule) {m : Nat} (hpos : 0 < m)
    (hm : m < infiniteMagnitude) : (shortest tie m).significantDigits.length ≤ 767 := by
  rcases shortest_cases tie m with ⟨count, hcount, hd⟩ | hexact
  · refine (length_significantDigits_le _).trans ?_
    -- on a grid there are seventeen digits, or eighteen where it is rounded up to a power of ten
    have hle : (shortest tie m).coefficient ≤ 10 ^ 17 :=
      (coefficient_of_onGrid?_le hd).trans (Nat.pow_le_pow_right (by decide) hcount)
    have hlen : (Decimal.digits (shortest tie m).coefficient).length ≤ 18 := by
      rw [Decimal.length_digits_le_iff (by decide)]
      exact hle.trans_lt (by norm_num)
    omega
  · rw [hexact]
    exact length_significantDigits_ofUnits hpos hm

end ScaledDecimal
end SignalBoard
