import SignalBoard.Proofs.Signal
import Mathlib.Tactic.Ring

/-!
# Rounding to binary64

What rounding does to the exact fractions of units that it is given.

* `roundUnits_mul`: the fraction may be extended, so that only its value counts.
* `roundUnits_unitsOf`: a number is rounded to itself.
* `roundUnits_lt`: what is far enough below the infinities is not rounded to one, in particular no
  whole number of 64 bits (`isFinite_ofInt`).
-/

namespace SignalBoard
namespace Binary64

/-- A quotient is rounded by its value: how the remainder compares to the half is the same in an
extended fraction. -/
theorem roundQuotient_mul (n d : Nat) {c : Nat} (hc : 0 < c) :
    roundQuotient (n * c) (d * c) = roundQuotient n d := by
  have hlow : 2 * (n % d * c) < d * c ↔ 2 * (n % d) < d := by
    rw [← Nat.mul_assoc]
    exact Nat.mul_lt_mul_right hc
  have hhigh : d * c < 2 * (n % d * c) ↔ d < 2 * (n % d) := by
    rw [← Nat.mul_assoc]
    exact Nat.mul_lt_mul_right hc
  simp only [roundQuotient, Nat.mul_div_mul_right n d hc, Nat.mul_mod_mul_right, hlow, hhigh]

/-- Rounding looks at the value of the fraction alone. -/
theorem roundUnits_mul (n d : Nat) {c : Nat} (hc : 0 < c) :
    roundUnits (n * c) (d * c) = roundUnits n d := by
  simp only [roundUnits, Nat.mul_div_mul_right n d hc]
  rw [Nat.mul_right_comm, roundQuotient_mul n _ hc]

/-- A quotient that comes out even is not changed by rounding. -/
theorem roundQuotient_exact (q : Nat) {d : Nat} (hd : 0 < d) : roundQuotient (q * d) d = q := by
  simp [roundQuotient, Nat.mul_div_cancel q hd, hd]

theorem roundQuotient_le (n d : Nat) : roundQuotient n d ≤ n / d + 1 := by
  simp only [roundQuotient]
  split
  · omega
  · split <;> omega

/-! ## Magnitudes and their units -/

/-- Below the second binade a magnitude is its number of units. -/
theorem unitsOf_of_lt {m : Nat} (h : m < 2 * binade) : unitsOf m = m := by
  have hshift : m / binade - 1 = 0 := by
    have : m / binade < 2 := Nat.div_lt_of_lt_mul (by rwa [Nat.mul_comm])
    omega
  simp [unitsOf, hshift]

/-- From the second binade on the significand has 53 bits. -/
theorem exists_unitsOf_eq {m : Nat} (h : 2 * binade ≤ m) :
    ∃ shift significand, m = shift * binade + significand ∧ 2 ^ 52 ≤ significand ∧
      significand < 2 ^ 53 ∧ unitsOf m = significand * 2 ^ shift := by
  have hbinade : binade = 2 ^ 52 := rfl
  have hpos : 0 < binade := by decide
  have hfield : 2 ≤ m / binade := (Nat.le_div_iff_mul_le hpos).mpr h
  obtain ⟨shift, hshift⟩ : ∃ shift, m / binade = shift + 1 := ⟨m / binade - 1, by omega⟩
  -- the exponent field counts from one here, and what is left of the magnitude is the fraction
  have hm : m = (shift + 1) * binade + m % binade := by
    rw [← hshift, Nat.mul_comm]
    exact (Nat.div_add_mod m binade).symm
  have hmod : m % binade < binade := Nat.mod_lt _ hpos
  refine ⟨shift, binade + m % binade, by rw [hm]; simp [Nat.add_mul, Nat.add_assoc], ?_, ?_, ?_⟩
  · rw [hbinade]
    exact Nat.le_add_right _ _
  · rw [hbinade] at hmod ⊢
    omega
  · have hsub : m - shift * binade = binade + m % binade := by
      rw [Nat.add_mul, Nat.one_mul] at hm
      omega
    simp only [unitsOf, hshift, Nat.add_sub_cancel, hsub, Nat.pow_eq]

theorem unitsOf_pos {m : Nat} (h : 0 < m) : 0 < unitsOf m := by
  by_cases hsmall : m < 2 * binade
  · rwa [unitsOf_of_lt hsmall]
  · obtain ⟨shift, significand, -, hlow, -, hunits⟩ := exists_unitsOf_eq (Nat.not_lt.mp hsmall)
    rw [hunits]
    exact Nat.mul_pos (lt_of_lt_of_le (by decide) hlow) (Nat.pow_pos (by decide))

/-- Rounding a number gives the number. -/
theorem roundUnits_unitsOf {m : Nat} (hm : m < infiniteMagnitude) :
    roundUnits (unitsOf m) 1 = m := by
  by_cases hsmall : m < 2 * binade
  · -- few enough bits for the grid of single units
    have hshift : m.log2 - 52 = 0 := by
      by_cases hzero : m = 0
      · subst hzero
        decide
      · have : m.log2 < 53 := (Nat.log2_lt hzero).mpr hsmall
        omega
    have hexact : roundQuotient m 1 = m := by simpa using roundQuotient_exact m Nat.one_pos
    simp only [roundUnits, unitsOf_of_lt hsmall, Nat.div_one, hshift, Nat.pow_eq, pow_zero,
      Nat.mul_one, Nat.zero_mul, Nat.zero_add, hexact]
    exact Nat.min_eq_right hm.le
  · obtain ⟨shift, significand, hsplit, hlow, hhigh, hunits⟩ :=
      exists_unitsOf_eq (Nat.not_lt.mp hsmall)
    -- the significand has 53 bits, so the grid that is rounded to is its own
    have hlog : (significand * 2 ^ shift).log2 - 52 = shift := by
      have hne : significand * 2 ^ shift ≠ 0 :=
        Nat.mul_ne_zero (by omega) (Nat.pow_pos (by decide)).ne'
      have hle : 2 ^ (52 + shift) ≤ significand * 2 ^ shift := by
        rw [pow_add]
        exact Nat.mul_le_mul_right _ hlow
      have hlt : significand * 2 ^ shift < 2 ^ (53 + shift) := by
        rw [pow_add]
        exact Nat.mul_lt_mul_of_pos_right hhigh (Nat.pow_pos (by decide))
      have h₁ := (Nat.le_log2 hne).mpr hle
      have h₂ := (Nat.log2_lt hne).mpr hlt
      omega
    simp only [roundUnits, hunits, Nat.div_one, hlog, Nat.pow_eq, Nat.one_mul,
      roundQuotient_exact significand (Nat.two_pow_pos shift), ← hsplit]
    exact Nat.min_eq_right hm.le

/-- Every finite number has 53 significant bits, shifted to the left by at most 2045 places. -/
theorem exists_unitsOf_shift {m : Nat} (hm : m < infiniteMagnitude) :
    ∃ shift ≤ 2045, ∃ significand < 2 ^ 53, unitsOf m = significand * 2 ^ shift := by
  by_cases hsmall : m < 2 * binade
  · refine ⟨0, by omega, m, hsmall, ?_⟩
    rw [unitsOf_of_lt hsmall, pow_zero, Nat.mul_one]
  · obtain ⟨shift, significand, hsplit, hlow, hhigh, hunits⟩ :=
      exists_unitsOf_eq (Nat.not_lt.mp hsmall)
    have hbinade : binade = 2 ^ 52 := rfl
    rw [infiniteMagnitude, hsplit, hbinade] at hm
    exact ⟨shift, by omega, significand, hhigh, hunits⟩

/-! ## What is rounded stays within bounds -/

theorem roundUnits_le (n d : Nat) : roundUnits n d ≤ infiniteMagnitude :=
  Nat.min_le_left _ _

/-- What has fewer than 2000 bits is not rounded to an infinity. -/
theorem roundUnits_lt {n : Nat} (h : n.log2 < 2000) : roundUnits n 1 < infiniteMagnitude := by
  -- what is left above the grid has 53 bits, and its exponent is far below the last one
  have hquotient : n / 2 ^ (n.log2 - 52) < 2 ^ 53 := by
    refine Nat.div_lt_of_lt_mul (lt_of_lt_of_le Nat.lt_log2_self ?_)
    rw [← pow_add]
    exact Nat.pow_le_pow_right (by decide) (by omega)
  have hround := roundQuotient_le n (2 ^ (n.log2 - 52))
  have hbinade : binade = 2 ^ 52 := rfl
  simp only [roundUnits, Nat.div_one, Nat.pow_eq, Nat.one_mul]
  refine (Nat.min_le_right _ _).trans_lt ?_
  rw [infiniteMagnitude, hbinade]
  omega

/-- The magnitude of the infinities leaves room for the sign. -/
theorem infiniteMagnitude_lt : infiniteMagnitude < signWeight := by decide

/-- Below the infinity there are finite numbers. -/
theorem isFinite_ofMagnitude (negative : Bool) {m : Nat} (h : m < infiniteMagnitude) :
    (ofMagnitude negative m).isFinite = true := by
  rw [isFinite, magnitude_ofMagnitude negative (h.trans infiniteMagnitude_lt)]
  exact decide_eq_true h

/-- One is a power of two of the smallest units. The exponent is made a variable first, so that the
power is not computed. -/
theorem unitsPerOne_eq : unitsPerOne = 2 ^ 1074 := by
  unfold unitsPerOne
  generalize 1074 = bits
  exact Nat.pow_eq

theorem unitsPerOne_pos : 0 < unitsPerOne := by
  unfold unitsPerOne
  generalize 1074 = bits
  exact Nat.two_pow_pos bits

/-- Shifted to the left, a number has that many bits more. -/
theorem log2_mul_two_pow_le {n a : Nat} (h : n ≤ 2 ^ a) (b : Nat) :
    (n * 2 ^ b).log2 ≤ a + b := by
  by_cases hzero : n * 2 ^ b = 0
  · rw [hzero]
    exact Nat.zero_le _
  · refine Nat.le_of_lt_succ ((Nat.log2_lt hzero).mpr ?_)
    calc n * 2 ^ b ≤ 2 ^ a * 2 ^ b := Nat.mul_le_mul_right _ h
      _ = 2 ^ (a + b) := (pow_add 2 a b).symm
      _ < 2 ^ (a + b).succ := Nat.pow_lt_pow_right (by decide) (Nat.lt_succ_self _)

/-- A whole number of 64 bits is rounded to a finite number. -/
theorem isFinite_ofInt {n : Int} (h : n.natAbs ≤ UInt64.size) : (ofInt n).isFinite = true := by
  refine isFinite_ofMagnitude _ (roundUnits_lt ?_)
  have hsize : n.natAbs ≤ 2 ^ 64 := h
  have hlog := log2_mul_two_pow_le hsize 1074
  rw [← unitsPerOne_eq] at hlog
  omega

/-- A number is given by its sign and its magnitude. -/
theorem ofMagnitude_magnitude (x : Binary64) : ofMagnitude x.isNegative x.magnitude = x := by
  have hsign : signWeight = 9223372036854775808 := rfl
  have hlt := x.bits.toNat_lt
  obtain ⟨bits⟩ := x
  rw [ofMagnitude, Binary64.mk.injEq, ← UInt64.toNat_inj, UInt64.toNat_ofNat']
  simp only [isNegative, magnitude, hsign, decide_eq_true_eq] at hlt ⊢
  split <;> omega

end Binary64
end SignalBoard
