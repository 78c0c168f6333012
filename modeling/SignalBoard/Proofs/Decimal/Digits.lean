import SignalBoard.Decimal.Digits
import Mathlib.Data.List.Basic
import Mathlib.Data.List.TakeWhile
import Mathlib.Tactic.Ring

/-!
# Runs of digits and their values

* `value_append`, `value_dropWhile`, `value_append_zeros`: how the value of a run of digits is put
  together, and which zeros do not count.
* `natural?_digits`: a number is read back from its digits.
* `length_digits_le_iff`, `digits_mul_pow`, `head?_digits`: the digits that a number is written
  with.
* `exists_trimmed`: what is left when the zeros at the end are taken off.
-/

namespace SignalBoard
namespace Decimal

/-! ## Values -/

theorem value_eq (ds : List Char) : value ds = Nat.ofDigitChars 10 ds 0 := by
  rw [value, Nat.ofDigitChars_eq_foldl]

/-- Digits in front count by a power of ten for each digit behind them. -/
theorem value_append (as bs : List Char) :
    value (as ++ bs) = value as * 10 ^ bs.length + value bs := by
  rw [value_eq, Nat.ofDigitChars_append, Nat.ofDigitChars_eq_ofDigitChars_zero, value_eq, value_eq,
    Nat.mul_comm]

theorem value_zeros (k : Nat) : value (List.replicate k '0') = 0 := by
  rw [value_eq, Nat.ofDigitChars_replicate_zero, Nat.mul_zero]

/-- Zeros at the end multiply by powers of ten. -/
theorem value_append_zeros (ds : List Char) (k : Nat) :
    value (ds ++ List.replicate k '0') = value ds * 10 ^ k := by
  rw [value_append, value_zeros, List.length_replicate, Nat.add_zero]

/-- Zeros at the beginning do not count. -/
theorem value_cons_zero (ds : List Char) : value ('0' :: ds) = value ds := by
  show value (['0'] ++ ds) = value ds
  rw [value_append, show value ['0'] = 0 from rfl, Nat.zero_mul, Nat.zero_add]

/-- Any number of zeros at the beginning does not count. -/
theorem value_zeros_append (k : Nat) (ds : List Char) :
    value (List.replicate k '0' ++ ds) = value ds := by
  rw [value_append, value_zeros, Nat.zero_mul, Nat.zero_add]

theorem value_dropWhile (ds : List Char) : value (ds.dropWhile (· = '0')) = value ds := by
  induction ds with
  | nil => rfl
  | cons d ds ih =>
    by_cases hzero : d = '0'
    · rw [List.dropWhile_cons_of_pos (by simpa using hzero), ih, hzero, value_cons_zero]
    · rw [List.dropWhile_cons_of_neg (by simpa using hzero)]

/-! ## The digits of a number -/

/-- The digits of a number are worth the number. -/
theorem value_digits (n : Nat) : value (digits n) = n := by
  rw [value_eq]
  exact Nat.ofDigitChars_ten_toDigits

theorem digits_ne_nil (n : Nat) : digits n ≠ [] := Nat.toDigits_ne_nil

theorem isDigit_of_mem_digits {n : Nat} {c : Char} (h : c ∈ digits n) : c.isDigit = true :=
  Nat.isDigit_of_mem_toDigits (by decide) (by decide) h

/-- A number that is written out is read back: the reader asks for at least one digit and for digits
only. -/
theorem natural?_digits (n : Nat) : natural? (digits n) = some n := by
  have hall : (digits n).all Char.isDigit :=
    List.all_eq_true.mpr fun _ hc => isDigit_of_mem_digits hc
  rw [natural?, if_pos ⟨digits_ne_nil n, hall⟩, value_digits]

/-- The first character of a number is a digit, so in particular no sign. -/
theorem digits_ne_plus (n : Nat) (rest : List Char) : digits n ≠ '+' :: rest := by
  intro h
  have hdigit : Char.isDigit '+' = true :=
    isDigit_of_mem_digits (by rw [h]; exact List.mem_cons_self)
  exact absurd hdigit (by decide)

/-- How many digits there are says how large the number is. -/
theorem length_digits_le_iff {n k : Nat} (hk : 0 < k) : (digits n).length ≤ k ↔ n < 10 ^ k :=
  Nat.length_toDigits_le_iff (by decide) hk

/-- Powers of ten are zeros at the end. -/
theorem digits_mul_pow {n : Nat} (hn : 0 < n) (k : Nat) :
    digits (n * 10 ^ k) = digits n ++ List.replicate k '0' := by
  induction k with
  | zero => simp
  | succ k ih =>
    have hpos : 0 < n * 10 ^ k := Nat.mul_pos hn (Nat.pow_pos (by decide))
    have hstep : digits (n * 10 ^ k) ++ digits 0 = digits (10 * (n * 10 ^ k) + 0) :=
      Nat.toDigits_append_toDigits (by decide) hpos (by decide)
    have hmul : n * 10 ^ (k + 1) = 10 * (n * 10 ^ k) + 0 := by ring
    rw [hmul, ← hstep, ih, List.replicate_succ', List.append_assoc]
    rfl

/-- A number other than zero is written without leading zeros. -/
theorem head?_digits {n : Nat} (hn : 0 < n) : (digits n).head? ≠ some '0' := by
  induction n using Nat.strong_induction_on with
  | h n ih =>
    rw [digits, Nat.toDigits_eq_if (by decide)]
    -- a number below ten is its own digit; the digits of any other begin with those of its tenth
    split
    · rw [List.head?_cons, ne_eq, Option.some.injEq, Nat.digitChar_eq_zero]
      omega
    · next hlarge =>
      rw [List.head?_append_of_ne_nil _ Nat.toDigits_ne_nil]
      exact ih (n / 10) (by omega) (by omega)

/-! ## Zeros at the end -/

/-- A run of digits is what is left of it without the zeros at its end, and these zeros. -/
theorem exists_trimmed (ds : List Char) :
    ∃ k, ds = (ds.reverse.dropWhile (· = '0')).reverse ++ List.replicate k '0' := by
  have hzeros : ∀ c ∈ ds.reverse.takeWhile (· = '0'), c = '0' := by
    intro c hc
    simpa using List.mem_takeWhile_imp hc
  refine ⟨(ds.reverse.takeWhile (· = '0')).length, ?_⟩
  -- the zeros at the end are those that come first from the other side
  have hsplit := List.takeWhile_append_dropWhile (p := (· = '0')) (l := ds.reverse)
  rw [List.eq_replicate_of_mem hzeros] at hsplit
  have := congrArg List.reverse hsplit
  rw [List.reverse_append, List.reverse_reverse, List.reverse_replicate] at this
  exact this.symm

/-- Zeros that have been put at the end are taken off again. -/
theorem length_trimmed_le (ds : List Char) (k : Nat) :
    ((ds ++ List.replicate k '0').reverse.dropWhile (· = '0')).reverse.length ≤ ds.length := by
  rw [List.length_reverse, List.reverse_append, List.reverse_replicate,
    List.dropWhile_append_of_pos (by simp)]
  exact (List.dropWhile_sublist _).length_le.trans_eq List.length_reverse

end Decimal
end SignalBoard
