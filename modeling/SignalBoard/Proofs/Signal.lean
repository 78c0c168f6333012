import SignalBoard.Signal

/-!
# Signals and zeros

A signal is a number from -100 to 100 that is neither NaN nor the negative zero (`IsSignal`), and
clamping makes every number a signal and leaves signals as they are (`clamp_eq_self_iff`).

A number that is zero or NaN becomes the zero signal (`clamp_of_isNaught`), and the arithmetic of
the nodes makes such numbers out of such numbers: a sum of two, a product or a quotient of one by
whatever. Clamping is done once and for all (`clamp_clamp`), so a list that has been clamped does
not change when it is passed on.
-/

namespace SignalBoard

namespace Binary64

/-- What a signal makes zero of: a zero or a NaN. -/
def IsNaught (x : Binary64) : Prop :=
  x.isNaN = true ∨ x.isZero = true

theorem isNaught_zero : zero.IsNaught := .inr rfl

theorem isNaught_nan : nan.IsNaught := .inl rfl

theorem isNaught_ofMagnitude_zero (negative : Bool) : (ofMagnitude negative 0).IsNaught := by
  cases negative <;> exact .inr rfl

/-! ## Arithmetic -/

/-- Nothing is rounded to nothing, however far the scale is off. -/
theorem roundUnits_zero (d : Nat) : roundUnits 0 d = 0 := by
  have hquotient : ∀ d, roundQuotient 0 d = 0 := by
    intro d
    simp [roundQuotient]
  simp [roundUnits, hquotient]

/-- A product or a quotient of zero is a zero, with either sign. -/
theorem isNaught_ofUnits_zero (negative : Bool) (d : Nat) : (ofUnits negative 0 d).IsNaught := by
  rw [ofUnits, roundUnits_zero]
  exact isNaught_ofMagnitude_zero negative

variable {x y : Binary64}

theorem units_of_isZero (h : x.isZero = true) : x.units = 0 := by
  have hm : x.magnitude = 0 := by simpa [isZero] using h
  simp [units, unitsOf, hm]

theorem isInfinite_of_isZero (h : x.isZero = true) : x.isInfinite = false := by
  have hm : x.magnitude = 0 := by simpa [isZero] using h
  simp [isInfinite, hm, infiniteMagnitude, binade]

/-- A sum of two such numbers is one: two zeros cannot add up to anything else. -/
theorem IsNaught.add (hx : x.IsNaught) (hy : y.IsNaught) : (x + y).IsNaught := by
  show (Binary64.add x y).IsNaught
  unfold Binary64.add
  by_cases hnan : (x.isNaN || y.isNaN) = true
  · rw [if_pos hnan]
    exact isNaught_nan
  · rw [if_neg hnan]
    simp only [Bool.or_eq_true, not_or] at hnan
    have hx0 := hx.resolve_left hnan.1
    have hy0 := hy.resolve_left hnan.2
    -- neither is a NaN, so both are zeros, and there is nothing to round
    have hsum : x.signedUnits + y.signedUnits = 0 := by
      simp [signedUnits, units_of_isZero hx0, units_of_isZero hy0]
    simp only [isInfinite_of_isZero hx0, isInfinite_of_isZero hy0, Bool.false_eq_true, if_false,
      hsum, if_true]
    exact isNaught_ofMagnitude_zero _

/-- Whatever a zero or NaN is multiplied by, also an infinity. -/
theorem IsNaught.mul (hx : x.IsNaught) (y : Binary64) : (x * y).IsNaught := by
  show (Binary64.mul x y).IsNaught
  unfold Binary64.mul
  by_cases hnan : (x.isNaN || y.isNaN) = true
  · rw [if_pos hnan]
    exact isNaught_nan
  · rw [if_neg hnan]
    simp only [Bool.or_eq_true, not_or] at hnan
    have hx0 := hx.resolve_left hnan.1
    -- zero times an infinity is a NaN, zero times anything else a zero
    split
    · simp only [hx0, Bool.true_or, if_true]
      exact isNaught_nan
    · rw [units_of_isZero hx0, Nat.zero_mul]
      exact isNaught_ofUnits_zero _ _

/-- Whatever a zero or NaN is divided by, also a zero. -/
theorem IsNaught.div (hx : x.IsNaught) (y : Binary64) : (x / y).IsNaught := by
  show (Binary64.div x y).IsNaught
  unfold Binary64.div
  by_cases hnan : (x.isNaN || y.isNaN) = true
  · rw [if_pos hnan]
    exact isNaught_nan
  · rw [if_neg hnan]
    simp only [Bool.or_eq_true, not_or] at hnan
    have hx0 := hx.resolve_left hnan.1
    simp only [isInfinite_of_isZero hx0, hx0, Bool.false_eq_true, if_false, if_true]
    -- by an infinity, by a zero, by any other number
    split
    · exact isNaught_ofMagnitude_zero _
    · split
      · exact isNaught_nan
      · rw [units_of_isZero hx0, Nat.zero_mul]
        exact isNaught_ofUnits_zero _ _

theorem IsNaught.larger (hx : x.IsNaught) (hy : y.IsNaught) : (x.larger y).IsNaught := by
  unfold Binary64.larger
  split
  · exact hy
  · exact hx

theorem IsNaught.smaller (hx : x.IsNaught) (hy : y.IsNaught) : (x.smaller y).IsNaught := by
  unfold Binary64.smaller
  split
  · exact hy
  · exact hx

/-! ## Order -/

/-- A magnitude that fits below the sign bit is read back. -/
theorem magnitude_ofMagnitude (negative : Bool) {m : Nat} (h : m < signWeight) :
    (ofMagnitude negative m).magnitude = m := by
  have h63 : signWeight = 9223372036854775808 := rfl
  rw [h63] at h
  cases negative <;> simp [ofMagnitude, magnitude, h63, UInt64.toNat_ofNat'] <;> omega

theorem isNegative_ofMagnitude (negative : Bool) {m : Nat} (h : m < signWeight) :
    (ofMagnitude negative m).isNegative = negative := by
  have h63 : signWeight = 9223372036854775808 := rfl
  rw [h63] at h
  cases negative <;> simp [ofMagnitude, isNegative, h63, UInt64.toNat_ofNat'] <;> omega

/-- There are two zeros. -/
theorem eq_zero_or_negZero (h : x.isZero = true) : x = zero ∨ x = negZero := by
  have hmagnitude : x.bits.toNat % signWeight = 0 := of_decide_eq_true h
  have hlt : x.bits.toNat < 2 ^ 64 := x.bits.toNat_lt
  have h63 : signWeight = 9223372036854775808 := rfl
  rw [h63] at hmagnitude
  -- nothing but the sign bit is left to be set
  have hbits : x.bits.toNat = 0 ∨ x.bits.toNat = 9223372036854775808 := by omega
  obtain ⟨bits⟩ := x
  refine hbits.imp (fun hzero => ?_) fun hnegZero => ?_
  · exact congrArg Binary64.mk (UInt64.toNat_inj.mp hzero)
  · exact congrArg Binary64.mk (UInt64.toNat_inj.mp hnegZero)

theorem magnitude_lt (x : Binary64) : x.magnitude < signWeight :=
  Nat.mod_lt _ (by decide)

theorem isNaN_neg (x : Binary64) : (-x).isNaN = x.isNaN := by
  show (neg x).isNaN = x.isNaN
  rw [neg, isNaN, isNaN, magnitude_ofMagnitude _ x.magnitude_lt]

/-- The opposite number has the opposite rank. -/
theorem rank_neg (x : Binary64) : (-x).rank = -x.rank := by
  show (neg x).rank = -x.rank
  rw [neg, rank, rank, magnitude_ofMagnitude _ x.magnitude_lt,
    isNegative_ofMagnitude _ x.magnitude_lt]
  cases x.isNegative <;> simp

/-- A number that is not below zero is not above it with the other sign. -/
theorem not_zero_lt_neg (h : ¬ x < zero) : ¬ zero < -x := by
  rintro ⟨-, hnan, hrank⟩
  rw [isNaN_neg] at hnan
  have hz : zero.rank = 0 := rfl
  rw [rank_neg, hz] at hrank
  exact h ⟨hnan, rfl, by rw [hz]; omega⟩

end Binary64

namespace Signal

open Binary64

/-! ## Clamping -/

/-- What is zero or NaN becomes the zero signal. -/
theorem clamp_of_isNaught {x : Binary64} (h : x.IsNaught) : clamp x = .zero := by
  rw [clamp, if_pos (by rw [Bool.or_eq_true]; exact h)]

@[simp] theorem clamp_zero : clamp .zero = .zero :=
  clamp_of_isNaught isNaught_zero

/-- A number from -100 to 100 that is neither NaN nor the negative zero. -/
structure IsSignal (x : Binary64) : Prop where
  notNaN : x.isNaN = false
  notNegZero : x ≠ .negZero
  notBelow : ¬ x < lowest
  notAbove : ¬ highest < x

instance (x : Binary64) : Decidable (IsSignal x) :=
  decidable_of_iff (x.isNaN = false ∧ x ≠ .negZero ∧ ¬ x < lowest ∧ ¬ highest < x)
    ⟨fun ⟨hnan, hnegZero, hlow, hhigh⟩ => ⟨hnan, hnegZero, hlow, hhigh⟩,
      fun h => ⟨h.notNaN, h.notNegZero, h.notBelow, h.notAbove⟩⟩

theorem isSignal_zero : IsSignal .zero := by decide +kernel

/-- Clamping leaves a signal. Only comparisons go into this. -/
theorem isSignal_clamp (x : Binary64) : IsSignal (clamp x) := by
  by_cases hnaught : (x.isNaN || x.isZero) = true
  · rw [clamp, if_pos hnaught]
    exact isSignal_zero
  · -- what is out of range becomes one of the two bounds
    have hlowest : IsSignal lowest := by decide +kernel
    have hhighest : IsSignal highest := by decide +kernel
    rw [clamp, if_neg hnaught, Binary64.clamp]
    simp only [Bool.or_eq_true, not_or, Bool.not_eq_true] at hnaught
    split
    · exact hlowest
    · next hlow =>
      split
      · exact hhighest
      · next hhigh =>
        refine ⟨hnaught.1, ?_, hlow, hhigh⟩
        -- the negative zero is a zero, and zeros are dealt with already
        rintro rfl
        exact absurd hnaught.2 (by decide)

/-- Signals are what clamping leaves as it is. -/
theorem clamp_eq_self_iff {x : Binary64} : clamp x = x ↔ IsSignal x := by
  constructor
  · intro h
    rw [← h]
    exact isSignal_clamp x
  · rintro ⟨hnan, hnegZero, hlow, hhigh⟩
    by_cases hzero : x.isZero = true
    · rw [clamp_of_isNaught (.inr hzero)]
      exact ((eq_zero_or_negZero hzero).resolve_right hnegZero).symm
    · rw [clamp, if_neg (by simp [hnan, hzero]), Binary64.clamp, if_neg hlow, if_neg hhigh]

/-- What has been clamped is a signal and stays as it is. -/
@[simp] theorem clamp_clamp (x : Binary64) : clamp (clamp x) = clamp x :=
  clamp_eq_self_iff.mpr (isSignal_clamp x)

/-! ## Ports -/

/-- All values of a list are signals. -/
def AllSignals (ports : List Binary64) : Prop :=
  ∀ x ∈ ports, clamp x = x

/-- That clamping changes nothing is the form in which proofs use it. -/
theorem allSignals_iff {ports : List Binary64} :
    AllSignals ports ↔ ∀ x ∈ ports, IsSignal x :=
  forall_congr' fun _ => imp_congr_right fun _ => clamp_eq_self_iff

/-- All values of a list are zero. -/
def AllZero (ports : List Binary64) : Prop :=
  ∀ x ∈ ports, x = .zero

theorem allZero_replicate (count : Nat) : AllZero (List.replicate count .zero) :=
  fun _ hx => (List.mem_replicate.mp hx).2

theorem AllZero.allSignals {ports : List Binary64} (h : AllZero ports) : AllSignals ports := by
  intro x hx
  rw [h x hx, clamp_zero]

theorem AllZero.eq_replicate {ports : List Binary64} (h : AllZero ports) :
    ports = List.replicate ports.length .zero :=
  List.eq_replicate_of_mem h

theorem AllZero.map_clamp {ports : List Binary64} (h : AllZero ports) :
    ports.map clamp = ports := by
  refine (List.map_congr_left fun x hx => ?_).trans (List.map_id _)
  rw [h x hx, clamp_zero]
  rfl

theorem valueAt_eq_of_getElem? {ports : List Binary64} {port : Nat} {x : Binary64}
    (h : ports[port]? = some x) : valueAt ports port = x := by
  rw [valueAt, List.getD_eq_getElem?_getD, h, Option.getD_some]

theorem valueAt_of_length_le {ports : List Binary64} {port : Nat} (h : ports.length ≤ port) :
    valueAt ports port = .zero := by
  rw [valueAt, List.getD_eq_getElem?_getD, List.getElem?_eq_none h, Option.getD_none]

/-- Among zeros every port reads zero, also one that there is not. -/
theorem AllZero.valueAt {ports : List Binary64} (h : AllZero ports) (port : Nat) :
    valueAt ports port = .zero := by
  rw [Signal.valueAt, List.getD_eq_getElem?_getD]
  cases hport : ports[port]? with
  | none => rfl
  | some x => exact h x (List.mem_of_getElem? hport)

/-- Among signals every port reads a signal, also one that there is not. -/
theorem AllSignals.clamp_valueAt {ports : List Binary64} (h : AllSignals ports) (port : Nat) :
    clamp (Signal.valueAt ports port) = Signal.valueAt ports port := by
  rw [Signal.valueAt, List.getD_eq_getElem?_getD]
  cases hport : ports[port]? with
  | none => exact clamp_zero
  | some x => exact h x (List.mem_of_getElem? hport)

/-- A port that there is not reads zero also after clamping. -/
theorem valueAt_map_clamp (ports : List Binary64) (port : Nat) :
    Signal.valueAt (ports.map clamp) port = clamp (Signal.valueAt ports port) := by
  rw [Signal.valueAt, Signal.valueAt, List.getD_eq_getElem?_getD, List.getD_eq_getElem?_getD,
    List.getElem?_map]
  cases ports[port]? with
  | none => exact clamp_zero.symm
  | some x => rfl

/-- Fitting to a number of ports adds nothing but zeros. -/
theorem mem_fit {count : Nat} {ports : List Binary64} {x : Binary64} (h : x ∈ fit count ports) :
    x ∈ ports ∨ x = .zero := by
  rcases List.mem_append.mp h with h | h
  · exact .inl (List.mem_of_mem_take h)
  · exact .inr (List.mem_replicate.mp h).2

/-- Signals that are fitted to a number of ports are signals. -/
theorem allSignals_fit (count : Nat) {ports : List Binary64} (h : AllSignals ports) :
    AllSignals (fit count ports) := by
  intro x hx
  rcases mem_fit hx with hx | rfl
  · exact h x hx
  · exact clamp_zero

theorem allSignals_map_clamp (ports : List Binary64) : AllSignals (ports.map clamp) := by
  intro x hx
  obtain ⟨y, -, rfl⟩ := List.mem_map.mp hx
  exact clamp_clamp y

/-- A signal that is put on a port leaves all values signals. -/
theorem AllSignals.set {ports : List Binary64} (h : AllSignals ports) (port : Nat) {x : Binary64}
    (hx : clamp x = x) : AllSignals (ports.set port x) := by
  intro y hy
  rcases List.mem_or_eq_of_mem_set hy with hy | rfl
  · exact h y hy
  · exact hx

/-- Zeros that are fitted to a number of ports are zeros. -/
theorem allZero_fit (count : Nat) {ports : List Binary64} (h : AllZero ports) :
    AllZero (fit count ports) := by
  intro x hx
  exact (mem_fit hx).elim (h x) id

/-- Zeros and NaNs are zero on every port once they have been clamped. -/
theorem allZero_fit_clamp (count : Nat) {ports : List Binary64} (h : ∀ x ∈ ports, x.IsNaught) :
    AllZero (fit count (ports.map clamp)) := by
  refine allZero_fit count fun x hx => ?_
  obtain ⟨y, hy, rfl⟩ := List.mem_map.mp hx
  exact clamp_of_isNaught (h y hy)

end Signal
end SignalBoard
