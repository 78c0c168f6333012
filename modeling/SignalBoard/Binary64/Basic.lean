/-!
# Binary64 numbers

A number is the 64 bits of its interchange format, so that two numbers are equal exactly when they
are bit for bit the same: NaNs keep their payload and the two zeros differ. Order and numeric
equality, for which NaN is related to nothing and the two zeros are one, are read off the bits below
the sign, which are ordered as the numbers they stand for.
-/

namespace SignalBoard

/-- A binary64 floating point number, given by its bits. -/
structure Binary64 where
  bits : UInt64
deriving DecidableEq

namespace Binary64

/-- The weight of the sign bit, 2⁶³. -/
def signWeight : Nat :=
  0x8000000000000000

/-- Whether the sign bit is set, also of a zero or a NaN. -/
def isNegative (x : Binary64) : Bool :=
  signWeight ≤ x.bits.toNat

/-- The bits below the sign. -/
def magnitude (x : Binary64) : Nat :=
  x.bits.toNat % signWeight

/-- How many magnitudes there are for each exponent, 2⁵². -/
def binade : Nat :=
  0x10000000000000

/-- The magnitude of the infinities; the magnitudes above it are those of the NaNs. -/
def infiniteMagnitude : Nat :=
  2047 * binade

/-- The number of a given sign and magnitude. -/
def ofMagnitude (negative : Bool) (m : Nat) : Binary64 :=
  ⟨UInt64.ofNat ((if negative then signWeight else 0) + m)⟩

def isNaN (x : Binary64) : Bool :=
  infiniteMagnitude < x.magnitude

def isInfinite (x : Binary64) : Bool :=
  x.magnitude = infiniteMagnitude

/-- Neither infinite nor NaN. -/
def isFinite (x : Binary64) : Bool :=
  x.magnitude < infiniteMagnitude

/-- One of the two zeros. -/
def isZero (x : Binary64) : Bool :=
  x.magnitude = 0

def zero : Binary64 := ofMagnitude false 0
def negZero : Binary64 := ofMagnitude true 0
def infinity : Binary64 := ofMagnitude false infiniteMagnitude
def negInfinity : Binary64 := ofMagnitude true infiniteMagnitude

/-- The bit that makes a NaN quiet. -/
def quietBit : Nat :=
  0x8000000000000

/-- The quiet NaN without payload. -/
def nan : Binary64 := ofMagnitude false (infiniteMagnitude + quietBit)

instance : Inhabited Binary64 := ⟨zero⟩

/-- The magnitude with its sign. The two zeros share a rank. -/
def rank (x : Binary64) : Int :=
  if x.isNegative then -(x.magnitude : Int) else x.magnitude

/-- Numeric order: a NaN is neither below nor above anything. -/
instance : LT Binary64 :=
  ⟨fun x y => x.isNaN = false ∧ y.isNaN = false ∧ x.rank < y.rank⟩

instance (x y : Binary64) : Decidable (x < y) :=
  inferInstanceAs (Decidable (_ ∧ _ ∧ _))

/-- Numeric equality: a NaN differs from everything, itself included, and the two zeros agree. -/
def agrees (x y : Binary64) : Bool :=
  !x.isNaN && !y.isNaN && x.rank == y.rank

/-- The larger of two numbers, the first one on a tie. -/
def larger (x y : Binary64) : Binary64 :=
  if x < y then y else x

/-- The smaller of two numbers, the first one on a tie. -/
def smaller (x y : Binary64) : Binary64 :=
  if y < x then y else x

/-- The nearest number between two bounds. A NaN stays as it is. -/
def clamp (x low high : Binary64) : Binary64 :=
  if x < low then low else if high < x then high else x

/-- The number with the other sign. -/
def neg (x : Binary64) : Binary64 :=
  ofMagnitude (!x.isNegative) x.magnitude

instance : Neg Binary64 := ⟨neg⟩

end Binary64
end SignalBoard
