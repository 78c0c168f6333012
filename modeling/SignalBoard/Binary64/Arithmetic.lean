import SignalBoard.Binary64.Basic
/-!
# Binary64 arithmetic

Every finite number is a whole number of units of 2⁻¹⁰⁷⁴. A sum, product or quotient is first formed
exactly, as a fraction of units, and then rounded once, to the nearest number, a tie going to the
even magnitude.
-/

namespace SignalBoard
namespace Binary64

/-- How many units make up one. -/
def unitsPerOne : Nat :=
  Nat.pow 2 1074

/-- The units of a finite magnitude: the significand, shifted by the exponent field less one.
Subnormal magnitudes and those of the first binade above them count single units. -/
def unitsOf (m : Nat) : Nat :=
  let shift := m / binade - 1
  (m - shift * binade) * Nat.pow 2 shift

/-- The absolute value of a finite number, in units. -/
def units (x : Binary64) : Nat :=
  unitsOf x.magnitude

/-- The value of a finite number, in units. -/
def signedUnits (x : Binary64) : Int :=
  if x.isNegative then -(x.units : Int) else x.units

/-- A quotient rounded to the nearest whole number, a half to the even one. -/
def roundQuotient (n d : Nat) : Nat :=
  let q := n / d
  let r := n % d
  if 2 * r < d then q else if d < 2 * r then q + 1 else q + q % 2

/-- The magnitude nearest to `n / d` units. Numbers in the binade of `2 ^ (52 + shift)` units are
multiples of `2 ^ shift` units; a significand that rounds up to `2 ^ 53` is carried into the next
binade by the sum. -/
def roundUnits (n d : Nat) : Nat :=
  -- zero for all that has at most 53 bits, where single units are the grid
  let shift := (n / d).log2 - 52
  min infiniteMagnitude (shift * binade + roundQuotient n (d * Nat.pow 2 shift))

/-- The number nearest to `n / d` units with a given sign. -/
def ofUnits (negative : Bool) (n d : Nat) : Binary64 :=
  ofMagnitude negative (roundUnits n d)

/-- The number nearest to a whole number. -/
def ofInt (n : Int) : Binary64 :=
  ofUnits (n < 0) (n.natAbs * unitsPerOne) 1

/-- The number nearest to a natural number. -/
def ofNat (n : Nat) : Binary64 :=
  ofInt n

instance (n : Nat) : OfNat Binary64 n := ⟨ofNat n⟩

/-- The sum. An exact zero is positive unless both operands are negative; infinities of two signs
have no sum. -/
def add (x y : Binary64) : Binary64 :=
  if x.isNaN || y.isNaN then nan
  else if x.isInfinite then
    if y.isInfinite && x.isNegative != y.isNegative then nan else x
  else if y.isInfinite then y
  else
    -- units add up exactly; only the last step rounds
    let sum := x.signedUnits + y.signedUnits
    if sum = 0 then ofMagnitude (x.isNegative && y.isNegative) 0
    else ofUnits (sum < 0) sum.natAbs 1

/-- The product. Its sign is that of the operands; zero times infinity is NaN. -/
def mul (x y : Binary64) : Binary64 :=
  let negative := x.isNegative != y.isNegative
  if x.isNaN || y.isNaN then nan
  else if x.isInfinite || y.isInfinite then
    if x.isZero || y.isZero then nan else ofMagnitude negative infiniteMagnitude
  -- the product of two numbers of units counts units of a unit
  else ofUnits negative (x.units * y.units) unitsPerOne

/-- The quotient. Its sign is that of the operands; zero by zero and infinity by infinity are NaN,
any other number by zero is infinite. -/
def div (x y : Binary64) : Binary64 :=
  let negative := x.isNegative != y.isNegative
  if x.isNaN || y.isNaN then nan
  else if x.isInfinite then
    if y.isInfinite then nan else ofMagnitude negative infiniteMagnitude
  else if y.isInfinite then ofMagnitude negative 0
  else if y.isZero then
    if x.isZero then nan else ofMagnitude negative infiniteMagnitude
  else ofUnits negative (x.units * unitsPerOne) y.units

instance : Add Binary64 := ⟨add⟩
instance : Sub Binary64 := ⟨fun x y => add x (neg y)⟩
instance : Mul Binary64 := ⟨mul⟩
instance : Div Binary64 := ⟨div⟩

/-- The whole part of a finite number that is not negative. -/
def floor (x : Binary64) : Nat :=
  x.units / unitsPerOne

/-- The number of a 32 bit float. Every finite one is exact; a NaN becomes quiet and keeps its
payload. -/
def ofBinary32 (word : UInt32) : Binary64 :=
  let negative : Bool := 0x80000000 ≤ word.toNat
  let exponent := word.toNat / 0x800000 % 0x100
  let fraction := word.toNat % 0x800000
  if exponent = 255 then
    if fraction = 0 then ofMagnitude negative infiniteMagnitude
    -- 29 bits are between the fraction fields of the two formats
    else ofMagnitude negative (infiniteMagnitude + (fraction * 0x20000000 ||| quietBit))
  -- the smallest subnormal is 2⁻¹⁴⁹, that is 2⁹²⁵ units
  else if exponent = 0 then ofUnits negative (fraction * Nat.pow 2 925) 1
  else ofUnits negative ((0x800000 + fraction) * Nat.pow 2 (924 + exponent)) 1

end Binary64
end SignalBoard
