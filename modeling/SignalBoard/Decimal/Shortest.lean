import SignalBoard.Decimal.Numeral
/-!
# Shortest number text

A finite number is written with the fewest digits that read back as the same number and, among those
of that many digits, with the nearest. The search goes over decimal grids from coarse to fine and
tries the two grid points around the number; trying means reading, so what is written always reads
back. Where the point stands is the business of a `NumberStyle`.
-/

namespace SignalBoard

/-- The value `coefficient · 10 ^ exponent`. -/
structure ScaledDecimal where
  coefficient : Nat
  exponent : Int
deriving DecidableEq

/-- Which way a number goes that lies halfway between two shortest candidates. -/
inductive TieRule where
  | toEven
  | upward
deriving DecidableEq

/-- How the digits of a finite number are laid out. -/
structure NumberStyle where
  /-- The smallest decimal exponent written without an exponent mark. -/
  lowestPlain : Int
  /-- The largest decimal exponent written without an exponent mark. -/
  highestPlain : Int
  /-- Whether an exponent that is not negative carries a plus sign. -/
  plusSign : Bool
  tie : TieRule
deriving DecidableEq

namespace ScaledDecimal

/-- The magnitude nearest to the value. -/
def magnitude (d : ScaledDecimal) : Nat :=
  Binary64.decimalMagnitude d.coefficient d.exponent

/-- The value of `units` units, exactly: a unit is `5 ^ 1074 · 10 ^ (-1074)`. -/
def ofUnits (units : Nat) : ScaledDecimal :=
  ⟨units * Nat.pow 5 1074, -1074⟩

/-- The exponent `p` with `10 ^ (p - 1) ≤ x < 10 ^ p`, where `x` is the value of `units` units. It
is read off the digits of `x` in steps of `10 ^ (-330)`, which are finer than a unit. -/
def pointPosition (units : Nat) : Int :=
  (Decimal.digits (units * Nat.pow 10 330 / Binary64.unitsPerOne)).length - 330

/-- The value of `units` units in steps of `10 ^ e`, as a fraction. -/
def inSteps (units : Nat) (e : Int) : Nat × Nat :=
  if 0 ≤ e then (units, Binary64.unitsPerOne * Nat.pow 10 e.toNat)
  else (units * Nat.pow 10 (-e).toNat, Binary64.unitsPerOne)

/-- Whether of two grid points around `n / d` the upper one is to be written: it is nearer, or as
near and favoured by the tie rule. -/
def prefersUpper (tie : TieRule) (n d : Nat) : Bool :=
  let rest := n % d
  if 2 * rest = d then
    match tie with
    | .toEven => (n / d) % 2 = 1
    | .upward => true
  else d < 2 * rest

/-- The value to write of the two grid points around `n / d` steps of `10 ^ e`: one that reads back
as `m`, and the preferred one if both do. -/
def between? (tie : TieRule) (m n d : Nat) (e : Int) : Option ScaledDecimal :=
  let lower : ScaledDecimal := ⟨n / d, e⟩
  let upper : ScaledDecimal := ⟨n / d + 1, e⟩
  if lower.magnitude = m then
    some (if upper.magnitude = m ∧ prefersUpper tie n d then upper else lower)
  else if upper.magnitude = m then some upper
  else none

/-- The value to write on the grid of `count` digits, if one of the two grid points around the
number reads back. -/
def onGrid? (tie : TieRule) (m : Nat) (count : Nat) : Option ScaledDecimal :=
  let units := Binary64.unitsOf m
  let e := pointPosition units - count
  let steps := inSteps units e
  between? tie m steps.1 steps.2 e

/-- The shortest value that reads back as the finite magnitude `m`. Seventeen digits always do. -/
def shortest (tie : TieRule) (m : Nat) : ScaledDecimal :=
  ((List.range 17).findSome? fun i => onGrid? tie m (i + 1)).getD (ofUnits (Binary64.unitsOf m))

/-- The digits of a value without the zeros at their end. -/
def significantDigits (d : ScaledDecimal) : List Char :=
  ((Decimal.digits d.coefficient).reverse.dropWhile (· = '0')).reverse

/-- The number of digits before the point when the value is written without an exponent; zero or
less where it begins behind the point. -/
def wholeDigits (d : ScaledDecimal) : Int :=
  d.exponent + (Decimal.digits d.coefficient).length

end ScaledDecimal

namespace NumberStyle

/-- Digits with a point after the first `position` of them, zeros filling the gaps. There is always
a digit on either side of the point. -/
def plain (ds : List Char) (position : Int) : List Char :=
  if position ≤ 0 then '0' :: '.' :: (List.replicate (-position).toNat '0' ++ ds)
  else if position.toNat < ds.length then ds.take position.toNat ++ '.' :: ds.drop position.toNat
  else ds ++ List.replicate (position.toNat - ds.length) '0' ++ ['.', '0']

/-- One digit, the others behind a point if there are any, and an exponent. -/
def scientific (plusSign : Bool) (ds : List Char) (exponent : Int) : List Char :=
  let sign := if exponent < 0 then ['-'] else if plusSign then ['+'] else []
  let mantissa := match ds with
    | c :: d :: rest => c :: '.' :: d :: rest
    | ds => ds
  mantissa ++ 'e' :: (sign ++ Decimal.digits exponent.natAbs)

/-- The text of a finite magnitude. -/
def magnitudeText (style : NumberStyle) (m : Nat) : List Char :=
  if m = 0 then ['0', '.', '0']
  else
    let d := ScaledDecimal.shortest style.tie m
    let exponent := d.wholeDigits - 1
    if style.lowestPlain ≤ exponent ∧ exponent ≤ style.highestPlain then
      plain d.significantDigits d.wholeDigits
    else scientific style.plusSign d.significantDigits exponent

/-- The text of a finite number. -/
def text (style : NumberStyle) (x : Binary64) : List Char :=
  if x.isNegative then '-' :: style.magnitudeText x.magnitude else style.magnitudeText x.magnitude

end NumberStyle
end SignalBoard
