import SignalBoard.Binary64.Arithmetic
import SignalBoard.Decimal.Digits
/-!
# Decimal numerals

An unsigned numeral is a run of digits, a fraction after a point and an exponent after a mark. Which
parts may be missing differs from one use to the next, so a numeral keeps its parts as they were
written. Its value is the binary64 number nearest to what it says, however many digits there are.
-/

namespace SignalBoard

namespace Binary64

/-- The magnitude nearest to `m · 10 ^ e`. What lies far above the largest finite number is infinite
and what lies far below the smallest one is zero, so that no power outside their range is formed. -/
def decimalMagnitude (m : Nat) (e : Int) : Nat :=
  -- the value is at least `10 ^ (top - 1)` and below `10 ^ top`
  let top := e + (Decimal.digits m).length
  if m = 0 then 0
  else if 310 < top then infiniteMagnitude
  else if top < -330 then 0
  else if 0 ≤ e then roundUnits (m * Nat.pow 10 e.toNat * unitsPerOne) 1
  else roundUnits (m * unitsPerOne) (Nat.pow 10 (-e).toNat)

/-- The number nearest to `± m · 10 ^ e`. -/
def ofDecimal (negative : Bool) (m : Nat) (e : Int) : Binary64 :=
  ofMagnitude negative (decimalMagnitude m e)

end Binary64

/-- The parts of an unsigned decimal numeral. -/
structure Numeral where
  /-- The digits before the point. -/
  whole : List Char
  /-- The digits after the point, if there is a point. -/
  fraction : Option (List Char)
  /-- The exponent, if there is a mark. -/
  exponent : Option Int
deriving DecidableEq

namespace Numeral

/-- Reads what follows the digits and the fraction: nothing, or an exponent mark and an exponent. -/
def withExponent? (whole : List Char) (fraction : Option (List Char)) : List Char → Option Numeral
  | [] => some ⟨whole, fraction, none⟩
  | c :: cs =>
    if c = 'e' ∨ c = 'E' then (Decimal.integer? cs).map fun e => ⟨whole, fraction, some e⟩
    else none

/-- Reads a numeral that takes up the whole text. Either run of digits may be empty. -/
def ofChars? (cs : List Char) : Option Numeral :=
  let whole := cs.takeWhile Char.isDigit
  match cs.dropWhile Char.isDigit with
  | '.' :: rest =>
    withExponent? whole (some (rest.takeWhile Char.isDigit)) (rest.dropWhile Char.isDigit)
  | rest => withExponent? whole none rest

/-- The digits after the point, none where there is no point. -/
def fractionDigits (n : Numeral) : List Char :=
  n.fraction.getD []

/-- Whether the numeral has neither point nor exponent. -/
def isWhole (n : Numeral) : Bool :=
  n.fraction.isNone && n.exponent.isNone

/-- The digits from the first one that is not zero, without the zeros at the end of the fraction,
and the exponent of the last of them. -/
def significant (n : Numeral) : List Char × Int :=
  let fraction := (n.fractionDigits.reverse.dropWhile (· = '0')).reverse
  ((n.whole ++ fraction).dropWhile (· = '0'), n.exponent.getD 0 - fraction.length)

/-- The number nearest to the numeral with a given sign where at most `count` digits are looked at.
What comes after them is taken for a bit more than nothing, also if it is nothing but zeros. -/
def toBinary64Within (count : Nat) (negative : Bool) (n : Numeral) : Binary64 :=
  let (ds, e) := n.significant
  if ds.length ≤ count then .ofDecimal negative (Decimal.value ds) e
  -- a last digit one stands for all that is cut off, and tips a tie
  else .ofDecimal negative (Decimal.value (ds.take count ++ ['1'])) (e + (ds.length - (count + 1)))

/-- The number nearest to the numeral with a given sign. -/
def toBinary64 (negative : Bool) (n : Numeral) : Binary64 :=
  .ofDecimal negative (Decimal.value (n.whole ++ n.fractionDigits))
    (n.exponent.getD 0 - n.fractionDigits.length)

end Numeral
end SignalBoard
