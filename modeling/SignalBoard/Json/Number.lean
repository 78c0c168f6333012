import SignalBoard.Value.Basic
import SignalBoard.Decimal.Shortest
/-!
# Numbers of JSON

A whole numeral in the range of signed and unsigned words is an integer; every other numeral is the
nearest binary64 number, found from its first `maxDigits` digits. A numeral beyond the largest
finite number is unreadable.
-/

namespace SignalBoard
namespace Json

/-- Numbers are written without an exponent from 0.00001 to below 10^16; an exponent has a sign, and
ties go to the even digit. -/
def numberStyle : NumberStyle where
  lowestPlain := -5
  highestPlain := 15
  plusSign := true
  tie := .toEven

/-- Whether a numeral has the parts that are asked for: digits without a leading zero, and digits
after the point. -/
def wellFormed (n : Numeral) : Bool :=
  n.whole ≠ [] && (n.whole.head? ≠ some '0' || n.whole.length = 1) && n.fraction ≠ some []

/-- How many digits of a numeral are looked at. No number that lies halfway between two binary64
numbers has so many, so that only zeros that follow them can be mistaken. -/
def maxDigits : Nat := 768

/-- The value of a numeral with a given sign. Negative zero is no integer. -/
def numberValue (negative : Bool) (n : Numeral) : Value :=
  let whole := Decimal.value n.whole
  let x := n.toBinary64Within maxDigits negative
  if n.isWhole && !negative && whole < UInt64.size then .int whole
  -- a negative zero has to stay a real number, for its sign
  else if n.isWhole && negative && 0 < whole && whole ≤ 0x8000000000000000 then .int (-whole)
  else if x.isInfinite then .unreadable
  else .real x

/-- Reads a number that takes up the whole text. -/
def number? (cs : List Char) : Option Value :=
  let (negative, rest) := match cs with
    | '-' :: rest => (true, rest)
    | rest => (false, rest)
  ((Numeral.ofChars? rest).filter wellFormed).map (numberValue negative)

end Json
end SignalBoard
