import SignalBoard.Decimal.Numeral
import SignalBoard.OrderedMap
import SignalBoard.Text.Blank
/-!
# Node parameters

A parameter is a truth value, a number, a text or nothing. Nodes read their parameters as finite
numbers; what cannot be read so counts as missing. Stored documents cannot hold NaN or the
infinities, which is why `normalized` puts nothing in their place.
-/

namespace SignalBoard

/-- The value of a node parameter. -/
inductive ParamValue where
  | bool (b : Bool)
  | number (x : Binary64)
  | text (s : String)
  | null
deriving DecidableEq

/-- The parameters of a node, in the order in which they were given. -/
abbrev Params := OrderedMap String ParamValue

namespace ParamValue

/-- Reads an unsigned number: an infinity or NaN by its name in any case, or a numeral with at least
one digit before the exponent. -/
def unsignedNumber? (negative : Bool) (cs : List Char) : Option Binary64 :=
  let word := cs.map Char.toLower
  if word = "inf".toList ∨ word = "infinity".toList then
    some (.ofMagnitude negative Binary64.infiniteMagnitude)
  else if word = "nan".toList then some .nan
  else
    (Numeral.ofChars? cs).bind fun n =>
      if n.whole ++ n.fractionDigits = [] then none else some (n.toBinary64 negative)

/-- Reads a number with an optional sign. -/
def number? : List Char → Option Binary64
  | '-' :: cs => unsignedNumber? true cs
  | '+' :: cs => unsignedNumber? false cs
  | cs => unsignedNumber? false cs

/-- The number that a value stands for, before infinities and NaN are sorted out. -/
def toBinary64? : ParamValue → Option Binary64
  | bool b => some (if b then 1 else .zero)
  | number x => some x
  | text s => number? (Text.trim s.toList)
  | null => none

/-- The finite number that a value stands for, if there is one. -/
def finite? (v : ParamValue) : Option Binary64 :=
  v.toBinary64?.filter Binary64.isFinite

/-- The value with nothing in the place of an infinity or NaN. -/
def normalized : ParamValue → ParamValue
  | number x => if x.isFinite then number x else null
  | v => v

/-- The parameter for a number. -/
def ofNumber (x : Binary64) : ParamValue :=
  (number x).normalized

/-- Equality of values, where numbers are compared as numbers: NaN differs from itself and the zeros
agree. -/
def agrees : ParamValue → ParamValue → Bool
  | number x, number y => x.agrees y
  | v, w => v = w

end ParamValue

namespace Params

/-- The number under a key, or a default where there is no finite one. -/
def number (params : Params) (key : String) (default : Binary64) : Binary64 :=
  ((params.get? key).bind ParamValue.finite?).getD default

/-- The parameters with nothing in the place of infinities and NaNs. -/
def normalized (params : Params) : Params :=
  params.mapValues ParamValue.normalized

/-- Whether two sets of parameters have the same keys, in any order, and values that agree. -/
def agrees (p q : Params) : Bool :=
  p.size = q.size && p.entries.all fun (key, v) =>
    match q.get? key with
    | some w => v.agrees w
    | none => false

end Params
end SignalBoard
