import SignalBoard.Json.Number
import SignalBoard.Json.Quoted
/-!
# Writing JSON

Values are written without blanks. What JSON cannot say, an infinity or NaN for instance, is written
as null.
-/

namespace SignalBoard
namespace Json

/-- A whole number. -/
def printInt (n : Int) : List Char :=
  if n < 0 then '-' :: Decimal.digits n.natAbs else Decimal.digits n.natAbs

/-- A number; null where it is not finite. -/
def printReal (x : Binary64) : List Char :=
  if x.isFinite then numberStyle.text x else "null".toList

mutual

/-- The text of a value. -/
def print : Value → List Char
  | .null => "null".toList
  | .bool true => "true".toList
  | .bool false => "false".toList
  | .int n => printInt n
  | .real x => printReal x
  | .text s => quote s.toList
  | .bytes _ => "null".toList
  | .list items => '[' :: printItems items
  | .map entries => '\x7b' :: printEntries entries
  | .unreadable => "null".toList

/-- The items of a list and its closing bracket. -/
def printItems : List Value → List Char
  | [] => [']']
  | [v] => print v ++ [']']
  | v :: rest => print v ++ ',' :: printItems rest

/-- The entries of a map and its closing brace. -/
def printEntries : List (Value × Value) → List Char
  | [] => ['\x7d']
  | [(k, v)] => print k ++ ':' :: (print v ++ ['\x7d'])
  | (k, v) :: rest => print k ++ ':' :: (print v ++ ',' :: printEntries rest)

end

end Json
end SignalBoard
