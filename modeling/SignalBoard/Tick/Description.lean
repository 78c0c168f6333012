import SignalBoard.Decimal.Shortest
import SignalBoard.Tick.State
/-!
# Describing a runtime

The values of a node in wire time, written out for whoever inspects a running board.
-/

namespace SignalBoard
namespace Description

/-- Numbers are written without an exponent from 0.0001 to below 10^16; an exponent has no plus
sign, and ties go up. -/
def numberStyle : NumberStyle where
  lowestPlain := -4
  highestPlain := 15
  plusSign := false
  tie := .upward

/-- The text of a number. -/
def number (x : Binary64) : String :=
  if x.isNaN then "NaN"
  else if x.isInfinite then (if x.isNegative then "-inf" else "inf")
  else String.ofList (numberStyle.text x)

/-- A list of numbers in brackets. -/
def numbers (xs : List Binary64) : String :=
  "[" ++ String.intercalate ", " (xs.map number) ++ "]"

/-- A name and named parts in braces. -/
def record (name : String) (parts : List (String × String)) : String :=
  let inside := String.intercalate ", " (parts.map fun (part, text) => part ++ ": " ++ text)
  name ++ " \x7b " ++ inside ++ " \x7d"

/-- The text of node memory. -/
def memory : NodeMemory → String
  | .stateless => "Stateless"
  | .latch value => record "Latch" [("value", number value)]
  | .delay buffer cursor =>
    record "Delay" [("buffer", numbers buffer),
      ("write_index", String.ofList (Decimal.digits cursor.toNat))]

/-- The text of a truth value. -/
def truth (b : Bool) : String :=
  if b then "true" else "false"

end Description

namespace NodeRuntime

/-- What a node keeps, on one line. -/
def describe (runtime : NodeRuntime) : String :=
  Description.record "NodeRuntimeState" [("inputs", Description.numbers runtime.inputs),
    ("outputs", Description.numbers runtime.outputs), ("memory", Description.memory runtime.memory),
    ("baked", Description.truth runtime.component.isSome)]

end NodeRuntime
end SignalBoard
