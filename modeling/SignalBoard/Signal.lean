import SignalBoard.Binary64.Arithmetic
/-!
# Signals

What flows over a board is a number from -100 to 100. Whatever is to become a signal goes through
`Signal.clamp`, which also takes care of NaN and of the negative zero.
-/

namespace SignalBoard
namespace Signal

/-- The lowest value that a signal can have. -/
def lowest : Binary64 := -100

/-- The highest value that a signal can have. -/
def highest : Binary64 := 100

/-- The signal nearest to a number. NaN and the negative zero become zero. -/
def clamp (x : Binary64) : Binary64 :=
  -- bounds alone would let a NaN and the negative zero through
  if x.isNaN || x.isZero then .zero else x.clamp lowest highest

/-- The full signal of a number's sign; zero for a zero or NaN. -/
def saturate (x : Binary64) : Binary64 :=
  if .zero < x then highest else if x < .zero then lowest else .zero

/-- The value on a port, zero where there is no such port. -/
def valueAt (ports : List Binary64) (port : Nat) : Binary64 :=
  ports.getD port .zero

/-- Exactly `count` values: what is too many is cut off and what is missing is zero. -/
def fit (count : Nat) (ports : List Binary64) : List Binary64 :=
  ports.take count ++ List.replicate (count - ports.length) .zero

@[simp] theorem length_fit (count : Nat) (ports : List Binary64) :
    (fit count ports).length = count := by
  simp only [fit, List.length_append, List.length_take, List.length_replicate]
  omega

end Signal
end SignalBoard
