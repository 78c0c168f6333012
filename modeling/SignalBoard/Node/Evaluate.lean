import SignalBoard.Node.Memory
/-!
# What nodes compute

One call of a node takes a value per input port and its memory, and gives exactly as many signals as
the node has output ports, and its memory after the call. Inputs are clamped before they are used
and outputs before they leave, so nothing but signals is ever kept or passed on. Composite and
unknown kinds have no rule of their own and give zeros.
-/

namespace SignalBoard
namespace NodeKind

/-- The crossfade of two values, `ratio` percent of the second one. -/
def crossfade (ratio a b : Binary64) : Binary64 :=
  let share := ratio.clamp .zero 100 / 100
  a * (1 - share) + b * share

/-- The full signal of the value's sign if the value lies beyond the level. -/
def gate (level a : Binary64) : Binary64 :=
  let bound := level.clamp .zero Signal.highest
  if bound < a then Signal.highest else if a < -bound then Signal.lowest else .zero

/-- The first value in percent of the second one; a zero divisor gives the full signal of the
dividend's sign. -/
def quotient (a b : Binary64) : Binary64 :=
  if b.isZero then Signal.saturate a else 100 * a / b

/-- What a node of a kind without memory computes from its clamped inputs, before it is fitted to
the ports. -/
def combine (kind : NodeKind) (params : Params) (inputs : List Binary64) (outputCount : Nat) :
    List Binary64 :=
  let a := Signal.valueAt inputs 0
  let b := Signal.valueAt inputs 1
  match kind with
  | invert => [-a]
  | multiply => [a * b / 100]
  | mix => [crossfade (params.number "ratio" 50) a b]
  | threshold => [gate (params.number "level" 50) a]
  | amp => [a * (1 + b / 100)]
  | offset => [a + b]
  | polarizer => [Signal.saturate a]
  | diverter => [a / 2, a / 2]
  | duplicate => List.replicate outputCount a
  -- the order of the ports matters to the rounding of the sum
  | average =>
    if inputs.isEmpty then [] else [inputs.foldl (· + ·) .zero / Binary64.ofNat inputs.length]
  | max => match inputs with
    | [] => []
    | x :: xs => [xs.foldl Binary64.larger x]
  | min => match inputs with
    | [] => []
    | x :: xs => [xs.foldl Binary64.smaller x]
  | divide => [quotient a b]
  | connectionInput | connectionOutput => [a]
  -- memory and delay are seen to by their memory; the others give zeros
  | memory | delay | puzzle _ | utility _ | unknown _ => []

/-- One call of a node: its outputs and its memory afterwards. -/
def evaluate (kind : NodeKind) (params : Params) (inputs : List Binary64) (outputCount : Nat)
    (memory : NodeMemory) : List Binary64 × NodeMemory :=
  let clamped := inputs.map Signal.clamp
  if kind.isStateful then
    -- only the first input counts, zero where there is none
    let (out, after) := (memory.fitted kind params).shift (Signal.valueAt clamped 0)
    (Signal.fit outputCount [Signal.clamp out], after)
  else
    (Signal.fit outputCount ((kind.combine params clamped outputCount).map Signal.clamp), memory)

end NodeKind
end SignalBoard
