/-!
# Node kinds

The kind of a node says how it turns inputs into outputs. A kind is stored as its type text. Two
kinds have a second type text that is read but never written; a text that names no kind is kept as
it is.
-/

namespace SignalBoard

/-- What a node does. -/
inductive NodeKind where
  /-- The input with the other sign. -/
  | invert
  /-- The product of two inputs, by hundred. -/
  | multiply
  /-- A crossfade between two inputs. -/
  | mix
  /-- The full signal of the input's sign once it passes a level. -/
  | threshold
  /-- The first input, raised by as many percent as the second one says. -/
  | amp
  /-- The sum of two inputs. -/
  | offset
  /-- The full signal of the input's sign. -/
  | polarizer
  /-- Two halves of the input. -/
  | diverter
  /-- The input of the previous call. -/
  | memory
  /-- The input of some calls ago. -/
  | delay
  /-- The input on every output port. -/
  | duplicate
  | average
  | max
  | min
  /-- The first input in percent of the second one. -/
  | divide
  | connectionInput
  | connectionOutput
  /-- A solved puzzle used as a node. -/
  | puzzle (reference : String)
  /-- A saved utility board used as a node. -/
  | utility (reference : String)
  /-- A type text that names no kind. -/
  | unknown (text : String)
deriving DecidableEq

namespace NodeKind

/-- How the type texts of puzzles begin. -/
def puzzleMark : String := "puzzle:"

/-- How the type texts of utilities begin. -/
def utilityMark : String := "utility:"

/-- The type text of a kind. -/
def text : NodeKind → String
  | invert => "invert"
  | multiply => "multiply"
  | mix => "mix"
  | threshold => "threshold"
  | amp => "amp"
  | offset => "offset"
  | polarizer => "polarizer"
  | diverter => "diverter"
  | memory => "memory"
  | delay => "delay"
  | duplicate => "duplicate"
  | average => "average"
  | max => "max"
  | min => "min"
  | divide => "divide"
  | connectionInput => "connection-input"
  | connectionOutput => "connection-output"
  | puzzle reference => puzzleMark ++ reference
  | utility reference => utilityMark ++ reference
  | unknown text => text

/-- The kind of a type text that is not the name of a built-in kind. -/
def ofReference (text : String) : NodeKind :=
  match puzzleMark.toList.isPrefixOf? text.toList with
  | some cs => puzzle (String.ofList cs)
  | none =>
    match utilityMark.toList.isPrefixOf? text.toList with
    | some cs => utility (String.ofList cs)
    | none => unknown text

/-- The kind that a type text names. -/
def ofText (text : String) : NodeKind :=
  match text with
  | "invert" | "negate" => invert
  | "multiply" | "scale" => multiply
  | "mix" => mix
  | "threshold" => threshold
  | "amp" => amp
  | "offset" => offset
  | "polarizer" => polarizer
  | "diverter" => diverter
  | "memory" => memory
  | "delay" => delay
  | "duplicate" => duplicate
  | "average" => average
  | "max" => max
  | "min" => min
  | "divide" => divide
  | "connection-input" => connectionInput
  | "connection-output" => connectionOutput
  | text => ofReference text

/-- How many input ports a new node of a kind has. -/
def defaultInputs : NodeKind → UInt64
  | invert | threshold | polarizer | memory | delay | diverter | duplicate | connectionOutput => 1
  | multiply | mix | amp | offset | average | max | min | divide => 2
  | connectionInput | puzzle _ | utility _ | unknown _ => 0

/-- How many output ports a new node of a kind has. -/
def defaultOutputs : NodeKind → UInt64
  | diverter | duplicate => 2
  | connectionOutput | puzzle _ | utility _ | unknown _ => 0
  | _ => 1

/-- Whether a node of the kind carries something from one call to the next. -/
def isStateful : NodeKind → Bool
  | memory | delay => true
  | _ => false

/-- Whether a node of the kind stands for a board of its own. -/
def isComposite : NodeKind → Bool
  | puzzle _ | utility _ => true
  | _ => false

end NodeKind
end SignalBoard
