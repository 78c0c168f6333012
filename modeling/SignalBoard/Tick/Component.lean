import SignalBoard.Circuit.Evaluator
/-!
# Components

Whatever maps one list of values to another per call can stand in for a node: a circuit's evaluator,
or any other device. What a device answers may depend on all the calls that it has had, so it is a
function of their inputs.
-/

namespace SignalBoard

/-- Something that answers calls. -/
inductive Component where
  | circuit (evaluator : Evaluator)
  /-- A device, with the inputs of the calls so far, the first one first. -/
  | device (respond : List (List Binary64) → List Binary64) (calls : List (List Binary64))

namespace Component

/-- One call: the answer, and the component afterwards. -/
def call (component : Component) (inputs : List Binary64) : List Binary64 × Component :=
  match component with
  | circuit e =>
    let (outputs, e) := e.evaluate inputs
    (outputs, circuit e)
  | device respond calls =>
    let calls := calls ++ [inputs]
    (respond calls, device respond calls)

/-- Resets a circuit; a device has nothing to forget. -/
def reset : Component → Component
  | circuit e => circuit e.reset
  | device respond calls => device respond calls

end Component
end SignalBoard
