import SignalBoard.Tick.State
/-!
# Advancing by a tick

In a tick all signals under way come one tick closer, those that have arrived are delivered, and
then the nodes that have been triggered are called in the given order and put their outputs on their
wires. A wire without delay delivers at once, so that its target is still called in the same tick if
it comes later in the order.
-/

namespace SignalBoard

namespace InFlightSignal

/-- One tick closer. -/
def age (signal : InFlightSignal) : InFlightSignal :=
  { signal with
    -- a stored signal may have no tick left: it does not wrap around, and arrives
    ticksRemaining := if signal.ticksRemaining = 0 then 0 else signal.ticksRemaining - 1 }

def hasArrived (signal : InFlightSignal) : Bool :=
  signal.ticksRemaining = 0

end InFlightSignal

namespace Wire

/-- All signals one tick closer. -/
def age (wire : Wire) : Wire :=
  { wire with signals := wire.signals.map InFlightSignal.age }

/-- The values that have arrived, oldest first. -/
def arrivals (wire : Wire) : List Binary64 :=
  -- stored signals need not be in the order of their arrival
  (wire.signals.filter InFlightSignal.hasArrived).map (·.value)

/-- The wire without the signals that have arrived. -/
def clearArrivals (wire : Wire) : Wire :=
  { wire with signals := wire.signals.filter fun signal => !signal.hasArrived }

end Wire

/-- The wires and the state of a board that runs in wire time. -/
structure WireTime where
  wires : List Wire
  state : TickState

namespace WireTime

/-- Brings all signals one tick closer and delivers those that have arrived, wire by wire. -/
def arrive (nodes : NodeMap) (now : WireTime) : WireTime :=
  let wires := now.wires.map Wire.age
  { wires := wires.map Wire.clearArrivals
    state := wires.foldl
      (fun state wire => wire.arrivals.foldl (TickState.deliver nodes wire.target) state)
      now.state }

/-- Puts the outputs of a call on the wire at a place. -/
def emit (nodes : NodeMap) (outputs : List Binary64) (now : WireTime) (place : Nat) : WireTime :=
  match now.wires[place]? with
  -- not reached within a tick, where the table fits the wires
  | none => now
  | some wire =>
    let value := Signal.valueAt outputs wire.source.port.toNat
    -- without delay a node further on in the order sees the value in this tick
    if wire.delay = 0 then { now with state := now.state.deliver nodes wire.target value }
    else { now with wires := now.wires.set place (wire.send value) }

/-- Calls an id if it has been triggered, and puts its outputs on its wires. -/
def visit (nodes : NodeMap) (now : WireTime) (id : NodeId) : WireTime :=
  if id ∈ now.state.triggered then
    let state := now.state.fire nodes id
    -- the id has a runtime from its call on
    let outputs := match state.runtime? id with
      | some runtime => runtime.outputs
      | none => []
    (state.fanout.of id).foldl (emit nodes outputs) { now with state }
  else now

/-- One tick. Ids that are not in the order are never called. -/
def advance (nodes : NodeMap) (order : List NodeId) (now : WireTime) : WireTime :=
  let now := arrive nodes { now with state := { now.state with tick := now.state.tick + 1 } }
  -- the wires may have been replaced since the last tick
  let now := { now with state := { now.state with fanout := now.state.fanout.refresh now.wires } }
  let now := order.foldl (visit nodes) now
  -- what was triggered after its turn, or has no turn, is dropped
  { now with state := { now.state with triggered := [] } }

/-- So many ticks. -/
def advanceBy (nodes : NodeMap) (order : List NodeId) : Nat → WireTime → WireTime
  | 0, now => now
  | n + 1, now => advanceBy nodes order n (advance nodes order now)

end WireTime
end SignalBoard
