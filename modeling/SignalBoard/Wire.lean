import SignalBoard.Node.Id
import SignalBoard.Binary64.Basic
/-!
# Wires

A wire leads from an output port of one node to an input port of another one. In wire time it also
carries signals, each with the number of ticks that it still has to travel.
-/

namespace SignalBoard

/-- How many ticks make up one transit step. -/
def ticksPerStep : UInt32 := 16

/-- The ticks in a number of transit steps, or the largest number of ticks where there are more. -/
def stepsToTicks (steps : UInt32) : UInt32 :=
  UInt32.ofNat (Nat.min (steps.toNat * ticksPerStep.toNat) (UInt32.size - 1))

/-- The name of a wire. -/
structure WireId where
  text : String
deriving DecidableEq

/-- Which side of a node a port is on. -/
inductive PortSide where
  | input
  | output
deriving DecidableEq

/-- One port of one node. -/
structure PortRef where
  node : NodeId
  port : UInt64
  side : PortSide
deriving DecidableEq

/-- A value on its way along a wire. -/
structure InFlightSignal where
  value : Binary64
  ticksRemaining : UInt32
deriving DecidableEq

/-- A connection from an output port to an input port. -/
structure Wire where
  id : WireId
  source : PortRef
  target : PortRef
  /-- The ticks that a signal needs to travel along the wire. -/
  delay : UInt32
  /-- What is under way, oldest first. -/
  signals : List InFlightSignal
deriving DecidableEq

namespace Wire

/-- An empty wire between two ports with the delay of one transit step. -/
def between (id : WireId) (source : NodeId) (sourcePort : UInt64) (target : NodeId)
    (targetPort : UInt64) : Wire :=
  ⟨id, ⟨source, sourcePort, .output⟩, ⟨target, targetPort, .input⟩, ticksPerStep, []⟩

def withDelay (wire : Wire) (ticks : UInt32) : Wire :=
  { wire with delay := ticks }

/-- Sends a value off, behind everything that is under way. -/
def send (wire : Wire) (value : Binary64) : Wire :=
  { wire with signals := wire.signals ++ [⟨value, wire.delay⟩] }

/-- The nodes at the two ends. -/
def ends (wire : Wire) : NodeId × NodeId :=
  (wire.source.node, wire.target.node)

end Wire
end SignalBoard
