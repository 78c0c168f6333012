import SignalBoard.Tick.Advance
/-!
# Sessions

A session is a board that runs in wire time. The board is analysed once, at the beginning; after
that the session goes through its ids in the order that was found, through the live ones alone
unless it is told otherwise.
-/

namespace SignalBoard

/-- How a session is run. -/
structure SessionConfig where
  /-- Whether only the ids on a way from an outside input to an outside output are called. -/
  skipDeadNodes : Bool
deriving DecidableEq

namespace SessionConfig

def default : SessionConfig := ⟨true⟩

end SessionConfig

/-- A board that runs in wire time. -/
structure Session where
  nodes : NodeMap
  now : WireTime
  analysis : Analysis
  config : SessionConfig

namespace Session

/-- Opens a session on a board, the circuits of a library being attached to the composite nodes. -/
def start (board : Board) (config : SessionConfig) (library : Library) : Except LoopError Session :=
  -- a session has no declared ports
  (board.analyse board.inferredPorts).map fun analysis =>
    ⟨board.nodes, ⟨board.wires, .ofNodesWith board.nodes library⟩, analysis, config⟩

/-- Puts a value on an outside input, which fires on the next tick. -/
def inject (session : Session) (index : UInt64) (value : Binary64) : Session :=
  { session with now := { session.now with state := session.now.state.inject index value } }

/-- Has a component called in place of a node. -/
def attach (session : Session) (id : NodeId) (component : Component) : Session :=
  { session with now := { session.now with state := session.now.state.attach id component } }

/-- The order in which a session goes through the ids. -/
def order (session : Session) : List NodeId :=
  if session.config.skipDeadNodes then session.analysis.live else session.analysis.order

def advance (session : Session) : Session :=
  { session with now := session.now.advance session.nodes session.order }

def advanceBy (session : Session) : Nat → Session
  | 0 => session
  | n + 1 => session.advance.advanceBy n

/-- The value that has last reached an outside output. -/
def outputValue (session : Session) (index : UInt64) : Binary64 :=
  match session.now.state.runtime? (.output index) with
  | some runtime => Signal.valueAt runtime.inputs 0
  | none => .zero

/-- The values that have last reached the outside outputs. -/
def outputValues (session : Session) : List Binary64 :=
  (List.range session.analysis.ports.outputs.toNat).map fun n =>
    session.outputValue (UInt64.ofNat n)

end Session
end SignalBoard
