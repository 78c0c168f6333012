import SignalBoard.Board.Basic
import SignalBoard.Circuit.Bake
import SignalBoard.Tick.Component
/-!
# The state of a board in wire time

While a board runs tick by tick, every node keeps the values that have last been delivered to its
input ports, the outputs of its last call and its memory. A node is triggered by a delivery or an
injection and stays so until the end of the tick. All values that are kept have been clamped.
-/

namespace SignalBoard

/-- What a node keeps from tick to tick. -/
structure NodeRuntime where
  inputs : List Binary64
  outputs : List Binary64
  memory : NodeMemory
  /-- What is called in place of the node's own rule. -/
  component : Option Component

namespace NodeRuntime

/-- Nothing delivered and never called. -/
def idle (inputs outputs : Nat) (memory : NodeMemory) : NodeRuntime :=
  ⟨List.replicate inputs .zero, List.replicate outputs .zero, memory, none⟩

def ofNode (node : Node) : NodeRuntime :=
  idle node.inputCount.toNat node.outputCount.toNat (.fresh node.kind node.params)

/-- The first runtime of an id. A connection point that is not among the nodes passes one value
through. -/
def ofId (nodes : NodeMap) (id : NodeId) : NodeRuntime :=
  match nodes.get? id with
  | some node => ofNode node
  | none => if id.isConnectionPoint then idle 1 1 .stateless else idle 0 0 .stateless

/-- Puts a value on the first input port, which is there in any case afterwards. -/
def inject (runtime : NodeRuntime) (value : Binary64) : NodeRuntime :=
  { runtime with inputs := Signal.clamp value :: runtime.inputs.drop 1 }

/-- One call on the values of the input ports. A component comes first, then the rule of the node;
an id that is not among the nodes passes on what is on its first port. -/
def fire (runtime : NodeRuntime) (node : Option Node) : NodeRuntime :=
  match runtime.component, node with
  | some component, _ =>
    -- without a node the runtime says how many output ports there are
    let count := match node with
      | some node => node.outputCount.toNat
      | none => runtime.outputs.length
    let (produced, component) := component.call runtime.inputs
    { runtime with
      outputs := Signal.fit count (produced.map Signal.clamp)
      component := some component }
  | none, some node =>
    let (produced, memory) :=
      node.kind.evaluate node.params runtime.inputs node.outputCount.toNat runtime.memory
    { runtime with outputs := produced, memory }
  | none, none =>
    { runtime with outputs := Signal.fit runtime.outputs.length (runtime.inputs.take 1) }

end NodeRuntime

/-- The wires that lead out of each node, by their place in the list of wires. -/
structure Fanout where
  /-- The source of every wire, when the table was made. -/
  sources : List NodeId
  places : OrderedMap NodeId (List Nat)

namespace Fanout

def empty : Fanout := ⟨[], .empty⟩

/-- Enters the wire at a place. -/
def add (fanout : Fanout) (source : NodeId) : Fanout :=
  let place := fanout.sources.length
  { sources := fanout.sources ++ [source]
    places := fanout.places.insert source ((fanout.places.get? source).getD [] ++ [place]) }

def ofWires (wires : List Wire) : Fanout :=
  wires.foldl (fun fanout wire => fanout.add wire.source.node) empty

/-- The table for the wires as they are now, made anew only if their sources have changed. -/
def refresh (fanout : Fanout) (wires : List Wire) : Fanout :=
  -- targets and delays are not in the table: they are read off the wires
  if fanout.sources = wires.map (·.source.node) then fanout else ofWires wires

/-- The places of the wires out of a node. -/
def of (fanout : Fanout) (id : NodeId) : List Nat :=
  (fanout.places.get? id).getD []

end Fanout

/-- All that a board keeps from tick to tick, its wires apart. -/
structure TickState where
  runtimes : OrderedMap NodeId NodeRuntime
  triggered : List NodeId
  fanout : Fanout
  /-- The number of ticks so far. Nothing that a tick does depends on it: it is shown, and it is the
  clock by which firings are dated. So it is a plain number, of which there is no last one. -/
  tick : Nat

namespace TickState

/-- Before the first tick, with the nodes on their own. -/
def ofNodes (nodes : NodeMap) : TickState :=
  ⟨nodes.mapValues NodeRuntime.ofNode, [], .empty, 0⟩

def runtime? (state : TickState) (id : NodeId) : Option NodeRuntime :=
  state.runtimes.get? id

def setRuntime (state : TickState) (id : NodeId) (runtime : NodeRuntime) : TickState :=
  { state with runtimes := state.runtimes.insert id runtime }

/-- Has a component called in place of a node. The state stays as it is if it does not know the
node. -/
def attach (state : TickState) (id : NodeId) (component : Component) : TickState :=
  match state.runtime? id with
  | some runtime => state.setRuntime id { runtime with component := some component }
  | none => state

/-- Attaches the circuit that a library holds for a composite node. -/
def attachFrom (library : Library) (state : TickState) (entry : NodeId × Node) : TickState :=
  let (id, node) := entry
  if node.kind.isComposite then
    match library.get? node.kind.text with
    | some circuit => state.attach id (.circuit (.ofCircuit circuit))
    | none => state
  else state

/-- Before the first tick, with the circuits of a library attached to the composite nodes. -/
def ofNodesWith (nodes : NodeMap) (library : Library) : TickState :=
  nodes.entries.foldl (attachFrom library) (ofNodes nodes)

def trigger (state : TickState) (id : NodeId) : TickState :=
  if id ∈ state.triggered then state else { state with triggered := state.triggered ++ [id] }

/-- Puts a value on an outside input, which fires on the next tick. -/
def inject (state : TickState) (index : UInt64) (value : Binary64) : TickState :=
  let id := NodeId.input index
  -- an index that the board does not mention gets a runtime of its own
  let runtime := (state.runtime? id).getD (.idle 1 1 .stateless)
  (state.setRuntime id (runtime.inject value)).trigger id

/-- The runtime of an id, the first one if it has none yet. -/
def runtime (state : TickState) (nodes : NodeMap) (id : NodeId) : NodeRuntime :=
  (state.runtime? id).getD (.ofId nodes id)

/-- Delivers a value to a port and triggers its node. A value for a port that is not there gets
lost. -/
def deliver (nodes : NodeMap) (target : PortRef) (state : TickState) (value : Binary64) :
    TickState :=
  let runtime := state.runtime nodes target.node
  if target.port.toNat < runtime.inputs.length then
    let inputs := runtime.inputs.set target.port.toNat (Signal.clamp value)
    (state.setRuntime target.node { runtime with inputs }).trigger target.node
  -- even so the node has a runtime from now on
  else state.setRuntime target.node runtime

/-- Calls a node. -/
def fire (nodes : NodeMap) (state : TickState) (id : NodeId) : TickState :=
  state.setRuntime id ((state.runtime nodes id).fire (nodes.get? id))

end TickState
end SignalBoard
