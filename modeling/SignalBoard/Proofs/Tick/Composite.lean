import SignalBoard.Proofs.Board.Composite
import SignalBoard.Proofs.Board.WellFormed
import SignalBoard.Proofs.Tick.Reordering

/-!
# Composite nodes in wire time

In wire time a composite node is called whenever it has been triggered, in no fixed rhythm. Again
the evaluator that the library has put behind it is called once with every call of the node and in
no other way, on what the ports of the node hold then. So both ways of running a board do the same
with a composite node: they play one evaluator of its circuit on what comes to its ports.

```lean
theorem playing_visitAll (h : (now.state.runtime nodes id).Playing c count log) … :
    ((order.foldl (visit nodes) now).state.runtime nodes id).Playing c count
      (log ++ callsOf nodes id order now)
```

* `WireTime.callsOf`, `callsThroughout`: what a node is called on and gives out, call by call.
* `NodeRuntime.Playing`: where some calls have brought the runtime of a composite node.
* `Board.composites`: composite nodes when a board is baked, in wire time, and inside each other.
-/

namespace SignalBoard

open Evaluator Signal

/-! ## The runtime of a composite node -/

/-- The last answer comes after the calls before it. -/
theorem Evaluator.answers_concat (e : Evaluator) (past : List (List Binary64))
    (inputs : List Binary64) :
    e.answers (past ++ [inputs]) = e.answers past ++ [((e.after past).evaluate inputs).1] := by
  induction past generalizing e with
  | nil => rfl
  | cons first rest ih =>
    rw [List.cons_append, answers, answers, ih, List.cons_append]
    rfl

variable {c : Circuit} {count : Nat} {log : List (List Binary64 × List Binary64)}

/-- One more call. -/
theorem Circuit.Plays.concat (h : c.Plays count log) (inputs : List Binary64) :
    c.Plays count (log ++ [(inputs,
      fit count ((((ofCircuit c).after (log.map Prod.fst)).evaluate inputs).1.map clamp))]) := by
  unfold Circuit.Plays at h ⊢
  simp only [List.map_append, List.map_cons, List.map_nil]
  rw [h, answers_concat, List.map_append, List.map_cons, List.map_nil]

namespace NodeRuntime

/-- Where some calls have brought the runtime of a composite node: an evaluator of the circuit has
had the same calls, its answers are what the node has given out, and the last one is still there. -/
structure Playing (c : Circuit) (count : Nat) (log : List (List Binary64 × List Binary64))
    (runtime : NodeRuntime) : Prop where
  component : runtime.component = some (.circuit ((ofCircuit c).after (log.map Prod.fst)))
  outputs : runtime.outputs = (log.map Prod.snd).getLastD (List.replicate count .zero)
  plays : c.Plays count log

variable {runtime : NodeRuntime}

/-- What comes to the ports in between does not matter. -/
theorem Playing.holding_inputs (h : runtime.Playing c count log) (inputs : List Binary64) :
    ({ runtime with inputs } : NodeRuntime).Playing c count log :=
  ⟨h.component, h.outputs, h.plays⟩

/-- **A call of a composite node is one call of the evaluator behind it.** -/
theorem Playing.fire (h : runtime.Playing c count log) {node : Node}
    (hcount : node.outputCount.toNat = count) : (runtime.fire (some node)).Playing c count
      (log ++ [(runtime.inputs, (runtime.fire (some node)).outputs)]) := by
  obtain ⟨inputs, outputs, memory, component⟩ := runtime
  obtain ⟨hcomponent, houtputs, hplays⟩ := h
  -- there is a circuit behind the node, so the call goes to its evaluator and nowhere else
  obtain rfl : component = _ := hcomponent
  subst hcount
  refine ⟨?_, ?_, hplays.concat inputs⟩
  · rw [List.map_append]
    exact congrArg (some ∘ Component.circuit) (after_concat _ _ _).symm
  · rw [List.map_append, List.map_cons, List.map_nil, List.getLastD_concat]

end NodeRuntime

/-! ## Calls in wire time -/

/-- Whether something else is called in place of a given id from a move on. -/
def Move.attaches (id : NodeId) : Move → Bool
  | attach target _ => target = id
  | _ => false

namespace WireTime

open TickState

variable {nodes : NodeMap} {library : Library} {id : NodeId} {node : Node} {now : WireTime}

/-- What an id is called on and gives out while ids are visited. -/
def callsOf (nodes : NodeMap) (id : NodeId) :
    List NodeId → WireTime → List (List Binary64 × List Binary64)
  | [], _ => []
  | first :: rest, now =>
    if first = id ∧ id ∈ now.state.triggered then
      let runtime := now.state.runtime nodes id
      (runtime.inputs, (runtime.fire (nodes.get? id)).outputs)
        :: callsOf nodes id rest (now.visit nodes first)
    else callsOf nodes id rest (now.visit nodes first)

/-- What an id is called on and gives out in a move: nothing but a tick calls it. -/
def callsDuring (nodes : NodeMap) (id : NodeId) (now : WireTime) :
    Move → List (List Binary64 × List Binary64)
  | .tick order => callsOf nodes id order (now.opened nodes)
  | _ => []

/-- What an id is called on and gives out in one move after the other. -/
def callsThroughout (nodes : NodeMap) (id : NodeId) :
    WireTime → List Move → List (List Binary64 × List Binary64)
  | _, [] => []
  | now, move :: rest =>
    callsDuring nodes id now move ++ callsThroughout nodes id (now.undergo nodes move) rest

theorem callsThroughout_concat (nodes : NodeMap) (id : NodeId) (start : WireTime)
    (moves : List Move) (move : Move) : callsThroughout nodes id start (moves ++ [move])
      = callsThroughout nodes id start moves
        ++ callsDuring nodes id (course nodes start moves) move := by
  induction moves generalizing start with
  | nil => exact List.append_nil _
  | cons first rest ih =>
    rw [List.cons_append, callsThroughout, callsThroughout, ih, List.append_assoc]
    rfl

/-- Visits take a composite node through the calls that it gets in them. -/
theorem playing_visitAll {order : List NodeId} (hnode : nodes.get? id = some node)
    (hcount : node.outputCount.toNat = count) (hfanout : now.state.fanout.UpToDate now.wires)
    (h : (now.state.runtime nodes id).Playing c count log) :
    ((order.foldl (visit nodes) now).state.runtime nodes id).Playing c count
      (log ++ callsOf nodes id order now) := by
  -- by induction on the visits, the first one first, with the log growing by what it calls
  induction order generalizing now log with
  | nil =>
    rw [callsOf, List.append_nil]
    exact h
  | cons first rest ih =>
    have hrest := upToDate_visit nodes first hfanout
    rw [List.foldl_cons, callsOf]
    by_cases htriggered : first ∈ now.state.triggered
    · have hruntime := runtime_visit nodes htriggered hfanout id
      simp only at hruntime
      by_cases hfirst : first = id
      · -- its own turn, and its call is the next of the log
        subst hfirst
        rw [if_pos ⟨rfl, htriggered⟩, List.append_cons]
        refine ih hrest ?_
        rw [hruntime, if_pos rfl, hnode]
        exact (h.fire hcount).holding_inputs _
      · -- somebody else may put something on its ports, but does not get at what is behind them
        rw [if_neg fun hboth => hfirst hboth.1]
        refine ih hrest ?_
        rw [hruntime, if_neg fun heq => hfirst heq.symm]
        exact h.holding_inputs _
    · have hnot : ¬ (first = id ∧ id ∈ now.state.triggered) := fun hboth =>
        htriggered (hboth.1 ▸ hboth.2)
      rw [if_neg hnot]
      refine ih hrest ?_
      rw [visit_of_not_triggered htriggered]
      exact h

/-- What a move does to the runtime of a composite node, as long as nothing else takes its place. -/
theorem playing_undergo (hnode : nodes.get? id = some node)
    (hcount : node.outputCount.toNat = count) (hknows : now.state.Knows nodes)
    (hreachable : now.state.Reachable) (h : (now.state.runtime nodes id).Playing c count log)
    {move : Move} (hmove : move.attaches id = false) :
    ((now.undergo nodes move).state.runtime nodes id).Playing c count
      (log ++ callsDuring nodes id now move) := by
  -- only a tick calls the node; of the other moves an injection may change its inputs, and an
  -- attachment is about another id
  cases move with
  | inject index value =>
    show ((now.state.inject index value).runtime nodes id).Playing c count (log ++ [])
    rw [List.append_nil, runtime_inject hknows]
    split
    · next heq =>
      subst heq
      exact h.holding_inputs _
    · exact h
  | attach target component =>
    have hne : id ≠ target := fun heq => by simp [Move.attaches, heq] at hmove
    show ((now.state.attach target component).runtime nodes id).Playing c count (log ++ [])
    rw [List.append_nil, TickState.runtime, runtime?_attach, if_neg hne]
    exact h
  | send place value =>
    show (now.state.runtime nodes id).Playing c count (log ++ [])
    rwa [List.append_nil]
  | rewire wires =>
    show (now.state.runtime nodes id).Playing c count (log ++ [])
    rwa [List.append_nil]
  | tick order =>
    have hopened : ((now.opened nodes).state.runtime nodes id).Playing c count log := by
      rw [runtime_opened]
      exact h.holding_inputs _
    exact playing_visitAll hnode hcount (upToDate_opened nodes hreachable.wellFormed) hopened

/-- Whatever the moves are, the state can be reached. -/
theorem reachable_course (nodes : NodeMap) {start : WireTime} (h : start.state.Reachable)
    (moves : List Move) : (course nodes start moves).state.Reachable := by
  induction moves using List.reverseRecOn with
  | nil => exact h
  | append_singleton moves move ih =>
    rw [course_concat]
    exact reachable_undergo ih nodes move

/-- A composite node in wire time, the last move first. -/
theorem playing_course (hnode : nodes.get? id = some node)
    (hcircuit : node.resolved? library = some c) (wires : List Wire) {moves : List Move}
    (hmoves : ∀ move ∈ moves, move.attaches id = false) :
    let start : WireTime := ⟨wires, .ofNodesWith nodes library⟩
    ((course nodes start moves).state.runtime nodes id).Playing c node.outputCount.toNat
      (callsThroughout nodes id start moves) := by
  intro start
  induction moves using List.reverseRecOn with
  | nil =>
    have hfirst : start.state.runtime nodes id = firstRuntime library node := by
      rw [runtime_ofNodesWith, hnode]
    refine ⟨?_, ?_, rfl⟩
    · show (start.state.runtime nodes id).component = _
      rw [hfirst, firstRuntime, hcircuit]
      rfl
    · show (start.state.runtime nodes id).outputs = _
      rw [hfirst]
      rfl
  | append_singleton moves move ih =>
    rw [course_concat, callsThroughout_concat]
    have hknows := (upkept_anywhere nodes library wires moves).state.knows
    have hreachable : (course nodes start moves).state.Reachable :=
      reachable_course nodes (.ofNodesWith nodes library) moves
    exact playing_undergo hnode rfl hknows hreachable
      (ih fun other hother => hmoves other (List.mem_append_left _ hother))
      (hmoves move (List.mem_append_right _ List.mem_cons_self))

end WireTime

/-! ## Both ways of running a board -/

namespace Board

variable {board : Board} {library : Library} {id : NodeId} {node : Node} {c : Circuit}

/-- A composite node of a baked board. -/
theorem composite_bake {ports : PortCounts} {circuit : Circuit}
    (hbake : board.bake ports library = .ok circuit) (hnode : board.nodes.get? id = some node)
    (hcircuit : node.resolved? library = some c) (hordinary : ¬ id.isConnectionPoint)
    (hlast : (board.nodes.values.filter (·.id = id)).getLast? = some node)
    (sequence : List (List Binary64)) :
    let log := (ofCircuit circuit).record id sequence
    (∀ v ∈ log.map Prod.fst, v.length = node.inputCount.toNat) ∧
      c.Plays node.outputCount.toNat log ∧
      ((ofCircuit circuit).after sequence).holdingOf id
        = .inner ((ofCircuit c).after (log.map Prod.fst)) := by
  obtain ⟨analysis, hanalysis, rfl⟩ := exists_analyse_of_bake hbake
  -- of the nodes that say they have the id the last one has been planned
  have hembeds :=
    embeds_ofCircuit (composite?_circuitOf hanalysis hnode hcircuit hordinary hlast)
  obtain ⟨hafter, hgiven⟩ := hembeds.after (slots_ofCircuit _) sequence
  have hlength := hembeds.length_record sequence
  obtain ⟨-, -, hinputs, houtputs⟩ := resolve_ports library node
  rw [houtputs] at hgiven
  rw [hinputs] at hlength
  exact ⟨hlength, hgiven, hafter.holdingOf⟩

/-- **Composite nodes are private copies of their circuits.** Whatever the board around it does, a
composite node gives out what one evaluator of its circuit answers that has been called on what has
come to its ports, one call after the other, and nothing else. That holds of a baked board, if the
id of the node is an ordinary one and no node after it says that it has the same id, and in wire
time, however often and by whatever the node is called, as long as nothing is attached in its place.
It goes on inside the circuit: each evaluator in there is where the calls on what has come to its
own node have brought it, so that no two of them ever meet. -/
theorem composites (hnode : board.nodes.get? id = some node)
    (hcircuit : node.resolved? library = some c) :
    (∀ ports circuit, board.bake ports library = .ok circuit → ¬ id.isConnectionPoint →
      (board.nodes.values.filter (·.id = id)).getLast? = some node → ∀ sequence,
      let log := (ofCircuit circuit).record id sequence
      (∀ v ∈ log.map Prod.fst, v.length = node.inputCount.toNat) ∧
        c.Plays node.outputCount.toNat log ∧
        ((ofCircuit circuit).after sequence).holdingOf id
          = .inner ((ofCircuit c).after (log.map Prod.fst))) ∧
    (∀ moves, (∀ move ∈ moves, move.attaches id = false) →
      let start : WireTime := ⟨board.wires, .ofNodesWith board.nodes library⟩
      let log := WireTime.callsThroughout board.nodes id start moves
      let runtime := (WireTime.course board.nodes start moves).state.runtime board.nodes id
      c.Plays node.outputCount.toNat log ∧
        runtime.outputs
          = (log.map Prod.snd).getLastD (List.replicate node.outputCount.toNat .zero) ∧
        runtime.component = some (.circuit ((ofCircuit c).after (log.map Prod.fst)))) ∧
    ∀ sequence path d, c.at? path = some d →
      let gathered := (ofCircuit c).gatheredAlong path sequence
      ((ofCircuit c).after sequence).innerAt? path = some ((ofCircuit d).after gathered) ∧
        ∀ id' part d', d.composite? id' = some (part, d') →
          d'.Plays part.outputCount.toNat ((ofCircuit d).record id' gathered) := by
  -- the baked board, wire time, and all depths inside the circuit
  refine ⟨fun ports circuit hbake hordinary hlast sequence =>
    composite_bake hbake hnode hcircuit hordinary hlast sequence, fun moves hmoves => ?_,
    fun sequence path d hpath => ⟨innerAt?_after hpath sequence, fun id' part d' hcomposite => ?_⟩⟩
  · have hplaying := WireTime.playing_course hnode hcircuit board.wires hmoves
    exact ⟨hplaying.plays, hplaying.outputs, hplaying.component⟩
  · exact ((embeds_ofCircuit hcomposite).after (slots_ofCircuit d) _).2

/-- A value that is held back by one call. -/
def heldOnce : Circuit where
  order := [.input 0, ⟨"hold"⟩, .output 0]
  parts := [⟨⟨"hold"⟩, .memory, .empty, 1, 1, none⟩]
  edges := [⟨.input 0, 0, ⟨"hold"⟩, 0, some 16⟩, ⟨⟨"hold"⟩, 0, .output 0, 0, some 16⟩]
  inputCount := 1
  outputCount := 1

/-- A value that is held back twice, by two copies of the same circuit. -/
def heldTwice : Circuit where
  order := [.input 0, ⟨"first"⟩, ⟨"second"⟩, .output 0]
  parts := [⟨⟨"first"⟩, .puzzle "once", .empty, 1, 1, some heldOnce⟩,
    ⟨⟨"second"⟩, .puzzle "once", .empty, 1, 1, some heldOnce⟩]
  edges := [⟨.input 0, 0, ⟨"first"⟩, 0, some 16⟩, ⟨⟨"first"⟩, 0, ⟨"second"⟩, 0, some 16⟩,
    ⟨⟨"second"⟩, 0, .output 0, 0, some 16⟩]
  inputCount := 1
  outputCount := 1

def holders : Library := .ofList [("puzzle:twice", heldTwice)]

/-- Two nodes with the same circuit, one behind the other. -/
def twins : Board where
  nodes := .ofList [
    (⟨"left"⟩, (Node.ofKind ⟨"left"⟩ (.puzzle "twice")).withPorts 1 1),
    (⟨"right"⟩, (Node.ofKind ⟨"right"⟩ (.puzzle "twice")).withPorts 1 2)]
  wires := [
    (Wire.between ⟨"w1"⟩ (.input 0) 0 ⟨"left"⟩ 0).withDelay 0,
    (Wire.between ⟨"w2"⟩ ⟨"left"⟩ 0 ⟨"right"⟩ 0).withDelay 1,
    (Wire.between ⟨"w3"⟩ ⟨"right"⟩ 0 (.output 0) 0).withDelay 1]

/-- The second one is called on what the first one has given out, and not more often than that. -/
theorem composites_twins :
    let node := (Node.ofKind ⟨"right"⟩ (.puzzle "twice")).withPorts 1 2
    let order : List NodeId := [.input 0, ⟨"left"⟩, ⟨"right"⟩, .output 0]
    let moves : List Move := [.inject 0 10, .tick order, .tick order, .inject 0 20, .tick order,
      .inject 0 30, .tick order, .tick order]
    let start : WireTime := ⟨twins.wires, .ofNodesWith twins.nodes holders⟩
    twins.nodes.get? ⟨"right"⟩ = some node ∧ node.resolved? holders = some heldTwice ∧
      (∃ circuit, twins.bake ⟨1, 1⟩ holders = .ok circuit ∧
        heldTwice.Plays 2 ((ofCircuit circuit).record ⟨"right"⟩ [[10], [20], [30], [40], [50]])) ∧
      (∀ move ∈ moves, move.attaches ⟨"right"⟩ = false) ∧
      ((WireTime.course twins.nodes start moves).state.runtime twins.nodes ⟨"right"⟩).component
        = some (.circuit ((ofCircuit heldTwice).after [[0], [0], [10]])) ∧
      ((ofCircuit heldTwice).after [[0], [0], [10]]).innerAt? [⟨"second"⟩]
        = some ((ofCircuit heldOnce).after [[0], [0], [0]]) := by
  intro node order moves start
  have hnode : twins.nodes.get? ⟨"right"⟩ = some node := rfl
  have hcircuit : node.resolved? holders = some heldTwice := rfl
  have hmoves : ∀ move ∈ moves, move.attaches ⟨"right"⟩ = false := by decide +kernel
  have hacyclic : (twins.digraph ⟨1, 1⟩).Acyclic := by decide +kernel
  have hordinary : ¬ (⟨"right"⟩ : NodeId).isConnectionPoint := by decide +kernel
  have hlast : (twins.nodes.values.filter (·.id = ⟨"right"⟩)).getLast? = some node := rfl
  obtain ⟨analysis, hanalysis⟩ := exists_analyse_iff.mpr hacyclic
  have hbake : twins.bake ⟨1, 1⟩ holders = .ok (twins.circuitOf holders analysis ⟨1, 1⟩) :=
    bake_of_analyse hanalysis
  obtain ⟨hbaked, hplays, hinside⟩ := composites hnode hcircuit
  refine ⟨hnode, hcircuit, ⟨_, hbake, (hbaked _ _ hbake hordinary hlast _).2.1⟩, hmoves, ?_, ?_⟩
  · have hlog : (WireTime.callsThroughout twins.nodes ⟨"right"⟩ start moves).map Prod.fst
        = [[0], [0], [10]] := by decide +kernel
    rw [(hplays moves hmoves).2.2, hlog]
  · have hgathered : (ofCircuit heldTwice).gatheredAlong [⟨"second"⟩] [[0], [0], [10]]
        = [[0], [0], [0]] := by decide +kernel
    rw [(hinside [[0], [0], [10]] [⟨"second"⟩] heldOnce rfl).1, hgathered]

/-- A value that is turned round. -/
def turned : Circuit where
  order := [.input 0, ⟨"turn"⟩, .output 0]
  parts := [⟨⟨"turn"⟩, .invert, .empty, 1, 1, none⟩]
  edges := [⟨.input 0, 0, ⟨"turn"⟩, 0, some 16⟩, ⟨⟨"turn"⟩, 0, .output 0, 0, some 16⟩]
  inputCount := 1
  outputCount := 1

def turners : Library := .ofList [("puzzle:turn", turned)]

/-- A composite node under the id of an outside output, and another one under an id that is not its
own. -/
def displaced : Board where
  nodes := .ofList [
    (.output 0, (Node.ofKind (.output 0) (.puzzle "turn")).withPorts 1 1),
    (⟨"seat"⟩, (Node.ofKind ⟨"guest"⟩ (.puzzle "turn")).withPorts 1 1)]
  wires := [
    .between ⟨"w1"⟩ (.input 0) 0 (.output 0) 0,
    .between ⟨"w2"⟩ (.input 0) 0 ⟨"seat"⟩ 0]

/-- A composite node, and a device that is attached in its place. -/
def replaced : NodeMap :=
  .ofList [(⟨"turn"⟩, (Node.ofKind ⟨"turn"⟩ (.puzzle "turn")).withPorts 1 1)]

/-- In a baked board the outside output hands on what it reads, and the other node is never called,
neither under the one id nor under the other. In wire time a device that is attached to a composite
node is called in place of the circuit. -/
theorem composites_displaced :
    (∀ id ∈ [NodeId.output 0, ⟨"seat"⟩], ∃ node, displaced.nodes.get? id = some node ∧
      node.resolved? turners = some turned) ∧
    (displaced.bake ⟨1, 1⟩ turners).toOption.map (fun circuit =>
        [NodeId.output 0, ⟨"seat"⟩, ⟨"guest"⟩].map fun id => (ofCircuit circuit).record id [[50]])
      = some [[([50], [50])], [([], [])], [([], [])]] ∧
    ¬ turned.Plays 1 [([50], [50])] ∧ ¬ turned.Plays 1 [([], [])] ∧
    (let moves : List Move :=
        [.attach ⟨"turn"⟩ (.device (fun _ => [7]) []), .tick [.input 0, ⟨"turn"⟩]]
      let start : WireTime :=
        ⟨[{ Wire.between ⟨"w"⟩ (.input 0) 0 ⟨"turn"⟩ 0 with signals := [⟨50, 1⟩] }],
          .ofNodesWith replaced turners⟩
      WireTime.callsThroughout replaced ⟨"turn"⟩ start moves = [([50], [7])]) ∧
    ¬ turned.Plays 1 [([50], [7])] := by
  refine ⟨fun id hid => ?_, by decide +kernel, by decide +kernel, by decide +kernel,
    by decide +kernel, by decide +kernel⟩
  rcases List.mem_cons.mp hid with rfl | hid
  · exact ⟨_, rfl, rfl⟩
  · rw [List.mem_singleton.mp hid]
    exact ⟨_, rfl, rfl⟩

end Board
end SignalBoard
