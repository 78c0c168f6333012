import SignalBoard.Proofs.Board.Driven
import SignalBoard.Proofs.Board.Snapshot

/-!
# What no outside input reaches is silent

Leaving out what is not live is safe because an id to which no outside input leads has nothing to
say. In a baked board it has zeros on all its output ports in every cycle, and whatever it keeps is
zero, down to the innermost evaluator of a composite node (`bake_unreached`). A node makes zeros of
zeros whatever its kind, its parameters and the circuit behind it (`Node.call_quiet`), and it starts
with zeros.
-/

namespace SignalBoard

open Signal Evaluator

/-- A call gives a value for each output port. -/
theorem Node.length_call (node : Node) (gathered : List Binary64) (kept : Holding) :
    (node.call gathered kept).1.length = node.outputCount.toNat := by
  cases kept with
  | memory m => exact NodeKind.length_evaluate _ _ _ _ _
  | inner e => exact length_fit _ _

namespace Board

variable {board : Board} {ports : PortCounts}

/-- How many output ports an id has. -/
def outletCount (board : Board) (id : NodeId) : Nat :=
  match id.connectionPoint?, board.nodes.get? id with
  | some _, _ => 1
  | none, some node => node.outputCount.toNat
  | none, none => 0

/-- Every id has a value on each of its output ports. -/
theorem Cycle.length_values {inputs results : List Binary64} {before after : NodeId → Holding}
    {values : NodeId → List Binary64}
    (h : board.Cycle ports inputs before values after results) {id : NodeId}
    (hid : id ∈ board.nodes.ids ports) : (values id).length = board.outletCount id := by
  rcases NodeMap.mem_ids.mp hid with ⟨n, hn, rfl⟩ | ⟨hkey, hordinary⟩ | ⟨n, hn, rfl⟩
  · rw [h.input n hn, outletCount, NodeId.connectionPoint?_input]
    rfl
  · obtain ⟨node, hnode⟩ := OrderedMap.exists_get?_of_mem_keys hkey
    rw [h.values_node hnode hordinary, node.length_call, outletCount,
      NodeId.connectionPoint?_eq_none hordinary, hnode]
  · rw [h.output n hn, outletCount, NodeId.connectionPoint?_output]
    rfl

/-- **What no outside input reaches is silent**: it carries zeros in every cycle and keeps nothing
but zeros, however deep inside. -/
theorem bake_unreached (hkeyed : board.nodes.KeyedById) (hacyclic : (board.digraph ports).Acyclic)
    (library : Library) :
    ∃ circuit, board.bake ports library = .ok circuit ∧
      ∀ past inputs, ∀ id ∈ board.nodes.ids ports, ¬ board.Reached ports id →
        let e := (((ofCircuit circuit).after past).evaluate inputs).2
        (∀ port, e.portValue? id port
          = if port.toNat < board.outletCount id then some .zero else none) ∧
        (∀ m, (id, m) ∈ e.memories → m.Quiet) ∧
        (e.holdingOf id).Quiet := by
  obtain ⟨circuit, hbake, hrun, -⟩ := exists_laidOut hkeyed hacyclic library
  refine ⟨circuit, hbake, fun past inputs id hid hreached => ?_⟩
  intro e
  have hdriven : ¬ board.Driven ports id := fun h => hreached h.reached
  have hregular : e.Regular := (regular_after circuit past).evaluate inputs
  -- what a node keeps after a call is what it keeps before the next one
  have hkept : (e.holdingOf id).Quiet := by
    by_cases hpoint : id.isConnectionPoint
    · rw [hregular.holdingOf_connectionPoint hpoint]
      trivial
    · have hquiet := hrun.quiet hacyclic (past ++ [inputs]) id hid hdriven hpoint
      rwa [after_concat] at hquiet
  refine ⟨fun port => ?_, fun m hm => ?_, hkept⟩
  · -- all values are zero, and there are as many as the id has ports
    have hzero := (hrun.silent hacyclic past inputs hid hdriven).eq_replicate
    rw [(hrun.cycle past inputs).length_values hid] at hzero
    rw [portValue?_eq, hzero, List.getElem?_replicate]
  · rw [(hregular.mem_memories.mp hm).1] at hkept
    exact hkept

/-- A circuit whose only step is fed by itself; its order repeats an id and holds an unknown one. -/
def knotted : Circuit where
  order := [⟨"loop"⟩, ⟨"loop"⟩, ⟨"gone"⟩, .output 0]
  parts := [.ofNode (.ofKind ⟨"loop"⟩ .memory)]
  edges := [⟨⟨"loop"⟩, 0, ⟨"loop"⟩, 0, none⟩, ⟨⟨"loop"⟩, 0, .output 0, 0, none⟩,
    ⟨⟨"nowhere"⟩, 3, ⟨"loop"⟩, 7, none⟩]
  inputCount := 1
  outputCount := 1

/-- A way to an outside output that starts at an inverter fed by nothing, next to an input that is
given out as it is. -/
def unplugged : Board where
  nodes := .ofList [
    (⟨"turn"⟩, .ofKind ⟨"turn"⟩ .invert),
    (⟨"hold"⟩, (Node.ofKind ⟨"hold"⟩ .delay).withParam "subdivisions" (.text " 2 ")),
    (⟨"box"⟩, (Node.ofKind ⟨"box"⟩ (.puzzle "knot")).withPorts 1 1)]
  wires := [
    .between ⟨"w1"⟩ ⟨"turn"⟩ 0 ⟨"hold"⟩ 0,
    .between ⟨"w2"⟩ ⟨"hold"⟩ 0 ⟨"box"⟩ 0,
    .between ⟨"w3"⟩ ⟨"box"⟩ 0 (.output 0) 0,
    .between ⟨"w4"⟩ (.input 0) 0 (.output 1) 0]

/-- Nothing reaches the inverter and what comes after it, so the first outside output is zero,
whatever is behind the box. -/
theorem bake_unreached_unplugged :
    let library : Library := .ofList [("puzzle:knot", knotted)]
    unplugged.nodes.KeyedById ∧ (unplugged.digraph ⟨1, 2⟩).Acyclic ∧
      (∀ id ∈ [⟨"turn"⟩, ⟨"hold"⟩, ⟨"box"⟩, NodeId.output 0],
        id ∈ unplugged.nodes.ids ⟨1, 2⟩ ∧ ¬ unplugged.Reached ⟨1, 2⟩ id) ∧
      ∃ circuit, unplugged.bake ⟨1, 2⟩ library = .ok circuit ∧ ∀ past inputs,
        let e := (((ofCircuit circuit).after past).evaluate inputs).2
        ∀ id ∈ [⟨"turn"⟩, ⟨"hold"⟩, ⟨"box"⟩, NodeId.output 0],
          e.portValue? id 0 = some .zero ∧ (e.holdingOf id).Quiet := by
  intro library
  have hkeyed : unplugged.nodes.KeyedById := by decide +kernel
  have hacyclic : (unplugged.digraph ⟨1, 2⟩).Acyclic := by decide +kernel
  have hids : ∀ id ∈ [⟨"turn"⟩, ⟨"hold"⟩, ⟨"box"⟩, NodeId.output 0],
      id ∈ unplugged.nodes.ids ⟨1, 2⟩ ∧ ¬ unplugged.Reached ⟨1, 2⟩ id := by decide +kernel
  have hports : ∀ id ∈ [⟨"turn"⟩, ⟨"hold"⟩, ⟨"box"⟩, NodeId.output 0],
      (0 : UInt64).toNat < unplugged.outletCount id := by decide +kernel
  obtain ⟨circuit, hbake, hsilent⟩ := bake_unreached hkeyed hacyclic library
  refine ⟨hkeyed, hacyclic, hids, circuit, hbake, fun past inputs => ?_⟩
  intro e id hid
  obtain ⟨hvalues, -, hkept⟩ := hsilent past inputs id (hids id hid).1 (hids id hid).2
  exact ⟨(hvalues 0).trans (if_pos (hports id hid)), hkept⟩

end Board
end SignalBoard
