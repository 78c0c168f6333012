import SignalBoard.Proofs.Board.Snapshot
import SignalBoard.Proofs.Digraph.Reach

/-!
# What an outside output depends on

The cone of an outside output is what leads to it by wires. Two boards may be quite different, and
their analyses may go through the ids in different orders: if they share the cone of an output
(`Board.SharesCone`), the output is the same in every cycle, and so is everything in the cone.

* `Board.Cone`: the ids that lead to an outside output, with the same closure that the analysis uses
  to decide it.
* `cone_of_origin?`: whatever a port in the cone reads is in the cone.
* `bake_cone`: baked boards that share a cone agree on it.
-/

namespace SignalBoard

open Relation Evaluator

namespace Board

variable {board board' : Board} {ports ports' : PortCounts} {n : UInt64} {id : NodeId}

/-- Wires lead from an id to an outside output. -/
def Cone (board : Board) (ports : PortCounts) (n : UInt64) (id : NodeId) : Prop :=
  ReflTransGen (board.digraph ports).Adjacent id (.output n)

/-- Everything that leads somewhere takes part; only the output itself might not. -/
theorem Cone.mem_cons (h : board.Cone ports n id) :
    id ∈ NodeId.output n :: board.nodes.ids ports := by
  rcases h.cases_head with heq | ⟨next, hstep, -⟩
  · exact heq ▸ List.mem_cons_self
  · exact List.mem_cons_of_mem _ (adjacent_iff.mp hstep).2.1

/-- In the cone of an outside output that there is, every id takes part. -/
theorem Cone.mem_ids (h : board.Cone ports n id) (hn : n < ports.outputs) :
    id ∈ board.nodes.ids ports := by
  rcases List.mem_cons.mp h.mem_cons with rfl | hid
  · exact NodeMap.output_mem_ids.mpr hn
  · exact hid

/-- What a port in the cone reads is in the cone. -/
theorem cone_of_origin? {port : Nat} {origin : NodeId × UInt64} (h : board.Cone ports n id)
    (horigin : board.origin? ports id port = some origin) : board.Cone ports n origin.1 :=
  .head (adjacent_of_origin? horigin) h

instance (board : Board) (ports : PortCounts) (n : UInt64) :
    DecidablePred (board.Cone ports n) := fun id =>
  decidable_of_iff (id = .output n ∨
      id ∈ (board.digraph ports).reach (board.digraph ports).predecessors
        ((board.digraph ports).vertices.filter (· = .output n))) <| by
    rw [Digraph.mem_reach_predecessors fun _ hs => (List.mem_filter.mp hs).1]
    simp only [List.mem_filter, decide_eq_true_eq]
    constructor
    · rintro (rfl | ⟨_, ⟨-, rfl⟩, hway⟩)
      · exact .refl
      · exact hway
    · intro hway
      rcases hway.cases_tail with heq | ⟨last, -, hstep⟩
      · exact .inl heq.symm
      · exact .inr ⟨_, ⟨hstep.right_mem, rfl⟩, hway⟩

/-- A board has all of the cone of an outside output of another board: the nodes and the connection
points in it, and for every port of these what the port reads. -/
structure SharesCone (board : Board) (ports : PortCounts) (board' : Board) (ports' : PortCounts)
    (n : UInt64) : Prop where
  nodes : ∀ id node, board.Cone ports n id → ¬ id.isConnectionPoint →
    board.nodes.get? id = some node → board'.nodes.get? id = some node
  points : ∀ id, board.Cone ports n id → id.isConnectionPoint → id ∈ board'.nodes.ids ports'
  origins : ∀ id port, board.Cone ports n id → port < board.portCount id →
    board.origin? ports id port = board'.origin? ports' id port

/-- All that is to be looked at are the ids that take part and the output itself. -/
instance (board : Board) (ports : PortCounts) (board' : Board) (ports' : PortCounts) (n : UInt64) :
    Decidable (board.SharesCone ports board' ports' n) :=
  decidable_of_iff (∀ id ∈ NodeId.output n :: board.nodes.ids ports, board.Cone ports n id →
      (¬ id.isConnectionPoint → ∀ node ∈ board.nodes.get? id, board'.nodes.get? id = some node) ∧
      (id.isConnectionPoint → id ∈ board'.nodes.ids ports') ∧
      ∀ port < board.portCount id, board.origin? ports id port = board'.origin? ports' id port) <| by
    constructor
    · intro h
      have hall : ∀ id, board.Cone ports n id → _ := fun id hcone => h id (hcone.mem_cons) hcone
      exact ⟨fun id node hcone hordinary hnode => (hall id hcone).1 hordinary node hnode,
        fun id hcone hpoint => (hall id hcone).2.1 hpoint,
        fun id port hcone hport => (hall id hcone).2.2 port hport⟩
    · exact fun h id _ hcone => ⟨fun hordinary node hnode => h.nodes id node hcone hordinary hnode,
        h.points id hcone, fun port => h.origins id port hcone⟩

/-- Where there is a node in the cone, it is the same on both boards. -/
theorem SharesCone.get?_eq (h : board.SharesCone ports board' ports' n) (hn : n < ports.outputs)
    (hcone : board.Cone ports n id) (hordinary : ¬ id.isConnectionPoint) :
    board.nodes.get? id = board'.nodes.get? id := by
  -- what takes part and is no connection point is a key
  rcases NodeMap.mem_ids.mp (hcone.mem_ids hn) with ⟨m, -, rfl⟩ | ⟨hkey, -⟩ | ⟨m, -, rfl⟩
  · exact absurd (NodeId.isConnectionPoint_input m) hordinary
  · obtain ⟨node, hnode⟩ := OrderedMap.exists_get?_of_mem_keys hkey
    rw [hnode, h.nodes id node hcone hordinary hnode]
  · exact absurd (NodeId.isConnectionPoint_output m) hordinary

/-- **An outside output depends on its cone alone.** Whatever else two boards hold, and however many
outside ports they have, if they share the cone of an output they give the same there in every cycle
of every run. The ids of the cone have the same values on their ports, keep the same and show the
same memory. -/
theorem bake_cone (hkeyed : board.nodes.KeyedById) (hkeyed' : board'.nodes.KeyedById)
    (hacyclic : (board.digraph ports).Acyclic) (hacyclic' : (board'.digraph ports').Acyclic)
    (hn : n < ports.outputs) (hshares : board.SharesCone ports board' ports' n)
    (library : Library) :
    ∃ circuit circuit', board.bake ports library = .ok circuit ∧
      board'.bake ports' library = .ok circuit' ∧ ∀ past inputs,
        let done := ((ofCircuit circuit).after past).evaluate inputs
        let done' := ((ofCircuit circuit').after past).evaluate inputs
        (∃ x, done.1[n.toNat]? = some x ∧ done'.1[n.toNat]? = some x) ∧
        ∀ id, board.Cone ports n id →
          (∀ port, done.2.portValue? id port = done'.2.portValue? id port) ∧
          done.2.holdingOf id = done'.2.holdingOf id ∧
          ∀ m, (id, m) ∈ done.2.memories ↔ (id, m) ∈ done'.2.memories := by
  obtain ⟨circuit, hbake, hrun, -⟩ := exists_laidOut hkeyed hacyclic library
  obtain ⟨circuit', hbake', hrun', -⟩ := exists_laidOut hkeyed' hacyclic' library
  have hmem : ∀ id, board.Cone ports n id → id ∈ board.nodes.ids ports :=
    fun _ hcone => hcone.mem_ids hn
  have hnodes : ∀ id, board.Cone ports n id → ¬ id.isConnectionPoint →
      board.nodes.get? id = board'.nodes.get? id :=
    fun _ hcone hordinary => hshares.get?_eq hn hcone hordinary
  -- a port in the cone reads the same on both boards, from inside the cone or nothing at all
  have hagree := hrun.agree hrun' hacyclic hmem hshares.points hnodes
    fun past inputs id port hcone hport => by
      have hsame := hshares.origins id port hcone hport
      cases horigin : board.origin? ports id port with
      | some origin =>
        rw [horigin] at hsame
        exact .inl ⟨origin, rfl, hsame.symm, cone_of_origin? hcone horigin⟩
      | none =>
        rw [horigin] at hsame
        exact .inr ⟨portIn_of_origin?_none horigin, portIn_of_origin?_none hsame.symm⟩
  have hout : board.Cone ports n (.output n) := .refl
  have hn' : n < ports'.outputs := NodeMap.output_mem_ids.mp
    (hshares.points _ hout (NodeId.isConnectionPoint_output n))
  refine ⟨circuit, circuit', hbake, hbake', fun past inputs => ?_⟩
  intro done done'
  have hvalues := (hagree past).2 inputs
  have hregular : done.2.Regular := (regular_after circuit past).evaluate inputs
  have hregular' : done'.2.Regular := (regular_after circuit' past).evaluate inputs
  -- connection points keep nothing; what nodes keep is compared after one call more
  have hkept : ∀ id, board.Cone ports n id → done.2.holdingOf id = done'.2.holdingOf id := by
    intro id hcone
    by_cases hpoint : id.isConnectionPoint
    · rw [hregular.holdingOf_connectionPoint hpoint, hregular'.holdingOf_connectionPoint hpoint]
    · have hafter := (hagree (past ++ [inputs])).1 id hcone hpoint
      rwa [after_concat, after_concat] at hafter
  refine ⟨?_, fun id hcone => ⟨fun port => ?_, hkept id hcone, fun m => ?_⟩⟩
  · -- the output is what has come to its id, which is in its own cone
    have hcycle := hrun.cycle past inputs
    have hresult := hcycle.getElem?_results hn
    have hresult' := (hrun'.cycle past inputs).getElem?_results hn'
    rw [← hvalues _ hout, hcycle.output n hn] at hresult'
    rw [hcycle.output n hn] at hresult
    exact ⟨_, hresult, hresult'⟩
  · rw [portValue?_eq, portValue?_eq, hvalues id hcone]
  · rw [hregular.mem_memories, hregular'.mem_memories, hkept id hcone]

/-- The input that is held back in the middle of other things: the nodes stand in another order, a
second input and a second output have been added, the overruled wire is gone, and there is something
to read what is added up. -/
def heldBackAmid : Board where
  nodes := .ofList [
    (⟨"sum"⟩, .ofKind ⟨"sum"⟩ .offset),
    (⟨"turn"⟩, .ofKind ⟨"turn"⟩ .invert),
    (⟨"hold"⟩, .ofKind ⟨"hold"⟩ .memory)]
  wires := [
    .between ⟨"v1"⟩ ⟨"sum"⟩ 0 (.output 0) 0,
    .between ⟨"v2"⟩ ⟨"sum"⟩ 0 ⟨"turn"⟩ 0,
    .between ⟨"v3"⟩ ⟨"turn"⟩ 0 (.output 1) 0,
    .between ⟨"v4"⟩ (.input 1) 0 ⟨"hold"⟩ 0,
    .between ⟨"v5"⟩ ⟨"hold"⟩ 0 ⟨"sum"⟩ 1,
    .between ⟨"v6"⟩ ⟨"hold"⟩ 0 ⟨"sum"⟩ 0,
    .between ⟨"v7"⟩ (.input 0) 0 ⟨"hold"⟩ 0]

/-- The two boards share what leads to the first outside output, and agree on it. -/
theorem bake_cone_heldBack :
    heldBack.nodes.KeyedById ∧ heldBackAmid.nodes.KeyedById ∧
      (heldBack.digraph ⟨1, 1⟩).Acyclic ∧ (heldBackAmid.digraph ⟨2, 2⟩).Acyclic ∧
      heldBack.SharesCone ⟨1, 1⟩ heldBackAmid ⟨2, 2⟩ 0 ∧ heldBack.Cone ⟨1, 1⟩ 0 ⟨"hold"⟩ ∧
      ∃ circuit circuit', heldBack.bake ⟨1, 1⟩ .empty = .ok circuit ∧
        heldBackAmid.bake ⟨2, 2⟩ .empty = .ok circuit' ∧ ∀ past inputs,
          let done := ((ofCircuit circuit).after past).evaluate inputs
          let done' := ((ofCircuit circuit').after past).evaluate inputs
          (∃ x, done.1[0]? = some x ∧ done'.1[0]? = some x) ∧
            done.2.holdingOf ⟨"hold"⟩ = done'.2.holdingOf ⟨"hold"⟩ := by
  have hkeyed : heldBack.nodes.KeyedById := by decide +kernel
  have hkeyed' : heldBackAmid.nodes.KeyedById := by decide +kernel
  have hacyclic : (heldBack.digraph ⟨1, 1⟩).Acyclic := by decide +kernel
  have hacyclic' : (heldBackAmid.digraph ⟨2, 2⟩).Acyclic := by decide +kernel
  have hshares : heldBack.SharesCone ⟨1, 1⟩ heldBackAmid ⟨2, 2⟩ 0 := by decide +kernel
  have hcone : heldBack.Cone ⟨1, 1⟩ 0 ⟨"hold"⟩ := by decide +kernel
  obtain ⟨circuit, circuit', hbake, hbake', hcycles⟩ :=
    bake_cone hkeyed hkeyed' hacyclic hacyclic' (by decide) hshares .empty
  exact ⟨hkeyed, hkeyed', hacyclic, hacyclic', hshares, hcone, circuit, circuit', hbake, hbake',
    fun past inputs => ⟨(hcycles past inputs).1, ((hcycles past inputs).2 _ hcone).2.1⟩⟩

end Board
end SignalBoard
