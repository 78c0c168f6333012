import SignalBoard.Proofs.Board.Bake
import SignalBoard.Proofs.Digraph.Reach

/-!
# What outside inputs drive

An id is driven if a value can come to it from an outside input, along wires and through ports that
are there. What is not driven carries zeros in every cycle (`RunBy.silent`). The analysis asks less
of a way, for it does not look at ports, so what is driven and leads to an outside output is live
(`Reached.isLive_left`). A live id may well read from one that is not live, but then that one is not
driven and it reads zero.
-/

namespace SignalBoard
namespace Board

open Relation Signal

variable {board : Board} {ports : PortCounts} {library : Library} {analysis : Analysis}

/-- A value can come from an outside input to an id. -/
inductive Driven (board : Board) (ports : PortCounts) : NodeId → Prop where
  | input (n : UInt64) (h : n < ports.inputs) : Driven board ports (.input n)
  | wire (w : Wire) (id : NodeId) (hwire : w ∈ board.wires)
      (hsource : Driven board ports w.source.node) (htarget : w.target.node = id)
      (hid : id ∈ board.nodes.ids ports) (hport : w.target.port.toNat < board.portCount id) :
      Driven board ports id

theorem Driven.mem_ids {id : NodeId} (h : board.Driven ports id) : id ∈ board.nodes.ids ports := by
  cases h with
  | input n hn => exact NodeMap.input_mem_ids.mpr hn
  | wire w id _ _ _ hid _ => exact hid

/-- Wires lead from an outside input to an id, through whatever ports. -/
def Reached (board : Board) (ports : PortCounts) (id : NodeId) : Prop :=
  ∃ n < ports.inputs, ReflTransGen (board.digraph ports).Adjacent (.input n) id

/-- It does not matter whether one starts from numbered inputs or from ids that stand for inputs. -/
theorem reached_iff {id : NodeId} : board.Reached ports id ↔
    ∃ s ∈ board.nodes.ids ports, s.isInput ∧
      ReflTransGen (board.digraph ports).Adjacent s id := by
  constructor
  · rintro ⟨n, hn, hway⟩
    exact ⟨_, NodeMap.input_mem_ids.mpr hn, NodeId.isInput_input n, hway⟩
  · rintro ⟨s, hs, hinput, hway⟩
    obtain ⟨n, hn, rfl⟩ := (NodeMap.isInput_iff_of_mem_ids hs).mp hinput
    exact ⟨n, hn, hway⟩

instance (board : Board) (ports : PortCounts) : DecidablePred (board.Reached ports) := fun id =>
  decidable_of_iff (id ∈ (board.digraph ports).reach (board.digraph ports).successors
      ((board.digraph ports).vertices.filter NodeId.isInput)) <| by
    rw [Digraph.mem_reach_successors fun _ hs => (List.mem_filter.mp hs).1, reached_iff]
    simp only [List.mem_filter, and_assoc, digraph, Digraph.mem_vertices_ofLists]

theorem Reached.mem_ids {id : NodeId} (h : board.Reached ports id) :
    id ∈ board.nodes.ids ports := by
  obtain ⟨n, hn, hway⟩ := h
  rcases ReflTransGen.cases_tail hway with rfl | ⟨u, -, hadjacent⟩
  · exact NodeMap.input_mem_ids.mpr hn
  · exact (adjacent_iff.mp hadjacent).2.2

/-- What is reached is left by wires that reach their targets. -/
theorem Reached.wire {wire : Wire} (h : board.Reached ports wire.source.node)
    (hwire : wire ∈ board.wires) (htarget : wire.target.node ∈ board.nodes.ids ports) :
    board.Reached ports wire.target.node := by
  have hadjacent := adjacent_of_wire hwire h.mem_ids htarget
  obtain ⟨n, hn, hway⟩ := h
  exact ⟨n, hn, hway.tail hadjacent⟩

/-- What is driven is reached, since a way through ports that are there is a way. -/
theorem Driven.reached {id : NodeId} (h : board.Driven ports id) : board.Reached ports id := by
  induction h with
  | input n hn => exact ⟨n, hn, .refl⟩
  | wire w id hwire hsource htarget hid _ ih =>
    rw [← htarget] at hid ⊢
    exact ih.wire hwire hid

/-! ## Silence -/

/-- A port of an id that is not driven reads from ids that are not driven either. -/
theorem not_driven_of_feed? {id : NodeId} {port : Nat} {wire : Wire} (h : ¬ board.Driven ports id)
    (hport : port < board.portCount id) (hwire : board.feed? ports id port = some wire) :
    ¬ board.Driven ports wire.source.node := by
  obtain ⟨hmem, -, htarget, hid, hp⟩ := mem_of_feed? hwire
  intro hsource
  rw [hid] at htarget
  exact h (.wire wire id hmem hsource hid htarget (by rw [hp]; exact hport))

/-- What is not driven keeps nothing but zeros, by induction on the calls, the last one first. -/
theorem RunBy.quiet {e : Evaluator} (h : board.RunBy ports library e)
    (hacyclic : (board.digraph ports).Acyclic) (past : List (List Binary64)) :
    ∀ id ∈ board.nodes.ids ports, ¬ board.Driven ports id → ¬ id.isConnectionPoint →
      ((e.after past).holdingOf id).Quiet := by
  induction past using List.reverseRecOn with
  | nil =>
    intro id hid _ hordinary
    rcases NodeMap.mem_ids.mp hid with ⟨n, -, rfl⟩ | ⟨hkey, -⟩ | ⟨n, -, rfl⟩
    · exact absurd (NodeId.isConnectionPoint_input n) hordinary
    · obtain ⟨node, hnode⟩ := OrderedMap.exists_get?_of_mem_keys hkey
      -- before the first call every node keeps zeros
      show (e.holdingOf id).Quiet
      rw [h.start id node hnode hordinary]
      exact node.firstHolding_quiet library
    · exact absurd (NodeId.isConnectionPoint_output n) hordinary
  | append_singleton past inputs ih =>
    intro id hid hdriven hordinary
    rw [Evaluator.after_concat]
    refine ((h.cycle past inputs).quiet hacyclic
      (U := fun id => id ∈ board.nodes.ids ports ∧ ¬ board.Driven ports id)
      (fun n hn hU => hU.2 (.input n hn)) ?_ (fun id hU hcp => ih id hU.1 hU.2 hcp)
      id hid ⟨hid, hdriven⟩).2 hordinary
    -- the set is closed: what its ports read is not driven either
    exact fun id port wire hU hport hwire =>
      ⟨(mem_of_feed? hwire).2.1, not_driven_of_feed? hU.2 hport hwire⟩

/-- **What is not driven is silent**: it carries zeros in every cycle. -/
theorem RunBy.silent {e : Evaluator} (h : board.RunBy ports library e)
    (hacyclic : (board.digraph ports).Acyclic) (past : List (List Binary64))
    (inputs : List Binary64) {id : NodeId} (hid : id ∈ board.nodes.ids ports)
    (hdriven : ¬ board.Driven ports id) :
    AllZero (((e.after past).evaluate inputs).2.portsOf id) := by
  refine ((h.cycle past inputs).quiet hacyclic
    (U := fun id => id ∈ board.nodes.ids ports ∧ ¬ board.Driven ports id)
    (fun n hn hU => hU.2 (.input n hn)) ?_
    (fun id hU hcp => h.quiet hacyclic past id hU.1 hU.2 hcp) id hid ⟨hid, hdriven⟩).1
  exact fun id port wire hU hport hwire =>
    ⟨(mem_of_feed? hwire).2.1, not_driven_of_feed? hU.2 hport hwire⟩

/-! ## Live ids -/

/-- **What the analysis calls live**: the ids on the ways from outside inputs to outside outputs. -/
theorem isLive_iff (h : board.analyse ports = .ok analysis) {id : NodeId} :
    analysis.isLive id ↔ id ∈ board.nodes.ids ports ∧ board.Reached ports id ∧
      (∃ n < ports.outputs, ReflTransGen (board.digraph ports).Adjacent id (.output n)) := by
  -- the graph that is searched has the same ids and wires as the one that was sorted
  have hadjacent : (Digraph.ofLists analysis.order (board.wires.map Wire.ends)).Adjacent
      = (board.digraph ports).Adjacent := by
    funext u v
    rw [digraph, eq_iff_iff, Digraph.adjacent_ofLists, Digraph.adjacent_ofLists, mem_order h,
      mem_order h]
  rw [Analysis.isLive, decide_eq_true_eq, live_of_analyse h, Digraph.liveIds, Digraph.mem_live,
    hadjacent, reached_iff]
  simp only [Digraph.mem_vertices_ofLists, mem_order h]
  refine and_congr_right fun hid => and_congr_right fun _ => ?_
  constructor
  · rintro ⟨t, ht, hsink, hway⟩
    obtain ⟨n, hn, rfl⟩ := (NodeMap.isOutput_iff_of_mem_ids ht).mp hsink
    exact ⟨n, hn, hway⟩
  · rintro ⟨n, hn, hway⟩
    exact ⟨_, NodeMap.output_mem_ids.mpr hn, NodeId.isOutput_output n, hway⟩

/-- An id that needs its wires read: a live one or an outside output. -/
def Wanted (ports : PortCounts) (analysis : Analysis) (id : NodeId) : Prop :=
  analysis.isLive id ∨ ∃ n < ports.outputs, id = .output n

/-- What is reached and read by an id that is wanted is live. -/
theorem Reached.isLive_left (h : board.analyse ports = .ok analysis) {u v : NodeId}
    (hu : board.Reached ports u) (huv : (board.digraph ports).Adjacent u v)
    (hv : Wanted ports analysis v) : analysis.isLive u := by
  have hto : ∃ n < ports.outputs, ReflTransGen (board.digraph ports).Adjacent v (.output n) := by
    rcases hv with hlive | ⟨n, hn, rfl⟩
    · exact ((isLive_iff h).mp hlive).2.2
    · exact ⟨n, hn, .refl⟩
  obtain ⟨n, hn, hway⟩ := hto
  exact (isLive_iff h).mpr ⟨hu.mem_ids, hu, n, hn, .head huv hway⟩

/-- An outside output that is reached is live. -/
theorem Reached.isLive_output (h : board.analyse ports = .ok analysis) {n : UInt64}
    (hn : n < ports.outputs) (hreached : board.Reached ports (.output n)) :
    analysis.isLive (.output n) :=
  (isLive_iff h).mpr ⟨hreached.mem_ids, hreached, n, hn, .refl⟩

end Board
end SignalBoard
