import SignalBoard.Board.Analysis
import SignalBoard.Proofs.Digraph.Loop
import SignalBoard.Proofs.Digraph.Reach
import SignalBoard.Proofs.Digraph.Sort
import SignalBoard.Proofs.Node.Id

/-!
# The ids of a board and their order

The ids that take part in running a board are its outside inputs, the ordinary ids among its nodes
and its outside outputs (`mem_ids`). A board can be analysed exactly if its wires have no loop
(`exists_analyse_iff`), and the order that is found holds these ids, each once, every wire between
two of them leading forward. Where the wires do have a loop, the error names one
(`loopError_of_sort`).
-/

namespace SignalBoard

/-- Every node is kept under its own id. -/
def NodeMap.KeyedById (nodes : NodeMap) : Prop :=
  ∀ entry ∈ nodes.entries, entry.2.id = entry.1

instance (nodes : NodeMap) : Decidable nodes.KeyedById :=
  inferInstanceAs (Decidable (∀ entry ∈ nodes.entries, entry.2.id = entry.1))

/-- A node that is looked up has the id under which it was found. -/
theorem NodeMap.KeyedById.id_eq {nodes : NodeMap} (h : nodes.KeyedById) {id : NodeId} {node : Node}
    (hnode : nodes.get? id = some node) : node.id = id :=
  h (id, node) (OrderedMap.get?_eq_some_iff.mp hnode)

/-- An index below a word is the index of a word. -/
theorem exists_word_lt {count : UInt64} {n : Nat} (h : n < count.toNat) :
    ∃ w < count, UInt64.ofNat n = w ∧ w.toNat = n := by
  have hn : (UInt64.ofNat n).toNat = n :=
    UInt64.toNat_ofNat_of_lt' (h.trans count.toNat_lt)
  exact ⟨UInt64.ofNat n, by rw [UInt64.lt_iff_toNat_lt, hn]; exact h, rfl, hn⟩

/-- **The ids that take part**: outside inputs and outputs below their counts, and the ordinary
keys. -/
theorem NodeMap.mem_ids {nodes : NodeMap} {ports : PortCounts} {id : NodeId} :
    id ∈ nodes.ids ports ↔
      (∃ n < ports.inputs, id = .input n) ∨
      (id ∈ nodes.keys ∧ ¬ id.isConnectionPoint) ∨
      (∃ n < ports.outputs, id = .output n) := by
  -- both sides count up to a word, and the indices below it are words as well
  have hrange : ∀ (count : UInt64) (f : UInt64 → NodeId),
      id ∈ (List.range count.toNat).map (fun n => f (UInt64.ofNat n)) ↔ ∃ n < count, id = f n := by
    intro count f
    simp only [List.mem_map, List.mem_range]
    constructor
    · rintro ⟨n, hn, rfl⟩
      obtain ⟨w, hw, heq, -⟩ := exists_word_lt hn
      exact ⟨w, hw, by rw [heq]⟩
    · rintro ⟨w, hw, rfl⟩
      exact ⟨w.toNat, UInt64.lt_iff_toNat_lt.mp hw, by rw [UInt64.ofNat_toNat]⟩
  rw [ids, List.mem_append, List.mem_append, hrange ports.inputs NodeId.input,
    hrange ports.outputs NodeId.output, List.mem_filter, or_assoc]
  simp

theorem NodeMap.mem_ids_of_get? {nodes : NodeMap} {ports : PortCounts} {id : NodeId} {node : Node}
    (hnode : nodes.get? id = some node) (hid : ¬ id.isConnectionPoint) : id ∈ nodes.ids ports :=
  NodeMap.mem_ids.mpr (.inr (.inl ⟨OrderedMap.mem_keys_of_get? hnode, hid⟩))

theorem NodeMap.input_mem_ids {nodes : NodeMap} {ports : PortCounts} {n : UInt64} :
    .input n ∈ nodes.ids ports ↔ n < ports.inputs := by
  rw [NodeMap.mem_ids]
  constructor
  · rintro (⟨m, hm, heq⟩ | ⟨-, hordinary⟩ | ⟨m, -, heq⟩)
    · rwa [NodeId.input_injective heq]
    · exact absurd (NodeId.isConnectionPoint_input n) hordinary
    · exact absurd heq (NodeId.input_ne_output n m)
  · exact fun h => .inl ⟨n, h, rfl⟩

theorem NodeMap.output_mem_ids {nodes : NodeMap} {ports : PortCounts} {n : UInt64} :
    .output n ∈ nodes.ids ports ↔ n < ports.outputs := by
  rw [NodeMap.mem_ids]
  constructor
  · rintro (⟨m, -, heq⟩ | ⟨-, hordinary⟩ | ⟨m, hm, heq⟩)
    · exact absurd heq.symm (NodeId.input_ne_output m n)
    · exact absurd (NodeId.isConnectionPoint_output n) hordinary
    · rwa [NodeId.output_injective heq]
  · exact fun h => .inr (.inr ⟨n, h, rfl⟩)

/-- Of the ids that take part only the outside inputs stand for outside inputs. -/
theorem NodeMap.isInput_iff_of_mem_ids {nodes : NodeMap} {ports : PortCounts} {id : NodeId}
    (h : id ∈ nodes.ids ports) : id.isInput ↔ ∃ n < ports.inputs, id = .input n := by
  rcases NodeMap.mem_ids.mp h with ⟨n, hn, rfl⟩ | ⟨-, hordinary⟩ | ⟨n, -, rfl⟩
  · exact ⟨fun _ => ⟨n, hn, rfl⟩, fun _ => NodeId.isInput_input n⟩
  · constructor
    · exact fun hinput => absurd hinput (NodeId.not_isInput_of_ordinary hordinary)
    · rintro ⟨n, -, rfl⟩
      exact NodeId.isInput_input n
  · constructor
    · exact fun hinput => absurd hinput (NodeId.not_isInput_output n)
    · rintro ⟨m, -, heq⟩
      exact absurd heq.symm (NodeId.input_ne_output m n)

/-- Of the ids that take part only the outside outputs stand for outside outputs. -/
theorem NodeMap.isOutput_iff_of_mem_ids {nodes : NodeMap} {ports : PortCounts} {id : NodeId}
    (h : id ∈ nodes.ids ports) : id.isOutput ↔ ∃ n < ports.outputs, id = .output n := by
  rcases NodeMap.mem_ids.mp h with ⟨n, -, rfl⟩ | ⟨-, hordinary⟩ | ⟨n, hn, rfl⟩
  · constructor
    · exact fun houtput => absurd houtput (NodeId.not_isOutput_input n)
    · rintro ⟨m, -, heq⟩
      exact absurd heq (NodeId.input_ne_output n m)
  · constructor
    · exact fun houtput => absurd houtput (NodeId.not_isOutput_of_ordinary hordinary)
    · rintro ⟨n, -, rfl⟩
      exact NodeId.isOutput_output n
  · exact ⟨fun _ => ⟨n, hn, rfl⟩, fun _ => NodeId.isOutput_output n⟩

namespace Board

variable {board : Board} {ports : PortCounts}

/-- There is a wire from one id to another, both on the board. -/
theorem adjacent_iff {u v : NodeId} :
    (board.digraph ports).Adjacent u v ↔
      (∃ wire ∈ board.wires, wire.source.node = u ∧ wire.target.node = v) ∧
        u ∈ board.nodes.ids ports ∧ v ∈ board.nodes.ids ports := by
  rw [digraph, Digraph.adjacent_ofLists, List.mem_map]
  simp only [Wire.ends, Prod.mk.injEq]

/-- A wire between two ids that take part joins them. -/
theorem adjacent_of_wire {wire : Wire} (hwire : wire ∈ board.wires)
    (hsource : wire.source.node ∈ board.nodes.ids ports)
    (htarget : wire.target.node ∈ board.nodes.ids ports) :
    (board.digraph ports).Adjacent wire.source.node wire.target.node :=
  adjacent_iff.mpr ⟨⟨wire, hwire, rfl, rfl⟩, hsource, htarget⟩

/-! ## What the analysis finds -/

variable {analysis : Analysis}

/-- The order of an analysis is that of the sort. -/
theorem sort_of_analyse (h : board.analyse ports = .ok analysis) :
    (board.digraph ports).sort = .ok analysis.order := by
  rw [analyse, Digraph.layers] at h
  cases hsort : (board.digraph ports).sort with
  | error loop => rw [hsort] at h; cases h
  | ok order =>
    rw [hsort] at h
    cases h
    rfl

/-- **A board can be analysed just if its wires have no loop.** -/
theorem exists_analyse_iff :
    (∃ analysis, board.analyse ports = .ok analysis) ↔ (board.digraph ports).Acyclic := by
  rw [← Digraph.exists_sort_iff]
  constructor
  · rintro ⟨analysis, h⟩
    exact ⟨_, sort_of_analyse h⟩
  · rintro ⟨order, hsort⟩
    rw [analyse, Digraph.layers, hsort]
    exact ⟨_, rfl⟩

/-- The live ids are looked for among the sorted ids, so they come in the order of the sort. -/
theorem live_of_analyse (h : board.analyse ports = .ok analysis) :
    analysis.live =
      (Digraph.ofLists analysis.order (board.wires.map Wire.ends)).liveIds := by
  rw [analyse] at h
  split at h
  · cases h
  · cases h
    rfl

/-- The counts are those that were asked for. -/
theorem ports_of_analyse (h : board.analyse ports = .ok analysis) : analysis.ports = ports := by
  rw [analyse] at h
  split at h
  · cases h
  · cases h
    rfl

/-- The order holds the ids that take part. -/
theorem mem_order (h : board.analyse ports = .ok analysis) {id : NodeId} :
    id ∈ analysis.order ↔ id ∈ board.nodes.ids ports := by
  rw [(Digraph.sort_perm (sort_of_analyse h)).mem_iff, digraph, Digraph.mem_vertices_ofLists]

theorem nodup_order (h : board.analyse ports = .ok analysis) : analysis.order.Nodup :=
  Digraph.sort_nodup (sort_of_analyse h)

/-- Every wire between two ids that take part leads forward in the order. -/
theorem forward_order (h : board.analyse ports = .ok analysis) :
    (board.digraph ports).Forward analysis.order :=
  Digraph.sort_forward (sort_of_analyse h)

end Board

/-! ## The loop that is reported -/

namespace Digraph

open LoopSearch

/-- If there are no layers, it is the sort that has failed. -/
theorem layers_eq_error {g : Digraph NodeId} {loop : List NodeId} (h : g.layers = .error loop) :
    g.sort = .error loop := by
  rw [layers] at h
  cases hsort : g.sort with
  | error loop' =>
    rw [hsort] at h
    cases h
    rfl
  | ok order =>
    rw [hsort] at h
    cases h

/-- A sort that fails leaves vertices over, and what it reports has been found among them. -/
theorem closes_of_sort_eq_error {g : Digraph NodeId} {loop : List NodeId}
    (h : g.sort = .error loop) :
    ∃ s v w, Reached g (· ∉ g.sorted.order) s ∧ s.Closes (· ∉ g.sorted.order) v w ∧
      loop = s.closeLoop v w := by
  simp only [sort] at h
  split at h
  · next hshort =>
    cases h
    -- the search finds a loop where there is something left and each of it has a predecessor that
    -- is left
    refine exists_closes ?_ fun v hv hleft => ?_
    · -- if nothing were left, the order would be long enough
      by_contra hnone
      push Not at hnone
      have hall : g.vertices ⊆ g.sorted.order := fun v hv => by simpa using hnone v hv
      exact absurd (List.subperm_of_subset g.nodup hall).length_le (by omega)
    · have hnot : v ∉ g.sorted.order := by simpa using hleft
      rw [mem_sorted_order hv] at hnot
      push Not at hnot
      obtain ⟨u, hu, huleft⟩ := hnot
      exact ⟨u, hu, by simpa using huleft⟩
  · cases h

/-- **What a failing sort reports is a loop**, every step of which is one of the given pairs and
every member of which is one of the given names. It is never empty: the search ends with an edge to
a vertex on its stack, and the walk along the parents gets to that vertex. -/
theorem loopError_of_sort {names : List NodeId} {pairs : List (NodeId × NodeId)}
    {loop : List NodeId}
    (h : (ofLists names pairs).sort = .error loop ∨ (ofLists names pairs).layers = .error loop) :
    SimpleLoop (Joined names pairs) loop ∧ (∀ v ∈ loop, v ∈ names) ∧
      (LoopError.mk loop).message
        = "cycle detected: " ++ String.intercalate " -> " (loop.map NodeId.text) ∧
      ∃ s v w, Reached (ofLists names pairs) (· ∉ (ofLists names pairs).sorted.order) s ∧
        s.Closes (· ∉ (ofLists names pairs).sorted.order) v w ∧
        loop = (s.walk v w).reverse ++ [w] ∧ (s.walk v w).getLast? = some w ∧
        (s.walk v w).IsChain fun v u => s.parents.get? v = some u := by
  obtain ⟨s, v, w, hreached, hcloses, rfl⟩ :=
    closes_of_sort_eq_error (h.elim id layers_eq_error)
  obtain ⟨done, hsearching⟩ := hreached.searching
  have hloop := hsearching.simpleLoop_closeLoop hcloses
  -- the walk along the parents does get to the vertex that closes the loop
  obtain ⟨hlast, hparents⟩ := hsearching.walk_complete hcloses
  refine ⟨⟨hloop.two_le, hloop.closed, ?_, hloop.simple⟩, fun u hu => ?_, ?_,
    s, v, w, hreached, hcloses, rfl, hlast, hparents⟩
  · exact hloop.steps.imp fun _ _ hab => adjacent_ofLists.mp hab
  · exact mem_vertices_ofLists.mp (hsearching.closeLoop_subset hcloses hu)
  · rw [LoopError.message, if_neg (by simp [closeLoop])]

/-- An id that leads into a loop of two others. -/
theorem loopError_of_sort_tail :
    let names : List NodeId := [⟨"a"⟩, ⟨"b"⟩, ⟨"c"⟩]
    let pairs : List (NodeId × NodeId) := [(⟨"a"⟩, ⟨"b"⟩), (⟨"b"⟩, ⟨"c"⟩), (⟨"c"⟩, ⟨"b"⟩)]
    let loop : List NodeId := [⟨"b"⟩, ⟨"c"⟩, ⟨"b"⟩]
    (ofLists names pairs).sort = .error loop ∧ SimpleLoop (Joined names pairs) loop ∧
      (LoopError.mk loop).message = "cycle detected: b -> c -> b" := by
  intro names pairs loop
  have hsort : (ofLists names pairs).sort = .error loop := by rfl
  obtain ⟨hloop, -, hmessage, -⟩ := loopError_of_sort (.inl hsort)
  exact ⟨hsort, hloop, hmessage.trans (by decide +kernel)⟩

/-! ## The ids that are live -/

open Relation ReachState

/-- **The live ids are those on the ways from inputs to outputs**, along pairs of which both ends
are among the names, whether or not there are loops. They come once each, in the order in which they
are first named, and both searches for them come to an end. -/
theorem liveIds_ofLists (names : List NodeId) (pairs : List (NodeId × NodeId)) :
    let g := ofLists names pairs
    let inputs := g.vertices.filter NodeId.isInput
    let outputs := g.vertices.filter NodeId.isOutput
    (∀ id, id ∈ g.liveIds ↔ id ∈ names ∧
      (∃ source ∈ names, source.isInput ∧ ReflTransGen (Joined names pairs) source id) ∧
      (∃ sink ∈ names, sink.isOutput ∧ ReflTransGen (Joined names pairs) id sink)) ∧
    g.liveIds.Nodup ∧
    g.liveIds.Pairwise (fun id id' => names.idxOf id < names.idxOf id') ∧
    (∃ turns ≤ names.length, ((turn g.successors)^[turns] (.start inputs)).queue = [] ∧
      g.reach g.successors inputs = ((turn g.successors)^[turns] (.start inputs)).seen) ∧
    (∃ turns ≤ names.length, ((turn g.predecessors)^[turns] (.start outputs)).queue = [] ∧
      g.reach g.predecessors outputs = ((turn g.predecessors)^[turns] (.start outputs)).seen) := by
  intro g inputs outputs
  have hsublist : g.liveIds.Sublist (distinct names) := live_sublist g _ _
  have hturns : g.vertices.length ≤ names.length := length_distinct_le names
  -- each search has a vertex less to go to with every turn, so it is over in time
  have hforward : Over g.successors inputs
      ((turn g.successors)^[g.vertices.length] (.start inputs)) :=
    over_iterate (fun _ hv => (List.mem_filter.mp hv).1)
      fun _ _ w hw => (mem_successors.mp hw).right_mem
  have hbackward : Over g.predecessors outputs
      ((turn g.predecessors)^[g.vertices.length] (.start outputs)) :=
    over_iterate (fun _ hv => (List.mem_filter.mp hv).1)
      fun _ _ w hw => (mem_predecessors.mp hw).left_mem
  refine ⟨fun id => ?_, (nodup_distinct names).sublist hsublist,
    (pairwise_idxOf_distinct names).sublist hsublist,
    ⟨_, hturns, hforward.queue, reach_eq _ _ _⟩, ⟨_, hturns, hbackward.queue, reach_eq _ _ _⟩⟩
  rw [liveIds, mem_live, joined_eq]
  simp only [g, mem_vertices_ofLists]

end Digraph
end SignalBoard
