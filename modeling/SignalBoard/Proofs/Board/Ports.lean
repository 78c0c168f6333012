import SignalBoard.Proofs.Board.Counting
import SignalBoard.Proofs.Board.Layout

/-!
# Which wires a bake keeps

The outside ports of a board are counted by reading the ids that it mentions, and the ids of the
ports are then written anew from the counts. So an id that reads as a connection point takes part
only if it is spelled as it would be written, and if the count can go beyond its index at all
(`NodeId.isProper`). `cp:input:00` reads as outside input 0 and makes the board have one, but the id
that takes part is `cp:input:0`, and a wire from `cp:input:00` is left out.

* `mem_ids_inferredPorts`: which of the ids that a board mentions take part.
* `bake_inferredPorts`: what becomes of the wires.
-/

namespace SignalBoard

/-- Whether an id, if it reads as a connection point, is the id of this connection point and not of
the last one there is, which no count goes beyond. -/
def NodeId.isProper (id : NodeId) : Bool :=
  match id.connectionPoint? with
  | some (.input n) => id = .input n && n + 1 ≠ 0
  | some (.output n) => id = .output n && n + 1 ≠ 0
  | none => true

/-! ## Taking part -/

namespace NodeMap

variable {nodes : NodeMap} {ports : PortCounts} {id : NodeId}

/-- An ordinary id takes part if it is a key. -/
theorem mem_ids_of_ordinary (h : ¬ id.isConnectionPoint) :
    id ∈ nodes.ids ports ↔ id ∈ nodes.keys := by
  rw [mem_ids]
  constructor
  · rintro (⟨n, -, rfl⟩ | ⟨hkey, -⟩ | ⟨n, -, rfl⟩)
    · exact absurd (NodeId.isConnectionPoint_input n) h
    · exact hkey
    · exact absurd (NodeId.isConnectionPoint_output n) h
  · exact fun hkey => .inr (.inl ⟨hkey, h⟩)

/-- However an index is spelled, one spelling of it takes part. -/
theorem mem_ids_of_input {n : UInt64} (h : id.connectionPoint? = some (.input n)) :
    id ∈ nodes.ids ports ↔ id = .input n ∧ n < ports.inputs := by
  constructor
  · intro hid
    obtain ⟨m, hm, rfl⟩ := (isInput_iff_of_mem_ids hid).mp (NodeId.isInput_iff.mpr ⟨n, h⟩)
    rw [NodeId.connectionPoint?_input] at h
    cases h
    exact ⟨rfl, hm⟩
  · rintro ⟨rfl, hn⟩
    exact input_mem_ids.mpr hn

theorem mem_ids_of_output {n : UInt64} (h : id.connectionPoint? = some (.output n)) :
    id ∈ nodes.ids ports ↔ id = .output n ∧ n < ports.outputs := by
  constructor
  · intro hid
    obtain ⟨m, hm, rfl⟩ := (isOutput_iff_of_mem_ids hid).mp (NodeId.isOutput_iff.mpr ⟨n, h⟩)
    rw [NodeId.connectionPoint?_output] at h
    cases h
    exact ⟨rfl, hm⟩
  · rintro ⟨rfl, hn⟩
    exact output_mem_ids.mpr hn

end NodeMap

/-! ## Keeping wires -/

namespace Board

variable {board : Board} {id : NodeId}

/-- Beyond an index that has been counted there is only the first one again. -/
theorem lt_count_iff {n count : UInt64} (h : n + 1 ≤ count) : n < count ↔ n + 1 ≠ 0 := by
  constructor <;> grind

/-- Of the ids that a board mentions, its nodes and its proper connection points take part. -/
theorem mem_ids_inferredPorts (h : id ∈ board.mentioned) :
    id ∈ board.nodes.ids board.inferredPorts ↔
      (id ∈ board.nodes.keys ∨ id.isConnectionPoint) ∧ id.isProper := by
  have hcovers := covers_inferredPorts h
  rw [PortCounts.Covers] at hcovers
  -- an ordinary id is a key or not; a connection point has been counted, since it is mentioned
  cases hpoint : id.connectionPoint? with
  | none =>
    have hordinary : ¬ id.isConnectionPoint := by simp [NodeId.isConnectionPoint, hpoint]
    rw [NodeMap.mem_ids_of_ordinary hordinary]
    simp [NodeId.isConnectionPoint, NodeId.isProper, hpoint]
  | some point =>
    rw [hpoint] at hcovers
    cases point with
    | input n =>
      rw [NodeMap.mem_ids_of_input hpoint, lt_count_iff hcovers]
      simp [NodeId.isConnectionPoint, NodeId.isProper, hpoint]
    | output n =>
      rw [NodeMap.mem_ids_of_output hpoint, lt_count_iff hcovers]
      simp [NodeId.isConnectionPoint, NodeId.isProper, hpoint]

/-- Whether both ends of a wire are proper. -/
def isProperWire (wire : Wire) : Bool :=
  wire.source.node.isProper && wire.target.node.isProper

/-- **Which wires a bake keeps.** Where every end of a wire is a node or reads as a connection
point, the wires between proper ids are kept, in their order, and the others are lost. -/
theorem bake_inferredPorts (hacyclic : (board.digraph board.inferredPorts).Acyclic)
    (hends : ∀ wire ∈ board.wires, ∀ id ∈ [wire.source.node, wire.target.node],
      id ∈ board.nodes.keys ∨ id.isConnectionPoint) (library : Library) :
    ∃ circuit, board.bake board.inferredPorts library = .ok circuit ∧
      circuit.edges = (board.wires.filter isProperWire).map Edge.ofWire ∧
      (∀ edge ∈ circuit.edges, edge.source ∈ circuit.order ∧ edge.target ∈ circuit.order) ∧
      (circuit.edges = board.wires.map Edge.ofWire ↔
        ∀ wire ∈ board.wires, isProperWire wire) := by
  obtain ⟨analysis, hanalysis⟩ := exists_analyse_iff.mpr hacyclic
  have hmem : ∀ wire ∈ board.wires, ∀ id ∈ [wire.source.node, wire.target.node],
      id ∈ analysis.order ↔ id.isProper := by
    intro wire hwire id hid
    have hmentioned : id ∈ board.mentioned :=
      List.mem_append_right _ (List.mem_flatMap.mpr ⟨wire, hwire, hid⟩)
    rw [mem_order hanalysis, mem_ids_inferredPorts hmentioned]
    exact and_iff_right (hends wire hwire id hid)
  have hsource := fun wire hwire => hmem wire hwire wire.source.node List.mem_cons_self
  have htarget := fun wire hwire =>
    hmem wire hwire wire.target.node (List.mem_cons_of_mem _ List.mem_cons_self)
  -- to be kept, both ends of a wire must be in the order
  have hedges : (board.circuitOf library analysis board.inferredPorts).edges
      = (board.wires.filter isProperWire).map Edge.ofWire := by
    refine congrArg (List.map Edge.ofWire) (List.filter_congr fun wire hwire => ?_)
    rw [Bool.eq_iff_iff, isProperWire, Bool.and_eq_true, Bool.and_eq_true, decide_eq_true_eq,
      decide_eq_true_eq, hsource wire hwire, htarget wire hwire]
  refine ⟨_, bake_of_analyse hanalysis, hedges, fun edge hedge => ?_, ?_⟩
  · rw [hedges] at hedge
    obtain ⟨wire, hkept, rfl⟩ := List.mem_map.mp hedge
    obtain ⟨hwire, hproper⟩ := List.mem_filter.mp hkept
    rw [isProperWire, Bool.and_eq_true] at hproper
    exact ⟨(hsource wire hwire).mpr hproper.1, (htarget wire hwire).mpr hproper.2⟩
  · rw [hedges]
    constructor
    · -- if nothing has been left out, the list is as long as before
      intro hall
      have hlength := congrArg List.length hall
      rw [List.length_map, List.length_map] at hlength
      exact List.length_filter_eq_length_iff.mp hlength
    · intro hall
      rw [List.filter_eq_self.mpr hall]

/-- A node between two outside ports. -/
def plain : Board where
  nodes := .ofList [(⟨"turn"⟩, .ofKind ⟨"turn"⟩ .invert)]
  wires := [.between ⟨"w1"⟩ (.input 1) 0 ⟨"turn"⟩ 0, .between ⟨"w2"⟩ ⟨"turn"⟩ 0 (.output 0) 0]

theorem bake_inferredPorts_plain :
    (plain.digraph plain.inferredPorts).Acyclic ∧
      (∀ wire ∈ plain.wires, ∀ id ∈ [wire.source.node, wire.target.node],
        id ∈ plain.nodes.keys ∨ id.isConnectionPoint) ∧
      ∃ circuit, plain.bake plain.inferredPorts .empty = .ok circuit ∧
        circuit.edges = plain.wires.map Edge.ofWire := by
  have hacyclic : (plain.digraph plain.inferredPorts).Acyclic := by decide +kernel
  have hends : ∀ wire ∈ plain.wires, ∀ id ∈ [wire.source.node, wire.target.node],
      id ∈ plain.nodes.keys ∨ id.isConnectionPoint := by decide +kernel
  have hproper : ∀ wire ∈ plain.wires, isProperWire wire := by decide +kernel
  obtain ⟨circuit, hbake, -, -, hall⟩ := bake_inferredPorts hacyclic hends .empty
  exact ⟨hacyclic, hends, circuit, hbake, hall.mpr hproper⟩

/-- A wire between two outside ports, the first one spelled with two zeros. -/
def padded : Board where
  nodes := .empty
  wires := [.between ⟨"w"⟩ ⟨"cp:input:00"⟩ 0 (.output 0) 0]

/-- The board has one outside input, since there is one at the end of the wire; but the wire does
not lead out of it. -/
theorem bake_padded :
    padded.nodes.KeyedById ∧ (padded.digraph padded.inferredPorts).Acyclic ∧
      (∀ wire ∈ padded.wires, ∀ id ∈ [wire.source.node, wire.target.node],
        id ∈ padded.nodes.keys ∨ id.isConnectionPoint) ∧
      padded.inferredPorts = ⟨1, 1⟩ ∧
      (padded.bake padded.inferredPorts .empty).map (fun circuit => (circuit.order, circuit.edges))
        = .ok ([.input 0, .output 0], []) ∧
      padded.wires.map Edge.ofWire ≠ [] := by
  refine ⟨by decide +kernel, by decide +kernel, by decide +kernel, by decide +kernel, ?_,
    by decide +kernel⟩
  rfl

end Board
end SignalBoard
