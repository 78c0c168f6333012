import SignalBoard.Proofs.Board.Analysis

/-!
# The ids of a board and the counts of its ports

The ids that take part in running a board are spelled out here: the outside inputs by number, the
ordinary ids of the nodes in their order, the outside outputs by number. No id comes twice. A
written number is read back (`NodeId.connectionPoint?_input`), so the ids of outside ports differ
among each other and from all ids that are ordinary.

How many outside ports there are is read off the ids that a board mentions, each connection point
raising the count of its side beyond its index. The counts that come out are the least ones that
suffice for the board (`PortCounts.SufficeFor`).

* `NodeMap.nodup_ids`, `NodeMap.map_text_ids`: the ids.
* `PortCounts.Covers`: what raising the counts to an id means; it is kept from one id to the next
  (`Covers.cover`), and counts that have it for all ids bound the counts that are reached
  (`foldl_cover_le`).
* `nodup_ids_isLeast_inferredPorts`: the two together.
-/

namespace SignalBoard

/-! ## Every id once -/

/-- Numbered ids are distinct if the numbering is one-to-one. -/
theorem nodup_map_range {f : UInt64 → NodeId} (hf : ∀ {m n}, f m = f n → m = n) (count : UInt64) :
    ((List.range count.toNat).map fun n => f (UInt64.ofNat n)).Nodup := by
  refine List.Nodup.map_on (fun m hm n hn heq => ?_) List.nodup_range
  obtain ⟨v, -, hv, hm⟩ := exists_word_lt (List.mem_range.mp hm)
  obtain ⟨w, -, hw, hn⟩ := exists_word_lt (List.mem_range.mp hn)
  rw [hv, hw] at heq
  rw [← hm, ← hn, hf heq]

namespace NodeMap

/-- **No id comes twice** among those that take part. -/
theorem nodup_ids (nodes : NodeMap) (ports : PortCounts) : (nodes.ids ports).Nodup := by
  rw [ids, List.nodup_append', List.nodup_append']
  refine ⟨⟨nodup_map_range NodeId.input_injective ports.inputs, nodes.nodup_keys.filter _, ?_⟩,
    nodup_map_range NodeId.output_injective ports.outputs, ?_⟩
  · -- a key that was kept reads as no connection point, but the id of an input reads as one
    intro id hinput hordinary
    obtain ⟨n, -, rfl⟩ := List.mem_map.mp hinput
    simpa using (List.mem_filter.mp hordinary).2
  · intro id hid houtput
    obtain ⟨n, -, rfl⟩ := List.mem_map.mp houtput
    rcases List.mem_append.mp hid with hinput | hordinary
    · -- an output could only be met among the inputs or the ordinary keys
      obtain ⟨m, -, heq⟩ := List.mem_map.mp hinput
      exact NodeId.input_ne_output _ _ heq
    · simpa using (List.mem_filter.mp hordinary).2

/-- The texts of numbered ids are the mark and the number. -/
theorem map_text_range (mark : String) {f : UInt64 → NodeId}
    (hf : ∀ n, (f n).text = mark ++ toString n.toNat) (count : UInt64) :
    ((List.range count.toNat).map fun n => f (UInt64.ofNat n)).map NodeId.text
      = (List.range count.toNat).map fun n => mark ++ toString n := by
  rw [List.map_map]
  refine List.map_congr_left fun n hn => ?_
  -- the number is below a word, so to turn it into a word and back changes nothing
  obtain ⟨w, -, hw, hn⟩ := exists_word_lt (List.mem_range.mp hn)
  show (f (UInt64.ofNat n)).text = mark ++ toString n
  rw [hf, hw, hn]

/-- The texts of the ids, the numbers among them written out. -/
theorem map_text_ids (nodes : NodeMap) (ports : PortCounts) :
    (nodes.ids ports).map NodeId.text =
      ((List.range ports.inputs.toNat).map fun n => "cp:input:" ++ toString n) ++
      (nodes.keys.filter fun id => id.connectionPoint? = none).map NodeId.text ++
      ((List.range ports.outputs.toNat).map fun n => "cp:output:" ++ toString n) := by
  have hordinary : nodes.keys.filter (fun id => !id.isConnectionPoint)
      = nodes.keys.filter fun id => id.connectionPoint? = none := by
    refine List.filter_congr fun id _ => ?_
    cases h : id.connectionPoint? <;> simp [NodeId.isConnectionPoint, h]
  rw [ids, List.map_append, List.map_append, hordinary,
    map_text_range "cp:input:" (f := NodeId.input) (fun _ => rfl),
    map_text_range "cp:output:" (f := NodeId.output) (fun _ => rfl)]

end NodeMap

/-! ## Counting -/

/-- The maximum of two words is no smaller than the first. -/
theorem left_le_max (a b : UInt64) : a ≤ max a b := by
  show a ≤ if a ≤ b then b else a
  split
  · next h => exact h
  · exact UInt64.le_refl a

theorem right_le_max (a b : UInt64) : b ≤ max a b := by
  show b ≤ if a ≤ b then b else a
  split
  · exact UInt64.le_refl b
  · next h => exact (UInt64.le_total b a).resolve_right h

/-- Of the words that are not smaller than either of two the larger of the two is the smallest. -/
theorem max_le_of_le {a b c : UInt64} (ha : a ≤ c) (hb : b ≤ c) : max a b ≤ c := by
  show (if a ≤ b then b else a) ≤ c
  split
  · exact hb
  · exact ha

/-- An index has been counted if there is a port of it, unless it is the last index there is. -/
theorem succ_le_count_iff {n count : UInt64} :
    n + 1 ≤ count ↔ (n.toNat + 1 < UInt64.size → n < count) := by
  have hn := n.toNat_lt
  rw [UInt64.le_iff_toNat_le, UInt64.lt_iff_toNat_lt, UInt64.toNat_add]
  show (n.toNat + 1) % 2 ^ 64 ≤ count.toNat ↔ (n.toNat + 1 < 2 ^ 64 → n.toNat < count.toNat)
  by_cases hlast : n.toNat + 1 < 2 ^ 64
  · rw [Nat.mod_eq_of_lt hlast]
    omega
  · -- the index is the last one, and the first one is counted whatever the count is
    have hwrap : n.toNat + 1 = 2 ^ 64 := by omega
    rw [hwrap, Nat.mod_self]
    omega

namespace PortCounts

/-- Counts are compared side by side. -/
instance : LE PortCounts :=
  ⟨fun a b => a.inputs ≤ b.inputs ∧ a.outputs ≤ b.outputs⟩

/-- Whether an index has been counted, if an id reads as the connection point of it. After the last
index there is is the first one again. -/
def Covers (counts : PortCounts) (id : NodeId) : Prop :=
  match id.connectionPoint? with
  | some (.input n) => n + 1 ≤ counts.inputs
  | some (.output n) => n + 1 ≤ counts.outputs
  | Option.none => True

/-- Counts that have been raised to an id cover it. -/
theorem covers_cover (counts : PortCounts) (id : NodeId) : (counts.cover id).Covers id := by
  unfold Covers cover
  cases id.connectionPoint? with
  | none => trivial
  | some point =>
    cases point with
    | input n => exact right_le_max _ _
    | output n => exact right_le_max _ _

/-- Counts only ever grow. -/
theorem le_cover (counts : PortCounts) (id : NodeId) : counts ≤ counts.cover id := by
  unfold cover
  split
  · exact ⟨left_le_max _ _, UInt64.le_refl _⟩
  · exact ⟨UInt64.le_refl _, left_le_max _ _⟩
  · exact ⟨UInt64.le_refl _, UInt64.le_refl _⟩

/-- Counts grow no further than they have to. -/
theorem cover_le {counts bound : PortCounts} {id : NodeId} (h : counts ≤ bound)
    (hid : bound.Covers id) : counts.cover id ≤ bound := by
  unfold Covers at hid
  unfold cover
  cases hpoint : id.connectionPoint? with
  | none => exact h
  | some point =>
    rw [hpoint] at hid
    cases point with
    | input n => exact ⟨max_le_of_le h.1 hid, h.2⟩
    | output n => exact ⟨h.1, max_le_of_le h.2 hid⟩

/-- An id stays covered when the counts are raised to another one. -/
theorem Covers.cover {counts : PortCounts} {id : NodeId} (h : counts.Covers id) (other : NodeId) :
    (counts.cover other).Covers id := by
  obtain ⟨hinputs, houtputs⟩ := le_cover counts other
  unfold Covers at h ⊢
  cases hpoint : id.connectionPoint? with
  | none => trivial
  | some point =>
    rw [hpoint] at h
    cases point with
    | input n => exact UInt64.le_trans h hinputs
    | output n => exact UInt64.le_trans h houtputs

/-- What is counted once stays counted. -/
theorem covers_foldl {ids : List NodeId} {id : NodeId} (h : id ∈ ids) (counts : PortCounts) :
    (ids.foldl PortCounts.cover counts).Covers id := by
  induction ids using List.reverseRecOn with
  | nil => cases h
  | append_singleton front last ih =>
    rw [List.foldl_append, List.foldl_cons, List.foldl_nil]
    rcases List.mem_append.mp h with hfront | hlast
    · exact (ih hfront).cover last
    · rw [List.mem_singleton.mp hlast]
      exact covers_cover _ last

/-- Counts that cover all ids are never passed when the counts are raised to these ids one after the
other. -/
theorem foldl_cover_le {ids : List NodeId} {counts bound : PortCounts} (h : counts ≤ bound)
    (hids : ∀ id ∈ ids, bound.Covers id) : ids.foldl PortCounts.cover counts ≤ bound := by
  -- the bound is kept from one id to the next
  induction ids generalizing counts with
  | nil => exact h
  | cons id ids ih =>
    rw [List.forall_mem_cons] at hids
    exact ih (cover_le h hids.1) hids.2

theorem none_le (counts : PortCounts) : none ≤ counts :=
  ⟨UInt64.zero_le, UInt64.zero_le⟩

end PortCounts

/-! ## No port too many -/

/-- Whether a key of a node or an end of a wire reads as a connection point. -/
def Board.Mentions (board : Board) (point : ConnectionPoint) : Prop :=
  ∃ id : NodeId, (id ∈ board.nodes.keys ∨
    ∃ wire ∈ board.wires, id = wire.source.node ∨ id = wire.target.node) ∧
    id.connectionPoint? = some point

/-- Every outside port that a board mentions is there. No count goes beyond the last index there
is, so that this one is left aside. -/
structure PortCounts.SufficeFor (counts : PortCounts) (board : Board) : Prop where
  inputs : ∀ n, board.Mentions (.input n) → n.toNat + 1 < UInt64.size → n < counts.inputs
  outputs : ∀ n, board.Mentions (.output n) → n.toNat + 1 < UInt64.size → n < counts.outputs

namespace Board

variable {board : Board} {id : NodeId}

/-- The ids that a board mentions are its keys and the ends of its wires. -/
theorem mem_mentioned :
    id ∈ board.mentioned ↔ id ∈ board.nodes.keys ∨
      ∃ wire ∈ board.wires, id = wire.source.node ∨ id = wire.target.node := by
  rw [mentioned, List.mem_append, List.mem_flatMap]
  simp only [List.mem_cons, List.not_mem_nil, or_false]

/-- The inferred counts cover every id that is mentioned. -/
theorem covers_inferredPorts (h : id ∈ board.mentioned) : board.inferredPorts.Covers id :=
  PortCounts.covers_foldl h .none

/-- To suffice is to cover every id that is mentioned. -/
theorem sufficeFor_iff {counts : PortCounts} :
    counts.SufficeFor board ↔ ∀ id ∈ board.mentioned, counts.Covers id := by
  constructor
  · intro h id hid
    rw [mem_mentioned] at hid
    unfold PortCounts.Covers
    cases hpoint : id.connectionPoint? with
    | none => trivial
    | some point =>
      cases point with
      | input n => exact succ_le_count_iff.mpr (h.inputs n ⟨id, hid, hpoint⟩)
      | output n => exact succ_le_count_iff.mpr (h.outputs n ⟨id, hid, hpoint⟩)
  · intro h
    constructor
    · rintro n ⟨id, hid, hpoint⟩
      have hcovers := h id (mem_mentioned.mpr hid)
      rw [PortCounts.Covers, hpoint] at hcovers
      exact succ_le_count_iff.mp hcovers
    · rintro n ⟨id, hid, hpoint⟩
      have hcovers := h id (mem_mentioned.mpr hid)
      rw [PortCounts.Covers, hpoint] at hcovers
      exact succ_le_count_iff.mp hcovers

/-- The inferred counts suffice, and whatever suffices is no smaller on either side. -/
theorem isLeast_inferredPorts (board : Board) :
    IsLeast {counts : PortCounts | counts.SufficeFor board} board.inferredPorts := by
  constructor
  · exact sufficeFor_iff.mpr fun id hid => covers_inferredPorts hid
  · -- raising the counts from nothing never passes those that suffice
    intro counts hcounts
    exact PortCounts.foldl_cover_le (PortCounts.none_le counts) (sufficeFor_iff.mp hcounts)

/-- **Every id once, no port too many.** Whatever the counts, the ids of a board are the numbered
outside inputs, the ordinary keys of its nodes in their order and the numbered outside outputs, and
none of them comes twice. The inferred counts are the least ones, on either side, that go beyond
every index that a key or an end of a wire reads as. -/
theorem nodup_ids_isLeast_inferredPorts (board : Board) (ports : PortCounts) :
    (board.nodes.ids ports).Nodup ∧
    (board.nodes.ids ports).map NodeId.text =
      ((List.range ports.inputs.toNat).map fun n => "cp:input:" ++ toString n) ++
      (board.nodes.keys.filter fun id => id.connectionPoint? = none).map NodeId.text ++
      ((List.range ports.outputs.toNat).map fun n => "cp:output:" ++ toString n) ∧
    IsLeast {counts : PortCounts | counts.SufficeFor board} board.inferredPorts :=
  ⟨board.nodes.nodup_ids ports, board.nodes.map_text_ids ports, isLeast_inferredPorts board⟩

/-- An index counts however it is spelled, but there has to be one. -/
example : (Board.mk .empty [.between ⟨"w"⟩ ⟨"cp:input:+007"⟩ 0 ⟨"cp:output:x"⟩ 0]).inferredPorts
    = ⟨8, 0⟩ := by
  decide +kernel

end Board
end SignalBoard
