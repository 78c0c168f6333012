import SignalBoard.Proofs.Board.Pruning
import SignalBoard.Proofs.Board.Snapshot

/-!
# What a cycle run records

A cycle run goes through the live part of a board alone, and yet its record can be read as one of
the whole board: where no two wires lead into one port, a live wire carries in every cycle what the
whole board has on the port at its source, and the live nodes end up with the same memory.

* `CycleRecord.wireValues_foldl`: a run notes one value for every wire and cycle.
* `Board.unshadowed_of_singleFed`: where ports are fed by one wire alone, none hides another.
* `Board.memories_perm_of_agree`: evaluators that keep the same for the live ids list the same
  memories for them.
* `Board.runCycles_record`: the record, said of the evaluator of the whole board.
-/

namespace SignalBoard

open Evaluator

/-! ## Noting values -/

namespace CycleRecord

variable {values : OrderedMap WireId (List Binary64)} {wires : List Wire} {f : Wire → Binary64}

/-- Noting a value puts it at the end of one entry and leaves the other entries alone. -/
theorem get?_note (values : OrderedMap WireId (List Binary64)) (id id' : WireId) (x : Binary64) :
    (note values id x).get? id' =
      if id' = id then some ((values.get? id).getD [] ++ [x]) else values.get? id' := by
  unfold note
  exact OrderedMap.get?_insert _ _ _ _

/-- To note something for wires that have an entry makes no new entry. -/
theorem keys_foldl_note (h : ∀ wire ∈ wires, wire.id ∈ values.keys) :
    (wires.foldl (fun values wire => note values wire.id (f wire)) values).keys = values.keys := by
  -- by induction on the wires; the keys are the same again after each, so the assumption carries
  -- over
  induction wires generalizing values with
  | nil => rfl
  | cons wire rest ih =>
    have hkeys : (note values wire.id (f wire)).keys = values.keys := by
      unfold note
      rw [OrderedMap.keys_insert, if_pos (h wire List.mem_cons_self)]
    rw [List.foldl_cons, ih, hkeys]
    intro other hother
    rw [hkeys]
    exact h other (List.mem_cons_of_mem _ hother)

/-- Where no wire has an id, nothing is noted for it. -/
theorem get?_foldl_note_of_not_mem {id : WireId} (h : id ∉ wires.map (·.id)) :
    (wires.foldl (fun values wire => note values wire.id (f wire)) values).get? id
      = values.get? id := by
  induction wires generalizing values with
  | nil => rfl
  | cons wire rest ih =>
    rw [List.map_cons, List.mem_cons, not_or] at h
    rw [List.foldl_cons, ih h.2, get?_note, if_neg h.1]

/-- With distinct wire ids every wire gets its own value at the end of its entry. -/
theorem get?_foldl_note (hn : (wires.map (·.id)).Nodup) {wire : Wire} (hwire : wire ∈ wires) :
    (wires.foldl (fun values wire => note values wire.id (f wire)) values).get? wire.id
      = some ((values.get? wire.id).getD [] ++ [f wire]) := by
  induction wires generalizing values with
  | nil => cases hwire
  | cons head rest ih =>
    rw [List.map_cons, List.nodup_cons] at hn
    rw [List.foldl_cons]
    rcases List.mem_cons.mp hwire with rfl | hrest
    · -- no later wire has the id, so what is noted first stays last
      rw [get?_foldl_note_of_not_mem hn.1, get?_note, if_pos rfl]
    · have hne : wire.id ≠ head.id :=
        fun heq => hn.1 (heq ▸ List.mem_map.mpr ⟨wire, hrest, rfl⟩)
      rw [ih hn.2 hrest, get?_note, if_neg hne]

/-- What is noted does not bear on the evaluator of a run, which goes through the calls. -/
theorem evaluator_foldl (analysis : Analysis) (wires : List Wire)
    (sequence : List (List Binary64)) (run : Run) :
    (sequence.foldl (Run.cycle analysis wires) run).evaluator = run.evaluator.after sequence := by
  induction sequence generalizing run with
  | nil => rfl
  | cons inputs rest ih => exact ih _

/-- **One value for every wire and cycle.** By induction on the cycles, the last one first: it puts
what the wire carries after it at the end. -/
theorem wireValues_foldl (analysis : Analysis) (hn : (wires.map (·.id)).Nodup) {run : Run}
    (hkeys : run.wireValues.keys = wires.map (·.id)) (sequence : List (List Binary64)) :
    let done := sequence.foldl (Run.cycle analysis wires) run
    done.wireValues.keys = wires.map (·.id) ∧ ∀ wire ∈ wires, done.wireValues.get? wire.id
      = some ((run.wireValues.get? wire.id).getD [] ++ (List.range sequence.length).map fun k =>
          carried analysis (run.evaluator.after (sequence.take (k + 1))) wire) := by
  induction sequence using List.reverseRecOn with
  | nil =>
    refine ⟨hkeys, fun wire hwire => ?_⟩
    have hkey : wire.id ∈ run.wireValues.keys := by
      rw [hkeys]
      exact List.mem_map.mpr ⟨wire, hwire, rfl⟩
    obtain ⟨values, hvalues⟩ := OrderedMap.exists_get?_of_mem_keys hkey
    rw [List.foldl_nil, hvalues]
    simp
  | append_singleton sequence inputs ih =>
    obtain ⟨hkeysbefore, hvalues⟩ := ih
    intro done
    have hdone : done.wireValues = wires.foldl (fun values wire => note values wire.id
        (carried analysis (run.evaluator.after (sequence ++ [inputs])) wire))
        (sequence.foldl (Run.cycle analysis wires) run).wireValues := by
      show ((sequence ++ [inputs]).foldl _ run).wireValues = _
      rw [List.foldl_append, after_concat, ← evaluator_foldl analysis wires]
      rfl
    refine ⟨?_, fun wire hwire => ?_⟩
    · rw [hdone, keys_foldl_note, hkeysbefore]
      intro wire hwire
      rw [hkeysbefore]
      exact List.mem_map.mpr ⟨wire, hwire, rfl⟩
    · -- the values of the cycles before have been noted already
      have hbefore : ((List.range sequence.length).map fun k =>
          carried analysis (run.evaluator.after ((sequence ++ [inputs]).take (k + 1))) wire)
            = (List.range sequence.length).map fun k =>
          carried analysis (run.evaluator.after (sequence.take (k + 1))) wire := by
        refine List.map_congr_left fun k hk => ?_
        rw [List.mem_range] at hk
        rw [List.take_append_of_le_length (by omega)]
      have hlast : (sequence ++ [inputs]).take (sequence.length + 1) = sequence ++ [inputs] :=
        List.take_of_length_le (by rw [List.length_append, List.length_singleton])
      rw [hdone, get?_foldl_note hn hwire, hvalues wire hwire, Option.getD_some,
        List.length_append, List.length_singleton, List.range_succ, List.map_append, hbefore,
        List.map_singleton, hlast, List.append_assoc]

end CycleRecord

/-! ## Listed memories -/

namespace Evaluator

/-- For an id without a step nothing is kept. -/
theorem holdingOf_of_not_mem {e : Evaluator} {id : NodeId} (h : id ∉ e.processingOrder) :
    e.holdingOf id = .memory .stateless := by
  have hnone : e.steps.find? (·.id = id) = none := by
    rw [List.find?_eq_none]
    intro step hstep hid
    exact h (List.mem_map.mpr ⟨step, hstep, by simpa using hid⟩)
  rw [holdingOf, hnone]

/-- No memory is listed twice, as every id has one step. -/
theorem Regular.nodup_memories {e : Evaluator} (h : e.Regular) : e.memories.Nodup := by
  have hids : (e.memories.map Prod.fst).Sublist (e.steps.map (·.id)) := by
    rw [memories, List.map_map]
    exact List.filter_sublist.map _
  exact (h.nodup.sublist hids).of_map

end Evaluator

namespace Board

variable {board : Board} {ports : PortCounts} {library : Library} {analysis : Analysis}

/-- A baked board goes through its ids, now and after any calls. -/
theorem mem_processingOrder (hkeyed : board.nodes.KeyedById)
    (h : board.analyse ports = .ok analysis) {circuit : Circuit}
    (hbake : board.bake ports library = .ok circuit) (past : List (List Binary64)) {id : NodeId} :
    id ∈ ((ofCircuit circuit).after past).processingOrder ↔ id ∈ board.nodes.ids ports := by
  obtain rfl : board.circuitOf library analysis ports = circuit :=
    Except.ok.inj ((bake_of_analyse h).symm.trans hbake)
  have hlaid := (laidOut_ofCircuit library hkeyed h).1.after (nodup_order h) (forward_order h) past
  have hids : ((ofCircuit (board.circuitOf library analysis ports)).after past).processingOrder
      = analysis.order := hlaid.ids
  rw [hids, mem_order h]

/-- Evaluators of which one knows live ids alone, and which keep the same for these, list the same
memories for live ids. -/
theorem memories_perm_of_agree {e e' : Evaluator} (h : e.Regular) (h' : e'.Regular)
    (hknown : ∀ id ∈ e.processingOrder, ¬ id.isConnectionPoint → analysis.isLive id)
    (hkept : ∀ id, analysis.isLive id → ¬ id.isConnectionPoint →
      e.holdingOf id = e'.holdingOf id) :
    e.memories.Perm (e'.memories.filter fun entry => analysis.isLive entry.1) := by
  -- neither side lists anything twice, so it is enough that they list the same
  rw [List.perm_ext_iff_of_nodup h.nodup_memories (h'.nodup_memories.filter _)]
  rintro ⟨id, m⟩
  rw [List.mem_filter, h.mem_memories, h'.mem_memories]
  by_cases hpoint : id.isConnectionPoint
  · -- a connection point keeps nothing in either
    rw [h.holdingOf_connectionPoint hpoint, h'.holdingOf_connectionPoint hpoint]
    constructor
    · rintro ⟨hm, hlisted⟩
      cases hm
      cases hlisted
    · rintro ⟨⟨hm, hlisted⟩, -⟩
      cases hm
      cases hlisted
  · by_cases hlive : analysis.isLive id
    · rw [hkept id hlive hpoint]
      simp [hlive]
    · have hunknown : id ∉ e.processingOrder := fun hid => hlive (hknown id hid hpoint)
      rw [holdingOf_of_not_mem hunknown]
      constructor
      · rintro ⟨hm, hlisted⟩
        cases hm
        cases hlisted
      · rintro ⟨-, hfalse⟩
        exact absurd hfalse hlive

/-! ## The record -/

/-- A wire that has its port to itself hides no other. -/
theorem unshadowed_of_singleFed
    (hsingle : (board.wires.map fun wire => (wire.target.node, wire.target.port)).Nodup) :
    board.Unshadowed ports analysis := by
  intro wire hwire _ _
  by_contra hhides
  simp only [hides, Bool.not_eq_false, Bool.and_eq_true, Bool.not_eq_true', List.any_eq_true,
    decide_eq_true_eq] at hhides
  obtain ⟨hdead, other, hother, ⟨hlive, hnode⟩, hport⟩ := hhides
  -- both wires lead into the one port, so they are the same wire, which cannot be live and not live
  obtain rfl : other = wire :=
    List.inj_on_of_nodup_map hsingle hother hwire (Prod.ext hnode hport)
  rw [hdead] at hlive
  cases hlive

/-- A run begins with one empty entry for each wire, in the order of the wires. -/
theorem keys_startRun (hdistinct : (board.wires.map (·.id)).Nodup) (circuit : Circuit) :
    (board.startRun circuit).wireValues.keys = board.wires.map (·.id) ∧
      ∀ wire ∈ board.wires, (board.startRun circuit).wireValues.get? wire.id = some [] := by
  have hids : (board.wires.map fun wire => (wire.id, ([] : List Binary64))).map Prod.fst
      = board.wires.map (·.id) := by
    rw [List.map_map]
    rfl
  have hentries : (board.startRun circuit).wireValues.entries
      = board.wires.map fun wire => (wire.id, []) := by
    show (OrderedMap.ofList _).entries = _
    rw [OrderedMap.ofList, OrderedMap.entries_foldl_insert]
    · rfl
    · show (List.map Prod.fst (List.map _ board.wires)).Nodup
      rw [hids]
      exact hdistinct
  constructor
  · rw [OrderedMap.keys, hentries, hids]
  · intro wire hwire
    rw [OrderedMap.get?_eq_some_iff, hentries]
    exact List.mem_map.mpr ⟨wire, hwire, rfl⟩

/-- **A cycle run records what the whole board does**, although it runs the live part alone. Every
wire has an entry of its own with one value for each cycle: a live wire has what the evaluator of
the whole board shows on the port at its source after the cycle, any other wire zero. The memories
are those of that evaluator, as far as they are those of live nodes. -/
theorem runCycles_record (hkeyed : board.nodes.KeyedById)
    (hacyclic : (board.digraph ports).Acyclic)
    (hdistinct : (board.wires.map (·.id)).Nodup)
    (hsingle : (board.wires.map fun wire => (wire.target.node, wire.target.port)).Nodup)
    (library : Library) (sequence : List (List Binary64)) :
    ∃ analysis circuit record, board.analyse ports = .ok analysis ∧
      board.bake ports library = .ok circuit ∧
      board.runCycles ports library sequence = .ok record ∧
      record.live = analysis.live ∧
      record.wireValues.keys = board.wires.map (·.id) ∧
      (∀ wire ∈ board.wires, record.wireValues.get? wire.id
        = some ((List.range sequence.length).map fun k =>
            if analysis.isLive wire.source.node ∧ analysis.isLive wire.target.node then
              (((ofCircuit circuit).after (sequence.take (k + 1))).portValue?
                wire.source.node wire.source.port).getD .zero
            else .zero)) ∧
      record.memories.Perm (((ofCircuit circuit).after sequence).memories.filter
        fun entry => analysis.isLive entry.1) := by
  obtain ⟨analysis, h⟩ := exists_analyse_iff.mpr hacyclic
  obtain ⟨part, record, hbakepart, hpart, hok, -, hvalues, hlive, hmemories⟩ :=
    exists_livePart_run hkeyed h library sequence
  obtain ⟨circuit, hbake, hrun, -⟩ := exists_laidOut hkeyed hacyclic library
  have hacyclicpart := acyclic_livePart analysis hacyclic
  -- a port that only one wire leads into hides nothing, so the live part runs like the whole board
  have hreads := (readsAlike_self_iff h).mpr (unshadowed_of_singleFed hsingle)
  have hagree := hreads.agree h hacyclicpart hacyclic hpart hrun
  obtain ⟨hkeys, hempty⟩ := keys_startRun hdistinct part
  obtain ⟨hkeysdone, hnoted⟩ := CycleRecord.wireValues_foldl analysis hdistinct hkeys sequence
  refine ⟨analysis, circuit, record, h, hbake, hok, hlive, by rw [hvalues, hkeysdone],
    fun wire hwire => ?_, ?_⟩
  · rw [hvalues, hnoted wire hwire, hempty wire hwire, Option.getD_some, List.nil_append]
    refine congrArg some (List.map_congr_left fun k hk => ?_)
    -- the cycle is the last one of those up to it
    obtain ⟨inputs, hsplit⟩ : ∃ inputs, sequence.take (k + 1) = sequence.take k ++ [inputs] :=
      ⟨_, List.take_succ_eq_append_getElem (List.mem_range.mp hk)⟩
    unfold CycleRecord.carried Analysis.isLiveWire
    by_cases hends : analysis.isLive wire.source.node ∧ analysis.isLive wire.target.node
    · have hsame := (hagree (sequence.take k)).2 inputs wire.source.node
        (mem_ids_livePart_of_isLive h hends.1)
      rw [if_pos hends, if_pos (by simpa using hends), portValue?_eq, portValue?_eq, hsplit,
        after_concat, after_concat, ← hsame]
      rfl
    · -- what is not live is not evaluated at all: the record says zero by definition
      rw [if_neg hends, if_neg (by simpa using hends)]
  · rw [hmemories, CycleRecord.evaluator_foldl]
    refine memories_perm_of_agree (regular_after part sequence) (regular_after circuit sequence)
      (fun id hid hordinary => ?_) (fun id hid hordinary => ?_)
    · obtain ⟨analysispart, hpartanalysis⟩ := exists_analyse_iff.mpr hacyclicpart
      have hmem := (mem_processingOrder (keyedById_livePart analysis hkeyed) hpartanalysis hbakepart
        sequence).mp hid
      exact (mem_ids_livePart.mp hmem).2.resolve_left hordinary
    · exact (hagree sequence).1 id (mem_ids_livePart_of_isLive h hid) hordinary

/-- An input that is held back and given out. What is added to it comes from an inverter that
nothing reaches, the second outside output reads a port that is not there, and a memory at the side
has the input, too, but leads nowhere. -/
def tapped : Board where
  nodes := .ofList [
    (⟨"mute"⟩, .ofKind ⟨"mute"⟩ .invert),
    (⟨"hold"⟩, .ofKind ⟨"hold"⟩ .memory),
    (⟨"sum"⟩, .ofKind ⟨"sum"⟩ .offset),
    (⟨"side"⟩, .ofKind ⟨"side"⟩ .memory)]
  wires := [
    .between ⟨"w1"⟩ (.input 0) 0 ⟨"hold"⟩ 0,
    .between ⟨"w2"⟩ ⟨"hold"⟩ 0 ⟨"sum"⟩ 0,
    .between ⟨"w3"⟩ ⟨"mute"⟩ 0 ⟨"sum"⟩ 1,
    .between ⟨"w4"⟩ ⟨"sum"⟩ 0 (.output 0) 0,
    .between ⟨"w5"⟩ ⟨"hold"⟩ 7 (.output 1) 0,
    .between ⟨"w6"⟩ (.input 0) 0 ⟨"side"⟩ 0]

/-- One memory is live and one is not. The wire into the live one carries what the whole board shows
there, and the wire from the inverter, which nothing reaches, is recorded with zeros. -/
theorem runCycles_record_tapped :
    tapped.nodes.KeyedById ∧ (tapped.digraph ⟨1, 2⟩).Acyclic ∧
      (tapped.wires.map (·.id)).Nodup ∧
      (tapped.wires.map fun wire => (wire.target.node, wire.target.port)).Nodup ∧
      ∀ sequence, ∃ analysis circuit record, tapped.analyse ⟨1, 2⟩ = .ok analysis ∧
        tapped.bake ⟨1, 2⟩ .empty = .ok circuit ∧
        tapped.runCycles ⟨1, 2⟩ .empty sequence = .ok record ∧
        analysis.live = [.input 0, ⟨"hold"⟩, ⟨"sum"⟩, .output 1, .output 0] ∧
        record.wireValues.get? ⟨"w2"⟩ = some ((List.range sequence.length).map fun k =>
          (((ofCircuit circuit).after (sequence.take (k + 1))).portValue? ⟨"hold"⟩ 0).getD .zero) ∧
        record.wireValues.get? ⟨"w3"⟩
          = some ((List.range sequence.length).map fun _ => .zero) ∧
        record.memories.Perm (((ofCircuit circuit).after sequence).memories.filter
          fun entry => analysis.isLive entry.1) := by
  have hkeyed : tapped.nodes.KeyedById := by decide +kernel
  have hacyclic : (tapped.digraph ⟨1, 2⟩).Acyclic := by decide +kernel
  have hdistinct : (tapped.wires.map (·.id)).Nodup := by decide +kernel
  have hsingle : (tapped.wires.map fun wire => (wire.target.node, wire.target.port)).Nodup := by
    decide +kernel
  have hlive : (tapped.analyse ⟨1, 2⟩).map Analysis.live
      = .ok [.input 0, ⟨"hold"⟩, ⟨"sum"⟩, .output 1, .output 0] := by decide +kernel
  refine ⟨hkeyed, hacyclic, hdistinct, hsingle, fun sequence => ?_⟩
  obtain ⟨analysis, circuit, record, h, hbake, hok, -, -, hvalues, hmemories⟩ :=
    runCycles_record hkeyed hacyclic hdistinct hsingle .empty sequence
  rw [h] at hlive
  have hlive : analysis.live = [.input 0, ⟨"hold"⟩, ⟨"sum"⟩, .output 1, .output 0] :=
    Except.ok.inj hlive
  have hw2 := hvalues (.between ⟨"w2"⟩ ⟨"hold"⟩ 0 ⟨"sum"⟩ 0) (by decide +kernel)
  have hw3 := hvalues (.between ⟨"w3"⟩ ⟨"mute"⟩ 0 ⟨"sum"⟩ 1) (by decide +kernel)
  unfold Analysis.isLive at hw2 hw3
  rw [hlive] at hw2 hw3
  exact ⟨analysis, circuit, record, h, hbake, hok, hlive, hw2, hw3, hmemories⟩

end Board
end SignalBoard
