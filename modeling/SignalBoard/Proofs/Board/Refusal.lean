import SignalBoard.Proofs.Board.Pruning
import SignalBoard.Tick.Session

/-!
# One verdict on a board

A board is analysed before anything else is done with it, whether it is baked, run cycle by cycle or
played in wire time, and each of these refuses it for the loop that the analysis reports
(`refusals`). A run of cycles analyses twice, first the board and then its live part. The second
time cannot fail, for the live part has no ids and no wires that the board does not have
(`exists_bake_livePart`).
-/

namespace SignalBoard

/-- The error of something that fails. -/
def refusal? {ε α : Type} : Except ε α → Option ε
  | .error e => some e
  | .ok _ => none

section refusal

variable {ε α β : Type}

/-- What is made of a result does not change what is refused. -/
@[simp] theorem refusal?_map (result : Except ε α) (f : α → β) :
    refusal? (result.map f) = refusal? result := by
  cases result <;> rfl

/-- Nothing is refused just if there is a result. -/
theorem refusal?_eq_none_iff {result : Except ε α} :
    refusal? result = none ↔ ∃ a, result = .ok a := by
  cases result <;> simp [refusal?]

/-- What follows and does not fail refuses nothing. -/
theorem refusal?_bind {result : Except ε α} {f : α → Except ε β}
    (hf : ∀ a, result = .ok a → refusal? (f a) = none) :
    refusal? (result >>= f) = refusal? result := by
  cases result with
  | error e => rfl
  | ok a => exact hf a rfl

end refusal

namespace Board

variable {board : Board} {ports : PortCounts} {analysis : Analysis}

/-- Baking refuses what the analysis refuses. -/
theorem refusal?_bake (board : Board) (ports : PortCounts) (library : Library) :
    refusal? (board.bake ports library) = refusal? (board.analyse ports) :=
  refusal?_map _ _

/-- The live part of a board that can be analysed can be baked. -/
theorem exists_bake_livePart (h : board.analyse ports = .ok analysis) (library : Library) :
    ∃ circuit, (board.livePart analysis).bake ports library = .ok circuit := by
  have hacyclic := acyclic_livePart analysis (exists_analyse_iff.mp ⟨analysis, h⟩)
  rw [← refusal?_eq_none_iff, refusal?_bake, refusal?_eq_none_iff]
  exact exists_analyse_iff.mpr hacyclic

/-- A run of cycles refuses what the analysis refuses, although it analyses twice. -/
theorem refusal?_runCycles (board : Board) (ports : PortCounts) (library : Library)
    (sequence : List (List Binary64)) :
    refusal? (board.runCycles ports library sequence) = refusal? (board.analyse ports) := by
  refine refusal?_bind fun analysis h => ?_
  obtain ⟨circuit, hbake⟩ := exists_bake_livePart h library
  rw [hbake]
  rfl

/-- **Whatever is done with a board, it is refused for the same loop or not at all**, with declared
ports as well as with inferred ones, and it is refused if and only if its wires have a loop. The
second analysis of a run, that of the live part, refuses nothing. -/
theorem refusals (board : Board) (library : Library) (sequence : List (List Binary64))
    (config : SessionConfig) :
    (∀ declared : Option PortCounts,
      let ports := board.portsOr declared
      let verdict := refusal? (board.analyse ports)
      refusal? (board.bake ports library) = verdict ∧
      refusal? ((board.bake ports library).map Evaluator.ofCircuit) = verdict ∧
      refusal? (board.runCycles ports library sequence) = verdict ∧
      (∀ analysis, board.analyse ports = .ok analysis →
        refusal? ((board.livePart analysis).bake ports library) = none) ∧
      (verdict = none ↔ (board.digraph ports).Acyclic)) ∧
    refusal? (Session.start board config library)
      = refusal? (board.analyse (board.portsOr none)) := by
  refine ⟨fun declared => ⟨refusal?_bake board _ library, ?_,
    refusal?_runCycles board _ library sequence, fun analysis h => ?_, ?_⟩, refusal?_map _ _⟩
  · -- to build the evaluator cannot fail
    rw [refusal?_map, refusal?_bake]
  · exact refusal?_eq_none_iff.mpr (exists_bake_livePart h library)
  · rw [refusal?_eq_none_iff, exists_analyse_iff]

end Board
end SignalBoard
