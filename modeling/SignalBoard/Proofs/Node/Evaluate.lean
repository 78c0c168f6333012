import SignalBoard.Node.Evaluate
import SignalBoard.Proofs.OrderedMap
import SignalBoard.Proofs.Signal

/-!
# What every kind of node has in common

Four facts about one call of a node, whatever its kind.

* `evaluate_normalized`: a node computes the same from its parameters as they were given and from
  the parameters that a document can hold.
* `evaluate_allSignals`: nothing but signals leaves a node.
* `evaluate_congr`: of what comes in, a node sees nothing but the nearest signals.
* `evaluate_quiet`: a node whose memory holds nothing but zeros makes zeros of zeros, and its memory
  still holds nothing but zeros.
-/

namespace SignalBoard

open Signal Binary64

/-! ## Parameters -/

/-- A number that is put out of a document is one that no node reads. -/
theorem ParamValue.finite?_normalized (v : ParamValue) : v.normalized.finite? = v.finite? := by
  cases v with
  | number x =>
    rw [ParamValue.normalized]
    by_cases h : x.isFinite = true
    · rw [if_pos h]
    · rw [if_neg h]
      simp [ParamValue.finite?, ParamValue.toBinary64?, Option.filter, h]
  | bool b => rfl
  | text s => rfl
  | null => rfl

/-- Every number that a node reads is the same before and after a document. -/
@[simp] theorem Params.number_normalized (params : Params) (key : String) (default : Binary64) :
    params.normalized.number key default = params.number key default := by
  rw [Params.number, Params.number, Params.normalized, OrderedMap.get?_mapValues]
  cases params.get? key with
  | none => rfl
  | some v =>
    rw [Option.map_some, Option.bind_some, Option.bind_some, ParamValue.finite?_normalized]

/-- The length of a delay is one of these numbers. -/
@[simp] theorem Params.subdivisions_normalized (params : Params) :
    params.normalized.subdivisions = params.subdivisions := by
  rw [Params.subdivisions, Params.number_normalized, ← Params.subdivisions]

namespace NodeMemory

/-- The memory that a node starts with is the same as well. -/
@[simp] theorem fresh_normalized (kind : NodeKind) (params : Params) :
    fresh kind params.normalized = fresh kind params := by
  cases kind <;> simp [fresh]

/-- Memory fits after a document just if it fits before. -/
@[simp] theorem fitted_normalized (kind : NodeKind) (params : Params) (m : NodeMemory) :
    m.fitted kind params.normalized = m.fitted kind params := by
  have hfits : m.fits kind params.normalized = m.fits kind params := by
    cases kind <;> cases m <;> simp [fits]
  rw [fitted, fitted, hfits, fresh_normalized]

end NodeMemory

namespace NodeKind

/-- The rules read nothing of the parameters but numbers. -/
@[simp] theorem combine_normalized (kind : NodeKind) (params : Params) (inputs : List Binary64)
    (outputCount : Nat) :
    kind.combine params.normalized inputs outputCount = kind.combine params inputs outputCount := by
  cases kind <;> simp [combine]

/-- A node does the same with parameters that have been through a document. -/
@[simp] theorem evaluate_normalized (kind : NodeKind) (params : Params) (inputs : List Binary64)
    (outputCount : Nat) (memory : NodeMemory) :
    kind.evaluate params.normalized inputs outputCount memory
      = kind.evaluate params inputs outputCount memory := by
  simp only [evaluate, NodeMemory.fitted_normalized, combine_normalized]

/-! ## Signals -/

/-- A node gives one value for each of its output ports. -/
@[simp] theorem length_evaluate (kind : NodeKind) (params : Params) (inputs : List Binary64)
    (outputCount : Nat) (memory : NodeMemory) :
    (kind.evaluate params inputs outputCount memory).1.length = outputCount := by
  rw [evaluate]
  split <;> exact length_fit _ _

/-- Nothing but signals leaves a node. -/
theorem evaluate_allSignals (kind : NodeKind) (params : Params) (inputs : List Binary64)
    (outputCount : Nat) (memory : NodeMemory) :
    AllSignals (kind.evaluate params inputs outputCount memory).1 := by
  rw [evaluate]
  split
  · -- what comes out of memory is clamped, and so is what a rule computes
    exact allSignals_fit _ (allSignals_map_clamp [_])
  · exact allSignals_fit _ (allSignals_map_clamp _)

/-- A node of a kind without memory does not look at the memory that it is given. -/
theorem evaluate_of_not_isStateful {kind : NodeKind} (h : kind.isStateful = false)
    (params : Params) (inputs : List Binary64) (outputCount : Nat) (memory : NodeMemory) :
    kind.evaluate params inputs outputCount memory
      = ((kind.evaluate params inputs outputCount .stateless).1, memory) := by
  simp [evaluate, h]

/-- A node with memory shifts the value on its first port in. -/
theorem evaluate_of_isStateful {kind : NodeKind} (h : kind.isStateful = true) (params : Params)
    (inputs : List Binary64) (outputCount : Nat) (memory : NodeMemory) :
    let shifted := (memory.fitted kind params).shift (clamp (valueAt inputs 0))
    kind.evaluate params inputs outputCount memory
      = (fit outputCount [clamp shifted.1], shifted.2) := by
  rw [evaluate, if_pos h, valueAt_map_clamp]

/-- Nodes do not tell inputs apart that are nearest to the same signals. -/
theorem evaluate_congr (kind : NodeKind) (params : Params) {inputs inputs' : List Binary64}
    (h : inputs.map Signal.clamp = inputs'.map Signal.clamp) (outputCount : Nat)
    (memory : NodeMemory) :
    kind.evaluate params inputs outputCount memory
      = kind.evaluate params inputs' outputCount memory := by
  rw [evaluate, evaluate, h]

/-- **A node takes in signals and answers with signals**, one for each of its output ports. Whatever
comes in, it leaves the same outputs and the same memory as the nearest signals would, and a node
without memory does not touch the memory that it is given. What the rules compute does not matter
here, since it is clamped before it leaves. -/
theorem evaluate_clamped (kind : NodeKind) (params : Params) (inputs : List Binary64)
    (outputCount : Nat) (memory : NodeMemory) :
    (kind.evaluate params inputs outputCount memory).1.length = outputCount ∧
      (∀ x ∈ (kind.evaluate params inputs outputCount memory).1, IsSignal x) ∧
      kind.evaluate params (inputs.map Signal.clamp) outputCount memory
        = kind.evaluate params inputs outputCount memory ∧
      (kind ≠ .memory → kind ≠ .delay →
        (kind.evaluate params inputs outputCount memory).2 = memory) := by
  refine ⟨length_evaluate kind params inputs outputCount memory,
    allSignals_iff.mp (evaluate_allSignals kind params inputs outputCount memory),
    evaluate_congr kind params ?_ outputCount memory, fun hmemory hdelay => ?_⟩
  · rw [List.map_map]
    exact List.map_congr_left fun x _ => clamp_clamp x
  · have hkind : kind.isStateful = false := by
      cases kind with
      | memory => exact absurd rfl hmemory
      | delay => exact absurd rfl hdelay
      | _ => rfl
    rw [evaluate_of_not_isStateful hkind]

/-- An average over a NaN, an infinity, a negative zero and a signal, next to memory of another
kind. -/
theorem evaluate_clamped_average :
    let inputs : List Binary64 := [.nan, .infinity, .negZero, 60]
    let memory : NodeMemory := .delay [.nan] 7
    inputs.map Signal.clamp = [.zero, 100, .zero, 60] ∧
      (average.evaluate .empty inputs 2 memory).1 = [40, .zero] ∧
      average.evaluate .empty [.zero, 100, .zero, 60] 2 memory
        = average.evaluate .empty inputs 2 memory ∧
      (∀ x ∈ (average.evaluate .empty inputs 2 memory).1, IsSignal x) ∧
      average ≠ .memory ∧ average ≠ .delay ∧
      (average.evaluate .empty inputs 2 memory).2 = memory := by
  intro inputs memory
  have hclamped : inputs.map Signal.clamp = [.zero, 100, .zero, 60] := by decide +kernel
  have houtputs : (average.evaluate .empty inputs 2 memory).1 = [40, .zero] := by decide +kernel
  have hmemory : average ≠ .memory := by decide
  have hdelay : average ≠ .delay := by decide
  obtain ⟨-, hsignals, hsame, hkept⟩ := evaluate_clamped average .empty inputs 2 memory
  rw [hclamped] at hsame
  exact ⟨hclamped, houtputs, hsame, hsignals, hmemory, hdelay, hkept hmemory hdelay⟩

end NodeKind

/-! ## Zeros -/

namespace NodeMemory

/-- All that a memory holds is zero. -/
def Quiet : NodeMemory → Prop
  | stateless => True
  | latch value => value = .zero
  | delay buffer _ => AllZero buffer

theorem fresh_quiet (kind : NodeKind) (params : Params) : (fresh kind params).Quiet := by
  cases kind <;> simp [fresh, Quiet, allZero_replicate]

/-- Memory that does not fit is replaced by zeros. -/
theorem fitted_quiet (kind : NodeKind) (params : Params) {m : NodeMemory} (h : m.Quiet) :
    (m.fitted kind params).Quiet := by
  rw [fitted]
  split
  · exact h
  · exact fresh_quiet kind params

/-- A zero that goes in leaves zeros, and a zero comes out. -/
theorem shift_quiet {m : NodeMemory} (h : m.Quiet) :
    (m.shift .zero).1 = .zero ∧ (m.shift .zero).2.Quiet := by
  cases m with
  | stateless => exact ⟨rfl, trivial⟩
  | latch value => exact ⟨h, rfl⟩
  | delay buffer cursor =>
    have hwritten : AllZero (buffer.set cursor.toNat .zero) := by
      intro x hx
      exact (List.mem_or_eq_of_mem_set hx).elim (h x) id
    exact ⟨hwritten.valueAt _, hwritten⟩

end NodeMemory

namespace NodeKind

theorem saturate_zero : saturate .zero = .zero := rfl

/-- No level is low enough for a zero to pass it. -/
theorem gate_zero (level : Binary64) : gate level .zero = .zero := by
  have hbound : ¬ level.clamp .zero highest < .zero := by
    rw [Binary64.clamp]
    by_cases hlow : level < .zero
    · rw [if_pos hlow]
      decide
    · rw [if_neg hlow]
      split
      · decide +kernel
      · exact hlow
  simp only [gate, if_neg hbound, if_neg (not_zero_lt_neg hbound)]

/-- Every rule makes zeros or NaNs of zeros. -/
theorem combine_isNaught (kind : NodeKind) (params : Params) {inputs : List Binary64}
    (h : AllZero inputs) (outputCount : Nat) :
    ∀ x ∈ kind.combine params inputs outputCount, x.IsNaught := by
  -- sums, maxima and minima are folds over the inputs
  have hfold : ∀ (f : Binary64 → Binary64 → Binary64),
      (∀ x y, x.IsNaught → y.IsNaught → (f x y).IsNaught) →
      ∀ (xs : List Binary64) (x : Binary64), AllZero xs → x.IsNaught →
        (xs.foldl f x).IsNaught := by
    intro f hf xs
    induction xs with
    | nil => exact fun x _ hx => hx
    | cons y ys ih =>
      intro x hxs hx
      refine ih (f x y) (fun z hz => hxs z (List.mem_cons_of_mem _ hz)) (hf x y hx ?_)
      rw [hxs y List.mem_cons_self]
      exact isNaught_zero
  have hneg : (-Binary64.zero).IsNaught := .inr rfl
  -- the two operands
  have ha : Signal.valueAt inputs 0 = .zero := h.valueAt 0
  have hb : Signal.valueAt inputs 1 = .zero := h.valueAt 1
  intro x hx
  -- kind by kind; the kinds without a rule put nothing on their ports
  cases kind <;> simp only [combine, ha, hb] at hx
  case invert => rw [List.mem_singleton.mp hx]; exact hneg
  case multiply => rw [List.mem_singleton.mp hx]; exact (isNaught_zero.mul _).div _
  case mix =>
    rw [List.mem_singleton.mp hx]
    exact (isNaught_zero.mul _).add (isNaught_zero.mul _)
  case threshold => rw [List.mem_singleton.mp hx, gate_zero]; exact isNaught_zero
  case amp => rw [List.mem_singleton.mp hx]; exact isNaught_zero.mul _
  case offset => rw [List.mem_singleton.mp hx]; exact isNaught_zero.add isNaught_zero
  case polarizer => rw [List.mem_singleton.mp hx, saturate_zero]; exact isNaught_zero
  case diverter =>
    have hhalf : x = .zero / 2 := by simpa using hx
    rw [hhalf]
    exact isNaught_zero.div _
  case duplicate => rw [(List.mem_replicate.mp hx).2]; exact isNaught_zero
  case average =>
    split at hx
    · cases hx
    · rw [List.mem_singleton.mp hx]
      exact (hfold _ (fun _ _ => IsNaught.add) inputs .zero h isNaught_zero).div _
  case max =>
    cases inputs with
    | nil => cases hx
    | cons y ys =>
      rw [List.mem_singleton.mp hx]
      refine hfold _ (fun _ _ => IsNaught.larger) ys y
        (fun z hz => h z (List.mem_cons_of_mem _ hz)) ?_
      rw [h y List.mem_cons_self]
      exact isNaught_zero
  case min =>
    cases inputs with
    | nil => cases hx
    | cons y ys =>
      rw [List.mem_singleton.mp hx]
      refine hfold _ (fun _ _ => IsNaught.smaller) ys y
        (fun z hz => h z (List.mem_cons_of_mem _ hz)) ?_
      rw [h y List.mem_cons_self]
      exact isNaught_zero
  case divide => rw [List.mem_singleton.mp hx]; exact isNaught_zero
  case connectionInput => rw [List.mem_singleton.mp hx]; exact isNaught_zero
  case connectionOutput => rw [List.mem_singleton.mp hx]; exact isNaught_zero
  all_goals cases hx

/-- **Zeros in, zeros out.** A node whose memory holds nothing but zeros makes zeros of zeros. -/
theorem evaluate_quiet (kind : NodeKind) (params : Params) {inputs : List Binary64}
    (h : AllZero inputs) (outputCount : Nat) {memory : NodeMemory} (hm : memory.Quiet) :
    AllZero (kind.evaluate params inputs outputCount memory).1 ∧
      (kind.evaluate params inputs outputCount memory).2.Quiet := by
  rw [evaluate, h.map_clamp]
  split
  · rw [h.valueAt 0]
    obtain ⟨hout, hafter⟩ := NodeMemory.shift_quiet (NodeMemory.fitted_quiet kind params hm)
    refine ⟨allZero_fit outputCount fun x hx => ?_, hafter⟩
    rw [List.mem_singleton.mp hx, hout, clamp_zero]
  · -- a NaN is clamped to zero before it leaves
    exact ⟨allZero_fit_clamp outputCount (combine_isNaught kind params h outputCount), hm⟩

end NodeKind
end SignalBoard
