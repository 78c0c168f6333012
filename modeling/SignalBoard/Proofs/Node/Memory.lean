import SignalBoard.Proofs.Node.Evaluate

/-!
# What memory looks like between calls

The memory that a node keeps from call to call is that of its kind, and a ring has one slot more
than the node lags behind and its cursor at one of them (`BelongsTo`). Fresh memory is like that,
and so is memory that has been called or reset, so a ring is never written or read beside its slots.
The values in it are signals, because a node clamps what it takes in.
-/

namespace SignalBoard

open Signal

/-- There is an upper limit for the calls that a node lags behind. -/
theorem Params.subdivisions_le (params : Params) :
    Params.subdivisions params ≤ Params.maxSubdivisions :=
  Nat.min_le_right _ _

namespace NodeMemory

/-- Memory that a node of the kind and with the parameters keeps. -/
def BelongsTo (kind : NodeKind) (params : Params) : NodeMemory → Prop
  | stateless => kind.isStateful = false
  | latch _ => kind = .memory
  | delay buffer cursor =>
    kind = .delay ∧ buffer.length = params.subdivisions + 1 ∧ cursor.toNat < buffer.length

/-- The values that are kept. -/
def values : NodeMemory → List Binary64
  | stateless => []
  | latch value => [value]
  | delay buffer _ => buffer

variable {kind : NodeKind} {params : Params} {m : NodeMemory}

/-! ## Shape -/

theorem fresh_belongsTo (kind : NodeKind) (params : Params) :
    (fresh kind params).BelongsTo kind params := by
  cases kind <;> simp [BelongsTo, fresh, NodeKind.isStateful]

/-- The test that a call makes on its memory is this property, for kinds with memory. -/
theorem fits_iff : m.fits kind params = true ↔ kind.isStateful = true ∧ m.BelongsTo kind params := by
  cases m <;> cases kind <;> simp [fits, BelongsTo, NodeKind.isStateful]

/-- Memory that does not fit is replaced, so what a call works on belongs to the node. -/
theorem fitted_belongsTo (kind : NodeKind) (params : Params) (m : NodeMemory) :
    (m.fitted kind params).BelongsTo kind params := by
  unfold fitted
  split
  · next hfits => exact (fits_iff.mp hfits).2
  · exact fresh_belongsTo kind params

/-- A ring steps on from slot to slot. -/
theorem BelongsTo.shift (h : m.BelongsTo kind params) (value : Binary64) :
    (m.shift value).2.BelongsTo kind params := by
  cases m with
  | stateless => exact h
  | latch previous => exact h
  | delay buffer cursor =>
    obtain ⟨hkind, hlength, -⟩ := h
    have hmax : params.subdivisions ≤ 256 := Params.subdivisions_le params
    have hnext : (cursor.toNat + 1) % buffer.length < buffer.length := Nat.mod_lt _ (by omega)
    -- a ring is short, so its next place is also a machine number
    have hcursor : (UInt64.ofNat ((cursor.toNat + 1) % buffer.length)).toNat
        = (cursor.toNat + 1) % buffer.length := by
      rw [UInt64.toNat_ofNat']
      omega
    refine ⟨hkind, ?_, ?_⟩
    · rw [List.length_set, hlength]
    · rw [hcursor, List.length_set]
      exact hnext

/-- A reset empties a ring without changing its length, and puts the cursor at the first slot. -/
theorem BelongsTo.reset (h : m.BelongsTo kind params) : m.reset.BelongsTo kind params := by
  cases m with
  | stateless => exact h
  | latch value => exact h
  | delay buffer cursor =>
    obtain ⟨hkind, hlength, -⟩ := h
    -- the cursor is at the first slot, and there is one
    refine ⟨hkind, ?_, ?_⟩
    · rw [List.length_replicate, hlength]
    · rw [List.length_replicate, hlength]
      exact Nat.succ_pos _

/-! ## Values -/

theorem Quiet.allZero (h : m.Quiet) : AllZero m.values := by
  cases m with
  | stateless => exact fun x hx => absurd hx List.not_mem_nil
  | latch value => exact fun x hx => (List.mem_singleton.mp hx).trans h
  | delay buffer cursor => exact h

/-- Fresh memory holds signals, namely zeros. -/
theorem fresh_values (kind : NodeKind) (params : Params) : AllSignals (fresh kind params).values :=
  (fresh_quiet kind params).allZero.allSignals

/-- What a call works on holds signals, if what it was given does. -/
theorem fitted_values (kind : NodeKind) (params : Params) (h : AllSignals m.values) :
    AllSignals (m.fitted kind params).values := by
  unfold fitted
  split
  · exact h
  · exact fresh_values kind params

/-- A signal that is taken in leaves signals. -/
theorem shift_values (h : AllSignals m.values) {value : Binary64} (hvalue : clamp value = value) :
    AllSignals (m.shift value).2.values := by
  cases m with
  | stateless => exact h
  | latch previous => exact AllSignals.set h 0 hvalue
  | delay buffer cursor => exact h.set _ hvalue

/-- After a reset there are signals, namely zeros. -/
theorem reset_values (m : NodeMemory) : AllSignals m.reset.values := by
  have hquiet : m.reset.Quiet := by
    cases m with
    | stateless => trivial
    | latch value => rfl
    | delay buffer cursor => exact allZero_replicate _
  exact hquiet.allZero.allSignals

end NodeMemory

namespace NodeKind

open NodeMemory

/-- A call keeps memory in shape, and brings memory into shape that is not. -/
theorem evaluate_belongsTo (kind : NodeKind) (params : Params) (inputs : List Binary64)
    (outputCount : Nat) {memory : NodeMemory}
    (h : kind.isStateful = true ∨ memory.BelongsTo kind params) :
    (kind.evaluate params inputs outputCount memory).2.BelongsTo kind params := by
  unfold evaluate
  -- a kind with memory takes something in; any other leaves what it is given
  split
  · exact (fitted_belongsTo kind params memory).shift _
  · next hkind => exact h.resolve_left hkind

/-- Nothing but signals is kept, whatever comes in. -/
theorem evaluate_values (kind : NodeKind) (params : Params) (inputs : List Binary64)
    (outputCount : Nat) {memory : NodeMemory} (h : AllSignals memory.values) :
    AllSignals (kind.evaluate params inputs outputCount memory).2.values := by
  unfold evaluate
  split
  · exact shift_values (fitted_values kind params h) ((allSignals_map_clamp inputs).clamp_valueAt 0)
  · exact h

end NodeKind
end SignalBoard
