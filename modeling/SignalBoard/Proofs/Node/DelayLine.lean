import SignalBoard.Proofs.Node.Memory
import Mathlib.Data.List.Induction

/-!
# Nodes with memory are delay lines

What goes into a node with memory comes out again, in the same order, a fixed number of calls later
(`NodeKind.lag`):

```lean
theorem evaluate_delayed (hkind : kind.isStateful = true) … (past : List (List Binary64)) … :
    … ∧ ∃ out, (kind.evaluate params inputs (outputCount + 1) memory').1
        = Signal.clamp out :: List.replicate outputCount .zero ∧ …
```

A ring is looked at as the list of what it is still to give out, beginning behind the cursor
(`NodeMemory.backlog`). Then nothing is left of cursors and slots, and one call is the law of a
queue: what comes out, followed by the new backlog, is the old backlog followed by what goes in
(`shift_backlog`). After any calls the backlog is the one of the beginning with all that has been
taken in behind it, less one value for every call (`backlog_memoryAfter`). So a call gives out
either what was there at the start (`outputs_of_backlog`) or what has been taken in since
(`outputs_of_taken`).
-/

namespace SignalBoard

open Signal

/-- After how many calls a node with memory gives out what it has taken in. -/
def NodeKind.lag (kind : NodeKind) (params : Params) : Nat :=
  match kind with
  | .memory => 1
  | .delay => params.subdivisions
  | _ => 0

namespace NodeMemory

/-- What memory gives out before anything that it has yet to take in: of a ring the slots after the
cursor and then those before it. The slot at the cursor is written before it is read. -/
def backlog : NodeMemory → List Binary64
  | stateless => []
  | latch value => [value]
  | delay buffer cursor => buffer.drop (cursor.toNat + 1) ++ buffer.take cursor.toNat

variable {kind : NodeKind} {params : Params} {m : NodeMemory}

/-- As many values are waiting as calls go by before a value comes out. -/
theorem BelongsTo.length_backlog (h : m.BelongsTo kind params) :
    m.backlog.length = kind.lag params := by
  cases m with
  | stateless =>
    cases kind with
    | memory => cases h
    | delay => cases h
    | _ => rfl
  | latch value =>
    obtain rfl : kind = .memory := h
    rfl
  | delay buffer cursor =>
    obtain ⟨rfl, hlength, hcursor⟩ := h
    rw [backlog, List.length_append, List.length_drop, List.length_take, NodeKind.lag]
    omega

/-- The backlog of a ring that is taken apart at its cursor. -/
theorem backlog_split {front back : List Binary64} {slot : Binary64} {cursor : UInt64}
    (hfront : front.length = cursor.toNat) :
    (delay (front ++ slot :: back) cursor).backlog = back ++ front := by
  rw [backlog, ← hfront, List.take_left, ← List.drop_drop, List.drop_left]
  rfl

/-- The backlog of a ring goes round it, beginning right after the cursor. -/
theorem getElem?_backlog_delay {buffer : List Binary64} {cursor : UInt64} {k : Nat}
    (hcursor : cursor.toNat < buffer.length) (hk : k + 1 < buffer.length) :
    (delay buffer cursor).backlog[k]? = buffer[(cursor.toNat + 1 + k) % buffer.length]? := by
  rw [backlog, List.getElem?_append, List.length_drop]
  by_cases hfront : cursor.toNat + 1 + k < buffer.length
  · rw [if_pos (by omega), List.getElem?_drop, Nat.mod_eq_of_lt hfront]
  · -- the index runs over the end of the buffer, once
    have hround : (cursor.toNat + 1 + k) % buffer.length
        = k - (buffer.length - (cursor.toNat + 1)) := by
      rw [Nat.mod_eq_sub_mod (by omega), Nat.mod_eq_of_lt (by omega)]
      omega
    rw [if_neg (by omega), List.getElem?_take, if_pos (by omega), hround]

theorem backlog_fresh (kind : NodeKind) (params : Params) :
    (fresh kind params).backlog = List.replicate (kind.lag params) .zero := by
  have hring : ∀ size : Nat, (delay (List.replicate (size + 1) .zero) 0).backlog
      = List.replicate size .zero := by
    intro size
    simp [backlog]
  cases kind with
  | delay => exact hring _
  | _ => rfl

/-- What a ring gives out and still holds, taken apart at the slot that is read. -/
theorem read_split {front back : List Binary64} {slot : Binary64} {place : Nat}
    (hfront : front.length = place) (hplace : place < UInt64.size) :
    valueAt (front ++ slot :: back) place
        :: (delay (front ++ slot :: back) (UInt64.ofNat place)).backlog
      = slot :: (back ++ front) := by
  have hword : (UInt64.ofNat place).toNat = place := UInt64.toNat_ofNat_of_lt' hplace
  rw [backlog_split (hfront.trans hword.symm), ← hfront]
  refine congrArg (· :: _) (valueAt_eq_of_getElem? ?_)
  rw [List.getElem?_append_right (Nat.le_refl _), Nat.sub_self, List.getElem?_cons_zero]

/-- **The law of a queue**: what comes out is the first value of the backlog with the value that
goes in behind it, and the rest is the new backlog. -/
theorem BelongsTo.shift_backlog (h : m.BelongsTo kind params) (hkind : kind.isStateful = true)
    (value : Binary64) : (m.shift value).1 :: (m.shift value).2.backlog = m.backlog ++ [value] := by
  cases m with
  | stateless =>
    rw [BelongsTo, hkind] at h
    cases h
  | latch previous => rfl
  | delay buffer cursor =>
    obtain ⟨-, hlength, hcursor⟩ := h
    have hmax : params.subdivisions ≤ 256 := Params.subdivisions_le params
    have hsize : UInt64.size = 18446744073709551616 := rfl
    -- the ring is taken apart at the slot that is written
    obtain ⟨front, slot, back, rfl, hfront⟩ : ∃ front slot back,
        buffer = front ++ slot :: back ∧ front.length = cursor.toNat :=
      ⟨buffer.take cursor.toNat, buffer[cursor.toNat], buffer.drop (cursor.toNat + 1),
        by simp, by rw [List.length_take]; omega⟩
    have hwritten : (front ++ slot :: back).set cursor.toNat value = front ++ value :: back := by
      rw [← hfront, List.set_append_right _ _ (Nat.le_refl _), Nat.sub_self, List.set_cons_zero]
    have hcount : (front ++ slot :: back).length = cursor.toNat + 1 + back.length := by
      rw [List.length_append, List.length_cons, hfront]
      omega
    rw [NodeMemory.shift, hwritten, backlog_split hfront, hcount]
    dsimp only
    cases back with
    | nil =>
      -- the cursor was at the last slot and goes back to the first one
      obtain ⟨first, others, hfirst⟩ : ∃ first others, front ++ [value] = first :: others :=
        List.exists_cons_of_ne_nil (by simp)
      rw [List.length_nil, Nat.add_zero, Nat.mod_self, hfirst, List.nil_append, hfirst]
      have hread := @read_split [] others first 0 rfl (by omega)
      rwa [List.append_nil] at hread
    | cons next back =>
      have hplace : (cursor.toNat + 1) % (cursor.toNat + 1 + (next :: back).length)
          = cursor.toNat + 1 := Nat.mod_eq_of_lt (by rw [List.length_cons]; omega)
      have hsplit : front ++ value :: next :: back = (front ++ [value]) ++ next :: back := by simp
      rw [hplace, hsplit, read_split (by rw [List.length_append, hfront]; rfl) (by omega)]
      simp

/-- Memory in the right shape is kept as it is. -/
theorem BelongsTo.fitted_eq (h : m.BelongsTo kind params) (hkind : kind.isStateful = true) :
    m.fitted kind params = m := by
  rw [fitted, if_pos (fits_iff.mpr ⟨hkind, h⟩)]

end NodeMemory

namespace NodeKind

open NodeMemory

/-- The memory of a node after calls on a sequence of inputs. -/
def memoryAfter (kind : NodeKind) (params : Params) (outputCount : Nat) (memory : NodeMemory)
    (past : List (List Binary64)) : NodeMemory :=
  past.foldl (fun memory inputs => (kind.evaluate params inputs outputCount memory).2) memory

variable {kind : NodeKind}

/-- The last call shifts in what is on the first port. -/
theorem memoryAfter_concat (hkind : kind.isStateful = true) (params : Params) (outputCount : Nat)
    (memory : NodeMemory) (past : List (List Binary64)) (inputs : List Binary64) :
    kind.memoryAfter params outputCount memory (past ++ [inputs])
      = (((kind.memoryAfter params outputCount memory past).fitted kind params).shift
          (clamp (valueAt inputs 0))).2 := by
  rw [memoryAfter, List.foldl_append, List.foldl_cons, List.foldl_nil, ← memoryAfter,
    evaluate_of_isStateful hkind]

/-- **A run of a queue**: after any calls the backlog is the first one and all that has been taken
in, less one value for every call. -/
theorem backlog_memoryAfter (hkind : kind.isStateful = true) (params : Params) (outputCount : Nat)
    (memory : NodeMemory) (past : List (List Binary64)) :
    ((kind.memoryAfter params outputCount memory past).fitted kind params).backlog
      = ((memory.fitted kind params).backlog
          ++ past.map fun inputs => clamp (valueAt inputs 0)).drop past.length := by
  -- by induction on the calls, the last one first: it shifts one more value in, and by the law of a
  -- queue the head of the backlog goes out
  induction past using List.reverseRecOn with
  | nil => rw [List.map_nil, List.append_nil]; rfl
  | append_singleton past inputs ih =>
    have hbefore := fitted_belongsTo kind params (kind.memoryAfter params outputCount memory past)
    have hshift := hbefore.shift_backlog hkind (clamp (valueAt inputs 0))
    rw [ih, ← List.drop_append_of_le_length (by simp), List.append_assoc] at hshift
    rw [memoryAfter_concat hkind, (hbefore.shift _).fitted_eq hkind, List.map_append,
      List.length_append, List.length_singleton, ← List.tail_drop]
    exact congrArg List.tail hshift

/-- What comes out next. -/
theorem getElem?_shift_memoryAfter (hkind : kind.isStateful = true) (params : Params)
    (outputCount : Nat) (memory : NodeMemory) (past : List (List Binary64)) (inputs : List Binary64) :
    ((memory.fitted kind params).backlog
        ++ (past ++ [inputs]).map fun inputs => clamp (valueAt inputs 0))[past.length]?
      = some (((kind.memoryAfter params outputCount memory past).fitted kind params).shift
          (clamp (valueAt inputs 0))).1 := by
  have hshift := (fitted_belongsTo kind params
    (kind.memoryAfter params outputCount memory past)).shift_backlog hkind (clamp (valueAt inputs 0))
  rw [backlog_memoryAfter hkind, ← List.drop_append_of_le_length (by simp), List.append_assoc]
    at hshift
  -- the head of the queue is what has come there after as many calls
  have hhead := congrArg List.head? hshift
  rw [List.head?_cons, List.head?_drop] at hhead
  rw [List.map_append]
  exact hhead.symm

/-- One value comes out on the first port, and zeros on all others. -/
theorem outputs_of_isStateful (hkind : kind.isStateful = true) (params : Params)
    (inputs : List Binary64) (outputCount : Nat) (memory : NodeMemory) :
    (kind.evaluate params inputs (outputCount + 1) memory).1
      = clamp ((memory.fitted kind params).shift (clamp (valueAt inputs 0))).1
          :: List.replicate outputCount .zero := by
  rw [evaluate_of_isStateful hkind, fit, List.take_succ_cons, List.take_nil, List.length_singleton,
    Nat.add_sub_cancel, List.singleton_append]

/-- The first `lag` calls give out the backlog of the start. -/
theorem outputs_of_backlog (hkind : kind.isStateful = true) (params : Params) (outputCount : Nat)
    (memory : NodeMemory) (past : List (List Binary64)) (inputs : List Binary64)
    (hpast : past.length < kind.lag params) :
    ∃ out, (memory.fitted kind params).backlog[past.length]? = some out ∧
      (kind.evaluate params inputs (outputCount + 1)
          (kind.memoryAfter params (outputCount + 1) memory past)).1
        = clamp out :: List.replicate outputCount .zero := by
  have hheld := (fitted_belongsTo kind params memory).length_backlog
  have hnext := getElem?_shift_memoryAfter hkind params (outputCount + 1) memory past inputs
  rw [List.getElem?_append_left (hheld ▸ hpast)] at hnext
  exact ⟨_, hnext, outputs_of_isStateful hkind params inputs outputCount _⟩

/-- All later calls give out what has been taken in `lag` calls before. -/
theorem outputs_of_taken (hkind : kind.isStateful = true) (params : Params) (outputCount : Nat)
    (memory : NodeMemory) (past : List (List Binary64)) (inputs : List Binary64)
    (hpast : kind.lag params ≤ past.length) :
    ∃ out, ((past ++ [inputs]).map fun inputs => valueAt inputs 0)[past.length - kind.lag params]?
        = some out ∧
      (kind.evaluate params inputs (outputCount + 1)
          (kind.memoryAfter params (outputCount + 1) memory past)).1
        = clamp out :: List.replicate outputCount .zero := by
  have hheld := (fitted_belongsTo kind params memory).length_backlog
  have hnext := getElem?_shift_memoryAfter hkind params (outputCount + 1) memory past inputs
  have htaken : ((past ++ [inputs]).map fun inputs => clamp (valueAt inputs 0))
      = ((past ++ [inputs]).map fun inputs => valueAt inputs 0).map clamp := by
    rw [List.map_map]
    rfl
  rw [List.getElem?_append_right (hheld ▸ hpast), hheld, htaken, List.getElem?_map,
    Option.map_eq_some_iff] at hnext
  obtain ⟨out, hout, hclamped⟩ := hnext
  refine ⟨out, hout, ?_⟩
  -- a value is clamped when it goes in and once more when it comes out
  rw [outputs_of_isStateful hkind, ← hclamped, clamp_clamp]

/-- The backlog of the start is zeros if the memory does not fit, and what the memory holds if it
does. -/
theorem of_getElem?_backlog_fitted (hkind : kind.isStateful = true) {params : Params}
    {memory : NodeMemory} {k : Nat} {out : Binary64}
    (hout : (memory.fitted kind params).backlog[k]? = some out) :
    (memory.fits kind params = false → out = .zero) ∧
      (memory.fits kind params = true →
        (∀ value, memory = .latch value → out = value) ∧
        ∀ buffer cursor, memory = .delay buffer cursor →
          buffer[(cursor.toNat + 1 + k) % buffer.length]? = some out) := by
  -- memory that does not fit is replaced by fresh memory
  constructor
  · intro hfits
    rw [fitted, if_neg (by simp [hfits]), backlog_fresh] at hout
    exact (List.mem_replicate.mp (List.mem_of_getElem? hout)).2
  · intro hfits
    have hmemory : memory.BelongsTo kind params := (fits_iff.mp hfits).2
    have hk := (List.getElem?_eq_some_iff.mp hout).1
    rw [(fitted_belongsTo kind params memory).length_backlog] at hk
    rw [hmemory.fitted_eq hkind] at hout
    refine ⟨fun value hvalue => ?_, fun buffer cursor hring => ?_⟩
    · rw [hvalue] at hout
      exact List.mem_singleton.mp (List.mem_of_getElem? hout)
    · rw [hring] at hmemory hout
      obtain ⟨rfl, hlength, hcursor⟩ := hmemory
      rwa [getElem?_backlog_delay hcursor (by rw [hlength]; exact Nat.succ_lt_succ hk)] at hout

/-- **Nodes with memory are delay lines.** Whatever memory such a node starts with and whatever goes
in, no call goes beside the ring, and on its first port the node gives out what it has taken in
`lag` calls ago, clamped. The first `lag` calls give out what the memory at the start still holds,
of a ring the slots in the order beginning right after the cursor, or zeros if that memory does not
fit. -/
theorem evaluate_delayed (hkind : kind.isStateful = true) (params : Params) (outputCount : Nat)
    (memory : NodeMemory) (past : List (List Binary64)) (inputs : List Binary64) :
    let before := kind.memoryAfter params (outputCount + 1) memory past
    let taken := (past ++ [inputs]).map fun inputs => valueAt inputs 0
    (before.fitted kind params).BelongsTo kind params ∧
      (∀ buffer cursor, before.fitted kind params = .delay buffer cursor →
        cursor.toNat < buffer.length ∧ (cursor.toNat + 1) % buffer.length < buffer.length) ∧
      ∃ out, (kind.evaluate params inputs (outputCount + 1) before).1
          = clamp out :: List.replicate outputCount .zero ∧
        (kind.lag params ≤ past.length → taken[past.length - kind.lag params]? = some out) ∧
        (past.length < kind.lag params →
          (memory.fits kind params = false → out = .zero) ∧
          (memory.fits kind params = true →
            (∀ value, memory = .latch value → out = value) ∧
            ∀ buffer cursor, memory = .delay buffer cursor →
              buffer[(cursor.toNat + 1 + past.length) % buffer.length]? = some out)) := by
  intro before taken
  have hbefore : (before.fitted kind params).BelongsTo kind params := fitted_belongsTo kind params _
  refine ⟨hbefore, fun buffer cursor hring => ?_, ?_⟩
  · rw [hring] at hbefore
    obtain ⟨-, -, hcursor⟩ := hbefore
    exact ⟨hcursor, Nat.mod_lt _ (Nat.zero_lt_of_lt hcursor)⟩
  · -- before the lag is over what comes out was there at the start, afterwards it has been taken in
    rcases Nat.lt_or_ge past.length (kind.lag params) with hpast | hpast
    · obtain ⟨out, hheld, houtputs⟩ :=
        outputs_of_backlog hkind params outputCount memory past inputs hpast
      exact ⟨out, houtputs, fun hle => absurd hpast (Nat.not_lt.mpr hle),
        fun _ => of_getElem?_backlog_fitted hkind hheld⟩
    · obtain ⟨out, htaken, houtputs⟩ :=
        outputs_of_taken hkind params outputCount memory past inputs hpast
      exact ⟨out, houtputs, fun _ => htaken, fun hlt => absurd hpast (Nat.not_le.mpr hlt)⟩

/-- A delay by two calls, whose ring has its cursor in the middle and holds an infinity. The first
two calls give out what is behind the cursor, the third one what the first one has taken in. -/
theorem evaluate_delayed_ring :
    let params : Params := .ofList [("subdivisions", .number 2)]
    let memory : NodeMemory := .delay [.infinity, 5, 9] 1
    let past : List (List Binary64) := [[250], []]
    delay.isStateful = true ∧ memory.fits delay params = true ∧ delay.lag params = 2 ∧
      (delay.evaluate params [250] 2 memory).1 = [9, .zero] ∧
      (delay.evaluate params [] 2 (delay.memoryAfter params 2 memory [[250]])).1 = [100, .zero] ∧
      (delay.evaluate params [3] 2 (delay.memoryAfter params 2 memory past)).1 = [100, .zero] := by
  intro params memory past
  have hlag : delay.lag params = 2 := by decide +kernel
  have hfits : memory.fits delay params = true := by decide +kernel
  have hclamped : clamp .infinity = 100 ∧ clamp 250 = 100 ∧ clamp 9 = 9 := by decide +kernel
  have hkind : delay.isStateful = true := rfl
  refine ⟨hkind, hfits, hlag, ?_, ?_, ?_⟩
  · obtain ⟨-, -, out, hout, -, hstart⟩ := evaluate_delayed hkind params 1 memory [] [250]
    obtain rfl : 9 = out := Option.some.inj (((hstart (by rw [hlag]; decide)).2 hfits).2 _ _ rfl)
    exact hout.trans (by rw [hclamped.2.2]; rfl)
  · obtain ⟨-, -, out, hout, -, hstart⟩ := evaluate_delayed hkind params 1 memory [[250]] []
    obtain rfl : .infinity = out :=
      Option.some.inj (((hstart (by rw [hlag]; decide)).2 hfits).2 _ _ rfl)
    exact hout.trans (by rw [hclamped.1]; rfl)
  · obtain ⟨-, -, out, hout, htaken, -⟩ := evaluate_delayed hkind params 1 memory past [3]
    have htaken := htaken (by rw [hlag]; decide)
    rw [hlag] at htaken
    obtain rfl : 250 = out := Option.some.inj htaken
    exact hout.trans (by rw [hclamped.2.1]; rfl)

end NodeKind
end SignalBoard
