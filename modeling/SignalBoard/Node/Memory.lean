import SignalBoard.Node.Param
import SignalBoard.Node.Kind
import SignalBoard.Signal
/-!
# Node memory

What a node keeps from one call to the next: nothing, the last value, or a ring of values with a
cursor. Memory belongs to a node only if it fits it; memory that does not fit, for instance because
the parameters have been changed, is replaced by fresh memory before it is used.
-/

namespace SignalBoard

namespace Params

/-- The most calls that a delay can lag behind. -/
def maxSubdivisions : Nat := 256

/-- How many calls a delay lags behind: the whole part of its parameter `subdivisions`, within
bounds. -/
def subdivisions (params : Params) : Nat :=
  -- a negative number counts as zero before its whole part is taken
  Nat.min ((params.number "subdivisions" .zero).larger .zero).floor maxSubdivisions

end Params

/-- The memory of one node. -/
inductive NodeMemory where
  | stateless
  /-- The value that a memory node took in on the previous call. -/
  | latch (value : Binary64)
  /-- The ring of a delay node and the slot that is written next. -/
  | delay (buffer : List Binary64) (cursor : UInt64)
deriving DecidableEq

namespace NodeMemory

/-- The memory of a node that has not been called yet. A delay has one slot more than it lags
behind. -/
def fresh (kind : NodeKind) (params : Params) : NodeMemory :=
  match kind with
  | .memory => latch .zero
  | .delay => delay (List.replicate (params.subdivisions + 1) .zero) 0
  | _ => stateless

/-- Forgets everything; a ring keeps its size. -/
def reset : NodeMemory → NodeMemory
  | stateless => stateless
  | latch _ => latch .zero
  | delay buffer _ => delay (List.replicate buffer.length .zero) 0

def isStateless : NodeMemory → Bool
  | stateless => true
  | _ => false

/-- Whether memory is that of a memory or delay node with the given parameters. -/
def fits (kind : NodeKind) (params : Params) (m : NodeMemory) : Bool :=
  match kind, m with
  | .memory, latch _ => true
  | .delay, delay buffer cursor =>
    buffer.length = params.subdivisions + 1 && cursor.toNat < buffer.length
  | _, _ => false

/-- The memory itself if it fits, else fresh memory. -/
def fitted (kind : NodeKind) (params : Params) (m : NodeMemory) : NodeMemory :=
  if m.fits kind params then m else fresh kind params

/-- Takes a value in and gives out the oldest one. A ring writes at its cursor, then steps on and
reads. -/
def shift (value : Binary64) : NodeMemory → Binary64 × NodeMemory
  | stateless => (.zero, stateless)
  | latch previous => (previous, latch value)
  | delay buffer cursor =>
    let written := buffer.set cursor.toNat value
    -- the slot after the one just written holds the oldest value
    let next := (cursor.toNat + 1) % buffer.length
    (Signal.valueAt written next, delay written (UInt64.ofNat next))

end NodeMemory
end SignalBoard
