import SignalBoard.Node.Basic
import SignalBoard.Wire
/-!
# Baked circuits

A circuit is what is left of a board once it has been baked: the order in which to go through the
ids, a part per node, the edges between them and the number of outside ports. It is plain data that
holds all that is needed to run the board, also the circuits of its composite nodes. A circuit that
comes out of a document need not be well formed.
-/

namespace SignalBoard

/-- A wire, reduced to the ports that it connects. -/
structure Edge where
  source : NodeId
  sourcePort : UInt64
  target : NodeId
  targetPort : UInt64
  delay : Option UInt32
deriving DecidableEq

namespace Edge

def ofWire (wire : Wire) : Edge :=
  ⟨wire.source.node, wire.source.port, wire.target.node, wire.target.port, some wire.delay⟩

/-- The nodes at the two ends. -/
def ends (edge : Edge) : NodeId × NodeId :=
  (edge.source, edge.target)

end Edge

mutual

/-- One node of a circuit. -/
structure Part where
  id : NodeId
  kind : NodeKind
  params : Params
  inputCount : UInt64
  outputCount : UInt64
  /-- The circuit behind a composite node, if it is known. -/
  nested : Option Circuit

/-- A baked board. -/
structure Circuit where
  order : List NodeId
  parts : List Part
  edges : List Edge
  inputCount : UInt64
  outputCount : UInt64

end

namespace Part

/-- The part for a node, with parameters as a document can hold them and without a circuit behind
it. -/
def ofNode (node : Node) : Part :=
  ⟨node.id, node.kind, node.params.normalized, node.inputCount, node.outputCount, none⟩

end Part

namespace Circuit

def empty : Circuit := ⟨[], [], [], 0, 0⟩

instance : Inhabited Circuit := ⟨empty⟩

/-- Whether there is nothing to go through. -/
def isEmpty (c : Circuit) : Bool :=
  c.order.isEmpty

/-- The first part with a given id. -/
def part? (c : Circuit) (id : NodeId) : Option Part :=
  c.parts.find? (·.id = id)

/-- A circuit behind a part is smaller than the circuit around it. -/
theorem sizeOf_nested_lt {c d : Circuit} {part : Part} (hpart : part ∈ c.parts)
    (hd : part.nested = some d) : sizeOf d < sizeOf c := by
  obtain ⟨order, parts, edges, inputCount, outputCount⟩ := c
  obtain ⟨id, kind, params, inputs, outputs, nested⟩ := part
  obtain rfl : nested = some d := hd
  have hlt := List.sizeOf_lt_of_mem hpart
  simp only [Circuit.mk.sizeOf_spec, Part.mk.sizeOf_spec, Option.some.sizeOf_spec] at hlt ⊢
  omega

/-- **Induction on a circuit**: all circuits have what a circuit has as soon as the circuits behind
its parts have it. -/
@[elab_as_elim]
theorem induction {P : Circuit → Prop}
    (step : ∀ c : Circuit, (∀ part ∈ c.parts, ∀ d, part.nested = some d → P d) → P c)
    (c : Circuit) : P c :=
  step c fun part _ d _ => induction step d
termination_by sizeOf c
decreasing_by exact sizeOf_nested_lt ‹_› ‹_›

end Circuit

mutual

/-- Whether two parts are the same, their numbers being compared as numbers. -/
def Part.agrees (p q : Part) : Bool :=
  match p with
  | ⟨id, kind, params, inputCount, outputCount, nested⟩ =>
    id = q.id && kind = q.kind && params.agrees q.params && inputCount = q.inputCount &&
      outputCount = q.outputCount && Part.nestedAgree nested q.nested
  termination_by structural p

/-- Whether there is the same circuit, or none, behind two parts. -/
def Part.nestedAgree (c? d? : Option Circuit) : Bool :=
  match c?, d? with
  | none, none => true
  | some c, some d => c.agrees d
  | _, _ => false
  termination_by structural c?

/-- Whether two circuits are the same, their numbers being compared as numbers: a circuit with a NaN
among its parameters differs from itself. -/
def Circuit.agrees (c d : Circuit) : Bool :=
  match c with
  | ⟨order, parts, edges, inputCount, outputCount⟩ =>
    order = d.order && Circuit.partsAgree parts d.parts && edges = d.edges &&
      inputCount = d.inputCount && outputCount = d.outputCount
  termination_by structural c

/-- Whether two lists of parts agree part by part. -/
def Circuit.partsAgree (ps qs : List Part) : Bool :=
  match ps, qs with
  | [], [] => true
  | p :: ps, q :: qs => p.agrees q && Circuit.partsAgree ps qs
  | _, _ => false
  termination_by structural ps

end

end SignalBoard
