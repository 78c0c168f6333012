import SignalBoard.Proofs.Board.Layout
import SignalBoard.Proofs.Storage.Document

/-!
# Loading a baked board again

A board that takes along circuits that have been loaded can be stored, but not every such board can
be loaded again. A circuit of the library comes to stand three levels deeper, so that there must be
room for three more levels below the limit of JSON (`ofJson?_bake`):

```lean
theorem ofJson?_bake (hkinds : …) (hlibrary : ∀ c ∈ library.values, ∃ s, Circuit.ofJson? s = some c)
    (hacyclic : (board.digraph ports).Acyclic) :
    ∃ m, board.bake ports library = .ok m ∧ m.Storable ∧
      Circuit.ofJson? m.toJson =
        if ∀ d ∈ board.embedded library, d.toValue.nesting + 3 ≤ Json.maxNesting then some m
        else none
```

A puzzle that is built on the puzzle before it, again and again, gets to the limit (`tower`): the
forty-second can be loaded, and what is baked on top of it cannot (`ofJson?_bake_tower`).
-/

namespace SignalBoard

open Circuit (levelsOf)

namespace Part

variable {library : Library} {node : Node} {d : Circuit}

theorem kind_resolve (library : Library) (node : Node) :
    (resolve library node).kind = node.kind := by
  rw [resolve]
  split <;> rfl

/-- The parameters of a part hold no infinity and no NaN. -/
theorem params_resolve (library : Library) (node : Node) :
    (resolve library node).params = Params.normalized node.params := by
  rw [resolve]
  split <;> rfl

/-- A part takes along the circuit that the library holds for a composite node. -/
theorem nested_resolve_eq_some_iff : (resolve library node).nested = some d ↔
    node.kind.isComposite = true ∧ library.get? node.kind.text = some d := by
  rw [resolve]
  split
  · next hcomposite => simp [hcomposite]
  · next hplain => simp [hplain, ofNode]

end Part

namespace Board

variable {board : Board} {ports : PortCounts} {library : Library} {analysis : Analysis}

/-- The circuits that the composite nodes of a board take along. -/
def embedded (board : Board) (library : Library) : List Circuit :=
  (board.nodes.values.filter fun node =>
    !node.id.isConnectionPoint && node.kind.isComposite).filterMap fun node =>
      library.get? node.kind.text

/-- The circuits behind the parts of a baked board are the embedded ones. -/
theorem forall_nested_circuitOf {P : Circuit → Prop} :
    (∀ p ∈ (board.circuitOf library analysis ports).parts, ∀ d, p.nested = some d → P d) ↔
      ∀ d ∈ board.embedded library, P d := by
  simp only [circuitOf, embedded, List.forall_mem_map, List.mem_filter, List.mem_filterMap,
    Part.nested_resolve_eq_some_iff, Bool.and_eq_true]
  constructor
  · rintro h d ⟨node, ⟨hnode, hordinary, hcomposite⟩, hd⟩
    exact h node ⟨hnode, hordinary⟩ d ⟨hcomposite, hd⟩
  · rintro h node ⟨hnode, hordinary⟩ d ⟨hcomposite, hd⟩
    exact h d ⟨node, ⟨hnode, hordinary, hcomposite⟩, hd⟩

/-- What is baked from loaded circuits can be held by documents. -/
theorem storable_circuitOf
    (hkinds : ∀ node ∈ board.nodes.values, ∃ s, node.kind = NodeKind.ofText s)
    (hlibrary : ∀ c ∈ library.values, c.Storable) :
    (board.circuitOf library analysis ports).Storable := by
  refine .mk ?_ ?_ (forall_nested_circuitOf.mpr fun d hd => ?_)
  · rw [circuitOf, List.forall_mem_map]
    intro node hnode
    rw [Part.kind_resolve]
    exact hkinds node (List.mem_of_mem_filter hnode)
  · rw [circuitOf, List.forall_mem_map]
    intro node hnode
    rw [Part.params_resolve]
    exact Params.storable_normalized node.params
  · obtain ⟨node, -, hd⟩ := List.mem_filterMap.mp hd
    exact hlibrary d (OrderedMap.mem_values_of_get? hd)

/-- Baking puts a circuit three levels deeper. -/
theorem nesting_circuitOf_le :
    (board.circuitOf library analysis ports).toValue.nesting ≤ Json.maxNesting ↔
      ∀ d ∈ board.embedded library, d.toValue.nesting + 3 ≤ Json.maxNesting := by
  -- the record of the circuit, the list of its parts and the record of a part are three levels
  have hlevels : ∀ n, n + 3 ≤ Json.maxNesting ↔ n ≤ levelsOf 41 := by
    intro n
    simp only [Json.maxNesting, levelsOf]
    omega
  simp only [hlevels]
  exact (Circuit.nesting_toValue_le_levelsOf_succ (k := 41)).trans forall_nested_circuitOf

/-- **What a board bakes to can be loaded again exactly if there is room for what it embeds.**
Whether there is depends on the circuits of the library that composite nodes stand for and on
nothing else; where there is none, loading fails. -/
theorem ofJson?_bake (hkinds : ∀ node ∈ board.nodes.values, ∃ s, node.kind = NodeKind.ofText s)
    (hlibrary : ∀ c ∈ library.values, ∃ s, Circuit.ofJson? s = some c)
    (hacyclic : (board.digraph ports).Acyclic) :
    ∃ m, board.bake ports library = .ok m ∧ m.Storable ∧
      Circuit.ofJson? m.toJson
        = if ∀ d ∈ board.embedded library, d.toValue.nesting + 3 ≤ Json.maxNesting then some m
          else none := by
  obtain ⟨analysis, hanalysis⟩ := exists_analyse_iff.mpr hacyclic
  -- what has been loaded has kinds from type texts and finite numbers, so depth is all that matters
  have hstorable : (board.circuitOf library analysis ports).Storable := by
    refine storable_circuitOf hkinds fun c hc => ?_
    obtain ⟨s, hs⟩ := hlibrary c hc
    exact (Circuit.storable_of_ofJson? hs).1
  refine ⟨_, bake_of_analyse hanalysis, hstorable, ?_⟩
  rw [Circuit.ofJson?_toJson hstorable]
  simp only [nesting_circuitOf_le]

/-! ## A tower of puzzles -/

/-- A board with a single node, which stands for the puzzle `x`. -/
def storey : Board where
  nodes := .ofList [(⟨"p"⟩, .ofKind ⟨"p"⟩ (.puzzle "x"))]
  wires := []

/-- Puzzles built on each other: a single node that stands for the puzzle before. -/
def tower : Nat → Circuit
  | 0 => .empty
  | k + 1 => ⟨[⟨"p"⟩], [⟨⟨"p"⟩, .puzzle "x", .empty, 0, 0, some (tower k)⟩], [], 0, 0⟩

/-- A library in which the puzzle `x` is a tower. -/
def towerLibrary (k : Nat) : Library :=
  .ofList [("puzzle:x", tower k)]

/-- Each puzzle of a tower is baked on top of the one before. -/
theorem bake_storey (k : Nat) : storey.bake .none (towerLibrary k) = .ok (tower (k + 1)) := by
  rfl

/-- The kind of the node comes from a type text. -/
theorem exists_ofText_eq_puzzle : ∃ s, NodeKind.puzzle "x" = NodeKind.ofText s :=
  ⟨"puzzle:x", by decide +kernel⟩

/-- Towers can be stored as far as their kinds and parameters go. -/
theorem storable_tower (k : Nat) : (tower k).Storable := by
  induction k with
  | zero => exact .mk nofun nofun nofun
  | succ k ih =>
    refine .mk (List.forall_mem_singleton.mpr exists_ofText_eq_puzzle)
      (List.forall_mem_singleton.mpr Params.storable_empty)
      (List.forall_mem_singleton.mpr fun d hd => ?_)
    rwa [← Option.some.inj hd]

/-- The levels of a tower run out exactly if it has too many storeys. -/
theorem nesting_tower_le {k j : Nat} : (tower k).toValue.nesting ≤ levelsOf j ↔ k < j := by
  -- a storey takes three levels and leaves a tower with one storey less
  induction j generalizing k with
  | zero => simp [levelsOf, (tower k).one_lt_nesting_toValue]
  | succ j ih =>
    rw [Circuit.nesting_toValue_le_levelsOf_succ]
    cases k with
    | zero => simp [tower, Circuit.empty]
    | succ k => simp [tower, ih]

/-- A tower of up to forty-one storeys can be loaded. -/
theorem exists_ofJson?_tower {k : Nat} (hk : k < 42) :
    ∃ s, Circuit.ofJson? s = some (tower k) := by
  refine ⟨(tower k).toJson, ?_⟩
  rw [Circuit.ofJson?_toJson (storable_tower k), if_pos]
  exact nesting_tower_le.mpr hk

theorem values_towerLibrary (k : Nat) : (towerLibrary k).values = [tower k] := rfl

/-- All kinds on the board come from type texts. -/
theorem kinds_storey : ∀ node ∈ storey.nodes.values, ∃ s, node.kind = NodeKind.ofText s :=
  List.forall_mem_singleton.mpr exists_ofText_eq_puzzle

theorem embedded_storey (k : Nat) : storey.embedded (towerLibrary k) = [tower k] := rfl

/-- The highest tower that can be loaded again after it has been baked. -/
theorem ofJson?_bake_storey :
    (∀ node ∈ storey.nodes.values, ∃ s, node.kind = NodeKind.ofText s) ∧
      (∀ c ∈ (towerLibrary 40).values, ∃ s, Circuit.ofJson? s = some c) ∧
      (storey.digraph .none).Acyclic ∧
      ∃ m, storey.bake .none (towerLibrary 40) = .ok m ∧ Circuit.ofJson? m.toJson = some m := by
  have hlibrary : ∀ c ∈ (towerLibrary 40).values, ∃ s, Circuit.ofJson? s = some c := by
    rw [values_towerLibrary, List.forall_mem_singleton]
    exact exists_ofJson?_tower (by decide)
  have hacyclic : (storey.digraph .none).Acyclic := by decide +kernel
  obtain ⟨m, hbake, -, hload⟩ := ofJson?_bake kinds_storey hlibrary hacyclic
  refine ⟨kinds_storey, hlibrary, hacyclic, m, hbake, hload.trans (if_pos ?_)⟩
  rw [embedded_storey, List.forall_mem_singleton]
  have hdepth : (tower 40).toValue.nesting ≤ levelsOf 41 := nesting_tower_le.mpr (by decide)
  exact Nat.add_le_add_right hdepth 3

/-- A tower that can be loaded, and a board on top of it that cannot be loaded any more. -/
theorem ofJson?_bake_tower :
    storey.nodes.KeyedById ∧
      (∀ node ∈ storey.nodes.values, ∃ s, node.kind = NodeKind.ofText s) ∧
      (∀ c ∈ (towerLibrary 41).values, ∃ s, Circuit.ofJson? s = some c) ∧
      (storey.digraph .none).Acyclic ∧
      ∃ m, storey.bake .none (towerLibrary 41) = .ok m ∧ Circuit.ofJson? m.toJson = none := by
  refine ⟨by decide +kernel, kinds_storey, ?_, by decide +kernel, tower 42, bake_storey 41, ?_⟩
  · rw [values_towerLibrary, List.forall_mem_singleton]
    exact exists_ofJson?_tower (by decide)
  · rw [Circuit.ofJson?_toJson (storable_tower 42), if_neg]
    have hdepth : ¬ (tower 42).toValue.nesting ≤ levelsOf 42 := by
      rw [nesting_tower_le]
      decide
    exact hdepth

end Board
end SignalBoard
