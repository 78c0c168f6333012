import SignalBoard.Node.Kind
import Mathlib.Data.List.Basic

/-!
# Kinds and their type texts

A kind is written as its type text and read back from it. The two ways undo each other, with two
exceptions: an alias is read, but the first text of its kind is written in its place, and an unknown
kind is not read back if its text does name a kind. No text is read as such a kind, so among the
kinds that come from texts the text tells which one it is (`text_faithful`).

* `IsRecognized`: the texts that name a kind, said without reading them.
* `text_ofText`: what is written for the kind that a text names.
* `ofText_puzzle`, `ofText_utility`: what comes after a mark is kept, whatever it is, since no text
  in the table of built-in kinds has a colon.
* `ofText_text_eq_iff`: which kinds are read back.
-/

namespace SignalBoard
namespace NodeKind

/-- The type texts of the built-in kinds, with the aliases. -/
def builtInTexts : List String :=
  ["invert", "negate", "multiply", "scale", "mix", "threshold", "amp", "offset", "polarizer",
    "diverter", "memory", "delay", "duplicate", "average", "max", "min", "divide",
    "connection-input", "connection-output"]

/-- Whether a type text names a kind. -/
def IsRecognized (text : String) : Prop :=
  text ∈ builtInTexts ∨ "puzzle:".toList <+: text.toList ∨ "utility:".toList <+: text.toList

instance (text : String) : Decidable (IsRecognized text) :=
  inferInstanceAs (Decidable (_ ∨ _ ∨ _))

/-! ## Marks and references -/

/-- A text that begins with a mark is the mark and what comes after it. -/
theorem append_ofList_eq {mark text : String} {cs : List Char}
    (h : mark.toList.isPrefixOf? text.toList = some cs) : mark ++ String.ofList cs = text := by
  rw [← String.toList_inj, String.toList_append, String.toList_ofList]
  exact List.append_eq_of_isPrefixOf?_eq_some h

theorem isPrefixOf?_mark_append (mark reference : String) :
    mark.toList.isPrefixOf? (mark ++ reference).toList = some reference.toList := by
  rw [List.isPrefixOf?_eq_some_iff_append_eq, String.toList_append]

/-- A text that begins with a mark has a reference behind it. -/
theorem exists_reference {mark text : String} (h : mark.toList <+: text.toList) :
    ∃ reference, text = mark ++ reference := by
  obtain ⟨cs, hcs⟩ := h
  exact ⟨String.ofList cs,
    (append_ofList_eq (List.isPrefixOf?_eq_some_iff_append_eq.mpr hcs)).symm⟩

/-- The kind of a text that is no built-in name keeps the text. -/
theorem text_ofReference (s : String) : (ofReference s).text = s := by
  rw [ofReference]
  split
  · next cs h => exact append_ofList_eq h
  · split
    · next cs h => exact append_ofList_eq h
    · rfl

theorem ofReference_puzzle (reference : String) :
    ofReference (puzzleMark ++ reference) = puzzle reference := by
  rw [ofReference, isPrefixOf?_mark_append]
  simp

theorem ofReference_utility (reference : String) :
    ofReference (utilityMark ++ reference) = utility reference := by
  -- the mark of the puzzles is no beginning: the two differ in their first character
  have hnot : puzzleMark.toList.isPrefixOf? (utilityMark ++ reference).toList = none := by
    rw [String.toList_append]
    rfl
  rw [ofReference, hnot, isPrefixOf?_mark_append]
  simp

theorem ofReference_of_no_mark {s : String} (hpuzzle : ¬ "puzzle:".toList <+: s.toList)
    (hutility : ¬ "utility:".toList <+: s.toList) : ofReference s = unknown s := by
  rw [ofReference]
  split
  · next cs h => exact absurd ⟨cs, List.append_eq_of_isPrefixOf?_eq_some h⟩ hpuzzle
  · split
    · next cs h => exact absurd ⟨cs, List.append_eq_of_isPrefixOf?_eq_some h⟩ hutility
    · rfl

/-! ## The table of built-in kinds -/

/-- A text that is not in the table is looked at for a mark. -/
theorem ofText_eq_ofReference {s : String} (h : s ∉ builtInTexts) : ofText s = ofReference s := by
  rw [ofText.eq_def]
  split
  -- the last case is the one that no text of the table gets to
  case h_20 => rfl
  all_goals exact absurd (by decide) h

/-- A text with a colon is not in the table. -/
theorem mark_append_not_mem {mark : String} (hmark : ':' ∈ mark.toList) (reference : String) :
    mark ++ reference ∉ builtInTexts := by
  have hcolon : ∀ text ∈ builtInTexts, ':' ∉ text.toList := by decide
  intro hmem
  apply hcolon _ hmem
  rw [String.toList_append]
  exact List.mem_append_left _ hmark

/-- A text with the mark of the puzzles names a puzzle, whatever comes after it. -/
theorem ofText_puzzle (reference : String) :
    ofText (puzzleMark ++ reference) = puzzle reference := by
  rw [ofText_eq_ofReference (mark_append_not_mem (by decide) reference), ofReference_puzzle]

/-- A text with the mark of the utilities names a utility, whatever comes after it. -/
theorem ofText_utility (reference : String) :
    ofText (utilityMark ++ reference) = utility reference := by
  rw [ofText_eq_ofReference (mark_append_not_mem (by decide) reference), ofReference_utility]

/-- A text is read as an unknown kind exactly if it names none, and the kind then keeps it. -/
theorem ofText_eq_unknown_iff {s name : String} :
    ofText s = unknown name ↔ s = name ∧ ¬ IsRecognized s := by
  constructor
  · intro h
    -- a text of the table names a built-in kind, and one with a mark a puzzle or a utility
    have hnot : ¬ IsRecognized s := by
      rintro (htable | hmark | hmark)
      · have hknown : ∀ text ∈ builtInTexts, (ofText text matches unknown _) = false := by decide
        simpa [h] using hknown s htable
      · obtain ⟨reference, rfl⟩ := exists_reference hmark
        exact absurd ((ofText_puzzle reference).symm.trans h) nofun
      · obtain ⟨reference, rfl⟩ := exists_reference hmark
        exact absurd ((ofText_utility reference).symm.trans h) nofun
    rw [ofText_eq_ofReference (fun htable => hnot (.inl htable))] at h
    have htext := congrArg text h
    rw [text_ofReference] at htext
    exact ⟨htext, hnot⟩
  · rintro ⟨rfl, hnot⟩
    rw [IsRecognized, not_or, not_or] at hnot
    obtain ⟨htable, hpuzzle, hutility⟩ := hnot
    rw [ofText_eq_ofReference htable, ofReference_of_no_mark hpuzzle hutility]

/-! ## There and back -/

/-- The text of the kind that a text names is this text, unless it is an alias. -/
theorem text_ofText (s : String) :
    (ofText s).text =
      if s = "negate" then "invert" else if s = "scale" then "multiply" else s := by
  by_cases htable : s ∈ builtInTexts
  · -- the table is short enough to look at each of its texts
    have hall : ∀ text ∈ builtInTexts, (ofText text).text =
        if text = "negate" then "invert" else if text = "scale" then "multiply" else text := by
      decide
    exact hall s htable
  · have hnegate : s ≠ "negate" := by
      rintro rfl
      exact htable (by decide)
    have hscale : s ≠ "scale" := by
      rintro rfl
      exact htable (by decide)
    rw [ofText_eq_ofReference htable, text_ofReference, if_neg hnegate, if_neg hscale]

/-- A kind is read back unless it is an unknown one with a text that names a kind. -/
theorem ofText_text_eq_iff {kind : NodeKind} :
    ofText kind.text = kind ↔ ∀ name, kind = unknown name → ¬ IsRecognized name := by
  -- only an unknown kind can have been given a text that stands for another one
  cases kind with
  | puzzle reference => exact iff_of_true (ofText_puzzle reference) nofun
  | utility reference => exact iff_of_true (ofText_utility reference) nofun
  | unknown name =>
    rw [text, ofText_eq_unknown_iff]
    simp
  | _ => exact iff_of_true rfl nofun

/-- The text that is written for a kind is one for the same kind. -/
theorem ofText_text_ofText (s : String) : ofText (ofText s).text = ofText s := by
  refine ofText_text_eq_iff.mpr fun name h => ?_
  obtain ⟨rfl, hnot⟩ := ofText_eq_unknown_iff.mp h
  exact hnot

/-- **Type texts stand for kinds.** Reading a text and writing the kind gives the text but for the
two aliases; writing a kind and reading the text gives the kind but for unknown kinds whose text
names a kind; and of the kinds that are read no two have the same text. -/
theorem text_faithful :
    (∀ s, (ofText s).text =
      if s = "negate" then "invert" else if s = "scale" then "multiply" else s) ∧
    (∀ kind, ofText kind.text = kind ↔ ∀ name, kind = unknown name → ¬ IsRecognized name) ∧
    (∀ kind kind', (∃ s, kind = ofText s) → (∃ s, kind' = ofText s) →
      kind.text = kind'.text → kind = kind') := by
  refine ⟨text_ofText, fun kind => ofText_text_eq_iff, ?_⟩
  rintro _ _ ⟨s, rfl⟩ ⟨s', rfl⟩ htext
  calc ofText s = ofText (ofText s).text := (ofText_text_ofText s).symm
    _ = ofText (ofText s').text := by rw [htext]
    _ = ofText s' := ofText_text_ofText s'

/-- A reference may look like a type text; an unknown kind may not. -/
example : ofText (puzzle "utility:scale").text = puzzle "utility:scale" ∧
    ofText (unknown "utility:scale").text = utility "scale" := by
  decide

end NodeKind
end SignalBoard
