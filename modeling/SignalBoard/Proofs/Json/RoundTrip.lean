import SignalBoard.Proofs.Json.Number
import SignalBoard.Proofs.Json.Quoted

/-!
# What is written as JSON is read back

A value that JSON can say is read back from its text (`read?_print`). The proof follows the reader
through the text of a value in a context of open containers and says where it stands afterwards: in
the state in which the value has been handed to the innermost container, or, after a number, in one
that does the same as that state with whatever comes next (`Settles`).

* `readsAs_number`, `readsAs_text`, `readsAs_word`: values without parts.
* `foldlM_printItems`, `foldlM_printEntries`: the rest of a container once some parts of it have
  been read.
* `readsAs_print`: all values, by induction.
-/

namespace SignalBoard

/-- The values that JSON can say: finite numbers, integers in the range of the words, and maps whose
keys are texts. -/
inductive Value.Written : Value → Prop where
  | null : Written .null
  | bool (b : Bool) : Written (.bool b)
  | int {n : Int} (hlow : -0x8000000000000000 ≤ n) (hhigh : n < UInt64.size) : Written (.int n)
  | real {x : Binary64} (hfinite : x.isFinite = true) : Written (.real x)
  | text (s : String) : Written (.text s)
  | list {items : List Value} (hitems : ∀ v ∈ items, Written v) : Written (.list items)
  | map {entries : List (Value × Value)} (hkeys : ∀ e ∈ entries, ∃ s, e.1 = .text s)
      (hvalues : ∀ e ∈ entries, Written e.2) : Written (.map entries)

namespace Json

namespace ReaderState

/-- Whether two states cannot be told apart by anything that ends a number. -/
structure Settles (s t : ReaderState) : Prop where
  step : ∀ c, isNumberChar c = false → s.step c = t.step c
  finish : s.finish = t.finish

theorem Settles.refl (s : ReaderState) : Settles s s := ⟨fun _ _ => rfl, rfl⟩

/-- Once a value has been completed, the reader waits for a separator or for the end. -/
theorem mode_of_complete {frames : List Frame} {v : Value} {t : ReaderState}
    (h : complete frames v = some t) : (t.mode = .done v ∧ frames = []) ∨ t.mode = .separator := by
  rw [complete.eq_def] at h
  split at h
  · obtain rfl := Option.some.inj h
    exact .inl ⟨rfl, rfl⟩
  · obtain rfl := Option.some.inj h
    exact .inr rfl
  · obtain rfl := Option.some.inj h
    exact .inr rfl
  · cases h

/-- A number that is still being read does the same as the state after it. -/
theorem settles_number {frames : List Frame} {chars : List Char} {v : Value} {t : ReaderState}
    (hnumber : number? chars.reverse = some v) (ht : complete frames v = some t) :
    Settles ⟨frames, .number chars⟩ t := by
  have hcomplete : completeNumber frames chars = some t := by
    rw [completeNumber, hnumber]
    exact ht
  have hmode := mode_of_complete ht
  obtain ⟨tframes, tmode⟩ := t
  -- whatever ends the number completes it first, and then finds the reader where it would have been
  -- anyway: at the end of the text or between two values
  constructor
  · intro c hc
    rcases hmode with ⟨hmode, -⟩ | hmode <;>
    · obtain rfl : tmode = _ := hmode
      simp [ReaderState.step, hc, hcomplete]
  · rcases hmode with ⟨hmode, -⟩ | hmode <;>
    · obtain rfl : tmode = _ := hmode
      simp [ReaderState.finish, hcomplete]

/-- A text is read as a value wherever a value may come. -/
def ReadsAs (v : Value) (cs : List Char) : Prop :=
  ∀ frames t, complete frames v = some t →
    ∃ c rest, cs = c :: rest ∧ isSpace c = false ∧ c ≠ ']' ∧
      ∃ s, ((openValue frames c).bind fun s => rest.foldlM ReaderState.step s) = some s ∧
        Settles s t

/-- The value may be the next one or the first item of a list. -/
theorem ReadsAs.foldlM {v : Value} {cs : List Char} (h : ReadsAs v cs) (frames : List Frame)
    {mode : Mode} (hmode : mode = .value ∨ mode = .firstItem) {t : ReaderState}
    (ht : complete frames v = some t) :
    ∃ s, cs.foldlM ReaderState.step ⟨frames, mode⟩ = some s ∧ Settles s t := by
  obtain ⟨c, rest, rfl, hspace, hclose, s, hs, hsettles⟩ := h frames t ht
  refine ⟨s, ?_, hsettles⟩
  rw [List.foldlM_cons, ← hs]
  rcases hmode with rfl | rfl
  · simp [ReaderState.step, stepBetween, hspace, Option.bind_eq_bind]
  · simp [ReaderState.step, stepBetween, hspace, hclose, Option.bind_eq_bind]

/-! ## Values without parts -/

/-- Characters of a number are collected, the last one in front. -/
theorem foldlM_number {frames : List Frame} {cs chars : List Char}
    (h : ∀ c ∈ cs, isNumberChar c = true) :
    cs.foldlM ReaderState.step ⟨frames, .number chars⟩
      = some ⟨frames, .number (cs.reverse ++ chars)⟩ := by
  induction cs generalizing chars with
  | nil => rfl
  | cons c cs ih =>
    rw [List.forall_mem_cons] at h
    have hstep : ReaderState.step ⟨frames, .number chars⟩ c
        = some ⟨frames, .number (c :: chars)⟩ := by
      simp [ReaderState.step, h.1]
    rw [List.foldlM_cons, hstep]
    simpa using ih h.2

/-- A text in the form of a number is read as what it denotes. Its first character tells it from
every other value and from the end of a list. -/
theorem readsAs_number {v : Value} {cs : List Char} (htext : NumberText cs)
    (hnumber : number? cs = some v) : ReadsAs v cs := by
  intro frames t ht
  obtain ⟨c, rest, rfl, hfirst, hrest⟩ := htext
  have hopen : openValue frames c = some ⟨frames, .number [c]⟩ := by
    have hne : c ≠ '[' ∧ c ≠ '\x7b' ∧ c ≠ '"' := by
      refine ⟨?_, ?_, ?_⟩ <;>
      · rintro rfl
        exact absurd hfirst (by decide)
    simp [openValue, hne, hfirst]
  refine ⟨c, rest, rfl, ?_, ?_, ⟨frames, .number (rest.reverse ++ [c])⟩, ?_, ?_⟩
  · by_contra hspace
    simp only [isSpace, Bool.not_eq_false, Bool.or_eq_true, decide_eq_true_eq] at hspace
    rcases hspace with ((rfl | rfl) | rfl) | rfl <;> exact absurd hfirst (by decide)
  · rintro rfl
    exact absurd hfirst (by decide)
  · rw [hopen]
    exact foldlM_number hrest
  · exact settles_number (by simpa using hnumber) ht

theorem readsAs_text (s : String) : ReadsAs (.text s) (quote s.toList) := by
  intro frames t ht
  refine ⟨'"', _, rfl, rfl, by decide, t, ?_, Settles.refl t⟩
  show (s.toList.flatMap escape ++ ['"']).foldlM ReaderState.step ⟨frames, .quoted false []⟩
    = some t
  rw [foldlM_quote_tail, completeString_value, ht]

/-- The rest of a word is compared character by character, and the last one completes its value. -/
theorem foldlM_word {frames : List Frame} {v : Value} {rest : List Char} (hne : rest ≠ []) :
    rest.foldlM ReaderState.step ⟨frames, .word rest v⟩ = complete frames v := by
  induction rest with
  | nil => exact absurd rfl hne
  | cons c rest ih =>
    cases rest with
    | nil => simp [ReaderState.step]
    | cons d rest =>
      have hstep : ReaderState.step ⟨frames, .word (c :: d :: rest) v⟩ c
          = some ⟨frames, .word (d :: rest) v⟩ := by simp [ReaderState.step]
      rw [List.foldlM_cons, hstep]
      exact ih (by simp)

/-- A word that starts with a letter of its own is read as its value. -/
theorem readsAs_word {v : Value} {c : Char} {rest : List Char} (hne : rest ≠ [])
    (hspace : isSpace c = false) (hclose : c ≠ ']')
    (hopen : ∀ frames, openValue frames c = some ⟨frames, .word rest v⟩) :
    ReadsAs v (c :: rest) := by
  intro frames t ht
  refine ⟨c, rest, rfl, hspace, hclose, t, ?_, Settles.refl t⟩
  rw [hopen, ← ht]
  exact foldlM_word hne

theorem readsAs_null : ReadsAs .null (print .null) := by
  have htext : print .null = ['n', 'u', 'l', 'l'] := by simp [print]
  rw [htext]
  exact readsAs_word (by simp) rfl (by decide) fun _ => rfl

theorem readsAs_bool (b : Bool) : ReadsAs (.bool b) (print (.bool b)) := by
  cases b with
  | false =>
    have htext : print (.bool false) = ['f', 'a', 'l', 's', 'e'] := by simp [print]
    rw [htext]
    exact readsAs_word (by simp) rfl (by decide) fun _ => rfl
  | true =>
    have htext : print (.bool true) = ['t', 'r', 'u', 'e'] := by simp [print]
    rw [htext]
    exact readsAs_word (by simp) rfl (by decide) fun _ => rfl

/-! ## Containers -/

/-- The items of a list that are still to come, once those in `acc` have been read. -/
theorem foldlM_printItems {items : List Value} (hitems : ∀ v ∈ items, ReadsAs v (print v))
    {frames : List Frame} {acc : List Value} {mode : Mode}
    (hmode : mode = .firstItem ∨ mode = .value ∧ items ≠ []) :
    (printItems items).foldlM ReaderState.step ⟨.list acc :: frames, mode⟩
      = complete frames (.list (acc.reverse ++ items)) := by
  have hvalue : mode = .value ∨ mode = .firstItem := hmode.elim .inr fun h => .inl h.1
  -- by induction on the items; what ends an item, a comma or the bracket, is the first character of
  -- the rest
  induction items generalizing acc mode with
  | nil =>
    obtain rfl : mode = .firstItem := hmode.resolve_right fun h => h.2 rfl
    simp [printItems, ReaderState.step, stepBetween, isSpace, close]
  | cons v items ih =>
    rw [List.forall_mem_cons] at hitems
    obtain ⟨s, hs, hsettles⟩ := hitems.1.foldlM (.list acc :: frames) hvalue rfl
    cases items with
    | nil =>
      have hclose : s.step ']' = complete frames (.list (v :: acc).reverse) := hsettles.step ']' rfl
      rw [printItems, List.foldlM_append, hs]
      simp [hclose]
    | cons w items =>
      rw [printItems, List.foldlM_append, hs]
      · have hcomma : s.step ',' = some ⟨.list (v :: acc) :: frames, .value⟩ :=
          hsettles.step ',' rfl
        have hrest : (printItems (w :: items)).foldlM ReaderState.step
            ⟨.list (v :: acc) :: frames, .value⟩
              = complete frames (.list ((v :: acc).reverse ++ w :: items)) :=
          ih hitems.2 (.inr ⟨rfl, by simp⟩) (.inl rfl)
        simpa [hcomma] using hrest
      · simp

/-- A key, wherever one may come, and the colon after it. -/
theorem foldlM_key {entries : List (Value × Value)} {frames : List Frame} {mode : Mode}
    (hmode : mode = .key ∨ mode = .firstKey) (key : String) :
    (print (.text key) ++ [':']).foldlM ReaderState.step ⟨.map entries :: frames, mode⟩
      = some ⟨.entry entries (.text key) :: frames, .value⟩ := by
  have hquote : ReaderState.step ⟨.map entries :: frames, mode⟩ '"'
      = some ⟨.map entries :: frames, .quoted true []⟩ := by
    rcases hmode with rfl | rfl <;> rfl
  -- the key is a text that is read in another mode
  have htail : (print (.text key)).foldlM ReaderState.step ⟨.map entries :: frames, mode⟩
      = some ⟨.entry entries (.text key) :: frames, .colon⟩ := by
    rw [print, quote, List.foldlM_cons, hquote, ← completeString_key]
    exact foldlM_quote_tail key _ true
  rw [List.foldlM_append, htail]
  rfl

/-- The entries of a map that are still to come, once those in `acc` have been read. -/
theorem foldlM_printEntries {entries : List (Value × Value)}
    (hkeys : ∀ e ∈ entries, ∃ s, e.1 = .text s) (hvalues : ∀ e ∈ entries, ReadsAs e.2 (print e.2))
    {frames : List Frame} {acc : List (Value × Value)} {mode : Mode}
    (hmode : mode = .firstKey ∨ mode = .key ∧ entries ≠ []) :
    (printEntries entries).foldlM ReaderState.step ⟨.map acc :: frames, mode⟩
      = complete frames (.map (acc.reverse ++ entries)) := by
  have hkey : mode = .key ∨ mode = .firstKey := hmode.elim .inr fun h => .inl h.1
  -- by induction on the entries, as for lists, with a key and a colon before each value
  induction entries generalizing acc mode with
  | nil =>
    obtain rfl : mode = .firstKey := hmode.resolve_right fun h => h.2 rfl
    simp [printEntries, ReaderState.step, stepBetween, isSpace, close]
  | cons e entries ih =>
    rw [List.forall_mem_cons] at hkeys hvalues
    obtain ⟨k, v⟩ := e
    obtain ⟨⟨key, hk⟩, hkeys⟩ := hkeys
    obtain rfl : k = .text key := hk
    obtain ⟨hv, hvalues⟩ := hvalues
    obtain ⟨s, hs, hsettles⟩ := hv.foldlM (.entry acc (.text key) :: frames) (.inl rfl) rfl
    -- the text up to the end of the first value
    have hfirst : (print (.text key) ++ [':'] ++ print v).foldlM ReaderState.step
        ⟨.map acc :: frames, mode⟩ = some s := by
      rw [List.foldlM_append, foldlM_key hkey]
      exact hs
    cases entries with
    | nil =>
      have hsplit : printEntries [(.text key, v)]
          = print (.text key) ++ [':'] ++ print v ++ ['\x7d'] := by simp [printEntries]
      have hclose : s.step '\x7d' = complete frames (.map ((.text key, v) :: acc).reverse) :=
        hsettles.step '\x7d' rfl
      rw [hsplit, List.foldlM_append, hfirst]
      simp [hclose]
    | cons w entries =>
      have hsplit : printEntries ((.text key, v) :: w :: entries)
          = print (.text key) ++ [':'] ++ print v ++ ',' :: printEntries (w :: entries) := by
        simp [printEntries]
      have hcomma : s.step ',' = some ⟨.map ((.text key, v) :: acc) :: frames, .key⟩ :=
        hsettles.step ',' rfl
      have hrest : (printEntries (w :: entries)).foldlM ReaderState.step
          ⟨.map ((.text key, v) :: acc) :: frames, .key⟩
            = complete frames (.map (((.text key, v) :: acc).reverse ++ w :: entries)) :=
        ih hkeys hvalues (.inr ⟨rfl, by simp⟩) (.inl rfl)
      rw [hsplit, List.foldlM_append, hfirst]
      simpa [hcomma] using hrest

/-! ## All values -/

/-- What is written for a value is read as the value. -/
theorem readsAs_print {v : Value} (hv : v.Written) : ReadsAs v (print v) := by
  -- by induction on the value, with the reader in any frames
  induction hv with
  | null => exact readsAs_null
  | bool b => exact readsAs_bool b
  | int hlow hhigh =>
    rw [print]
    exact readsAs_number (numberText_printInt _) (number?_printInt hlow hhigh)
  | real hfinite =>
    rw [print]
    exact readsAs_number (numberText_printReal hfinite) (number?_printReal hfinite)
  | text s =>
    rw [print]
    exact readsAs_text s
  | list hitems ih =>
    intro frames t ht
    rw [print]
    refine ⟨'[', _, rfl, rfl, by decide, t, ?_, Settles.refl t⟩
    exact (foldlM_printItems ih (.inl rfl)).trans ht
  | map hkeys hvalues ih =>
    intro frames t ht
    rw [print]
    refine ⟨'\x7b', _, rfl, rfl, by decide, t, ?_, Settles.refl t⟩
    exact (foldlM_printEntries hkeys ih (.inl rfl)).trans ht

end ReaderState

/-- What is written for a value holds this value. -/
theorem read?_print {v : Value} (hv : v.Written) : read? (print v) = some v := by
  obtain ⟨s, hs, hsettles⟩ := (ReaderState.readsAs_print hv).foldlM [] (.inl rfl) rfl
  rw [read?, ReaderState.start, hs]
  exact hsettles.finish

end Json
end SignalBoard
