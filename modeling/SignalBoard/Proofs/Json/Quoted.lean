import SignalBoard.Json.Reader
import Mathlib.Tactic.SplitIfs

/-!
# Quoted strings read back

What is written between quotes is read as the code points that it was written for
(`foldlM_escape`), and no code point of a character is half of a surrogate pair, so that they are
joined to the same characters again (`joinHalves?_codes`).
-/

namespace SignalBoard
namespace Json

/-! ## Code points -/

/-- No character is the first half of a surrogate pair. -/
theorem not_isHighHalf (c : Char) : isHighHalf c.toNat = false := by
  have hvalid := c.valid
  simp only [UInt32.isValidChar, Nat.isValidChar] at hvalid
  simp only [isHighHalf, Char.toNat, Bool.and_eq_false_iff, decide_eq_false_iff_not]
  omega

/-- No character is the second half of one. -/
theorem not_isLowHalf (c : Char) : isLowHalf c.toNat = false := by
  have hvalid := c.valid
  simp only [UInt32.isValidChar, Nat.isValidChar] at hvalid
  simp only [isLowHalf, Char.toNat, Bool.and_eq_false_iff, decide_eq_false_iff_not]
  omega

/-- The code points of characters are joined to these characters. -/
theorem joinHalves?_codes (cs : List Char) : joinHalves? (cs.map Char.toNat) = some cs := by
  induction cs with
  | nil => rfl
  | cons c cs ih =>
    -- the joining looks at two code points at a time
    cases cs with
    | nil => simp [joinHalves?, not_isHighHalf, not_isLowHalf]
    | cons d cs =>
      rw [List.map_cons] at ih
      simp [joinHalves?, not_isHighHalf, not_isLowHalf, ih]

/-! ## Escapes -/

theorem hexValue?_hexDigit : ∀ n < 16, hexValue? (hexDigit n) = some n := by
  decide

/-- A short escape stands for the character that it was written for. -/
theorem unescape?_shortEscape? {c e : Char} (h : shortEscape? c = some e) :
    e ≠ 'u' ∧ unescape? e = some c.toNat := by
  simp only [shortEscape?] at h
  split_ifs at h with h₁ h₂ h₃ h₄ h₅ h₆ h₇ <;> obtain rfl := Option.some.inj h
  · exact ⟨by decide, by rw [h₁]; rfl⟩
  · exact ⟨by decide, by rw [h₂]; rfl⟩
  · exact ⟨by decide, by rw [h₃]; rfl⟩
  · exact ⟨by decide, by rw [h₄]; rfl⟩
  · exact ⟨by decide, by rw [h₅]; rfl⟩
  · exact ⟨by decide, by rw [h₆]; rfl⟩
  · exact ⟨by decide, by rw [h₇]; rfl⟩

/-- Quotes and backslashes have a short escape. -/
theorem ne_of_shortEscape?_eq_none {c : Char} (h : shortEscape? c = none) : c ≠ '"' ∧ c ≠ '\\' := by
  constructor
  · rintro rfl
    exact absurd h (by decide)
  · rintro rfl
    exact absurd h (by decide)

namespace ReaderState

variable {frames : List Frame} {isKey : Bool} {codes : List Nat}

/-- A short escape adds the code point of its character. -/
theorem foldlM_shortEscape {c e : Char} (h : shortEscape? c = some e) :
    ['\\', e].foldlM step ⟨frames, .quoted isKey codes⟩
      = some ⟨frames, .quoted isKey (c.toNat :: codes)⟩ := by
  obtain ⟨hu, hcode⟩ := unescape?_shortEscape? h
  simp [step, hu, hcode]

/-- The four digits of an escape by number. -/
theorem foldlM_coded {n : Nat} (hn : n < 0x20) :
    ['\\', 'u', '0', '0', hexDigit (n / 16), hexDigit (n % 16)].foldlM step
        ⟨frames, .quoted isKey codes⟩
      = some ⟨frames, .quoted isKey (n :: codes)⟩ := by
  have hhigh := hexValue?_hexDigit (n / 16) (by omega)
  have hlow := hexValue?_hexDigit (n % 16) (Nat.mod_lt _ (by decide))
  have hzero : hexValue? '0' = some 0 := rfl
  have hjoin : n / 16 * 16 + n % 16 = n := by omega
  simp [step, hhigh, hlow, hzero, hjoin]

/-- A character is read back from the way in which it stands between quotes. -/
theorem foldlM_escape (c : Char) :
    (escape c).foldlM step ⟨frames, .quoted isKey codes⟩
      = some ⟨frames, .quoted isKey (c.toNat :: codes)⟩ := by
  rw [escape]
  -- a short escape, an escape by number for a control character, or the character itself
  split
  · next e h => exact foldlM_shortEscape h
  · next h =>
    split
    · next hcontrol => exact foldlM_coded hcontrol
    · next hplain =>
      obtain ⟨hquote, hbackslash⟩ := ne_of_shortEscape?_eq_none h
      simp [step, hquote, hbackslash, hplain]

/-- Any characters add their code points, the last one in front. -/
theorem foldlM_escapes (cs : List Char) :
    (cs.flatMap escape).foldlM step ⟨frames, .quoted isKey codes⟩
      = some ⟨frames, .quoted isKey ((cs.map Char.toNat).reverse ++ codes)⟩ := by
  induction cs generalizing codes with
  | nil => rfl
  | cons c cs ih =>
    rw [List.flatMap_cons, List.foldlM_append, foldlM_escape]
    simpa using ih

/-- After the opening quote a string is read up to its end, as the text that was written. -/
theorem foldlM_quote_tail (s : String) (frames : List Frame) (isKey : Bool) :
    (s.toList.flatMap escape ++ ['"']).foldlM step ⟨frames, .quoted isKey []⟩
      = completeString frames isKey (s.toList.map Char.toNat).reverse := by
  rw [List.foldlM_append, foldlM_escapes]
  simp [step]

/-- A string that is no key is completed as a text. -/
theorem completeString_value (s : String) (frames : List Frame) :
    completeString frames false (s.toList.map Char.toNat).reverse = complete frames (.text s) := by
  simp [completeString, joinHalves?_codes]

theorem completeString_key (s : String) (entries : List (Value × Value)) (rest : List Frame) :
    completeString (.map entries :: rest) true (s.toList.map Char.toNat).reverse
      = some ⟨.entry entries (.text s) :: rest, .colon⟩ := by
  simp [completeString, joinHalves?_codes]

end ReaderState

end Json
end SignalBoard
