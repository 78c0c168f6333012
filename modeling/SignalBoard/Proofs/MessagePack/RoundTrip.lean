import SignalBoard.MessagePack.Reader
import SignalBoard.MessagePack.Writer
import SignalBoard.Proofs.Value.Record

/-!
# What is written as MessagePack is read back

A value without bytes and negative integers is read back from its bytes, and whatever follows them
is left alone:

```lean
theorem read?_print_append (hv : v.Packable) (hsize : v.longest ≤ maxLength)
    (hdepth : v.nesting ≤ maxNesting) (rest : List UInt8) : read? (print v ++ rest) = some v
```

The proof follows the reader through the bytes of a value in a context of open containers
(`ReadsAs`). After the marker it either has the value, waits for the bytes of a number or a length,
or has opened a container.

* `foldlM_bigEndian`: the bytes of a number, in whatever width holds it.
* `foldlM_shortestOf`: so it does not matter which of several forms the writer has chosen.
* `foldlM_chunk`: the bytes of a text.
* `foldlM_printItems`, `foldlM_printEntries`: the rest of a container once some parts of it have
  been read.
* `readsAs_print`: all values, by induction.
-/

namespace SignalBoard

namespace MessagePack

/-- How many bytes, items or entries a text, a list or a map may have. -/
def maxLength : Nat := 0xffffffff

end MessagePack

namespace Value

/-- Values without bytes and negative integers, in which the keys of maps are texts. -/
inductive Packable : Value → Prop where
  | null : Packable .null
  | bool (b : Bool) : Packable (.bool b)
  | int {n : Nat} (h : n < UInt64.size) : Packable (.int n)
  | real (x : Binary64) : Packable (.real x)
  | text (s : String) : Packable (.text s)
  | list {items : List Value} (hitems : ∀ v ∈ items, Packable v) : Packable (.list items)
  | map {entries : List (Value × Value)} (hkeys : ∀ e ∈ entries, ∃ s, e.1 = .text s)
      (hvalues : ∀ e ∈ entries, Packable e.2) : Packable (.map entries)

mutual

/-- The largest number of bytes, items or entries of a text, a list or a map in a value. -/
def longest : Value → Nat
  | text s => (MessagePack.textBytes s).length
  | bytes bs => bs.length
  | list items => max items.length (itemsLongest items)
  | map entries => max entries.length (entriesLongest entries)
  | _ => 0

def itemsLongest : List Value → Nat
  | [] => 0
  | v :: rest => max v.longest (itemsLongest rest)

def entriesLongest : List (Value × Value) → Nat
  | [] => 0
  | (k, v) :: rest => max (max k.longest v.longest) (entriesLongest rest)

end

/-- A bound for the items of a list is one for each of them. -/
theorem itemsLongest_le {items : List Value} {n : Nat} :
    itemsLongest items ≤ n ↔ ∀ v ∈ items, v.longest ≤ n := by
  induction items with
  | nil => simp [itemsLongest]
  | cons v items ih => rw [itemsLongest, Nat.max_le, ih, List.forall_mem_cons]

/-- A bound for the entries of a map is one for each key and each value. -/
theorem entriesLongest_le {entries : List (Value × Value)} {n : Nat} :
    entriesLongest entries ≤ n ↔ ∀ e ∈ entries, e.1.longest ≤ n ∧ e.2.longest ≤ n := by
  induction entries with
  | nil => simp [entriesLongest]
  | cons e entries ih =>
    obtain ⟨k, v⟩ := e
    rw [entriesLongest, Nat.max_le, Nat.max_le, ih, List.forall_mem_cons]

/-- A text is read back from its UTF-8 form. -/
theorem utf8?_textBytes (s : String) : utf8? (MessagePack.textBytes s) = some s := by
  unfold utf8? String.fromUTF8?
  have hbytes : ByteArray.mk (MessagePack.textBytes s).toArray = s.toByteArray := rfl
  rw [dif_pos (hbytes ▸ s.isValidUTF8)]
  rfl

end Value

namespace MessagePack

open ReaderState

variable {frames : List Frame}

/-! ## Numbers and lengths -/

/-- The bytes of a number, as long as more bytes are to come. -/
theorem foldlM_bigEndian_part {sort : Argument} {count more n : Nat} (hmore : 1 ≤ more)
    (hn : n < Nat.pow 256 count) :
    (bigEndian count n).foldlM step ⟨frames, .argument sort (count + more) 0⟩
      = some ⟨frames, .argument sort more n⟩ := by
  -- by induction on the bytes, the last one of which is the lowest: with more to come, what has
  -- been read is shifted and the byte put behind it
  induction count generalizing n more with
  | zero =>
    obtain rfl : n = 0 := Nat.lt_one_iff.mp hn
    rw [bigEndian, Nat.zero_add]
    rfl
  | succ count ih =>
    have hhigh : n / 256 < Nat.pow 256 count := Nat.div_lt_of_lt_mul (by rwa [Nat.mul_comm])
    have hlast : step ⟨frames, .argument sort (more + 1) (n / 256)⟩ (UInt8.ofNat (n % 256))
        = some ⟨frames, .argument sort more n⟩ := by
      have hnot : ¬ more + 1 ≤ 1 := by omega
      simp only [step, hnot, if_false, Nat.add_sub_cancel, UInt8.toNat_ofNat']
      congr 3
      omega
    rw [bigEndian, List.foldlM_append, show count + 1 + more = count + (more + 1) by omega,
      ih (by omega) hhigh]
    simpa using hlast

/-- The bytes of a number that fits into them. -/
theorem foldlM_bigEndian {sort : Argument} {width n : Nat} (hwidth : 1 ≤ width)
    (hn : n < Nat.pow 256 width) :
    (bigEndian width n).foldlM step ⟨frames, .argument sort width 0⟩
      = completeArgument frames sort n := by
  obtain ⟨count, rfl⟩ := Nat.exists_eq_add_of_le' hwidth
  have hhigh : n / 256 < Nat.pow 256 count := Nat.div_lt_of_lt_mul (by rwa [Nat.mul_comm])
  have hlast : step ⟨frames, .argument sort 1 (n / 256)⟩ (UInt8.ofNat (n % 256))
      = completeArgument frames sort n := by
    have hvalue : n / 256 * 256 + n % 256 % 2 ^ 8 = n := by omega
    simp only [step, Nat.le_refl, if_true, UInt8.toNat_ofNat', hvalue]
  rw [bigEndian, List.foldlM_append, foldlM_bigEndian_part (Nat.le_refl 1) hhigh]
  simpa using hlast

/-- A form in which a number follows its marker. -/
def OpensArgument (frames : List Frame) (sort : Argument) (form : UInt8 × Nat) : Prop :=
  1 ≤ form.2 ∧ openValue frames form.1 = some ⟨frames, .argument sort form.2 0⟩

/-- Whichever form is chosen, the number is read if it fits into the last one. -/
theorem foldlM_shortestOf {sort : Argument} {n : Nat} {forms : List (UInt8 × Nat)}
    (hforms : ∀ form ∈ forms, OpensArgument frames sort form)
    (hlast : ∃ form, forms.getLast? = some form ∧ n < Nat.pow 256 form.2) :
    (shortestOf n forms).foldlM step ⟨frames, .marker⟩ = completeArgument frames sort n := by
  have hform : ∀ form, OpensArgument frames sort form → n < Nat.pow 256 form.2 →
      (form.1 :: bigEndian form.2 n).foldlM step ⟨frames, .marker⟩
        = completeArgument frames sort n := by
    rintro form ⟨hwidth, hopen⟩ hn
    have hmarker : step ⟨frames, .marker⟩ form.1 = some ⟨frames, .argument sort form.2 0⟩ := hopen
    rw [List.foldlM_cons, hmarker]
    exact foldlM_bigEndian hwidth hn
  -- by induction on the forms, the narrowest first; the last one is taken whatever the number is,
  -- so it has to be wide enough
  induction forms with
  | nil =>
    obtain ⟨form, hnone, -⟩ := hlast
    cases hnone
  | cons form wider ih =>
    rw [List.forall_mem_cons] at hforms
    cases wider with
    | nil =>
      obtain ⟨form', hsome, hn⟩ := hlast
      obtain rfl : form = form' := Option.some.inj hsome
      exact hform form hforms.1 hn
    | cons next wider =>
      rw [shortestOf]
      · split
        · next hn => exact hform form hforms.1 hn
        · exact ih hforms.2 hlast
      · exact nofun

/-- A small number may be in the marker itself. -/
theorem foldlM_sized {sort : Argument} {base limit n : Nat} {wider : List (UInt8 × Nat)}
    (hsmall : n < limit → openValue frames (UInt8.ofNat (base + n)) = completeArgument frames sort n)
    (hforms : ∀ form ∈ wider, OpensArgument frames sort form)
    (hlast : ∃ form, wider.getLast? = some form ∧ n < Nat.pow 256 form.2) :
    (sized base limit n wider).foldlM step ⟨frames, .marker⟩ = completeArgument frames sort n := by
  unfold sized
  split
  · next hn =>
    rw [List.foldlM_cons]
    show (openValue frames (UInt8.ofNat (base + n)) >>= fun s => [].foldlM step s) = _
    rw [hsmall hn]
    cases completeArgument frames sort n <;> rfl
  · exact foldlM_shortestOf hforms hlast

/-- An integer that is not negative is read back in whichever of its five forms it is written. -/
theorem foldlM_printInt {n : Nat} (hn : n < UInt64.size) :
    (printInt n).foldlM step ⟨frames, .marker⟩ = some (complete frames (.int n)) := by
  have hprint : printInt n = sized 0 128 n [(0xcc, 1), (0xcd, 2), (0xce, 4), (0xcf, 8)] := by
    rw [printInt, if_pos (Int.natCast_nonneg n), Int.toNat_natCast]
  rw [hprint]
  show _ = completeArgument frames .unsigned n
  -- the number in the marker, and then the four forms with one to eight bytes
  apply foldlM_sized
  · intro hsmall
    have hmarker : (UInt8.ofNat (0 + n)).toNat = 0 + n :=
      UInt8.toNat_ofNat_of_lt' (show 0 + n < 256 by omega)
    unfold openValue
    rw [hmarker, if_pos (by omega), Nat.zero_add]
    rfl
  · simp only [List.forall_mem_cons]
    exact ⟨⟨by decide, rfl⟩, ⟨by decide, rfl⟩, ⟨by decide, rfl⟩, ⟨by decide, rfl⟩, nofun⟩
  · exact ⟨(0xcf, 8), rfl, hn⟩

/-- The head of a text announces the number of its bytes. -/
theorem foldlM_textHead {n : Nat} (hn : n ≤ maxLength) :
    (textHead n).foldlM step ⟨frames, .marker⟩ = some (openChunk frames true n) := by
  show _ = completeArgument frames .textLength n
  apply foldlM_sized
  · intro hsmall
    have hmarker : (UInt8.ofNat (0xa0 + n)).toNat = 0xa0 + n :=
      UInt8.toNat_ofNat_of_lt' (show 0xa0 + n < 256 by omega)
    unfold openValue
    rw [hmarker, if_neg (by omega), if_neg (by omega), if_neg (by omega), if_pos (by omega),
      Nat.add_sub_cancel_left]
    rfl
  · simp only [List.forall_mem_cons]
    exact ⟨⟨by decide, rfl⟩, ⟨by decide, rfl⟩, ⟨by decide, rfl⟩, nofun⟩
  · exact ⟨(0xdb, 4), rfl, Nat.lt_succ_of_le hn⟩

/-- The head of a list announces the number of its items. -/
theorem foldlM_listHead {n : Nat} (hn : n ≤ maxLength) :
    (listHead n).foldlM step ⟨frames, .marker⟩ = openList frames n := by
  show _ = completeArgument frames .listSize n
  apply foldlM_sized
  · intro hsmall
    have hmarker : (UInt8.ofNat (0x90 + n)).toNat = 0x90 + n :=
      UInt8.toNat_ofNat_of_lt' (show 0x90 + n < 256 by omega)
    unfold openValue
    rw [hmarker, if_neg (by omega), if_neg (by omega), if_pos (by omega), Nat.add_sub_cancel_left]
    rfl
  · simp only [List.forall_mem_cons]
    exact ⟨⟨by decide, rfl⟩, ⟨by decide, rfl⟩, nofun⟩
  · exact ⟨(0xdd, 4), rfl, Nat.lt_succ_of_le hn⟩

/-- The head of a map announces the number of its entries. -/
theorem foldlM_mapHead {n : Nat} (hn : n ≤ maxLength) :
    (mapHead n).foldlM step ⟨frames, .marker⟩ = openMap frames n := by
  show _ = completeArgument frames .mapSize n
  apply foldlM_sized
  · intro hsmall
    have hmarker : (UInt8.ofNat (0x80 + n)).toNat = 0x80 + n :=
      UInt8.toNat_ofNat_of_lt' (show 0x80 + n < 256 by omega)
    unfold openValue
    rw [hmarker, if_neg (by omega), if_pos (by omega), Nat.add_sub_cancel_left]
    rfl
  · simp only [List.forall_mem_cons]
    exact ⟨⟨by decide, rfl⟩, ⟨by decide, rfl⟩, nofun⟩
  · exact ⟨(0xdf, 4), rfl, Nat.lt_succ_of_le hn⟩

/-! ## Texts -/

/-- The rest of a text or of a run of bytes. -/
theorem foldlM_chunk_rest {isText : Bool} {bytes read : List UInt8} (hne : bytes ≠ []) :
    bytes.foldlM step ⟨frames, .chunk isText bytes.length read⟩
      = some (complete frames (ofChunk isText (read.reverse ++ bytes))) := by
  -- by induction on the bytes that are left, of which the last one completes the value
  induction bytes generalizing read with
  | nil => exact absurd rfl hne
  | cons byte bytes ih =>
    rw [List.foldlM_cons]
    cases bytes with
    | nil => simp [step]
    | cons next bytes =>
      have hstep : step ⟨frames, .chunk isText (byte :: next :: bytes).length read⟩ byte
          = some ⟨frames, .chunk isText (next :: bytes).length (byte :: read)⟩ := by
        simp [step]
      have hrest : (next :: bytes).foldlM step
          ⟨frames, .chunk isText (next :: bytes).length (byte :: read)⟩
            = some (complete frames (ofChunk isText ((byte :: read).reverse ++ next :: bytes))) :=
        ih (List.cons_ne_nil next bytes)
      rw [hstep]
      simpa using hrest

/-- A text, or a run of bytes, is complete with its last byte, or at once if it has none. -/
theorem foldlM_chunk (isText : Bool) (bytes : List UInt8) :
    bytes.foldlM step (openChunk frames isText bytes.length)
      = some (complete frames (ofChunk isText bytes)) := by
  cases bytes with
  | nil => rfl
  | cons byte bytes => exact foldlM_chunk_rest (List.cons_ne_nil byte bytes)

theorem foldlM_text {s : String} (hsize : (textBytes s).length ≤ maxLength) :
    (print (.text s)).foldlM step ⟨frames, .marker⟩ = some (complete frames (.text s)) := by
  have hvalue : ofChunk true (textBytes s) = .text s := by
    simp only [ofChunk, Value.utf8?_textBytes]
  rw [print, List.foldlM_append, foldlM_textHead hsize, ← hvalue]
  exact foldlM_chunk true (textBytes s)

/-! ## Lists and maps -/

/-- Bytes that are read as a value wherever there is room for one. -/
def ReadsAs (v : Value) (bytes : List UInt8) : Prop :=
  ∀ frames : List Frame, frames.length + v.nesting ≤ maxNesting →
    bytes.foldlM step ⟨frames, .marker⟩ = some (complete frames v)

/-- The rest of a list. -/
theorem foldlM_printItems {items acc : List Value} (hitems : ∀ v ∈ items, ReadsAs v (print v))
    (hroom : ∀ v ∈ items, frames.length + 1 + v.nesting ≤ maxNesting) (hne : items ≠ []) :
    (printItems items).foldlM step ⟨.list items.length acc :: frames, .marker⟩
      = some (complete frames (.list (acc.reverse ++ items))) := by
  -- by induction on the items; the frame on top counts how many of them are left
  induction items generalizing acc with
  | nil => exact absurd rfl hne
  | cons v items ih =>
    rw [List.forall_mem_cons] at hitems hroom
    have hfirst := hitems.1 (.list (v :: items).length acc :: frames) hroom.1
    rw [printItems, List.foldlM_append, hfirst]
    cases items with
    | nil =>
      have hlast : complete (.list [v].length acc :: frames) v
          = complete frames (.list (acc.reverse ++ [v])) := by
        simp [complete]
      rw [hlast]
      rfl
    | cons w items =>
      have hnext : complete (.list (v :: w :: items).length acc :: frames) v
          = ⟨.list (w :: items).length (v :: acc) :: frames, .marker⟩ := by
        simp [complete]
      have hrest : (printItems (w :: items)).foldlM step
          ⟨.list (w :: items).length (v :: acc) :: frames, .marker⟩
            = some (complete frames (.list ((v :: acc).reverse ++ w :: items))) :=
        ih hitems.2 hroom.2 (List.cons_ne_nil w items)
      rw [hnext]
      simpa using hrest

/-- The rest of a map. -/
theorem foldlM_printEntries {entries acc : List (Value × Value)}
    (hkeys : ∀ e ∈ entries, ReadsAs e.1 (print e.1) ∧ frames.length + 1 + e.1.nesting ≤ maxNesting)
    (hvalues : ∀ e ∈ entries,
      ReadsAs e.2 (print e.2) ∧ frames.length + 1 + e.2.nesting ≤ maxNesting)
    (hne : entries ≠ []) :
    (printEntries entries).foldlM step ⟨.map entries.length acc :: frames, .marker⟩
      = some (complete frames (.map (acc.reverse ++ entries))) := by
  -- by induction on the entries; between a key and its value the frame on top holds the key
  induction entries generalizing acc with
  | nil => exact absurd rfl hne
  | cons e entries ih =>
    rw [List.forall_mem_cons] at hkeys hvalues
    obtain ⟨k, v⟩ := e
    have hkey := hkeys.1.1 (.map ((k, v) :: entries).length acc :: frames) hkeys.1.2
    have hvalue := hvalues.1.1 (.entry ((k, v) :: entries).length acc k :: frames) hvalues.1.2
    have hwaits : complete (.map ((k, v) :: entries).length acc :: frames) k
        = ⟨.entry ((k, v) :: entries).length acc k :: frames, .marker⟩ := by
      simp [complete]
    -- the bytes up to the end of the first value
    have hfirst : (print k ++ print v).foldlM step
        ⟨.map ((k, v) :: entries).length acc :: frames, .marker⟩
          = some (complete (.entry ((k, v) :: entries).length acc k :: frames) v) := by
      rw [List.foldlM_append, hkey, ← hvalue, hwaits]
      rfl
    rw [printEntries, ← List.append_assoc, List.foldlM_append, hfirst]
    cases entries with
    | nil =>
      have hlast : complete (.entry [(k, v)].length acc k :: frames) v
          = complete frames (.map (acc.reverse ++ [(k, v)])) := by
        simp [complete]
      rw [hlast]
      rfl
    | cons w entries =>
      have hnext : complete (.entry ((k, v) :: w :: entries).length acc k :: frames) v
          = ⟨.map (w :: entries).length ((k, v) :: acc) :: frames, .marker⟩ := by
        simp [complete]
      have hrest : (printEntries (w :: entries)).foldlM step
          ⟨.map (w :: entries).length ((k, v) :: acc) :: frames, .marker⟩
            = some (complete frames (.map (((k, v) :: acc).reverse ++ w :: entries))) :=
        ih hkeys.2 hvalues.2 (List.cons_ne_nil w entries)
      rw [hnext]
      simpa using hrest

/-- A list is read back if its items are and there is room for it. -/
theorem readsAs_list {items : List Value} (hitems : ∀ v ∈ items, ReadsAs v (print v))
    (hsize : items.length ≤ maxLength) : ReadsAs (.list items) (print (.list items)) := by
  intro frames hroom
  rw [Value.nesting] at hroom
  have hdeeper : ∀ v ∈ items, frames.length + 1 + v.nesting ≤ maxNesting := by
    intro v hv
    have hle := Value.itemsNesting_le.mp (Nat.le_refl _) v hv
    omega
  have hopen : ¬ maxNesting ≤ frames.length := by omega
  rw [print, List.foldlM_append, foldlM_listHead hsize, openList, if_neg hopen]
  by_cases hempty : items = []
  · subst hempty
    rfl
  · rw [if_neg (by rwa [List.length_eq_zero_iff])]
    exact foldlM_printItems hitems hdeeper hempty

/-- A map is read back if its keys and values are and there is room for it. -/
theorem readsAs_map {entries : List (Value × Value)} (hkeys : ∀ e ∈ entries, ∃ s, e.1 = .text s)
    (hread : ∀ e ∈ entries, ReadsAs e.1 (print e.1) ∧ ReadsAs e.2 (print e.2))
    (hsize : entries.length ≤ maxLength) : ReadsAs (.map entries) (print (.map entries)) := by
  intro frames hroom
  rw [Value.nesting] at hroom
  have hopen : ¬ maxNesting ≤ frames.length := by omega
  -- keys are texts, and a text needs no frame of its own
  have hkey : ∀ e ∈ entries, ReadsAs e.1 (print e.1) ∧
      frames.length + 1 + e.1.nesting ≤ maxNesting := by
    intro e he
    obtain ⟨s, hs⟩ := hkeys e he
    refine ⟨(hread e he).1, ?_⟩
    rw [hs, Value.nesting_text]
    omega
  have hvalue : ∀ e ∈ entries, ReadsAs e.2 (print e.2) ∧
      frames.length + 1 + e.2.nesting ≤ maxNesting := by
    intro e he
    have hle := Value.entriesNesting_le.mp (Nat.le_refl _) e he
    exact ⟨(hread e he).2, by omega⟩
  rw [print, List.foldlM_append, foldlM_mapHead hsize, openMap, if_neg hopen]
  by_cases hempty : entries = []
  · subst hempty
    rfl
  · rw [if_neg (by rwa [List.length_eq_zero_iff])]
    exact foldlM_printEntries hkey hvalue hempty

/-! ## All values -/

/-- What is written for a value is read as the value. -/
theorem readsAs_print {v : Value} (hv : v.Packable) (hsize : v.longest ≤ maxLength) :
    ReadsAs v (print v) := by
  -- by induction on the value; the bound on the longest part and the depth pass on to the items and
  -- entries
  induction hv with
  | null => exact fun _ _ => rfl
  | bool b => cases b <;> exact fun _ _ => rfl
  | int h => exact fun _ _ => foldlM_printInt h
  | real x =>
    intro frames _
    have hbits : x.bits.toNat < Nat.pow 256 8 := x.bits.toNat_lt
    have hmarker : step ⟨frames, .marker⟩ 0xcb = some ⟨frames, .argument .float64 8 0⟩ := rfl
    have hread : completeArgument frames .float64 x.bits.toNat = some (complete frames (.real x)) := by
      rw [completeArgument, UInt64.ofNat_toNat]
    rw [print, List.foldlM_cons, hmarker, ← hread]
    exact foldlM_bigEndian (by decide) hbits
  | text s => exact fun _ _ => foldlM_text hsize
  | list hitems ih =>
    rw [Value.longest, Nat.max_le, Value.itemsLongest_le] at hsize
    exact readsAs_list (fun v hv => ih v hv (hsize.2 v hv)) hsize.1
  | map hkeys hvalues ih =>
    rw [Value.longest, Nat.max_le, Value.entriesLongest_le] at hsize
    refine readsAs_map hkeys (fun e he => ⟨?_, ih e he (hsize.2 e he).2⟩) hsize.1
    obtain ⟨s, hs⟩ := hkeys e he
    have hkey := (hsize.2 e he).1
    rw [hs] at hkey ⊢
    exact fun _ _ => foldlM_text hkey

/-- The first value ends a document. -/
theorem foldlM_done (v : Value) (rest : List UInt8) :
    rest.foldlM step ⟨[], .done v⟩ = some ⟨[], .done v⟩ := by
  induction rest with
  | nil => rfl
  | cons byte rest ih => exact ih

/-- **What is written is read**, and nothing of what follows it. -/
theorem read?_print_append {v : Value} (hv : v.Packable) (hsize : v.longest ≤ maxLength)
    (hdepth : v.nesting ≤ maxNesting) (rest : List UInt8) : read? (print v ++ rest) = some v := by
  have hread : (print v).foldlM step .start = some ⟨[], .done v⟩ := by
    refine (readsAs_print hv hsize [] ?_).trans ?_
    · rwa [List.length_nil, Nat.zero_add]
    · rw [complete]
  have hall : (print v ++ rest).foldlM step .start = some ⟨[], .done v⟩ := by
    rw [List.foldlM_append, hread]
    exact foldlM_done v rest
  rw [read?, hall]
  rfl

end MessagePack
end SignalBoard
