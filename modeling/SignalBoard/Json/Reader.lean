import SignalBoard.Json.Number
import SignalBoard.Json.Quoted
/-!
# Reading JSON

The reader takes a text character by character. It keeps the containers that are still open and a
mode that says what may come next, so that reading one text after another is running on from the
state that the first one leaves. How deep containers are nested does not matter here.
-/

namespace SignalBoard
namespace Json

/-- A container that has been opened. What has been read of it is in reverse order. -/
inductive Frame where
  | list (items : List Value)
  /-- A map between two entries. -/
  | map (entries : List (Value × Value))
  /-- A map after a key. -/
  | entry (entries : List (Value × Value)) (key : Value)

/-- What may come next. -/
inductive Mode where
  /-- A value. -/
  | value
  /-- A value, or the end of the list that was opened last. -/
  | firstItem
  /-- A key. -/
  | key
  /-- A key, or the end of the map that was opened last. -/
  | firstKey
  /-- The colon after a key. -/
  | colon
  /-- A comma or the end of a container. -/
  | separator
  /-- The rest of a string; what has been read of it is in reverse order. -/
  | quoted (isKey : Bool) (codes : List Nat)
  /-- The character after a backslash. -/
  | escaped (isKey : Bool) (codes : List Nat)
  /-- Some more hexadecimal digits of a code point. -/
  | coded (isKey : Bool) (codes : List Nat) (missing : Nat) (code : Nat)
  /-- The rest of a number, if there is any; what has been read of it is in reverse order. -/
  | number (chars : List Char)
  /-- The rest of a word. -/
  | word (rest : List Char) (v : Value)
  /-- Nothing but blanks: the value has been read. -/
  | done (v : Value)

/-- How far a text has been read. -/
structure ReaderState where
  frames : List Frame
  mode : Mode

/-- The characters between tokens. -/
def isSpace (c : Char) : Bool :=
  c = ' ' || c = '\t' || c = '\n' || c = '\r'

/-- The characters of which numbers consist. -/
def isNumberChar (c : Char) : Bool :=
  c.isDigit || c = '-' || c = '+' || c = '.' || c = 'e' || c = 'E'

namespace ReaderState

/-- Before the first character. -/
def start : ReaderState := ⟨[], .value⟩

/-- A value has been read: it belongs to the innermost open container. -/
def complete (frames : List Frame) (v : Value) : Option ReaderState :=
  match frames with
  | [] => some ⟨[], .done v⟩
  | .list items :: rest => some ⟨.list (v :: items) :: rest, .separator⟩
  | .entry entries key :: rest => some ⟨.map ((key, v) :: entries) :: rest, .separator⟩
  -- a value where a key belongs
  | .map _ :: _ => none

/-- A string has been read. A string that cannot be joined is unreadable. -/
def completeString (frames : List Frame) (isKey : Bool) (codes : List Nat) : Option ReaderState :=
  let v := match joinHalves? codes.reverse with
    | some cs => Value.text (String.ofList cs)
    | none => .unreadable
  if isKey then
    match frames with
    -- an unreadable key does no harm inside a value that is passed over
    | .map entries :: rest => some ⟨.entry entries v :: rest, .colon⟩
    | _ => none
  else complete frames v

/-- A number has been read. -/
def completeNumber (frames : List Frame) (chars : List Char) : Option ReaderState :=
  (number? chars.reverse).bind (complete frames)

/-- The first character of a value. -/
def openValue (frames : List Frame) (c : Char) : Option ReaderState :=
  if c = '[' then some ⟨.list [] :: frames, .firstItem⟩
  else if c = '\x7b' then some ⟨.map [] :: frames, .firstKey⟩
  else if c = '"' then some ⟨frames, .quoted false []⟩
  else if c = '-' ∨ c.isDigit then some ⟨frames, .number [c]⟩
  else if c = 't' then some ⟨frames, .word ['r', 'u', 'e'] (.bool true)⟩
  else if c = 'f' then some ⟨frames, .word ['a', 'l', 's', 'e'] (.bool false)⟩
  else if c = 'n' then some ⟨frames, .word ['u', 'l', 'l'] .null⟩
  else none

/-- The quote before a key. -/
def openKey (frames : List Frame) (c : Char) : Option ReaderState :=
  if c = '"' then some ⟨frames, .quoted true []⟩ else none

/-- The end of the innermost open container. -/
def close (frames : List Frame) (c : Char) : Option ReaderState :=
  match frames with
  | .list items :: rest => if c = ']' then complete rest (.list items.reverse) else none
  | .map entries :: rest => if c = '\x7d' then complete rest (.map entries.reverse) else none
  | _ => none

/-- A comma, after which the innermost open container goes on, or its end. -/
def separate (frames : List Frame) (c : Char) : Option ReaderState :=
  if c = ',' then
    match frames with
    | .list _ :: _ => some ⟨frames, .value⟩
    | .map _ :: _ => some ⟨frames, .key⟩
    | _ => none
  else close frames c

/-- One more character where no string, number or word is being read. -/
def stepBetween (frames : List Frame) (mode : Mode) (c : Char) : Option ReaderState :=
  if isSpace c then some ⟨frames, mode⟩
  else
    match mode with
    | .value => openValue frames c
    | .firstItem => if c = ']' then close frames c else openValue frames c
    | .key => openKey frames c
    | .firstKey => if c = '\x7d' then close frames c else openKey frames c
    | .colon => if c = ':' then some ⟨frames, .value⟩ else none
    | .separator => separate frames c
    | _ => none

/-- One more character. -/
def step (s : ReaderState) (c : Char) : Option ReaderState :=
  match s.mode with
  | .quoted isKey codes =>
    if c = '"' then completeString s.frames isKey codes
    else if c = '\\' then some ⟨s.frames, .escaped isKey codes⟩
    else if c.toNat < 0x20 then none
    else some ⟨s.frames, .quoted isKey (c.toNat :: codes)⟩
  | .escaped isKey codes =>
    if c = 'u' then some ⟨s.frames, .coded isKey codes 4 0⟩
    else (unescape? c).map fun code => ⟨s.frames, .quoted isKey (code :: codes)⟩
  | .coded isKey codes missing code =>
    (hexValue? c).map fun digit =>
      let code := code * 16 + digit
      if missing ≤ 1 then ⟨s.frames, .quoted isKey (code :: codes)⟩
      else ⟨s.frames, .coded isKey codes (missing - 1) code⟩
  | .word rest v =>
    match rest with
    | [] => none
    | [d] => if c = d then complete s.frames v else none
    | d :: rest => if c = d then some ⟨s.frames, .word rest v⟩ else none
  | .number chars =>
    if isNumberChar c then some ⟨s.frames, .number (c :: chars)⟩
    -- the character that ends a number belongs to what comes next
    else (completeNumber s.frames chars).bind fun s => stepBetween s.frames s.mode c
  | mode => stepBetween s.frames mode c

/-- The value that has been read when the text ends. -/
def finish (s : ReaderState) : Option Value :=
  match s.mode with
  | .done v => some v
  | .number chars =>
    -- only the end of the text shows that a number is over
    (completeNumber s.frames chars).bind fun s =>
      match s.mode with
      | .done v => some v
      | _ => none
  | _ => none

end ReaderState

/-- Reads a text that holds one value and blanks around it. -/
def read? (cs : List Char) : Option Value :=
  (cs.foldlM ReaderState.step .start).bind ReaderState.finish

end Json
end SignalBoard
