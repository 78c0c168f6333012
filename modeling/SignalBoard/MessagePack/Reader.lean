import SignalBoard.Value.Basic
import SignalBoard.Binary64.Arithmetic
import SignalBoard.MessagePack.Format
/-!
# Reading MessagePack

The reader takes a document byte by byte. It keeps the containers that still miss items and a mode
that says what the next byte is for. The first value ends the document, whatever follows it. A text
that is not UTF-8 is a run of bytes. An extension stands for nothing that is known, and neither does
the key of a map that is a number in a signed form.
-/

namespace SignalBoard
namespace MessagePack

/-- A container with the number of items or entries that it still misses. What has been read of it
is in reverse order. -/
inductive Frame where
  | list (missing : Nat) (items : List Value)
  /-- A map between two entries. -/
  | map (missing : Nat) (entries : List (Value × Value))
  /-- A map after a key. -/
  | entry (missing : Nat) (entries : List (Value × Value)) (key : Value)

/-- What the next byte is for. -/
inductive Mode where
  /-- The marker of a value. -/
  | marker
  /-- One of the missing bytes of an argument. -/
  | argument (sort : Argument) (missing : Nat) (n : Nat)
  /-- One of the missing bytes of a text or of a run of bytes; what has been read of it is in
  reverse order. -/
  | chunk (isText : Bool) (missing : Nat) (bytes : List UInt8)
  /-- One of the missing bytes of an extension. -/
  | extension (missing : Nat)
  /-- Nothing: the value has been read. -/
  | done (v : Value)

/-- How far a document has been read. -/
structure ReaderState where
  frames : List Frame
  mode : Mode

/-- The value of a text or of a run of bytes. -/
def ofChunk (isText : Bool) (bytes : List UInt8) : Value :=
  match isText, Value.utf8? bytes with
  | true, some s => .text s
  | _, _ => .bytes bytes

namespace ReaderState

/-- Before the first byte. -/
def start : ReaderState := ⟨[], .marker⟩

/-- A value has been read: it belongs to the innermost container, which it may complete. -/
def complete : List Frame → Value → ReaderState
  | [], v => ⟨[], .done v⟩
  | .list missing items :: rest, v =>
    if missing ≤ 1 then complete rest (.list (v :: items).reverse)
    else ⟨.list (missing - 1) (v :: items) :: rest, .marker⟩
  | .map missing entries :: rest, v => ⟨.entry missing entries v :: rest, .marker⟩
  | .entry missing entries key :: rest, v =>
    if missing ≤ 1 then complete rest (.map ((key, v) :: entries).reverse)
    else ⟨.map (missing - 1) ((key, v) :: entries) :: rest, .marker⟩

/-- A list of so many items begins. -/
def openList (frames : List Frame) (size : Nat) : Option ReaderState :=
  if maxNesting ≤ frames.length then none
  else if size = 0 then some (complete frames (.list []))
  else some ⟨.list size [] :: frames, .marker⟩

/-- A map of so many entries begins. -/
def openMap (frames : List Frame) (size : Nat) : Option ReaderState :=
  if maxNesting ≤ frames.length then none
  else if size = 0 then some (complete frames (.map []))
  else some ⟨.map size [] :: frames, .marker⟩

/-- A text or a run of so many bytes begins. -/
def openChunk (frames : List Frame) (isText : Bool) (length : Nat) : ReaderState :=
  if length = 0 then complete frames (ofChunk isText []) else ⟨frames, .chunk isText length []⟩

/-- An extension of so many bytes begins, its type included. -/
def openExtension (frames : List Frame) (length : Nat) : Option ReaderState :=
  -- an extension takes up a level as a container does
  if maxNesting ≤ frames.length then none else some ⟨frames, .extension length⟩

/-- A number in a signed form has been read. -/
def completeSigned (frames : List Frame) (n : Int) : ReaderState :=
  match frames with
  -- as a key only a number in an unsigned form will do
  | .map _ _ :: _ => complete frames .unreadable
  | _ => complete frames (.int n)

/-- An argument has been read. -/
def completeArgument (frames : List Frame) (sort : Argument) (n : Nat) : Option ReaderState :=
  match sort with
  | .unsigned => some (complete frames (.int n))
  | .signed bits =>
    some (completeSigned frames (if n < Nat.pow 2 (bits - 1) then n else n - Nat.pow 2 bits))
  | .float32 => some (complete frames (.real (.ofBinary32 (UInt32.ofNat n))))
  | .float64 => some (complete frames (.real ⟨UInt64.ofNat n⟩))
  | .textLength => some (openChunk frames true n)
  | .bytesLength => some (openChunk frames false n)
  -- one byte more, for the type
  | .extension => openExtension frames (n + 1)
  | .listSize => openList frames n
  | .mapSize => openMap frames n

/-- The marker byte of a value. -/
def openValue (frames : List Frame) (marker : UInt8) : Option ReaderState :=
  let n := marker.toNat
  let argument (sort : Argument) (count : Nat) : Option ReaderState :=
    some ⟨frames, .argument sort count 0⟩
  if n < 0x80 then some (complete frames (.int n))
  else if n < 0x90 then openMap frames (n - 0x80)
  else if n < 0xa0 then openList frames (n - 0x90)
  else if n < 0xc0 then some (openChunk frames true (n - 0xa0))
  else if 0xe0 ≤ n then some (completeSigned frames (n - 0x100))
  else
    match n with
    | 0xc0 => some (complete frames .null)
    | 0xc2 => some (complete frames (.bool false))
    | 0xc3 => some (complete frames (.bool true))
    | 0xc4 => argument .bytesLength 1
    | 0xc5 => argument .bytesLength 2
    | 0xc6 => argument .bytesLength 4
    | 0xc7 => argument .extension 1
    | 0xc8 => argument .extension 2
    | 0xc9 => argument .extension 4
    | 0xca => argument .float32 4
    | 0xcb => argument .float64 8
    | 0xcc => argument .unsigned 1
    | 0xcd => argument .unsigned 2
    | 0xce => argument .unsigned 4
    | 0xcf => argument .unsigned 8
    | 0xd0 => argument (.signed 8) 1
    | 0xd1 => argument (.signed 16) 2
    | 0xd2 => argument (.signed 32) 4
    | 0xd3 => argument (.signed 64) 8
    | 0xd4 => openExtension frames 2
    | 0xd5 => openExtension frames 3
    | 0xd6 => openExtension frames 5
    | 0xd7 => openExtension frames 9
    | 0xd8 => openExtension frames 17
    | 0xd9 => argument .textLength 1
    | 0xda => argument .textLength 2
    | 0xdb => argument .textLength 4
    | 0xdc => argument .listSize 2
    | 0xdd => argument .listSize 4
    | 0xde => argument .mapSize 2
    | 0xdf => argument .mapSize 4
    | _ => none

/-- One more byte. -/
def step (s : ReaderState) (byte : UInt8) : Option ReaderState :=
  match s.mode with
  | .marker => openValue s.frames byte
  | .argument sort missing n =>
    let n := n * 256 + byte.toNat
    if missing ≤ 1 then completeArgument s.frames sort n
    else some ⟨s.frames, .argument sort (missing - 1) n⟩
  | .chunk isText missing bytes =>
    if missing ≤ 1 then some (complete s.frames (ofChunk isText (byte :: bytes).reverse))
    else some ⟨s.frames, .chunk isText (missing - 1) (byte :: bytes)⟩
  | .extension missing =>
    if missing ≤ 1 then some (complete s.frames .unreadable)
    else some ⟨s.frames, .extension (missing - 1)⟩
  -- what follows the value is not looked at
  | .done _ => some s

end ReaderState

/-- Reads the value at the beginning of a document. -/
def read? (bytes : List UInt8) : Option Value :=
  (bytes.foldlM ReaderState.step .start).bind fun s =>
    match s.mode with
    | .done v => some v
    | _ => none

end MessagePack
end SignalBoard
