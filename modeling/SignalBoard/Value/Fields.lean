import SignalBoard.Value.Basic
import SignalBoard.Binary64.Arithmetic
/-!
# Taking values apart

A record is stored as a map from field names to values, in any order, or as the list of the values
of its first fields. In a map a field may also go by its number, fields that are not known are
passed over, and a known field must not come twice. The readers here say which values stand for a
number, a text and so on.
-/

namespace SignalBoard

/-- Reads a text, or a run of bytes that is one. -/
def Value.text? : Value → Option String
  | text s => some s
  | bytes bs => utf8? bs
  | _ => none

/-- The fields of a record that are there, by name. -/
structure Fields where
  entries : List (String × Value)

namespace Fields

def empty : Fields := ⟨[]⟩

def get? (fields : Fields) (name : String) : Option Value :=
  (fields.entries.find? (·.1 = name)).map Prod.snd

/-- Reads a field that must be there. -/
def required {α : Type} (fields : Fields) (name : String) (read : Value → Option α) : Option α :=
  (fields.get? name).bind read

/-- Reads a field that has a default. -/
def withDefault {α : Type} (fields : Fields) (name : String) (default : α)
    (read : Value → Option α) : Option α :=
  match fields.get? name with
  | some v => read v
  | none => some default

/-- The known field that a key of a map names: a text, or the number of the field. The outer option
is none where the key cannot be a field name at all; bytes that are no text can be one. -/
def name? (names : List String) : Value → Option (Option String)
  | .text s => some (if s ∈ names then some s else none)
  | .bytes bs => some ((Value.utf8? bs).filter (· ∈ names))
  | .int n => if n < 0 then none else some names[n.toNat]?
  | _ => none

/-- Takes in one entry of a map. -/
def addEntry? (names : List String) (fields : Fields) (entry : Value × Value) : Option Fields :=
  match name? names entry.1 with
  | none => none
  -- a field that is not known is passed over, a known one must not come twice
  | some none => some fields
  | some (some name) =>
    if (fields.get? name).isSome then none else some ⟨fields.entries ++ [(name, entry.2)]⟩

end Fields

namespace Value

/-- Reads a record whose fields have the given names. -/
def fields? (names : List String) : Value → Option Fields
  | map entries => entries.foldlM (Fields.addEntry? names) .empty
  -- a list holds the fields in order and may break off early
  | list items => if items.length ≤ names.length then some ⟨names.zip items⟩ else none
  | _ => none

def bool? : Value → Option Bool
  | bool b => some b
  | _ => none

/-- Reads a number; an integer is taken for the nearest one. -/
def number? : Value → Option Binary64
  | int n => some (.ofInt n)
  | real x => some x
  | _ => none

/-- Reads an integer that fits into a word of 64 bits. -/
def word64? : Value → Option UInt64
  | int n => if 0 ≤ n ∧ n < UInt64.size then some (UInt64.ofNat n.toNat) else none
  | _ => none

/-- Reads an integer that fits into a word of 32 bits. -/
def word32? : Value → Option UInt32
  | int n => if 0 ≤ n ∧ n < UInt32.size then some (UInt32.ofNat n.toNat) else none
  | _ => none

/-- Reads a list, item by item. -/
def list? {α : Type} (read : Value → Option α) : Value → Option (List α)
  | list items => items.mapM read
  | bytes [] => some []
  | _ => none

/-- Reads a value in whose place there may be null. -/
def option? {α : Type} (read : Value → Option α) : Value → Option (Option α)
  | null => some none
  | v => (read v).map some

/-- The integer for a word of 64 bits. -/
def ofWord64 (n : UInt64) : Value :=
  int n.toNat

/-- The integer for a word of 32 bits. -/
def ofWord32 (n : UInt32) : Value :=
  int n.toNat

end Value
end SignalBoard
