import SignalBoard.Binary64.Basic
/-!
# Values of documents

What a stored document says, free of the format that it is stored in. The readers and writers of the
formats work on values; how a node or a circuit is laid out as a value is decided once for all
formats.
-/

namespace SignalBoard

/-- A value of a stored document. -/
inductive Value where
  | null
  | bool (b : Bool)
  | int (n : Int)
  | real (x : Binary64)
  | text (s : String)
  /-- A run of bytes. It may be used as a text if it is UTF-8, and as a list if it is empty. -/
  | bytes (bs : List UInt8)
  | list (items : List Value)
  /-- The entries of a map, in order; a key may come more than once. -/
  | map (entries : List (Value × Value))
  /-- What is well formed but stands for nothing. It may be passed over but not be used. -/
  | unreadable

namespace Value

instance : Inhabited Value := ⟨null⟩

/-- The text that a run of bytes is in UTF-8. -/
def utf8? (bs : List UInt8) : Option String :=
  String.fromUTF8? (ByteArray.mk bs.toArray)

/-- A map whose keys are texts. -/
def record (fields : List (String × Value)) : Value :=
  .map (fields.map fun (name, v) => (.text name, v))

end Value
end SignalBoard
