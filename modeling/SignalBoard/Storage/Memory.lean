import SignalBoard.Node.Memory
import SignalBoard.Value.Fields
/-!
# Node memory as a value

Memory is stored as a map in which the entry `kind` says what sort of memory it is; the other
entries are its fields. It is also read from a list that begins with the sort. Since the sort may
come last, everything else has to be readable even where it is not used, and no deeper than the
format allows.
-/

namespace SignalBoard

mutual

/-- Whether nothing in a value is unreadable and no more than the given number of lists and maps are
nested in it. -/
def Value.isReadable (levels : Nat) : Value → Bool
  | .list items => 0 < levels && Value.itemsReadable (levels - 1) items
  | .map entries => 0 < levels && Value.entriesReadable (levels - 1) entries
  | .unreadable => false
  | _ => true

def Value.itemsReadable (levels : Nat) : List Value → Bool
  | [] => true
  | v :: rest => v.isReadable levels && Value.itemsReadable levels rest

def Value.entriesReadable (levels : Nat) : List (Value × Value) → Bool
  | [] => true
  | (k, v) :: rest =>
    k.isReadable levels && v.isReadable levels && Value.entriesReadable levels rest

end

namespace NodeMemory

/-- The name of the entry that says what sort of memory is stored. -/
def tag : String := "kind"

def toValue : NodeMemory → Value
  | stateless => .record [(tag, .text "stateless")]
  | latch value => .record [(tag, .text "latch"), ("value", .real value)]
  | delay buffer cursor =>
    .record [(tag, .text "delay"), ("buffer", .list (buffer.map .real)),
      ("writeIndex", .ofWord64 cursor)]

/-- Whether an entry of a map is the tag. -/
def isTag (entry : Value × Value) : Bool :=
  entry.1.text? = some tag

/-- The sort of memory and the value that holds its fields. -/
def split? : Value → Option (String × Value)
  -- the sort stands first in a list, and anywhere in a map but only once
  | .list (sort :: rest) => sort.text?.map fun sort => (sort, .list rest)
  | .map entries =>
    match entries.filter isTag with
    | [(_, sort)] => sort.text?.map fun sort => (sort, .map (entries.filter fun e => !isTag e))
    | _ => none
  | _ => none

/-- Reads the fields of memory of a given sort. What belongs to no field is passed over in a map but
not in a list. -/
def ofFields? (sort : String) (v : Value) : Option NodeMemory :=
  if sort = "stateless" then
    match v with
    | .list (_ :: _) => none
    | _ => some stateless
  else if sort = "latch" then do
    let fields ← v.fields? ["value"]
    return latch (← fields.required "value" Value.number?)
  else if sort = "delay" then do
    let fields ← v.fields? ["buffer", "writeIndex"]
    return delay (← fields.required "buffer" (Value.list? Value.number?))
      (← fields.required "writeIndex" Value.word64?)
  else none

/-- Reads memory from a value of a format that nests at most `levels` deep. -/
def ofValue? (levels : Nat) (v : Value) : Option NodeMemory :=
  if v.isReadable levels then (split? v).bind fun (sort, fields) => ofFields? sort fields else none

end NodeMemory
end SignalBoard
