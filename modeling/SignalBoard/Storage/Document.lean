import SignalBoard.Json.Reader
import SignalBoard.Json.Printer
import SignalBoard.MessagePack.Reader
import SignalBoard.MessagePack.Writer
import SignalBoard.Storage.Circuit
import SignalBoard.Storage.Memory
import SignalBoard.Storage.Wire
/-!
# Documents

Circuits are stored as JSON text or as MessagePack bytes. Both hold the same value. Nodes, wires and
memory are stored as JSON text.
-/

namespace SignalBoard

namespace Json

/-- How many lists and maps may be nested in each other where they are used. -/
def maxNesting : Nat := 127

/-- The text of a value. -/
def text (v : Value) : String :=
  String.ofList (print v)

/-- The value that a text holds. -/
def ofText? (s : String) : Option Value :=
  read? s.toList

end Json

namespace Circuit

def toJson (c : Circuit) : String :=
  Json.text c.toValue

def ofJson? (s : String) : Option Circuit :=
  (Json.ofText? s).bind (ofValue? Json.maxNesting)

def toMessagePack (c : Circuit) : List UInt8 :=
  MessagePack.print c.toValue

def ofMessagePack? (bytes : List UInt8) : Option Circuit :=
  (MessagePack.read? bytes).bind (ofValue? MessagePack.maxNesting)

end Circuit

namespace Node

def toJson (node : Node) : String :=
  Json.text node.toValue

def ofJson? (s : String) : Option Node :=
  (Json.ofText? s).bind ofValue?

end Node

namespace Wire

def toJson (wire : Wire) : String :=
  Json.text wire.toValue

def ofJson? (s : String) : Option Wire :=
  (Json.ofText? s).bind ofValue?

end Wire

namespace NodeMemory

def toJson (m : NodeMemory) : String :=
  Json.text m.toValue

def ofJson? (s : String) : Option NodeMemory :=
  (Json.ofText? s).bind (ofValue? Json.maxNesting)

end NodeMemory
end SignalBoard
