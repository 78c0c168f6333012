import SignalBoard.Value.Basic
import SignalBoard.MessagePack.Format
/-!
# Writing MessagePack

Integers and lengths take the shortest form that holds them, and every number that is not an integer
takes 64 bits. What stands for nothing is written as nil.
-/

namespace SignalBoard
namespace MessagePack

/-- A marker with a number behind it, in the first of the given widths that holds it. -/
def shortestOf (n : Nat) : List (UInt8 × Nat) → List UInt8
  | [] => []
  -- the widest form is taken in any case
  | [(marker, width)] => marker :: bigEndian width n
  | (marker, width) :: wider =>
    if n < Nat.pow 256 width then marker :: bigEndian width n else shortestOf n wider

/-- A marker that holds a small number itself, or one with the number behind it. -/
def sized (base limit n : Nat) (wider : List (UInt8 × Nat)) : List UInt8 :=
  if n < limit then [UInt8.ofNat (base + n)] else shortestOf n wider

/-- An integer. -/
def printInt (n : Int) : List UInt8 :=
  if 0 ≤ n then sized 0 128 n.toNat [(0xcc, 1), (0xcd, 2), (0xce, 4), (0xcf, 8)]
  else if -32 ≤ n then [UInt8.ofNat (256 + n).toNat]
  else if -0x80 ≤ n then 0xd0 :: bigEndian 1 (0x100 + n).toNat
  else if -0x8000 ≤ n then 0xd1 :: bigEndian 2 (0x10000 + n).toNat
  else if -0x80000000 ≤ n then 0xd2 :: bigEndian 4 (0x100000000 + n).toNat
  else 0xd3 :: bigEndian 8 (0x10000000000000000 + n).toNat

/-- The marker of a text of so many bytes. -/
def textHead (length : Nat) : List UInt8 :=
  sized 0xa0 32 length [(0xd9, 1), (0xda, 2), (0xdb, 4)]

/-- The marker of a run of so many bytes. -/
def bytesHead (length : Nat) : List UInt8 :=
  shortestOf length [(0xc4, 1), (0xc5, 2), (0xc6, 4)]

/-- The marker of a list of so many items. -/
def listHead (size : Nat) : List UInt8 :=
  sized 0x90 16 size [(0xdc, 2), (0xdd, 4)]

/-- The marker of a map of so many entries. -/
def mapHead (size : Nat) : List UInt8 :=
  sized 0x80 16 size [(0xde, 2), (0xdf, 4)]

/-- The UTF-8 form of a text. -/
def textBytes (s : String) : List UInt8 :=
  s.toUTF8.data.toList

mutual

/-- The bytes of a value. -/
def print : Value → List UInt8
  | .null => [0xc0]
  | .bool false => [0xc2]
  | .bool true => [0xc3]
  | .int n => printInt n
  | .real x => 0xcb :: bigEndian 8 x.bits.toNat
  | .text s => textHead (textBytes s).length ++ textBytes s
  | .bytes bs => bytesHead bs.length ++ bs
  | .list items => listHead items.length ++ printItems items
  | .map entries => mapHead entries.length ++ printEntries entries
  | .unreadable => [0xc0]

def printItems : List Value → List UInt8
  | [] => []
  | v :: rest => print v ++ printItems rest

def printEntries : List (Value × Value) → List UInt8
  | [] => []
  | (k, v) :: rest => print k ++ (print v ++ printEntries rest)

end

end MessagePack
end SignalBoard
