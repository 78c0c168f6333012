/-!
# Numbers of MessagePack

All numbers and lengths that follow a marker byte are big endian.
-/

namespace SignalBoard
namespace MessagePack

/-- How many lists, maps and extensions may be nested in each other. -/
def maxNesting : Nat := 1023

/-- The last `count` bytes of a number, most significant first. -/
def bigEndian : (count : Nat) → Nat → List UInt8
  | 0, _ => []
  | count + 1, n => bigEndian count (n / 256) ++ [UInt8.ofNat (n % 256)]

/-- What the bytes that follow a marker say. -/
inductive Argument where
  | unsigned
  /-- A number in two's complement with so many bits. -/
  | signed (bits : Nat)
  | float32
  | float64
  /-- The length of a text. -/
  | textLength
  /-- The length of a run of bytes. -/
  | bytesLength
  /-- The length of an extension without its type. -/
  | extension
  /-- The number of items of a list. -/
  | listSize
  /-- The number of entries of a map. -/
  | mapSize
deriving DecidableEq

end MessagePack
end SignalBoard
