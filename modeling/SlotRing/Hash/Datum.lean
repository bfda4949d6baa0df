/-
# `Datum` — the bytes a value is hashed as

A ring hashes members and keys of many types.  What the hash sees is a byte
sequence: integers little-endian at their width, a text as its UTF-8 bytes
closed by `0xFF` (so that a pair of texts cannot run together), a sequence
after its length, an optional value after a tag.  `Datum` is the sum of those
types, `Datum.bytes` the sequence.
-/

namespace SlotRing

/-- A value that can be used as a key. -/
inductive Datum where
  | text (s : String)
  /-- An integer of `width` bytes, negative numbers in two's complement. -/
  | int (width : Nat) (value : Int)
  | bool (b : Bool)
  | char (c : Char)
  | bytes (bs : List UInt8)
  | unit
  | absent
  | present (d : Datum)
  | list (ds : List Datum)
  | pair (a b : Datum)

/-- The lowest `width` bytes of a number, lowest first. -/
def littleEndian : (width value : Nat) → List UInt8
  | 0, _ => []
  | width + 1, value => UInt8.ofNat value :: littleEndian width (value / 256)

/-- A text is closed by a byte that no UTF-8 text contains. -/
def textBytes (s : String) : List UInt8 :=
  s.toUTF8.toList ++ [0xff]

/-- Lengths and tags are written as eight bytes. -/
def wordBytes (n : Nat) : List UInt8 :=
  littleEndian 8 n

namespace Datum

mutual

def feed : Datum → List UInt8
  | .text s => textBytes s
  | .int width value => littleEndian width (value % Nat.pow 256 width).toNat
  | .bool b => [if b then 1 else 0]
  | .char c => littleEndian 4 c.toNat
  | .bytes bs => wordBytes bs.length ++ bs
  | .unit => []
  | .absent => wordBytes 0
  | .present d => wordBytes 1 ++ d.feed
  | .list ds => wordBytes ds.length ++ feedAll ds
  | .pair a b => a.feed ++ b.feed

def feedAll : List Datum → List UInt8
  | [] => []
  | d :: ds => d.feed ++ feedAll ds

end

end Datum

end SlotRing
