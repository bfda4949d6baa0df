/-
# SipHash — the 64-bit hash of a byte sequence

SipHash-c-d under the all-zero key: the message is cut into little-endian
words of eight bytes, each word is mixed into a state of four lanes with `c`
rounds, the last word carries the length of the message, and `d` rounds
close the state.  Rings use the pairs (1, 3) and (2, 4).

Nothing here depends on how the bytes were produced; `SlotRing.Hash.Datum`
says which bytes stand for which value.
-/

namespace SlotRing.Sip

/-- The four lanes that the message is mixed into. -/
structure State where
  v0 : UInt64
  v1 : UInt64
  v2 : UInt64
  v3 : UInt64

/-- The state before the first word, for the all-zero key. -/
def State.start : State where
  v0 := 0x736f6d6570736575
  v1 := 0x646f72616e646f6d
  v2 := 0x6c7967656e657261
  v3 := 0x7465646279746573

/-- Rotation towards the high bits, for `0 < n < 64`. -/
def rotate (x n : UInt64) : UInt64 :=
  (x <<< n) ||| (x >>> (64 - n))

/-- One round: two add-rotate-xor layers over the lanes. -/
def round (s : State) : State :=
  let a := s.v0 + s.v1
  let b := rotate s.v1 13 ^^^ a
  let c := s.v2 + s.v3
  let d := rotate s.v3 16 ^^^ c
  let a := rotate a 32 + d
  let c := c + b
  { v0 := a, v1 := rotate b 17 ^^^ c, v2 := rotate c 32, v3 := rotate d 21 ^^^ a }

def rounds (n : Nat) (s : State) : State :=
  n.repeat round s

def State.absorb (c : Nat) (s : State) (word : UInt64) : State :=
  let s := rounds c { s with v3 := s.v3 ^^^ word }
  { s with v0 := s.v0 ^^^ word }

/-- The word whose bytes, lowest first, are `bytes` (at most eight). -/
def word (bytes : List UInt8) : UInt64 :=
  bytes.foldr (fun b high => (high <<< 8) ||| b.toUInt64) 0

/-- Mixes in every full word; what is left is shorter than eight bytes. -/
def absorbWords (c : Nat) (s : State) : List UInt8 → State × List UInt8
  | b0 :: b1 :: b2 :: b3 :: b4 :: b5 :: b6 :: b7 :: rest =>
    absorbWords c (s.absorb c (word [b0, b1, b2, b3, b4, b5, b6, b7])) rest
  | rest => (s, rest)

/-- SipHash-`c`-`d` of `bytes` under the all-zero key. -/
def digest (c d : Nat) (bytes : List UInt8) : UInt64 :=
  let (s, rest) := absorbWords c .start bytes
  let last := (bytes.length.toUInt64 <<< 56) ||| word rest
  let s := s.absorb c last
  let s := rounds d { s with v2 := s.v2 ^^^ 0xff }
  s.v0 ^^^ s.v1 ^^^ s.v2 ^^^ s.v3

end SlotRing.Sip
