/-
# `Strategy` — the hash functions a ring can be configured with

A strategy is chosen by name when a node starts.  `HashWith η κ` is the only
thing the rest of the library asks of a hash function, so every law of rings
holds for an arbitrary `η`; the strategies are two instances of it.
-/
import SlotRing.Hash.Sip
import SlotRing.Hash.Datum
import SlotRing.Text.Blank

namespace SlotRing

/-- A hasher of type `η` gives every value of type `κ` a 64-bit hash. -/
class HashWith (η κ : Type) where
  hash : η → κ → UInt64

/-- The hash functions that a configuration can name. -/
inductive Strategy where
  | sip13
  | sip24
  deriving DecidableEq, Repr

namespace Strategy

/-- What is used when nothing is said. -/
def standard : Strategy := .sip24

def digest : Strategy → List UInt8 → UInt64
  | .sip13 => Sip.digest 1 3
  | .sip24 => Sip.digest 2 4

def names : List String := ["default", "sip13", "sip24"]

/-- A name as it is compared: without blanks around it, ASCII letters small. -/
def canonicalName (name : String) : String :=
  (Text.trim name).map Char.toLower

def named? (name : String) : Option Strategy :=
  match canonicalName name with
  | "default" => some standard
  | "sip24" => some .sip24
  | "sip13" => some .sip13
  | _ => none

def title : Strategy → String
  | .sip13 => "Sip13"
  | .sip24 => "Sip24"

end Strategy

instance : HashWith Strategy Datum where
  hash strategy d := strategy.digest d.feed

/-- Texts, and with them member addresses and stored keys. -/
instance : HashWith Strategy String where
  hash strategy s := strategy.digest (textBytes s)

instance : HashWith Strategy UInt64 where
  hash strategy n := strategy.digest (wordBytes n.toNat)

end SlotRing
