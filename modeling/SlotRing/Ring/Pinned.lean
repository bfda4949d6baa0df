/-
# Pinned members — members that bring their own hash

Where the place of a member has to be chosen by hand, the member carries its
hash, and the hasher that goes with it hashes nothing.
-/
import SlotRing.Ring.Basic

namespace SlotRing

/-- A member with a chosen hash, ordered by name and then by hash. -/
structure Pinned where
  name : String
  hash : UInt64
  deriving DecidableEq, Repr

namespace Pinned

instance : Ord Pinned :=
  ⟨compareLex (compareOn Pinned.name) (compareOn Pinned.hash)⟩

instance : Std.TransOrd Pinned :=
  inferInstanceAs (Std.TransCmp (compareLex (compareOn Pinned.name) (compareOn Pinned.hash)))

/-- The hasher that takes a hash for what it is. -/
structure ByHand where

instance : HashWith ByHand Pinned := ⟨fun _ m => m.hash⟩

instance : HashWith ByHand UInt64 := ⟨fun _ n => n⟩

end Pinned

end SlotRing
