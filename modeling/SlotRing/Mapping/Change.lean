/-
# Changing the set of members

All nodes of a cluster place members with one hasher, and a change of the
member set is a new ring placed with it: the hasher of the ring that is changed
plays no part.
-/
import SlotRing.Mapping.Basic
import SlotRing.Ring.Build

namespace SlotRing

variable {η α : Type} [Ord α] [Std.TransOrd α] [HashWith η α]

namespace Ring

def extend (hasher : η) (r : Ring η α) (extra : List α) : Except RingFull (Ring η α) :=
  ofMembers hasher (r.members ++ extra)

def without [BEq α] (hasher : η) (r : Ring η α) (m : α) : Except RingFull (Ring η α) :=
  ofMembers hasher (r.members.filter (· != m))

end Ring

/-- The mapping without a member, on both sides if it is moving. -/
def Mapping.without [BEq α] (hasher : η) (m : α) :
    Mapping η α → Except RingFull (Mapping η α)
  | .settled ring => .settled <$> ring.without hasher m
  | .moving old new => .moving <$> old.without hasher m <*> new.without hasher m

end SlotRing
