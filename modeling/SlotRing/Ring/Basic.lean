/-
# `Ring` — members on a circle of slots

A ring has `ringSize` slots.  A hash is reduced to a slot by `slotOf`; every
member stands on one slot, and the order of the members is the ascending order
of their slots, whatever the order in which they were handed in.

A ring keeps its hasher, the members in that order, and the two directions of
the placement as ordered maps.  A ring made by `Ring.ofMembers` has all four in
agreement (`SlotRing.Ring.Build`); one that was read from a text has whatever
the text said, so the lookups below say exactly which of the parts they use.
-/
import Std.Data.ExtTreeMap
import SlotRing.Hash.Strategy

namespace SlotRing

/-- The number of slots.  Far above the size of any cluster, so that a member
seldom finds its slot taken. -/
def ringSize : Nat := 10240

/-- The slot of a hash: its low 32 bits, read as a signed number, without the
sign, modulo the size of the ring.  The one number whose opposite has no 32
bits is first moved by one. -/
def slotOf (hash : UInt64) : Nat :=
  let low := hash.toUInt32.toNat
  let magnitude :=
    if low < 0x80000000 then low
    else if low = 0x80000000 then 0x7fffffff
    else UInt32.size - low
  magnitude % ringSize

theorem slotOf_lt (hash : UInt64) : slotOf hash < ringSize :=
  Nat.mod_lt _ (by decide)

structure Ring (η α : Type) [Ord α] where
  hasher : η
  /-- The members in the order of the ring. -/
  members : List α
  /-- Which member stands on a slot. -/
  positions : Std.ExtTreeMap Nat α
  /-- On which slot a member stands. -/
  memberPositions : Std.ExtTreeMap α Nat

namespace Ring

variable {η α : Type} [Ord α] [Std.TransOrd α]

def size (r : Ring η α) : Nat := r.members.length

def isEmpty (r : Ring η α) : Bool := r.members.isEmpty

def places (r : Ring η α) : List (Nat × α) := r.positions.toList

def contains (r : Ring η α) (m : α) : Bool := r.memberPositions.contains m

def position? (r : Ring η α) (m : α) : Option Nat := r.memberPositions[m]?

/-- Two rings agree when they have the same members on the same slots; which
hasher put them there does not matter. -/
def agrees [BEq α] (r s : Ring η α) : Bool :=
  r.members == s.members && r.places == s.places

instance [BEq α] : BEq (Ring η α) := ⟨agrees⟩

end Ring

end SlotRing
