/-
# Who owns a key

A key has a slot, and its owners are the members met on a walk forward from
that slot, once round the ring.  The number of owners asked for is capped by
the number of members.
-/
import SlotRing.Ring.Basic

namespace SlotRing.Ring

variable {η α κ : Type} [Ord α] [Std.TransOrd α] [HashWith η κ]

/-- The members from a slot on, and then those before it. -/
def walkFrom (r : Ring η α) (slot : Nat) : List α :=
  (r.places.filter (slot ≤ ·.1) ++ r.places.filter (·.1 < slot)).map Prod.snd

def hashOf (r : Ring η α) (key : κ) : UInt64 := HashWith.hash r.hasher key

def slotOfKey (r : Ring η α) (key : κ) : Nat := slotOf (r.hashOf key)

/-- All members in the order in which they come to own `key`. -/
def walk (r : Ring η α) (key : κ) : List α := r.walkFrom (r.slotOfKey key)

/-- The owners of a key when `count` copies are kept. -/
def locate (r : Ring η α) (key : κ) (count : Nat) : List α :=
  (r.walk key).take (min count r.size)

def isOwner [BEq α] (r : Ring η α) (m : α) (key : κ) (count : Nat) : Bool :=
  (r.locate key count).contains m

def primary? (r : Ring η α) (key : κ) : Option α := (r.walk key).head?

end SlotRing.Ring
