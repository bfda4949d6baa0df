/-
# Building a ring from a set of members

Members are placed one after the other in the order of (natural slot, member);
one that finds its slot taken goes forward, round the ring, to the first free
slot.  The order makes the result depend on the set of members only.

`Ring.ofMembers` refuses more distinct members than there are slots and nothing
else: below that number `firstFree` always ends on a free slot.
-/
import Std.Data.ExtTreeSet
import SlotRing.Ring.Basic

namespace SlotRing

structure RingFull where
  /-- The number of distinct members. -/
  count : Nat
  deriving DecidableEq, Repr

/-- The first free slot from `slot` on, looked for over `reach` slots. -/
def firstFree (taken : Nat → Bool) : (reach slot : Nat) → Nat
  | 0, slot => slot
  | reach + 1, slot =>
    if taken slot then firstFree taken reach ((slot + 1) % ringSize) else slot

namespace Ring

variable {η α : Type} [Ord α] [Std.TransOrd α] [HashWith η α]

/-- The slot a member would like to stand on. -/
def naturalSlot (hasher : η) (m : α) : Nat := slotOf (HashWith.hash hasher m)

/-- The order of placement: by natural slot, and by member on one slot. -/
abbrev seatOrder (a b : Nat × α) : Ordering :=
  compareLex (compareOn Prod.fst) (compareOn Prod.snd) a b

/-- Puts a member with natural slot `seat.1` on the first free slot. -/
def place (positions : Std.ExtTreeMap Nat α) (seat : Nat × α) : Std.ExtTreeMap Nat α :=
  positions.insert (firstFree positions.contains ringSize seat.1) seat.2

/-- The distinct members, each with its natural slot, in the order of
placement. -/
def seats (hasher : η) (members : List α) : List (Nat × α) :=
  (Std.ExtTreeSet.ofList (members.map fun m => (naturalSlot hasher m, m)) seatOrder).toList

/-- The ring whose members stand on the given slots. -/
def ofPositions (hasher : η) (positions : Std.ExtTreeMap Nat α) : Ring η α where
  hasher
  members := positions.values
  positions
  memberPositions := .ofList (positions.toList.map fun (slot, m) => (m, slot))

/-- The ring of a set of members, given as a list in any order and with
repetitions. -/
def ofMembers (hasher : η) (members : List α) : Except RingFull (Ring η α) :=
  let seats := seats hasher members
  if seats.length > ringSize then .error ⟨seats.length⟩
  else .ok (ofPositions hasher (seats.foldl place ∅))

end Ring

end SlotRing
