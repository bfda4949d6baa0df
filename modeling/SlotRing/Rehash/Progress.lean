/-
# `Rehash` — a change of members on a node, and how far it has come

The record is what others can see of a rehash while it runs and afterwards: the
phases it has gone through, the rings it moves between, and the errand that it
has left: former owners are told which copies they may drop, on the side.
-/
import SlotRing.Mapping.Accepted
import SlotRing.Rehash.Phase
import SlotRing.Roster

namespace SlotRing

inductive Change where
  | join
  /-- A member has left; `old` is the ring it left. -/
  | leave (leaver : Address) (old : MemberRing)

/-- The rings that a rehash moves between. -/
structure Passage where
  old : MemberRing
  new : MemberRing

/-- Work for the side: former owners are told what they no longer own. -/
structure Errand where
  /-- The node that tells them. -/
  node : Serial
  passage : Passage
  /-- Of how many keys they have been told, once that is done. -/
  told : Option Nat := none

/-- A change of members on a node, and how far it has come. -/
structure Rehash where
  /-- The number of the node. -/
  node : Serial
  /-- The name of the node. -/
  address : Address
  change : Change
  /-- The phases gone through, the last one first. -/
  trail : List Phase := []
  /-- The rings, once they are known. -/
  passage : Option Passage := none
  /-- The number of the errand that it has left, as long as nobody has asked
  for it. -/
  errand : Option Nat := none

def Rehash.phase (r : Rehash) : Phase := r.trail.head?.getD .idle

end SlotRing
