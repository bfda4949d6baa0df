/-
# Who hands state over when the ring changes

A member that comes to the ring shares keys with the members just before it and
takes keys over from the one just after it, so these are the ones to ask.  For
a single key, the members that lose it or gain it are read off the two owner
lists.
-/
import SlotRing.Ring.Lookup

namespace SlotRing

/-- What is in the first list and not in the second, in order. -/
def lost {α : Type} [BEq α] (before after : List α) : List α :=
  before.filter (!after.contains ·)

namespace Ring

variable {η α κ : Type} [Ord α] [Std.TransOrd α] [BEq α]

/-- The other members, from the one after `m` round to the one before it. -/
def others? (r : Ring η α) (m : α) : Option (List α) :=
  (r.members.findIdx? (· == m)).map fun i => r.members.drop (i + 1) ++ r.members.take i

/-- The members that may hold keys which `m` owns when `count` copies are kept:
the `count - 1` before it, farthest first, and then the one after it. -/
def providers (r : Ring η α) (m : α) (count : Nat) : List α :=
  match r.others? m with
  | none => []
  | some others =>
    let before := (others.drop (others.length - (min count r.size - 1))).eraseDups
    match others.head? with
    | none => before
    | some next => if next == m || before.contains next then before else before ++ [next]

variable [HashWith η κ]

def staleOwners (old new : Ring η α) (key : κ) (count : Nat) : List α :=
  lost (old.locate key count) (new.locate key count)

def gainedOwners (old new : Ring η α) (key : κ) (count : Nat) : List α :=
  lost (new.locate key count) (old.locate key count)

end Ring

end SlotRing
