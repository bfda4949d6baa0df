/-
# Distances along the ring

The distance from one member to another is counted in members, forward and
round the ring; neighbours are one step apart in one of the two directions.
-/
import SlotRing.Ring.Basic

namespace SlotRing.Ring

variable {η α : Type} [Ord α] [Std.TransOrd α]

def index? (r : Ring η α) (m : α) : Option Nat :=
  (r.position? m).map fun slot => (r.places.filter (·.1 < slot)).length

/-- The number of steps forward from `a` to `b`, when both are members. -/
def distance? (r : Ring η α) (a b : α) : Option Nat :=
  match r.index? a, r.index? b with
  | some i, some j => some (if i ≤ j then j - i else r.size - (i - j))
  | _, _ => none

def adjacent (r : Ring η α) (a b : α) : Bool :=
  match r.distance? a b with
  | some d => d = 1 || d = r.size - 1
  | none => false

end SlotRing.Ring
