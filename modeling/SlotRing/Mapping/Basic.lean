/-
# `Mapping` — where keys are routed to

A node routes keys either over one settled ring or, while ownership moves, over
the ring it comes from and the ring it goes to.  During a move the owners under
the old ring come first, so that a read meets a member that holds the key, and
writes go to the owners under both, so that no future owner misses one.
-/
import SlotRing.Ring.Lookup
import SlotRing.Ring.Providers

namespace SlotRing

/-- Adds the members of a second list that the first does not hold, in order. -/
def appendNew {α : Type} [BEq α] (owners : List α) : List α → List α
  | [] => owners
  | m :: ms =>
    if owners.contains m then appendNew owners ms else appendNew (owners ++ [m]) ms

theorem mem_appendNew {α : Type} [BEq α] [LawfulBEq α] {a : α} {owners ms : List α} :
    a ∈ appendNew owners ms ↔ a ∈ owners ∨ a ∈ ms := by
  fun_induction appendNew owners ms with
  | case1 => simp
  | case2 owners m ms h ih =>
    have hm : m ∈ owners := by simpa using h
    rw [ih, List.mem_cons]
    constructor
    · rintro (h | h) <;> simp [h]
    · rintro (h | rfl | h) <;> simp [*]
  | case3 owners m ms h ih => simp [ih, or_assoc]

/-- As `appendNew`, until there are `count` owners. -/
def topUp {α : Type} [BEq α] (count : Nat) (owners : List α) : List α → List α
  | [] => owners
  | m :: ms =>
    if count ≤ owners.length then owners
    else if owners.contains m then topUp count owners ms
    else topUp count (owners ++ [m]) ms

/-- A settled ring, or the move from one ring to another. -/
inductive Mapping (η α : Type) [Ord α] where
  | settled (ring : Ring η α)
  | moving (old new : Ring η α)

namespace Mapping

variable {η α κ : Type} [Ord α] [Std.TransOrd α]

def isMoving : Mapping η α → Bool
  | .settled _ => false
  | .moving .. => true

def settled? : Mapping η α → Option (Ring η α)
  | .settled ring => some ring
  | .moving .. => none

/-- The ring that the mapping ends with. -/
def target : Mapping η α → Ring η α
  | .settled ring => ring
  | .moving _ new => new

/-- The ring that state is complete under: during a move the one it comes
from. -/
def stable : Mapping η α → Ring η α
  | .settled ring => ring
  | .moving old _ => old

variable [BEq α]

/-- Two mappings agree when both are settled or both are moving, and their
rings agree. -/
def agrees : Mapping η α → Mapping η α → Bool
  | .settled r, .settled s => r.agrees s
  | .moving old new, .moving old' new' => old.agrees old' && new.agrees new'
  | _, _ => false

instance : BEq (Mapping η α) := ⟨agrees⟩

/-- Every member of either ring, those of the old one first. -/
def members : Mapping η α → List α
  | .settled ring => ring.members
  | .moving old new => appendNew old.members new.members

variable [HashWith η κ]

/-- The owners of a key, at most `count`. -/
def locate (mapping : Mapping η α) (key : κ) (count : Nat) : List α :=
  match mapping with
  | .settled ring => ring.locate key count
  | .moving old new => topUp count (old.locate key count) (new.locate key count)

/-- The members that a write of a key must reach: every owner under either
ring. -/
def writeOwners (mapping : Mapping η α) (key : κ) (count : Nat) : List α :=
  match mapping with
  | .settled ring => ring.locate key count
  | .moving old new => appendNew (old.locate key count) (new.locate key count)

def isOwner (mapping : Mapping η α) (m : α) (key : κ) (count : Nat) : Bool :=
  (mapping.locate key count).contains m

/-- The owners that a key loses from one mapping to the other. -/
def staleOwners (old new : Mapping η α) (key : κ) (count : Nat) : List α :=
  lost (old.locate key count) (new.locate key count)

/-- The owners that a key gains from one mapping to the other. -/
def gainedOwners (old new : Mapping η α) (key : κ) (count : Nat) : List α :=
  lost (new.locate key count) (old.locate key count)

end Mapping

end SlotRing
