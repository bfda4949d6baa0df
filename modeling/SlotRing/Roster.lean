/-
# `Roster` — things made one after the other, under names

Whatever is made gets the next number, and that number stands for it ever
after.  A name stands for the latest thing made under it; what was made under
it before goes on existing for whoever knows its number.
-/
import Std.Data.ExtTreeMap

namespace SlotRing

/-- The number of a thing in a roster. -/
abbrev Serial := Nat

/-- Things made one after the other, under names. -/
structure Roster (α : Type) where
  /-- All of them, in the order in which they were made. -/
  made : List α := []
  /-- What the names stand for. -/
  named : Std.ExtTreeMap String Serial := ∅

namespace Roster

variable {α : Type} (r : Roster α)

def get? (n : Serial) : Option α := r.made[n]?

def serial? (name : String) : Option Serial := r.named[name]?

def find? (name : String) : Option α := (r.serial? name).bind r.get?

/-- The number of the next thing to be made. -/
def next : Serial := r.made.length

def add (name : String) (a : α) : Roster α where
  made := r.made ++ [a]
  named := r.named.insert name r.next

def update (n : Serial) (f : α → α) : Roster α := { r with made := r.made.modify n f }

def unname (name : String) : Roster α := { r with named := r.named.erase name }

/-- The things that names stand for, in the order of the names. -/
def current : List α := r.named.values.filterMap r.get?

theorem get?_add_next (name : String) (a : α) : (r.add name a).get? r.next = some a := by
  simp [get?, add, next]

theorem get?_add_of_lt (name : String) (a : α) {n : Serial} (made : n < r.next) :
    (r.add name a).get? n = r.get? n := by
  simp [get?, add, List.getElem?_append_left made]

theorem get?_update_self (n : Serial) (f : α → α) : (r.update n f).get? n = (r.get? n).map f := by
  simp [get?, update]

theorem get?_update_of_ne {m n : Serial} (other : n ≠ m) (f : α → α) :
    (r.update n f).get? m = r.get? m := by
  simp [get?, update, other]

theorem update_update (n : Serial) (f g : α → α) :
    (r.update n f).update n g = r.update n (g ∘ f) := by
  simp only [update, List.modify_modify_eq]

theorem update_eq_self {n : Serial} {f : α → α} (same : ∀ a, r.get? n = some a → f a = a) :
    r.update n f = r := by
  have all : r.made.modify n f = r.made := by
    refine List.ext_getElem? fun m => ?_
    rw [List.getElem?_modify]
    split
    · next here =>
      cases known : r.made[m]? with
      | none => rfl
      | some a => exact congrArg some (same a (here ▸ known))
    · exact id_map _
  rw [update, all]

end Roster

end SlotRing
