/-
# Who owns a key on a sound ring

The walk from the slot of a key meets every member once, and the owners are the
first of them.  On a sound ring the slots ascend, so that the walk is the member
list begun in another place (`Sound.exists_rotation`).
-/
import SlotRing.Proofs.Ring.Members
import SlotRing.Ring.Lookup
import SlotRing.Ring.Providers

namespace SlotRing

section

variable {α : Type} [BEq α]

theorem lost_append (l l' after : List α) :
    lost (l ++ l') after = lost l after ++ lost l' after :=
  List.filter_append _ _

variable [LawfulBEq α] {before after : List α}

theorem mem_lost {a : α} : a ∈ lost before after ↔ a ∈ before ∧ a ∉ after := by
  rw [lost, List.mem_filter, Bool.not_eq_true', ← Bool.not_eq_true, List.contains_iff_mem]

theorem lost_eq_nil (kept : ∀ m ∈ before, m ∈ after) : lost before after = [] := by
  simpa [lost, List.filter_eq_nil_iff] using kept

theorem lost_eq_self (gone : ∀ m ∈ before, m ∉ after) : lost before after = before := by
  simpa [lost, List.filter_eq_self] using gone

end

theorem mem_take_middle_iff {α : Type} {before behind : List α} {a : α} {count : Nat}
    (nodup : (before ++ a :: behind).Nodup) :
    a ∈ (before ++ a :: behind).take count ↔ before.length < count := by
  constructor
  · intro mem
    by_contra few
    rw [List.take_append_of_le_length (by omega)] at mem
    exact List.disjoint_of_nodup_append nodup (List.mem_of_mem_take mem) List.mem_cons_self
  · intro reached
    obtain ⟨more, rest⟩ : ∃ more, count - before.length = more + 1 :=
      ⟨count - before.length - 1, by omega⟩
    rw [List.take_append, rest, List.take_succ_cons]
    exact List.mem_append_right _ List.mem_cons_self

end SlotRing

namespace SlotRing.Ring

theorem filter_lt_append_filter_ge {α : Type} {places : List (Nat × α)}
    (ascend : places.Pairwise fun a b => a.1 < b.1) (slot : Nat) :
    places.filter (·.1 < slot) ++ places.filter (slot ≤ ·.1) = places := by
  induction places with
  | nil => rfl
  | cons p ps ih =>
    obtain ⟨above, ascend⟩ := List.pairwise_cons.mp ascend
    by_cases h : p.1 < slot
    · rw [List.filter_cons_of_pos (by simpa using h), List.filter_cons_of_neg (by simpa using h),
        List.cons_append, ih ascend]
    · -- all that follow stand on higher slots, too
      have higher : ∀ q ∈ p :: ps, slot ≤ q.1 := by
        intro q hq
        cases hq with
        | head => omega
        | tail _ hq => have := above q hq; omega
      rw [List.filter_eq_nil_iff.mpr fun q hq => by simpa using higher q hq,
        List.filter_eq_self.mpr fun q hq => by simpa using higher q hq, List.nil_append]

variable {η α κ : Type} [Ord α]

theorem places_ascend [Std.TransOrd α] (r : Ring η α) : r.places.Pairwise fun a b => a.1 < b.1 :=
  Std.ExtTreeMap.ordered_keys_toList.imp fun h => Nat.compare_eq_lt.mp h

theorem mem_places_iff [Std.TransOrd α] {r : Ring η α} {slot : Nat} {m : α} :
    (slot, m) ∈ r.places ↔ r.positions[slot]? = some m :=
  Std.ExtTreeMap.mem_toList_iff_getElem?_eq_some

namespace Sound

variable [Std.TransOrd α] [HashWith η κ] {r : Ring η α} (sound : r.Sound)
include sound

/-- The members from the slot of a key on come first on the walk, and those
before it follow. -/
theorem exists_rotation (key : κ) :
    ∃ before from_, r.members = before ++ from_ ∧ r.walk key = from_ ++ before := by
  refine ⟨(r.places.filter (·.1 < r.slotOfKey key)).map Prod.snd,
    (r.places.filter (r.slotOfKey key ≤ ·.1)).map Prod.snd, ?_,
    by rw [walk, walkFrom, List.map_append]⟩
  rw [sound.members_eq, ← List.map_append, filter_lt_append_filter_ge (places_ascend r)]

theorem walk_perm (key : κ) : (r.walk key).Perm r.members := by
  obtain ⟨before, from_, members, walk⟩ := sound.exists_rotation key
  rw [members, walk]
  exact List.perm_append_comm

theorem mem_walk_iff {key : κ} {m : α} : m ∈ r.walk key ↔ m ∈ r.members :=
  (sound.walk_perm key).mem_iff

theorem nodup_walk [Std.LawfulEqOrd α] (key : κ) : (r.walk key).Nodup :=
  (sound.walk_perm key).nodup_iff.mpr sound.nodup_members

theorem length_walk (key : κ) : (r.walk key).length = r.size :=
  (sound.walk_perm key).length_eq

theorem locate_eq_take (key : κ) (count : Nat) : r.locate key count = (r.walk key).take count := by
  rw [locate, ← sound.length_walk key]
  by_cases h : count ≤ (r.walk key).length
  · rw [Nat.min_eq_left h]
  · rw [Nat.min_eq_right (by omega), List.take_length, List.take_of_length_le (by omega)]

theorem length_locate (key : κ) (count : Nat) :
    (r.locate key count).length = min count r.size := by
  rw [sound.locate_eq_take, List.length_take, sound.length_walk]

theorem mem_locate_iff_of_size_le {key : κ} {count : Nat} {m : α} (few : r.size ≤ count) :
    m ∈ r.locate key count ↔ m ∈ r.members := by
  rw [sound.locate_eq_take, List.take_of_length_le (sound.length_walk key ▸ few),
    sound.mem_walk_iff]

theorem mem_members_of_mem_locate {key : κ} {count : Nat} {m : α} (h : m ∈ r.locate key count) :
    m ∈ r.members :=
  sound.mem_walk_iff.mp (List.mem_of_mem_take h)

theorem exists_mem_locate (key : κ) {count : Nat} (some : count ≠ 0) (inhabited : r.members ≠ []) :
    ∃ m, m ∈ r.locate key count := by
  refine List.exists_mem_of_ne_nil _ fun none => ?_
  rw [sound.locate_eq_take, List.take_eq_nil_iff, or_iff_right some] at none
  have empty := sound.walk_perm key
  rw [none] at empty
  exact inhabited (List.nil_perm.mp empty)

theorem nodup_locate [Std.LawfulEqOrd α] (key : κ) (count : Nat) : (r.locate key count).Nodup :=
  (sound.nodup_walk key).sublist (List.take_sublist _ _)

end Sound

end SlotRing.Ring
