/-
# Owners are the nearest members

The walk of a key goes through the slots from that of the key to the end of the ring, and
then through those from the beginning.  What it comes to can be said without the two parts:
sort the members by the way to them, counted in slots forward from the key
(`nearestFirst`).  No two members are equally far, so there is only one way to sort them,
and the walk is the sorted list (`Sound.walk_eq_nearestFirst`).

For the ring of a set of members this says everything about lookups
(`locate_nearest_first`): the owners are the first of the sorted members, as many as there
are copies.
-/
import Mathlib.Data.List.Rotate
import SlotRing.Proofs.Ring.Displacement

namespace SlotRing.Ring

variable {η α κ : Type} [Ord α] [Std.TransOrd α] [HashWith η κ]

/-- The number of slots from that of a key forward to that of a member. -/
def wayTo (r : Ring η α) (key : κ) (m : α) : Nat :=
  stepsTo (r.slotOfKey key) ((r.position? m).getD 0)

/-- All members, sorted by the way from a key to them. -/
def nearestFirst (r : Ring η α) (key : κ) : List α :=
  r.members.mergeSort fun a b => r.wayTo key a ≤ r.wayTo key b

theorem nearestFirst_perm (r : Ring η α) (key : κ) : (r.nearestFirst key).Perm r.members :=
  List.mergeSort_perm _ _

theorem nearestFirst_ascend (r : Ring η α) (key : κ) :
    (r.nearestFirst key).Pairwise (r.wayTo key · ≤ r.wayTo key ·) := by
  have sorted : (r.nearestFirst key).Pairwise
      fun a b => decide (r.wayTo key a ≤ r.wayTo key b) = true := by
    refine List.pairwise_mergeSort (fun a b c ab bc => ?_) (fun a b => ?_) r.members
    · rw [decide_eq_true_iff] at ab bc ⊢
      exact Nat.le_trans ab bc
    · rw [Bool.or_eq_true, decide_eq_true_iff, decide_eq_true_iff]
      exact Nat.le_total _ _
  exact sorted.imp fun h => of_decide_eq_true h

namespace Sound

variable {r : Ring η α} (sound : r.Sound)
include sound

theorem wayTo_eq (key : κ) {m : α} {slot : Nat} (stands : r.positions[slot]? = some m) :
    r.wayTo key m = stepsTo (r.slotOfKey key) slot := by
  rw [wayTo, (sound.position_iff m slot).mpr stands, Option.getD_some]

theorem exists_rotate (key : κ) : ∃ first ≤ r.size, r.walk key = r.members.rotate first := by
  obtain ⟨before, from_, members, walk⟩ := sound.exists_rotation key
  refine ⟨before.length, ?_, ?_⟩
  · rw [size, members, List.length_append]
    exact Nat.le_add_right _ _
  · rw [walk, members, List.rotate_append_length_eq]

theorem head?_locate (key : κ) (count : Nat) :
    (r.locate key count).head? = if count = 0 then none else r.primary? key := by
  rw [sound.locate_eq_take, List.head?_take, primary?]

section

variable (onRing : ∀ {slot : Nat} {m : α}, r.positions[slot]? = some m → slot < ringSize)
include onRing

/-- On its walk a key meets members that are farther and farther from it. -/
theorem walk_ascend (key : κ) : (r.walk key).Pairwise (r.wayTo key · < r.wayTo key ·) := by
  rw [walk, walkFrom, List.pairwise_map]
  refine (turn_ascend (places_ascend r) (fun _ h => onRing (mem_places_iff.mp h))
    (slotOf_lt _)).imp_of_mem fun {a b} ha hb less => ?_
  have stands {e : Nat × α} (h : e ∈ r.places.filter (r.slotOfKey key ≤ ·.1) ++
      r.places.filter (·.1 < r.slotOfKey key)) : r.positions[e.1]? = some e.2 := by
    rw [List.mem_append, List.mem_filter, List.mem_filter] at h
    exact mem_places_iff.mp (h.elim And.left And.left)
  rw [sound.wayTo_eq key (stands ha), sound.wayTo_eq key (stands hb)]
  exact less

theorem wayTo_inj (key : κ) {a b : α} (ha : a ∈ r.members) (hb : b ∈ r.members)
    (same : r.wayTo key a = r.wayTo key b) : a = b := by
  obtain ⟨p, hp⟩ := sound.mem_members_iff.mp ha
  obtain ⟨q, hq⟩ := sound.mem_members_iff.mp hb
  rw [sound.position_iff] at hp hq
  rw [sound.wayTo_eq key hp, sound.wayTo_eq key hq] at same
  have slots : p = q := stepsTo_inj (slotOf_lt _) (onRing hp) (onRing hq) same
  rw [slots, hq] at hp
  exact (Option.some.inj hp).symm

theorem walk_eq_nearestFirst (key : κ) : r.walk key = r.nearestFirst key := by
  refine List.Perm.eq_of_pairwise (fun a b ha hb ab ba => ?_)
    ((sound.walk_ascend onRing key).imp Nat.le_of_lt) (r.nearestFirst_ascend key)
    ((sound.walk_perm key).trans (r.nearestFirst_perm key).symm)
  exact sound.wayTo_inj onRing key (sound.mem_walk_iff.mp ha)
    ((r.nearestFirst_perm key).mem_iff.mp hb) (Nat.le_antisymm ab ba)

end

theorem isOwner_iff_idxOf [BEq α] [LawfulBEq α] (m : α) (key : κ) (count : Nat) :
    r.isOwner m key count = true ↔ m ∈ r.members ∧ (r.walk key).idxOf m < count := by
  rw [isOwner, List.contains_iff_mem, sound.locate_eq_take]
  constructor
  · intro owner
    have mem := List.mem_of_mem_take owner
    exact ⟨sound.mem_walk_iff.mp mem, (List.mem_take_iff_idxOf_lt mem).mp owner⟩
  · rintro ⟨mem, near⟩
    exact (List.mem_take_iff_idxOf_lt (sound.mem_walk_iff.mpr mem)).mpr near

end Sound

variable [Std.LawfulEqOrd α] [BEq α] [LawfulBEq α] [HashWith η α]

/-- On the ring of any set of members, the owners of a key are the first of the members
sorted by the way to them, on which no two are equal.  So they are different members, in the
order of the ring from one of them on; more copies add owners behind the others; the first
owner is the primary one, if there is to be one at all; and a member is an owner just when
there are fewer members before it in the sorted list than copies. -/
theorem locate_nearest_first {hasher : η} {ms : List α} {r : Ring η α}
    (built : ofMembers hasher ms = .ok r) (key : κ) (count : Nat) :
    (∀ m ∈ ms, ∃ slot, r.position? m = some slot ∧
        r.wayTo key m = (slot + ringSize - r.slotOfKey key) % ringSize) ∧
      (r.nearestFirst key).Pairwise (r.wayTo key · < r.wayTo key ·) ∧
      r.locate key count = (r.nearestFirst key).take (min count r.size) ∧
      (r.locate key count).Nodup ∧
      (∃ first ≤ r.size, r.locate key count = (r.members.rotate first).take (min count r.size)) ∧
      r.locate key count <+: r.locate key (count + 1) ∧
      (r.locate key count).head? = (if count = 0 then none else r.primary? key) ∧
      ∀ m, r.isOwner m key count = true ↔ m ∈ ms ∧ (r.nearestFirst key).idxOf m < count := by
  have sound := sound_ofMembers built
  have sorted := sound.walk_eq_nearestFirst (onRing_ofMembers built) key
  refine ⟨fun m mem => ?_, sorted ▸ sound.walk_ascend (onRing_ofMembers built) key, ?_,
    sound.nodup_locate key count, ?_, ?_, sound.head?_locate key count, fun m => ?_⟩
  · obtain ⟨slot, stands⟩ :=
      sound.mem_members_iff.mp ((mem_members_ofMembers built).mpr mem)
    exact ⟨slot, stands, sound.wayTo_eq key ((sound.position_iff m slot).mp stands)⟩
  · rw [← sorted, locate]
  · obtain ⟨first, few, turned⟩ := sound.exists_rotate key
    exact ⟨first, few, by rw [← turned, locate]⟩
  · rw [sound.locate_eq_take, sound.locate_eq_take]
    exact List.take_prefix_take_left (Nat.le_succ count)
  · rw [← sorted, sound.isOwner_iff_idxOf, mem_members_ofMembers built]

/-- The slot of "k0" is 5121; "n132" and "n136" stand behind it, and "A" is reached over the
end of the ring. -/
theorem locate_nearest_first_of_collision :
    ∃ r : Ring Strategy String, ofMembers .sip24 ["n136", "A", "n132", "A"] = .ok r ∧
      r.slotOfKey "k0" = 5121 ∧
      (["A", "n132", "n136"].map r.position?) = [some 2319, some 6404, some 6405] ∧
      (r.nearestFirst "k0").take 2 = ["n132", "n136"] ∧
      (r.nearestFirst "k0").idxOf "n136" < 2 ∧ ¬ (r.nearestFirst "k0").idxOf "A" < 2 := by
  have room : ["n136", "A", "n132", "A"].length ≤ ringSize := by decide
  obtain ⟨r, built⟩ := exists_ofMembers Strategy.sip24 room
  have computed {β : Type} (f : Ring Strategy String → β) {b : β} :=
    apply_eq_of_ofMembers (b := b) built f
  obtain ⟨-, -, owners, -, -, -, -, ranks⟩ := locate_nearest_first built "k0" 2
  have size : r.size = 3 := computed size (by decide +kernel)
  have found : r.locate "k0" 2 = ["n132", "n136"] := computed (·.locate "k0" 2) (by decide +kernel)
  have near : r.isOwner "n136" "k0" 2 = true :=
    computed (·.isOwner "n136" "k0" 2) (by decide +kernel)
  have far : r.isOwner "A" "k0" 2 = false := computed (·.isOwner "A" "k0" 2) (by decide +kernel)
  refine ⟨r, built, computed (·.slotOfKey "k0") (by decide +kernel),
    computed (fun r => ["A", "n132", "n136"].map r.position?) (by decide +kernel), ?_,
    ((ranks "n136").mp near).2, fun before => ?_⟩
  · rw [← found, owners, size]
    rfl
  · rw [(ranks "A").mpr ⟨by decide, before⟩] at far
    cases far

end SlotRing.Ring
