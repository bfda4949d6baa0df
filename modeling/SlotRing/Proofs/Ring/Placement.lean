/-
# Placing members: every member gets a slot of its own

`Ring.ofMembers` puts the members on the ring one after the other, and each of
them goes forward to the first free slot.  Two things have to be seen.

* The search ends on a free slot.  It looks at `ringSize` slots, which are all
  there are, and one of them is free as long as fewer members stand on the ring
  (`firstFree_free`).
* What was placed stays placed: a free slot is no one's, so that an insertion
  never overwrites (`Seated.place`).

`Ring.Sound` is what follows for the ring that is built: the member list is the
placement read in the order of the slots, and the two directions of the
placement are inverse to each other.
-/
import Mathlib.Data.List.Perm.Subperm
import SlotRing.Proofs.Tables
import SlotRing.Ring.Build

namespace SlotRing

/-! ## The search for a free slot -/

/-- The search goes forward from `slot` over taken slots.  It ends on a free
one, or has looked at `reach` of them. -/
theorem firstFree_eq_add (taken : Nat → Bool) (reach slot : Nat) (onRing : slot < ringSize) :
    ∃ j ≤ reach, firstFree taken reach slot = (slot + j) % ringSize ∧
      (∀ i < j, taken ((slot + i) % ringSize) = true) ∧
      (j < reach → taken ((slot + j) % ringSize) = false) := by
  induction reach generalizing slot with
  | zero =>
    exact ⟨0, Nat.le_refl 0, (Nat.mod_eq_of_lt onRing).symm,
      fun i hi => absurd hi (Nat.not_lt_zero i), fun h => absurd h (Nat.lt_irrefl 0)⟩
  | succ reach ih =>
    by_cases h : taken slot = true
    · obtain ⟨j, hj, found, before, free⟩ :=
        ih ((slot + 1) % ringSize) (Nat.mod_lt _ (by decide))
      have shift : ∀ i, ((slot + 1) % ringSize + i) % ringSize = (slot + (i + 1)) % ringSize := by
        intro i
        rw [Nat.mod_add_mod, Nat.add_assoc, Nat.add_comm 1 i]
      refine ⟨j + 1, by omega, ?_, ?_, ?_⟩
      · simp only [firstFree, h, if_true, found, shift]
      · intro i hi
        cases i with
        | zero => simpa [Nat.mod_eq_of_lt onRing] using h
        | succ i => rw [← shift]; exact before i (by omega)
      · intro hlt
        rw [← shift]
        exact free (by omega)
    · refine ⟨0, by omega, ?_, fun i hi => absurd hi (Nat.not_lt_zero i), fun _ => ?_⟩
      · simp [firstFree, h, Nat.mod_eq_of_lt onRing]
      · simpa [Nat.mod_eq_of_lt onRing] using h

theorem firstFree_lt (taken : Nat → Bool) (reach slot : Nat) (onRing : slot < ringSize) :
    firstFree taken reach slot < ringSize := by
  obtain ⟨j, -, found, -⟩ := firstFree_eq_add taken reach slot onRing
  rw [found]
  exact Nat.mod_lt _ (by decide)

theorem firstFree_free {taken : Nat → Bool} {slot free : Nat} (onRing : slot < ringSize)
    (hfree : free < ringSize) (isFree : taken free = false) :
    taken (firstFree taken ringSize slot) = false := by
  obtain ⟨j, hj, found, before, ends⟩ := firstFree_eq_add taken ringSize slot onRing
  rw [found]
  by_cases h : j < ringSize
  · exact ends h
  · -- all slots have been looked at, and `free` is one of them
    exfalso
    have reached : (slot + (free + ringSize - slot) % ringSize) % ringSize = free := by
      rw [Nat.add_mod_mod, Nat.add_sub_cancel' (by omega), Nat.add_mod_right,
        Nat.mod_eq_of_lt hfree]
    have := before ((free + ringSize - slot) % ringSize)
      (Nat.lt_of_lt_of_le (Nat.mod_lt _ (by decide)) (by omega))
    rw [reached, isFree] at this
    exact absurd this (by decide)

/-! ## Members on slots -/

namespace Ring

variable {α : Type}

/-- Each of `ms` stands on one slot of the ring, and nobody else does. -/
structure Seated (positions : Std.ExtTreeMap Nat α) (ms : List α) : Prop where
  size : positions.size = ms.length
  onRing {slot : Nat} {m : α} : positions[slot]? = some m → slot < ringSize ∧ m ∈ ms
  seat {m : α} : m ∈ ms → ∃ slot : Nat, positions[slot]? = some m
  once {s t : Nat} {m : α} : positions[s]? = some m → positions[t]? = some m → s = t

theorem Seated.nil : Seated (∅ : Std.ExtTreeMap Nat α) [] where
  size := rfl
  onRing h := absurd h (by simp)
  seat h := absurd h List.not_mem_nil
  once h := absurd h (by simp)

theorem Seated.exists_free {positions : Std.ExtTreeMap Nat α} {ms : List α}
    (seated : Seated positions ms) (room : ms.length < ringSize) :
    ∃ free < ringSize, positions.contains free = false := by
  by_contra none
  have all : List.range ringSize ⊆ positions.keys := by
    intro slot hslot
    have hlt := List.mem_range.mp hslot
    rw [Std.ExtTreeMap.mem_keys, ← Std.ExtTreeMap.contains_iff_mem]
    by_contra h
    exact none ⟨slot, hlt, Bool.eq_false_iff.mpr h⟩
  have count := (List.subperm_of_subset List.nodup_range all).length_le
  rw [List.length_range, Std.ExtTreeMap.length_keys, seated.size] at count
  omega

theorem Seated.place {positions : Std.ExtTreeMap Nat α} {ms : List α}
    (seated : Seated positions ms) (room : ms.length < ringSize) {seat : Nat × α}
    (onRing : seat.1 < ringSize) (new : seat.2 ∉ ms) :
    Seated (place positions seat) (seat.2 :: ms) := by
  obtain ⟨free, hfree, isFree⟩ := seated.exists_free room
  let slot := firstFree positions.contains ringSize seat.1
  have untaken : positions.contains slot = false := firstFree_free onRing hfree isFree
  have empty : positions[slot]? = none :=
    Std.ExtTreeMap.getElem?_eq_none_of_contains_eq_false untaken
  have lookup : ∀ s, (Ring.place positions seat)[s]? =
      if slot = s then some seat.2 else positions[s]? := by
    intro s
    simp only [Ring.place, Std.ExtTreeMap.getElem?_insert, Nat.compare_eq_eq]
    rfl
  refine ⟨?_, ?_, ?_, ?_⟩
  · show (positions.insert slot seat.2).size = _
    rw [Std.ExtTreeMap.size_insert, if_neg (by simp [untaken]), seated.size, List.length_cons]
  · intro s m h
    rw [lookup] at h
    split at h
    · next same =>
      cases h
      exact ⟨same ▸ firstFree_lt _ _ _ onRing, List.mem_cons_self⟩
    · exact ⟨(seated.onRing h).1, List.mem_cons_of_mem _ (seated.onRing h).2⟩
  · intro m h
    cases h with
    | head => exact ⟨slot, by rw [lookup, if_pos rfl]⟩
    | tail _ h =>
      obtain ⟨s, hs⟩ := seated.seat h
      refine ⟨s, ?_⟩
      rw [lookup, if_neg, hs]
      rintro rfl
      rw [empty] at hs
      exact absurd hs (by simp)
  · intro s t m hs ht
    rw [lookup] at hs ht
    split at hs <;> split at ht
    · next h h' => exact h.symm.trans h'
    · cases hs
      exact absurd (seated.onRing ht).2 new
    · cases ht
      exact absurd (seated.onRing hs).2 new
    · exact seated.once hs ht

theorem Seated.foldl_place {positions : Std.ExtTreeMap Nat α} {ms : List α}
    (seated : Seated positions ms) (seats : List (Nat × α))
    (onRing : ∀ seat ∈ seats, seat.1 < ringSize) (distinct : (seats.map Prod.snd).Nodup)
    (new : ∀ seat ∈ seats, seat.2 ∉ ms)
    (room : ms.length + seats.length ≤ ringSize) :
    Seated (seats.foldl Ring.place positions) ((seats.map Prod.snd).reverse ++ ms) := by
  induction seats generalizing positions ms with
  | nil => exact seated
  | cons seat seats ih =>
    rw [List.length_cons] at room
    rw [List.map_cons, List.nodup_cons] at distinct
    have placed := seated.place (by omega) (onRing seat List.mem_cons_self)
      (new seat List.mem_cons_self)
    rw [List.map_cons, List.reverse_cons, List.append_assoc, List.singleton_append]
    refine ih placed (fun s hs => onRing s (List.mem_cons_of_mem _ hs)) distinct.2
      (fun s hs => ?_) (by rw [List.length_cons]; omega)
    rw [List.mem_cons, not_or]
    refine ⟨fun same => distinct.1 ?_, new s (List.mem_cons_of_mem _ hs)⟩
    exact same ▸ List.mem_map_of_mem hs

end Ring

end SlotRing
