/-
# The ring of a set of members

What `Ring.ofMembers` builds depends on the set of members only
(`ofMembers_congr`), has exactly these members (`mem_members_ofMembers`), and is
sound (`sound_ofMembers`): its parts agree with each other.  Whatever is said
about lookups later needs no more than `Ring.Sound`.  A changed set of members is
built anew (`extend_ofMembers`, `without_ofMembers`).
-/
import SlotRing.Mapping.Change
import SlotRing.Proofs.Ring.Placement

namespace SlotRing.Ring

variable {η α : Type} [Ord α] [Std.TransOrd α]

/-- The parts of a ring agree: the members are those on the slots, in the order
of the slots, and every member knows its own slot. -/
structure Sound (r : Ring η α) : Prop where
  members_eq : r.members = r.places.map Prod.snd
  position_iff (m : α) (slot : Nat) : r.position? m = some slot ↔ r.positions[slot]? = some m

namespace Sound

variable {r : Ring η α} (sound : r.Sound)
include sound

theorem mem_members_iff {m : α} : m ∈ r.members ↔ ∃ slot, r.position? m = some slot := by
  rw [sound.members_eq]
  simp only [List.mem_map, Prod.exists, places, Std.ExtTreeMap.mem_toList_iff_getElem?_eq_some,
    exists_eq_right, sound.position_iff]

theorem contains_iff {m : α} : r.contains m = true ↔ m ∈ r.members := by
  rw [sound.mem_members_iff, contains, Std.ExtTreeMap.contains_eq_isSome_getElem?,
    Option.isSome_iff_exists]
  rfl

theorem slot_unique {s t : Nat} {m : α} (hs : r.positions[s]? = some m)
    (ht : r.positions[t]? = some m) : s = t := by
  rw [← sound.position_iff] at hs ht
  rw [hs] at ht
  exact Option.some.inj ht

theorem nodup_members : r.members.Nodup := by
  rw [sound.members_eq, List.Nodup, List.pairwise_map]
  refine Std.ExtTreeMap.distinct_keys_toList.imp_of_mem ?_
  intro a b ha hb distinct same
  rw [Std.ExtTreeMap.mem_toList_iff_getElem?_eq_some] at ha hb
  rw [same] at ha
  exact distinct (by rw [sound.slot_unique ha hb]; exact Std.ReflOrd.compare_self)

end Sound

section Room

variable [HashWith η α]

theorem length_seats_le (hasher : η) (ms : List α) : (seats hasher ms).length ≤ ms.length := by
  rw [seats, Std.ExtTreeSet.length_toList]
  exact Nat.le_trans Std.ExtTreeSet.size_ofList_le (Nat.le_of_eq (List.length_map _))

theorem exists_ofMembers (hasher : η) {ms : List α} (room : ms.length ≤ ringSize) :
    ∃ r, ofMembers hasher ms = .ok r := by
  have fits := length_seats_le hasher ms
  exact ⟨_, if_neg (by omega)⟩

/-- What can be computed of the ring of some members. -/
theorem apply_eq_of_ofMembers {hasher : η} {ms : List α} {r : Ring η α}
    (built : ofMembers hasher ms = .ok r) {β : Type} (f : Ring η α → β) {b : β}
    (computed : (ofMembers hasher ms).toOption.map f = some b) : f r = b := by
  rw [built] at computed
  exact Option.some.inj computed

end Room

variable [Std.LawfulEqOrd α]

theorem sound_ofPositions (hasher : η) {positions : Std.ExtTreeMap Nat α} {ms : List α}
    (seated : Seated positions ms) : (ofPositions hasher positions).Sound where
  members_eq := values_eq_map_snd positions
  position_iff m slot := by
    show (Std.ExtTreeMap.ofList (positions.toList.map fun x => (x.2, x.1)))[m]? = some slot ↔ _
    rw [getElem?_ofList_iff]
    · simp only [List.mem_map, Prod.mk.injEq, Prod.exists,
        Std.ExtTreeMap.mem_toList_iff_getElem?_eq_some]
      constructor
      · rintro ⟨s, m', h, rfl, rfl⟩
        exact h
      · exact fun h => ⟨slot, m, h, rfl, rfl⟩
    · rw [List.pairwise_map]
      refine Std.ExtTreeMap.distinct_keys_toList.imp_of_mem ?_
      intro a b ha hb different same
      rw [Std.ExtTreeMap.mem_toList_iff_getElem?_eq_some] at ha hb
      have same : a.2 = b.2 := Std.LawfulEqOrd.eq_of_compare same
      rw [same] at ha
      exact different (by rw [seated.once ha hb]; exact Std.ReflOrd.compare_self)

/-! ## The ring of a set -/

variable [HashWith η α]

instance : Std.TransCmp (seatOrder (α := α)) :=
  inferInstanceAs (Std.TransCmp (compareLex (compareOn Prod.fst) (compareOn Prod.snd)))

instance : Std.LawfulEqCmp (seatOrder (α := α)) where
  compare_self := Std.ReflCmp.compare_self
  eq_of_compare {a b} h := by
    obtain ⟨slot, member⟩ : compare a.1 b.1 = .eq ∧ compare a.2 b.2 = .eq := by
      simpa [seatOrder, compareLex, compareOn, Ordering.then_eq_eq] using h
    exact Prod.ext (Std.LawfulEqOrd.eq_of_compare slot) (Std.LawfulEqOrd.eq_of_compare member)

theorem mem_seats {hasher : η} {members : List α} {seat : Nat × α} :
    seat ∈ seats hasher members ↔
      seat.2 ∈ members ∧ seat.1 = naturalSlot hasher seat.2 := by
  classical
  rw [seats, Std.ExtTreeSet.mem_toList, Std.ExtTreeSet.mem_ofList, List.contains_iff_mem,
    List.mem_map]
  constructor
  · rintro ⟨m, hm, rfl⟩
    exact ⟨hm, rfl⟩
  · rintro ⟨mem, natural⟩
    exact ⟨seat.2, mem, Prod.ext natural.symm rfl⟩

theorem ofMembers_congr (hasher : η) {ms ms' : List α} (same : ∀ m, m ∈ ms ↔ m ∈ ms') :
    ofMembers hasher ms = ofMembers hasher ms' := by
  have sets : seats hasher ms = seats hasher ms' := by
    unfold seats
    congr 1
    refine Std.ExtTreeSet.ext_mem fun seat => ?_
    rw [← Std.ExtTreeSet.mem_toList, ← Std.ExtTreeSet.mem_toList]
    exact mem_seats.trans ((and_congr_left' (same seat.2)).trans mem_seats.symm)
  rw [ofMembers, ofMembers, sets]

theorem nodup_seats (hasher : η) (ms : List α) :
    ((seats hasher ms).map Prod.snd).Nodup := by
  rw [List.Nodup, List.pairwise_map]
  refine Std.ExtTreeSet.distinct_toList.imp_of_mem ?_
  intro a b ha hb distinct same
  have eq : a = b := Prod.ext ((mem_seats.mp ha).2.trans (same ▸ (mem_seats.mp hb).2.symm)) same
  exact distinct (eq ▸ Std.ReflCmp.compare_self)

theorem exists_ofMembers_of_subset {hasher : η} {ms ms' : List α} {r : Ring η α}
    (built : ofMembers hasher ms = .ok r) (sub : ∀ m ∈ ms', m ∈ ms) :
    ∃ r', ofMembers hasher ms' = .ok r' := by
  have fewer : (seats hasher ms').length ≤ (seats hasher ms).length := by
    have mapped (ms : List α) : ((seats hasher ms).map Prod.snd).length = _ := List.length_map _
    rw [← mapped ms', ← mapped ms]
    refine (List.subperm_of_subset (nodup_seats hasher ms') fun m hm => ?_).length_le
    obtain ⟨seat, listed, rfl⟩ := List.mem_map.mp hm
    obtain ⟨mem, slot⟩ := mem_seats.mp listed
    exact List.mem_map.mpr ⟨seat, mem_seats.mpr ⟨sub _ mem, slot⟩, rfl⟩
  have room : ¬ (seats hasher ms).length > ringSize := by
    intro full
    rw [ofMembers, if_pos full] at built
    cases built
  exact ⟨_, if_neg (by omega)⟩

theorem seated_ofMembers {hasher : η} {ms : List α} {r : Ring η α}
    (built : ofMembers hasher ms = .ok r) :
    r = ofPositions hasher r.positions ∧
      Seated r.positions ((seats hasher ms).map Prod.snd).reverse := by
  simp only [ofMembers] at built
  split at built
  · cases built
  · next room =>
    have seated := Seated.nil.foldl_place (seats hasher ms)
      (fun seat h => by rw [(mem_seats.mp h).2]; exact slotOf_lt _)
      (nodup_seats hasher ms) (fun _ _ => List.not_mem_nil) (by simpa using room)
    rw [List.append_nil] at seated
    cases built
    exact ⟨rfl, seated⟩

theorem built_of_ofMembers {hasher : η} {ms : List α} {r : Ring η α}
    (built : ofMembers hasher ms = .ok r) :
    r.Sound ∧ r.hasher = hasher ∧ ∀ m, m ∈ r.members ↔ m ∈ ms := by
  obtain ⟨made, seated⟩ := seated_ofMembers built
  have sound : r.Sound := made ▸ sound_ofPositions hasher seated
  refine ⟨sound, made ▸ rfl, fun m => ?_⟩
  rw [sound.mem_members_iff]
  constructor
  · rintro ⟨slot, h⟩
    have placed := (seated.onRing ((sound.position_iff m slot).mp h)).2
    obtain ⟨seat, hseat, rfl⟩ := List.mem_map.mp (List.mem_reverse.mp placed)
    exact (mem_seats.mp hseat).1
  · intro h
    obtain ⟨slot, hslot⟩ := seated.seat (List.mem_reverse.mpr (List.mem_map.mpr
      ⟨(naturalSlot hasher m, m), mem_seats.mpr ⟨h, rfl⟩, rfl⟩))
    exact ⟨slot, (sound.position_iff m slot).mpr hslot⟩

section Built

variable {hasher : η} {ms : List α} {r : Ring η α} (built : ofMembers hasher ms = .ok r)
include built

theorem sound_ofMembers : r.Sound := (built_of_ofMembers built).1

theorem hasher_ofMembers : r.hasher = hasher := (built_of_ofMembers built).2.1

theorem mem_members_ofMembers {m : α} : m ∈ r.members ↔ m ∈ ms :=
  (built_of_ofMembers built).2.2 m

theorem contains_ofMembers {m : α} : r.contains m = true ↔ m ∈ ms :=
  (sound_ofMembers built).contains_iff.trans (mem_members_ofMembers built)

theorem onRing_ofMembers {slot : Nat} {m : α} (h : r.positions[slot]? = some m) :
    slot < ringSize :=
  ((seated_ofMembers built).2.onRing h).1

theorem extend_ofMembers (extra : List α) :
    r.extend hasher extra = ofMembers hasher (ms ++ extra) := by
  refine ofMembers_congr hasher fun m => ?_
  rw [List.mem_append, List.mem_append, mem_members_ofMembers built]

theorem without_ofMembers [BEq α] [LawfulBEq α] (m : α) :
    r.without hasher m = ofMembers hasher (ms.filter (· != m)) := by
  refine ofMembers_congr hasher fun a => ?_
  rw [List.mem_filter, List.mem_filter, mem_members_ofMembers built]

end Built

/-! ## Equal rings -/

section Equal

variable {hasher : η} {ms ms' : List α} {r s : Ring η α}

theorem eq_iff_of_ofMembers (built : ofMembers hasher ms = .ok r)
    (built' : ofMembers hasher ms' = .ok s) : r = s ↔ ∀ m, m ∈ ms ↔ m ∈ ms' := by
  constructor
  · rintro rfl m
    rw [← mem_members_ofMembers built, mem_members_ofMembers built']
  · intro same
    rw [ofMembers_congr hasher same, built'] at built
    exact (Except.ok.inj built).symm

variable [BEq α] [LawfulBEq α]

/-- Rings of one hasher count as equal only if they are the same in all parts. -/
theorem beq_iff_of_ofMembers (built : ofMembers hasher ms = .ok r)
    (built' : ofMembers hasher ms' = .ok s) : (r == s) = true ↔ r = s := by
  show (r.members == s.members && r.places == s.places) = true ↔ r = s
  rw [Bool.and_eq_true, beq_iff_eq, beq_iff_eq]
  constructor
  · rintro ⟨-, places⟩
    have positions : r.positions = s.positions := Std.ExtTreeMap.toList_inj.mp places
    rw [(seated_ofMembers built).1, (seated_ofMembers built').1, positions]
  · rintro rfl
    exact ⟨rfl, rfl⟩

end Equal

end SlotRing.Ring
