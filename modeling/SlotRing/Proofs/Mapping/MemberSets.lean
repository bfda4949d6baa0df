/-
# Rings as sets of members

Nodes agree on a ring without telling each other where its members stand: each of them
builds it from what it knows of the set of members.  That works because a ring is nothing
but its set of members.  Rings of one hasher are equal just when the sets are
(`Ring.eq_iff_of_ofMembers`), and to change a ring is to change the set: who comes is added
to it, who goes is taken out of it, in whatever order.  A mapping on its way from one ring
to another is changed on both sides (`mappings_follow_member_sets`).
-/
import SlotRing.Proofs.Mapping.Gained
import SlotRing.Proofs.Ring.Neighbourhood

namespace SlotRing

namespace Ring

variable {η α : Type} [Ord α] [Std.TransOrd α] [Std.LawfulEqOrd α] [HashWith η α] [BEq α]
  [LawfulBEq α] {hasher : η} {ms : List α} {r s : Ring η α} {m : α}

omit [BEq α] [LawfulBEq α] in
/-- More members than slots are refused, and nothing else is. -/
theorem ofMembers_eq_error_iff [DecidableEq α] (hasher : η) (ms : List α) (count : Nat) :
    ofMembers hasher ms = .error ⟨count⟩ ↔
      ringSize < ms.dedup.length ∧ count = ms.dedup.length := by
  by_cases room : ms.dedup.length ≤ ringSize
  · obtain ⟨r, built⟩ := exists_ofMembers_of_dedup hasher room
    rw [built]
    exact ⟨nofun, fun full => absurd room (Nat.not_le.mpr full.1)⟩
  · have full : ringSize < ms.dedup.length := Nat.lt_of_not_le room
    have refused : ofMembers hasher ms = .error ⟨ms.dedup.length⟩ := by
      rw [← length_seats_eq hasher] at full ⊢
      exact if_pos full
    rw [refused]
    constructor
    · rintro ⟨⟩
      exact ⟨full, rfl⟩
    · rintro ⟨-, rfl⟩
      rfl

/-- The ring of a set loses a member by being built without it, which never fails. -/
theorem exists_without (built : ofMembers hasher ms = .ok r) (m : α) :
    ∃ r', ofMembers hasher (ms.filter (· != m)) = .ok r' ∧ r.without hasher m = .ok r' := by
  obtain ⟨r', fewer⟩ := exists_ofMembers_of_subset built
    fun a (h : a ∈ ms.filter (· != m)) => (List.mem_filter.mp h).1
  exact ⟨r', fewer, (without_ofMembers built m).trans fewer⟩

theorem exists_without_comm (built : ofMembers hasher ms = .ok r) (m m' : α) :
    ∃ first second last, r.without hasher m = .ok first ∧ r.without hasher m' = .ok second ∧
      first.without hasher m' = .ok last ∧ second.without hasher m = .ok last := by
  obtain ⟨first, builtFirst, toFirst⟩ := exists_without built m
  obtain ⟨second, builtSecond, toSecond⟩ := exists_without built m'
  obtain ⟨last, builtLast, toLast⟩ := exists_without builtFirst m'
  refine ⟨first, second, last, toFirst, toSecond, toLast, ?_⟩
  rw [without_ofMembers builtSecond, List.filter_comm, builtLast]

theorem without_of_notMem (built : ofMembers hasher ms = .ok r) (absent : m ∉ ms) :
    r.without hasher m = .ok r := by
  rw [without_ofMembers built, ← built, List.filter_eq_self.mpr]
  exact fun a mem => bne_iff_ne.mpr fun same => absent (same ▸ mem)

theorem without_of_extend {grown : Ring η α} (built : ofMembers hasher ms = .ok r)
    (absent : m ∉ ms) (extended : r.extend hasher [m] = .ok grown) :
    grown.without hasher m = .ok r := by
  rw [extend_ofMembers built] at extended
  rw [without_ofMembers extended, ← built]
  refine ofMembers_congr hasher fun a => ?_
  rw [List.mem_filter, List.mem_append, List.mem_singleton, bne_iff_ne]
  constructor
  · rintro ⟨mem | same, other⟩
    · exact mem
    · exact absurd same other
  · exact fun mem => ⟨.inl mem, fun same => absent (same ▸ mem)⟩

theorem notMem_of_without (removed : r.without hasher m = .ok s) : m ∉ s.members := by
  rw [mem_members_ofMembers removed, List.mem_filter, bne_iff_ne]
  exact fun mem => mem.2 rfl

theorem notMem_locate_of_without {κ : Type} [HashWith η κ]
    (removed : r.without hasher m = .ok s) (key : κ) (count : Nat) : m ∉ s.locate key count :=
  fun owner => notMem_of_without removed
    ((sound_ofMembers removed).mem_members_of_mem_locate owner)

end Ring

namespace Mapping

variable {η α : Type} [Ord α] [Std.TransOrd α] [HashWith η α] [BEq α]

section

variable {hasher : η} {m : α} {r r' s s' : Ring η α}

theorem without_settled (removed : r.without hasher m = .ok r') :
    (settled r).without hasher m = .ok (settled r') := by
  rw [without, removed]
  rfl

theorem without_moving (removed : r.without hasher m = .ok r')
    (removed' : s.without hasher m = .ok s') :
    (moving r s).without hasher m = .ok (moving r' s') := by
  rw [without, removed, removed']
  rfl

theorem cases_of_without {mapping result : Mapping η α}
    (removed : mapping.without hasher m = .ok result) :
    (∃ r r' : Ring η α, result = settled r' ∧ r.without hasher m = .ok r') ∨
      ∃ r s r' s' : Ring η α, result = moving r' s' ∧ r.without hasher m = .ok r' ∧
        s.without hasher m = .ok s' := by
  cases mapping with
  | settled r =>
    rw [without] at removed
    cases done : r.without hasher m <;> rw [done] at removed <;> cases removed
    exact .inl ⟨r, _, rfl, done⟩
  | moving r s =>
    rw [without] at removed
    cases done : r.without hasher m <;> cases done' : s.without hasher m <;>
      rw [done, done'] at removed <;> cases removed
    exact .inr ⟨r, s, _, _, rfl, done, done'⟩

variable [Std.LawfulEqOrd α] [LawfulBEq α] {κ : Type} [HashWith η κ]

/-- Whatever the mapping was, who has been taken off is no member of it and no owner. -/
theorem notMem_of_without {mapping result : Mapping η α}
    (removed : mapping.without hasher m = .ok result) :
    m ∉ result.members ∧ ∀ (key : κ) (count : Nat),
      m ∉ result.locate key count ∧ m ∉ result.writeOwners key count := by
  rcases cases_of_without removed with ⟨r, r', rfl, gone⟩ | ⟨r, s, r', s', rfl, gone, gone'⟩
  · refine ⟨Ring.notMem_of_without gone, fun key count => ?_⟩
    exact ⟨Ring.notMem_locate_of_without gone key count,
      Ring.notMem_locate_of_without gone key count⟩
  · refine ⟨fun mem => ?_, fun key count => ?_⟩
    · exact (mem_appendNew.mp mem).elim (Ring.notMem_of_without gone)
        (Ring.notMem_of_without gone')
    · have unwritten : m ∉ (moving r' s').writeOwners key count := fun mem =>
        (mem_appendNew.mp mem).elim (Ring.notMem_locate_of_without gone key count)
          (Ring.notMem_locate_of_without gone' key count)
      rw [locate_moving_eq_take (Ring.sound_ofMembers gone)]
      exact ⟨fun mem => unwritten (List.mem_of_mem_take mem), unwritten⟩

end

variable [DecidableEq α] [LawfulBEq α] [Std.LawfulEqOrd α] {κ : Type} [HashWith η κ]

/-- Rings of one hasher are sets of members, as far as these fit on a ring.  Equal rings are
those of equal sets.  More members make the ring of the larger set, or are refused when that
is too large.  One member less makes the ring of the smaller set, on each side of a mapping;
it undoes what the coming of that member did, two such changes can be made in either order,
and nothing is left of who has been taken off. -/
theorem mappings_follow_member_sets (hasher : η) {ms ms' : List α}
    (room : ms.dedup.length ≤ ringSize) (room' : ms'.dedup.length ≤ ringSize) (m m' : α) :
    ∃ r s r' s' : Ring η α,
      (Ring.ofMembers hasher ms = .ok r ∧ Ring.ofMembers hasher ms' = .ok s ∧
        Ring.ofMembers hasher (ms.filter (· != m)) = .ok r' ∧
        Ring.ofMembers hasher (ms'.filter (· != m)) = .ok s') ∧
      (((r == s) = true ↔ ∀ a, a ∈ ms ↔ a ∈ ms') ∧ (r = s ↔ ∀ a, a ∈ ms ↔ a ∈ ms')) ∧
      (∀ extra, r.extend hasher extra = Ring.ofMembers hasher (ms ++ extra) ∧
        ∀ count, r.extend hasher extra = .error ⟨count⟩ ↔
          ringSize < (ms ++ extra).dedup.length ∧ count = (ms ++ extra).dedup.length) ∧
      ((settled r).without hasher m = .ok (settled r') ∧
        (moving r s).without hasher m = .ok (moving r' s')) ∧
      (m ∉ ms → ms.dedup.length < ringSize →
        ∃ grown, r.extend hasher [m] = .ok grown ∧
          (settled grown).without hasher m = .ok (settled r) ∧
          (moving r grown).without hasher m = .ok (moving r r)) ∧
      (∀ mapping, mapping = settled r ∨ mapping = moving r s →
        ∃ first second last, mapping.without hasher m = .ok first ∧
          mapping.without hasher m' = .ok second ∧
          first.without hasher m' = .ok last ∧ second.without hasher m = .ok last) ∧
      ∀ mapping result : Mapping η α, mapping.without hasher m = .ok result →
        m ∉ result.members ∧ ∀ (key : κ) (count : Nat),
          m ∉ result.locate key count ∧ m ∉ result.writeOwners key count := by
  obtain ⟨r, built⟩ := Ring.exists_ofMembers_of_dedup hasher room
  obtain ⟨s, built'⟩ := Ring.exists_ofMembers_of_dedup hasher room'
  obtain ⟨r', fewer, removed⟩ := Ring.exists_without built m
  obtain ⟨s', fewer', removed'⟩ := Ring.exists_without built' m
  have equal := Ring.eq_iff_of_ofMembers built built'
  refine ⟨r, s, r', s', ⟨built, built', fewer, fewer'⟩,
    ⟨(Ring.beq_iff_of_ofMembers built built').trans equal, equal⟩, fun extra => ?_,
    ⟨without_settled removed, without_moving removed removed'⟩, fun absent free => ?_, ?_,
    fun mapping result gone => notMem_of_without gone⟩
  · have extended := Ring.extend_ofMembers built extra
    exact ⟨extended, fun count => by rw [extended, Ring.ofMembers_eq_error_iff]⟩
  · obtain ⟨-, grown, -, builtGrown, -⟩ := Ring.exists_enters hasher free absent
    have extended := (Ring.extend_ofMembers built [m]).trans builtGrown
    have back := Ring.without_of_extend built absent extended
    exact ⟨grown, extended, without_settled back,
      without_moving (Ring.without_of_notMem built absent) back⟩
  · obtain ⟨r₁, r₂, r₃, to₁, to₂, to₃, to₃'⟩ := Ring.exists_without_comm built m m'
    obtain ⟨s₁, s₂, s₃, up₁, up₂, up₃, up₃'⟩ := Ring.exists_without_comm built' m m'
    rintro mapping (rfl | rfl)
    · exact ⟨settled r₁, settled r₂, settled r₃, without_settled to₁, without_settled to₂,
        without_settled to₃, without_settled to₃'⟩
    · exact ⟨moving r₁ s₁, moving r₂ s₂, moving r₃ s₃, without_moving to₁ up₁,
        without_moving to₂ up₂, without_moving to₃ up₃, without_moving to₃' up₃'⟩

/-- "n132" takes the slot 6404 from "n136".  Once it is taken off again, the ring is exactly
what it was, with "n136" on that slot. -/
theorem mappings_follow_member_sets_of_pair :
    (["A", "n136"].dedup.length ≤ ringSize ∧ ["n136", "A", "A"].dedup.length ≤ ringSize) ∧
      ∃ r s grown : Ring Strategy String,
        Ring.ofMembers .sip24 ["A", "n136"] = .ok r ∧
        Ring.ofMembers .sip24 ["n136", "A", "A"] = .ok s ∧ (r == s) = true ∧
        r.extend .sip24 ["n132"] = .ok grown ∧
        (r.position? "n136" = some 6404 ∧ grown.position? "n136" = some 6405) ∧
        (settled grown).without .sip24 "n132" = .ok (settled r) ∧
        (moving r grown).without .sip24 "n132" = .ok (moving r r) := by
  have room : ["A", "n136"].dedup.length ≤ ringSize := by decide
  have room' : ["n136", "A", "A"].dedup.length ≤ ringSize := by decide
  obtain ⟨r, s, -, -, ⟨built, built', -, -⟩, ⟨equal, -⟩, extension, -, undo, -, -⟩ :=
    mappings_follow_member_sets (κ := String) Strategy.sip24 room room' "n132" "A"
  obtain ⟨grown, extended, back, back'⟩ := undo (by decide) (by decide)
  have builtGrown : Ring.ofMembers .sip24 ["A", "n136", "n132"] = .ok grown :=
    (extension ["n132"]).1.symm.trans extended
  refine ⟨⟨room, room'⟩, r, s, grown, built, built', equal.mpr (by simp [or_comm]), extended,
    ⟨?_, ?_⟩, back, back'⟩
  · exact Ring.apply_eq_of_ofMembers built (·.position? "n136") (by decide +kernel)
  · exact Ring.apply_eq_of_ofMembers builtGrown (·.position? "n136") (by decide +kernel)

end Mapping

end SlotRing
