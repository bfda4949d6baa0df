/-
# A newcomer on the ring

When one member is added and nobody moves, the walks stay what they were but for
the newcomer (`Adds.walk_eq`).  So it takes the place of at most one owner of a
key and brings no other one in, and among the members that it asks for state
there is an owner of each key that it comes to own (`Adds.exists_provider`): the
one before it on the walk, or the one behind it when the walk begins with it.
-/
import SlotRing.Mapping.Change
import SlotRing.Proofs.Ring.Walk
import SlotRing.Ring.Providers

namespace SlotRing.Ring

variable {η α κ : Type} [Ord α] [Std.TransOrd α]

structure Adds (old new : Ring η α) (x : α) : Prop where
  hasher : new.hasher = old.hasher
  absent : x ∉ old.members
  members (m : α) : m ∈ new.members ↔ m ∈ old.members ∨ m = x
  stays {m : α} : m ∈ old.members → new.position? m = old.position? m

namespace Adds

variable {old new : Ring η α} {x : α} (adds : Adds old new x) (before : old.Sound)
  (after : new.Sound)
include adds before after

theorem size_eq [Std.LawfulEqOrd α] : new.size = old.size + 1 := by
  have perm : new.members.Perm (x :: old.members) := by
    rw [List.perm_ext_iff_of_nodup after.nodup_members
      (List.nodup_cons.mpr ⟨adds.absent, before.nodup_members⟩)]
    intro m
    rw [adds.members, List.mem_cons, or_comm]
  exact perm.length_eq

variable [BEq α] [LawfulBEq α]

theorem places_eq : old.places = new.places.filter fun e => e.2 != x := by
  have ascends := (places_ascend new).filter fun e => e.2 != x
  refine List.Perm.eq_of_pairwise (fun a b _ _ hab hba => absurd hba (Nat.lt_asymm hab))
    (places_ascend old) ascends ?_
  have distinct {l : List (Nat × α)} (h : l.Pairwise fun a b => a.1 < b.1) : l.Nodup :=
    h.imp fun hlt same => absurd (same ▸ hlt) (Nat.lt_irrefl _)
  rw [List.perm_ext_iff_of_nodup (distinct (places_ascend old)) (distinct ascends)]
  rintro ⟨slot, m⟩
  rw [List.mem_filter, mem_places_iff, mem_places_iff, bne_iff_ne, ← before.position_iff,
    ← after.position_iff]
  constructor
  · intro h
    have mem : m ∈ old.members := before.mem_members_iff.mpr ⟨slot, h⟩
    exact ⟨(adds.stays mem).trans h, fun same => adds.absent (same ▸ mem)⟩
  · rintro ⟨h, other⟩
    have mem := (adds.members m).mp (after.mem_members_iff.mpr ⟨slot, h⟩)
    exact (adds.stays (mem.resolve_right other)).symm.trans h

variable [HashWith η κ]

theorem walk_eq (key : κ) : old.walk key = (new.walk key).filter (· != x) := by
  have slots : old.slotOfKey key = new.slotOfKey key := by
    rw [slotOfKey, slotOfKey, hashOf, hashOf, adds.hasher]
  rw [walk, walk, walkFrom, walkFrom, adds.places_eq before after, slots, List.filter_map,
    List.filter_append, List.filter_filter, List.filter_filter, List.filter_filter,
    List.filter_filter]
  simp only [Function.comp_def, Bool.and_comm]

theorem filter_locate_isPrefix (key : κ) (count : Nat) :
    (new.locate key count).filter (· != x) <+: old.locate key count := by
  rw [before.locate_eq_take, after.locate_eq_take, adds.walk_eq before after, List.prefix_take_iff]
  exact ⟨(List.take_prefix _ _).filter _,
    Nat.le_trans (List.length_filter_le _ _) (List.length_take_le _ _)⟩

theorem mem_locate_of_ne {key : κ} {count : Nat} {m : α} (h : m ∈ new.locate key count)
    (other : m ≠ x) : m ∈ old.locate key count :=
  (adds.filter_locate_isPrefix before after key count).subset
    (List.mem_filter.mpr ⟨h, by simpa using other⟩)

theorem locate_eq_of_not_mem [Std.LawfulEqOrd α] {key : κ} {count : Nat}
    (h : x ∉ new.locate key count) : new.locate key count = old.locate key count := by
  have kept : (new.locate key count).filter (· != x) = new.locate key count := by
    rw [List.filter_eq_self]
    exact fun m hm => by simpa using fun same : m = x => h (same ▸ hm)
  have same := adds.filter_locate_isPrefix before after key count
  rw [kept] at same
  refine same.eq_of_length ?_
  rw [after.locate_eq_take, before.locate_eq_take, List.length_take, List.length_take,
    after.length_walk, before.length_walk, adds.size_eq before after]
  by_cases short : count ≤ old.size
  · omega
  · -- everyone is an owner then, the newcomer too
    have few : new.size ≤ count := by rw [adds.size_eq before after]; omega
    exact absurd ((after.mem_locate_iff_of_size_le few).mpr ((adds.members x).mpr (.inr rfl))) h

end Adds

omit [Ord α] [Std.TransOrd α] in
theorem findIdx?_of_nodup [BEq α] [LawfulBEq α] {l : List α} {a : α} {i : Nat}
    (distinct : l.Nodup) (listed : l[i]? = some a) : l.findIdx? (· == a) = some i := by
  obtain ⟨inside, own⟩ := List.getElem?_eq_some_iff.mp listed
  refine List.findIdx?_eq_some_iff_getElem.mpr ⟨inside, beq_iff_eq.mpr own, ?_⟩
  intro j near same
  have twice : l[j] = l[i] := (beq_iff_eq.mp same).trans own.symm
  exact Nat.ne_of_lt near (distinct.getElem_inj_iff.mp twice)

namespace Sound

variable [BEq α] [LawfulBEq α] [HashWith η κ] {r : Ring η α} (sound : r.Sound)
include sound

/-- The others, from the member behind `x` on, are the walk of any key cut at
`x` and put together the other way round. -/
theorem others?_eq (key : κ) {x : α} {ahead behind : List α}
    (walk : r.walk key = ahead ++ x :: behind) : r.others? x = some (behind ++ ahead) := by
  obtain ⟨before, from_, members, walk'⟩ := sound.exists_rotation key
  have cut : ∀ l l' : List α, r.members = l ++ x :: l' → r.others? x = some (l' ++ l) := by
    intro l l' eq
    have listed : r.members[l.length]? = some x := by simp [eq]
    rw [others?, findIdx?_of_nodup sound.nodup_members listed, Option.map_some, eq]
    simp
  rw [walk', List.append_eq_append_iff] at walk
  rcases walk with ⟨mid, rfl, eq⟩ | ⟨mid, rfl, eq⟩
  · -- `x` stands before the slot of the key
    rw [cut mid (behind ++ from_) (by rw [members, eq, List.append_assoc]; rfl),
      List.append_assoc]
  · -- `x` stands on the slot of the key or behind it
    cases mid with
    | nil =>
      rw [cut [] (behind ++ ahead) (by
        rw [members, ← List.cons_append, eq, List.nil_append, List.append_nil, List.nil_append]),
        List.append_nil]
    | cons y mid =>
      obtain ⟨rfl, rfl⟩ : x = y ∧ behind = mid ++ before := by simpa using eq
      rw [cut (before ++ ahead) mid (by rw [members, List.append_assoc]),
        List.append_assoc]

end Sound

/-! ## Whom a newcomer asks -/

omit [Ord α] [Std.TransOrd α] in
theorem nodup_eraseDups [BEq α] [LawfulBEq α] (l : List α) : l.eraseDups.Nodup := by
  match l with
  | [] => simp
  | a :: l =>
    rw [List.eraseDups_cons, List.nodup_cons, List.mem_eraseDups]
    exact ⟨by simp, nodup_eraseDups _⟩
termination_by l.length
decreasing_by exact Nat.lt_succ_of_le (List.length_filter_le _ _)

section

variable [BEq α] [LawfulBEq α] {r : Ring η α} {m : α}

omit [Std.TransOrd α] in
theorem mem_others (distinct : r.members.Nodup) {others : List α}
    (found : r.others? m = some others) {p : α} (h : p ∈ others) : p ∈ r.members ∧ p ≠ m := by
  obtain ⟨i, hi, rfl⟩ := Option.map_eq_some_iff.mp found
  obtain ⟨inside, same, -⟩ := List.findIdx?_eq_some_iff_getElem.mp hi
  have cut : r.members = r.members.take i ++ m :: r.members.drop (i + 1) := by
    have own : r.members[i] = m := by simpa using same
    rw [← own, List.getElem_cons_drop, List.take_append_drop]
  rw [cut] at distinct
  have apart := List.nodup_append.mp distinct
  rcases List.mem_append.mp h with h | h
  · exact ⟨List.mem_of_mem_drop h, fun same => (List.nodup_cons.mp apart.2.1).1 (same ▸ h)⟩
  · exact ⟨List.mem_of_mem_take h, apart.2.2 p h m List.mem_cons_self⟩

omit [Std.TransOrd α] in
theorem mem_providers (distinct : r.members.Nodup) {count : Nat} {p : α}
    (h : p ∈ r.providers m count) : p ∈ r.members ∧ p ≠ m := by
  rw [providers] at h
  split at h
  · cases h
  · next others found =>
    have known : ∀ p, p ∈ (others.drop (others.length - (min count r.size - 1))).eraseDups →
        p ∈ others :=
      fun p hp => List.mem_of_mem_drop (List.mem_eraseDups.mp hp)
    refine mem_others distinct found ?_
    dsimp only at h
    split at h
    · exact known p h
    · next behind head =>
      split at h
      · exact known p h
      · rcases List.mem_append.mp h with h | h
        · exact known p h
        · rw [List.mem_singleton] at h
          exact h ▸ List.mem_of_mem_head? head

omit [Std.TransOrd α] in
theorem nodup_providers (r : Ring η α) (m : α) (count : Nat) : (r.providers m count).Nodup := by
  rw [providers]
  split
  · exact List.nodup_nil
  · dsimp only
    split
    · exact nodup_eraseDups _
    · next behind _ =>
      split
      · exact nodup_eraseDups _
      · next new =>
        refine List.nodup_append.mpr ⟨nodup_eraseDups _, List.pairwise_singleton _ _, ?_⟩
        intro a ha b hb same
        rw [List.mem_singleton] at hb
        subst hb
        refine new ?_
        rw [Bool.or_eq_true]
        exact .inr (List.contains_iff_mem.mpr (same ▸ ha))

end

namespace Adds

variable [Std.LawfulEqOrd α] [BEq α] [LawfulBEq α] [HashWith η κ] {old new : Ring η α} {x : α}

/-- The newcomer stands in one place of the walk, and the others are met as before. -/
theorem exists_insertion (adds : Adds old new x) (before : old.Sound) (after : new.Sound)
    (key : κ) :
    ∃ ahead behind, old.walk key = ahead ++ behind ∧ new.walk key = ahead ++ x :: behind ∧
      x ∉ ahead ∧ x ∉ behind := by
  have stands : x ∈ new.walk key := after.mem_walk_iff.mpr ((adds.members x).mpr (.inr rfl))
  obtain ⟨ahead, behind, walk⟩ := List.append_of_mem stands
  have distinct := walk ▸ after.nodup_walk key
  have absent : x ∉ ahead := fun h => List.disjoint_of_nodup_append distinct h List.mem_cons_self
  have absent' : x ∉ behind := (List.nodup_cons.mp (List.nodup_append.mp distinct).2.1).1
  refine ⟨ahead, behind, ?_, walk, absent, absent'⟩
  rw [adds.walk_eq before after, walk, List.filter_append, List.filter_cons_of_neg (by simp),
    List.filter_eq_self.mpr fun m hm => by simpa using fun same : m = x => absent (same ▸ hm),
    List.filter_eq_self.mpr fun m hm => by simpa using fun same : m = x => absent' (same ▸ hm)]

theorem exists_provider (adds : Adds old new x) (before : old.Sound) (after : new.Sound)
    {key : κ} {count : Nat} (inhabited : old.members ≠ []) (gained : x ∈ new.locate key count) :
    ∃ p ∈ new.providers x count, p ≠ x ∧ p ∈ old.locate key count := by
  obtain ⟨ahead, behind, walkOld, walk, absent, absent'⟩ := adds.exists_insertion before after key
  rw [after.locate_eq_take, walk] at gained
  -- the newcomer is the owner of that number
  have near : ahead.length < count :=
    (mem_take_middle_iff (walk ▸ after.nodup_walk key)).mp gained
  have owners : old.locate key count = (ahead ++ behind).take count := by
    rw [before.locate_eq_take, walkOld]
  have size : new.size = ahead.length + behind.length + 1 := by
    rw [← after.length_walk key, walk, List.length_append, List.length_cons, Nat.add_assoc]
  rw [owners, providers, after.others?_eq key walk]
  cases List.eq_nil_or_concat' ahead with
  | inl none =>
    -- no one is before the newcomer: the one behind it is the first owner now
    subst none
    cases behind with
    | nil =>
      exfalso
      have grown := adds.size_eq before after
      have alone : old.size = 0 := by simp only [List.length_nil] at size; omega
      exact inhabited (List.eq_nil_of_length_eq_zero alone)
    | cons next behind =>
      have other : next ≠ x := fun same => absent' (same ▸ List.mem_cons_self)
      refine ⟨next, ?_, other, by simp [List.take_cons near]⟩
      simp only [List.append_nil, List.head?_cons]
      split
      · next h => simpa [other] using h
      · exact List.mem_append_right _ List.mem_cons_self
  | inr some =>
    -- the last one before the newcomer
    obtain ⟨ahead, last, rfl⟩ := some
    rw [List.length_append, List.length_singleton] at near size
    have asked : last ∈ ((behind ++ (ahead ++ [last])).drop
        ((behind ++ (ahead ++ [last])).length - (min count new.size - 1))).eraseDups := by
      rw [List.mem_eraseDups, ← List.append_assoc, List.length_append, List.length_singleton,
        List.drop_append_of_le_length (by omega)]
      exact List.mem_append_right _ List.mem_cons_self
    refine ⟨last, ?_, fun same => absent (same ▸ List.mem_append_right _ List.mem_cons_self), ?_⟩
    · dsimp only
      split
      · exact asked
      · split
        · exact asked
        · exact List.mem_append_left _ asked
    · rw [List.append_assoc, List.mem_take_iff_getElem]
      refine ⟨ahead.length, by simp; omega, by simp⟩

end Adds

/-! ## A set with one member more -/

variable [HashWith η α]

/-- The rings of a set and of the set with a newcomer. -/
structure Enters (hasher : η) (ms : List α) (x : α) (old new : Ring η α) : Prop where
  before : ofMembers hasher ms = .ok old
  after : ofMembers hasher (ms ++ [x]) = .ok new
  absent : x ∉ ms

namespace Enters

variable [Std.LawfulEqOrd α] {hasher : η} {ms : List α} {x : α} {old new : Ring η α}
  (enters : Enters hasher ms x old new)
include enters

theorem not_mem : x ∉ old.members := fun h =>
  enters.absent ((mem_members_ofMembers enters.before).mp h)

theorem mem_members_iff (m : α) : m ∈ new.members ↔ m ∈ old.members ∨ m = x := by
  rw [mem_members_ofMembers enters.after, mem_members_ofMembers enters.before]
  simp

theorem extend_eq : old.extend hasher [x] = .ok new :=
  (extend_ofMembers enters.before [x]).trans enters.after

variable [BEq α] [LawfulBEq α]

theorem mem_of_provider {count : Nat} {p : α} (asked : p ∈ new.providers x count) : p ∈ ms := by
  obtain ⟨mem, other⟩ := mem_providers (sound_ofMembers enters.after).nodup_members asked
  rw [enters.mem_members_iff, mem_members_ofMembers enters.before] at mem
  exact mem.resolve_right other

theorem beq_eq_false : (new == old) = false := by
  have members : (new.members == old.members) = false := by
    rw [beq_eq_false_iff_ne]
    exact fun same => enters.not_mem (same ▸ (enters.mem_members_iff x).mpr (.inr rfl))
  show (_ && _) = false
  rw [members, Bool.false_and]

end Enters

/-- The rings of a set and of the set with a newcomer, where nobody has moved. -/
structure Grows (hasher : η) (ms : List α) (x : α) (old new : Ring η α) : Prop where
  before : ofMembers hasher ms = .ok old
  after : ofMembers hasher (ms ++ [x]) = .ok new
  absent : x ∉ ms
  stays {m : α} : m ∈ ms → new.position? m = old.position? m

/-- Whether somebody moves for a newcomer can be computed. -/
theorem exists_grows [Std.LawfulEqOrd α] {hasher : η} {ms : List α} {x : α}
    (room : ms.length + 1 ≤ ringSize) (absent : x ∉ ms)
    (still : ∀ m ∈ ms, (ofMembers hasher (ms ++ [x])).toOption.bind (·.position? m) =
      (ofMembers hasher ms).toOption.bind (·.position? m)) :
    ∃ old new, Grows hasher ms x old new := by
  obtain ⟨new, after⟩ := exists_ofMembers hasher
    (show (ms ++ [x]).length ≤ ringSize by simpa using room)
  obtain ⟨old, before⟩ := exists_ofMembers hasher (Nat.le_of_succ_le room)
  rw [before, after] at still
  exact ⟨old, new, before, after, absent, fun hm => still _ hm⟩

theorem Grows.enters {hasher : η} {ms : List α} {x : α} {old new : Ring η α}
    (grows : Grows hasher ms x old new) : Enters hasher ms x old new :=
  ⟨grows.before, grows.after, grows.absent⟩

theorem Grows.adds [Std.LawfulEqOrd α] {hasher : η} {ms : List α} {x : α} {old new : Ring η α}
    (grows : Grows hasher ms x old new) : Adds old new x where
  hasher := (hasher_ofMembers grows.after).trans (hasher_ofMembers grows.before).symm
  absent := grows.enters.not_mem
  members := grows.enters.mem_members_iff
  stays h := grows.stays ((mem_members_ofMembers grows.before).mp h)

end SlotRing.Ring
