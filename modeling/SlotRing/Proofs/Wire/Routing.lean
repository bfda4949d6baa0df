/-
# How a ring that was read routes

A ring is written without its hasher and read under the standard one, so a key has the
slot that the standard hasher gives it.  The members and their slots are the same, so that
the two walks of a key are one list begun in two places (`Ring.exists_turn`); as nobody
stands on it twice, they are equal as soon as they begin with the same member
(`take_turn_eq_iff`).

That is how much the owners of a key change on the way: not at all under the standard
strategy, and under another one only for the keys whose first owner changes.
-/
import SlotRing.Proofs.Wire.Forms
import SlotRing.Proofs.Mapping.Gained

namespace SlotRing

/-! ## One list begun in two places -/

section

variable {α : Type} {first rest : List α}

theorem turn_eq_of_head?_eq (nodup : (first ++ rest).Nodup)
    (same : (rest ++ first).head? = (first ++ rest).head?) : rest ++ first = first ++ rest := by
  cases first with
  | nil => exact List.append_nil rest
  | cons x first =>
    cases rest with
    | nil => exact (List.append_nil _).symm
    | cons y rest =>
      cases same
      exact absurd (List.mem_cons_self) (List.disjoint_of_nodup_append nodup List.mem_cons_self)

theorem take_turn_eq_iff (nodup : (first ++ rest).Nodup) (count : Nat) :
    (rest ++ first).take count = (first ++ rest).take count ↔
      count = 0 ∨ (rest ++ first).head? = (first ++ rest).head? := by
  constructor
  · intro same
    by_cases none : count = 0
    · exact .inl none
    · have heads := congrArg List.head? same
      rw [List.head?_take, List.head?_take, if_neg none, if_neg none] at heads
      exact .inr heads
  · intro fine
    cases fine with
    | inl none => rw [none, List.take_zero, List.take_zero]
    | inr same => rw [turn_eq_of_head?_eq nodup same]

/-- The same members are taken from two beginnings only when these are one, or when none or
all are taken: else the one before the first is taken from the other beginning alone. -/
theorem mem_take_turn_iff (nodup : (first ++ rest).Nodup) (count : Nat) :
    (∀ a, a ∈ (rest ++ first).take count ↔ a ∈ (first ++ rest).take count) ↔
      count = 0 ∨ (first ++ rest).length ≤ count ∨
        (rest ++ first).head? = (first ++ rest).head? := by
  constructor
  · intro same
    by_contra differ
    obtain ⟨some, few, heads⟩ : count ≠ 0 ∧ count < (first ++ rest).length ∧
        (rest ++ first).head? ≠ (first ++ rest).head? := by
      simpa only [not_or, Nat.not_le] using differ
    cases first with
    | nil => exact heads (by rw [List.append_nil, List.nil_append])
    | cons x first =>
      obtain rfl | ⟨before, y, rfl⟩ := List.eq_nil_or_concat' rest
      · exact heads (by rw [List.append_nil, List.nil_append])
      · -- `x` is the first of one walk, and `y`, just before it on the other, its last
        have taken : x ∈ (x :: first ++ (before ++ [y])).take count := by
          obtain ⟨n, rfl⟩ := Nat.exists_eq_succ_of_ne_zero some
          exact List.mem_cons_self
        have nodup' : (before ++ [y] ++ x :: first).Nodup :=
          (List.perm_append_comm.nodup_iff).mp nodup
        have enough := (mem_take_middle_iff nodup').mp ((same x).mpr taken)
        rw [List.append_assoc, List.singleton_append] at nodup'
        have also : y ∈ (before ++ [y] ++ x :: first).take count := by
          rw [List.length_append, List.length_singleton] at enough
          rw [List.append_assoc, List.singleton_append]
          exact (mem_take_middle_iff nodup').mpr (by omega)
        have last := (same y).mp also
        rw [← List.append_assoc] at last nodup
        have all := (mem_take_middle_iff nodup).mp last
        simp only [List.length_append, List.length_singleton] at few all
        omega
  · rintro (none | all | heads) a
    · rw [none, List.take_zero, List.take_zero]
    · have all' : (rest ++ first).length ≤ count := by
        rwa [List.perm_append_comm.length_eq]
      rw [List.take_of_length_le all, List.take_of_length_le all',
        List.perm_append_comm.mem_iff]
    · rw [turn_eq_of_head?_eq nodup heads]

end

namespace Ring

variable {α κ : Type} [Ord α] [Std.TransOrd α] [HashWith Strategy κ] {r : Ring Strategy α}

theorem Sound.asRead (sound : r.Sound) : r.asRead.Sound :=
  ⟨sound.members_eq, sound.position_iff⟩

/-- The walk of a key and the walk after reading are one list begun in two places. -/
theorem Sound.exists_turn (sound : r.Sound) (k : κ) :
    ∃ first rest, r.walk k = first ++ rest ∧ r.asRead.walk k = rest ++ first := by
  obtain ⟨before, from_, members, walk⟩ := sound.exists_rotation k
  obtain ⟨before', from', members', walk'⟩ := sound.asRead.exists_rotation k
  have same : before ++ from_ = before' ++ from' := members.symm.trans members'
  rw [walk, walk']
  obtain ⟨middle, rfl, rfl⟩ | ⟨middle, rfl, rfl⟩ := List.append_eq_append_iff.mp same
  · exact ⟨middle, from' ++ before, by simp, by simp⟩
  · exact ⟨from_ ++ before', middle, by simp, by simp⟩

section

variable [Std.LawfulEqOrd α]

theorem Sound.locate_asRead_iff (sound : r.Sound) (k : κ) (count : Nat) :
    r.asRead.locate k count = r.locate k count ↔
      count = 0 ∨ r.asRead.primary? k = r.primary? k := by
  obtain ⟨first, rest, walk, walk'⟩ := sound.exists_turn k
  have nodup := sound.nodup_walk k
  rw [walk] at nodup
  rw [sound.asRead.locate_eq_take, sound.locate_eq_take, primary?, primary?, walk, walk']
  exact take_turn_eq_iff nodup count

theorem Sound.isOwner_asRead_iff [BEq α] [LawfulBEq α] (sound : r.Sound) (k : κ) (count : Nat) :
    (∀ a, r.asRead.isOwner a k count = r.isOwner a k count) ↔
      count = 0 ∨ r.size ≤ count ∨ r.asRead.primary? k = r.primary? k := by
  obtain ⟨first, rest, walk, walk'⟩ := sound.exists_turn k
  have nodup := sound.nodup_walk k
  have length := sound.length_walk k
  rw [walk] at nodup length
  rw [← length, primary?, primary?, walk, walk', ← mem_take_turn_iff nodup count]
  refine forall_congr' fun a => ?_
  rw [isOwner, isOwner, Bool.eq_iff_iff, List.contains_iff_mem, List.contains_iff_mem,
    sound.asRead.locate_eq_take, sound.locate_eq_take, walk, walk']

end

theorem inRange_ofMembers [Std.LawfulEqOrd α] [HashWith Strategy α] {strategy : Strategy}
    {ms : List α} (built : ofMembers strategy ms = .ok r) : r.InRange where
  positions _ _ found := Nat.lt_trans (onRing_ofMembers built found) (by decide)
  memberPositions m slot found :=
    Nat.lt_trans (onRing_ofMembers built (((sound_ofMembers built).position_iff m slot).mp found))
      (by decide)

end Ring

namespace Mapping

variable {α κ : Type} [Ord α] [Std.TransOrd α] [Std.LawfulEqOrd α] [BEq α] [LawfulBEq α]
  [HashWith Strategy κ] {old new : Ring Strategy α}

omit [Std.LawfulEqOrd α] [BEq α] [LawfulBEq α] in
theorem locate_asRead_append_iff (sound : old.Sound) (k : κ) (count : Nat) (as bs : List α) :
    old.asRead.locate k count ++ as = old.locate k count ++ bs ↔
      old.asRead.locate k count = old.locate k count ∧ as = bs := by
  constructor
  · intro same
    refine List.append_inj same ?_
    rw [sound.asRead.length_locate, sound.length_locate]
    rfl
  · rintro ⟨same, rfl⟩
    rw [same]

theorem writeOwners_asRead_iff (soundOld : old.Sound) (soundNew : new.Sound) (k : κ)
    (count : Nat) :
    (moving old.asRead new.asRead).writeOwners k count = (moving old new).writeOwners k count ↔
      old.asRead.locate k count = old.locate k count ∧
        old.asRead.gainedOwners new.asRead k count = old.gainedOwners new k count := by
  rw [writeOwners_moving_eq soundNew.asRead, writeOwners_moving_eq soundNew]
  exact locate_asRead_append_iff soundOld k count _ _

theorem locate_asRead_iff (soundOld : old.Sound) (soundNew : new.Sound) (k : κ) (count : Nat) :
    (moving old.asRead new.asRead).locate k count = (moving old new).locate k count ↔
      old.asRead.locate k count = old.locate k count ∧
        (old.asRead.gainedOwners new.asRead k count).take (count - old.size) =
          (old.gainedOwners new k count).take (count - old.size) := by
  rw [locate_moving_eq soundOld.asRead soundNew.asRead, locate_moving_eq soundOld soundNew]
  exact locate_asRead_append_iff soundOld k count _ _

omit [LawfulBEq α] in
theorem gainedOwners_asRead (soundOld : old.Sound) (soundNew : new.Sound) {k : κ}
    (sameOld : old.asRead.primary? k = old.primary? k)
    (sameNew : new.asRead.primary? k = new.primary? k) (count : Nat) :
    old.asRead.gainedOwners new.asRead k count = old.gainedOwners new k count := by
  rw [Ring.gainedOwners, Ring.gainedOwners,
    (soundOld.locate_asRead_iff k count).mpr (.inr sameOld),
    (soundNew.locate_asRead_iff k count).mpr (.inr sameNew)]

theorem locate_asRead (soundOld : old.Sound) (soundNew : new.Sound) {k : κ}
    (sameOld : old.asRead.primary? k = old.primary? k)
    (sameNew : new.asRead.primary? k = new.primary? k) (count : Nat) :
    (moving old.asRead new.asRead).locate k count = (moving old new).locate k count := by
  refine (locate_asRead_iff soundOld soundNew k count).mpr ⟨?_, ?_⟩
  · exact (soundOld.locate_asRead_iff k count).mpr (.inr sameOld)
  · rw [gainedOwners_asRead soundOld soundNew sameOld sameNew]

/-- Writes reach the same members whatever the number of copies, exactly if both rings keep
the first owner. -/
theorem forall_writeOwners_asRead_iff (soundOld : old.Sound) (soundNew : new.Sound) (k : κ) :
    (∀ count, (moving old.asRead new.asRead).writeOwners k count =
        (moving old new).writeOwners k count) ↔
      old.asRead.primary? k = old.primary? k ∧ new.asRead.primary? k = new.primary? k := by
  constructor
  · intro same
    obtain ⟨sameOld, gained⟩ := (writeOwners_asRead_iff soundOld soundNew k 1).mp (same 1)
    refine ⟨((soundOld.locate_asRead_iff k 1).mp sameOld).resolve_left Nat.one_ne_zero, ?_⟩
    have length := (soundNew.asRead.length_walk k).trans (soundNew.length_walk k).symm
    simp only [Ring.gainedOwners, sameOld, soundNew.asRead.locate_eq_take,
      soundNew.locate_eq_take] at gained
    rw [soundOld.locate_eq_take] at gained
    exact head?_eq_of_lost_eq length gained
  · rintro ⟨sameOld, sameNew⟩ count
    refine (writeOwners_asRead_iff soundOld soundNew k count).mpr ⟨?_, ?_⟩
    · exact (soundOld.locate_asRead_iff k count).mpr (.inr sameOld)
    · exact gainedOwners_asRead soundOld soundNew sameOld sameNew count

end Mapping

namespace Wire

open Codec

/-- A ring that was built, alone or in a mapping or a command, is read with the same members
on the same slots under the standard hasher.  Under the standard strategy it is the same
ring.  Under any other a key keeps its owners, in their order, exactly if it keeps its first
one, and it keeps the set of its owners only if also these are all the members; while the
ring moves a key keeps its owners exactly if it keeps those under the old ring and those
that are gained. -/
theorem owners_as_read_iff {α κ : Type} [Ord α] [Std.TransOrd α] [Std.LawfulEqOrd α] [BEq α]
    [LawfulBEq α] [HashWith Strategy α] [HashWith Strategy κ] {member : Codec α}
    {key : KeyCodec α} (keepsMember : member.Keeps (fun _ => True) id)
    (keepsKey : key.Keeps fun _ => True) (strategy : Strategy) {ms ms' : List α}
    {old new : Ring Strategy α} (builtOld : Ring.ofMembers strategy ms = .ok old)
    (builtNew : Ring.ofMembers strategy ms' = .ok new) :
    ((ringOf member key).read? ((ringOf member key).write old) = some old.asRead ∧
      (mappingOf (ringOf member key)).read?
          ((mappingOf (ringOf member key)).write (.settled old)) = some (.settled old.asRead) ∧
      (mappingOf (ringOf member key)).read?
          ((mappingOf (ringOf member key)).write (.moving old new)) =
        some (.moving old.asRead new.asRead)) ∧
    (∀ (ms ms' : List Address) (old new : MemberRing) (requester : Address),
      Ring.ofMembers strategy ms = .ok old → Ring.ofMembers strategy ms' = .ok new →
        command.read? (command.write (.installMapping (.settled old))) =
            some (.installMapping (.settled old.asRead)) ∧
          command.read? (command.write (.installMapping (.moving old new))) =
            some (.installMapping (.moving old.asRead new.asRead)) ∧
          command.read? (command.write (.pullState requester old)) =
            some (.pullState requester old.asRead)) ∧
    (strategy = .standard → old.asRead = old ∧ new.asRead = new) ∧
    (∀ (k : κ) (count : Nat),
      (old.asRead.locate k count = old.locate k count ↔
          count = 0 ∨ old.asRead.primary? k = old.primary? k) ∧
        ((∀ a, old.asRead.isOwner a k count = old.isOwner a k count) ↔
          count = 0 ∨ old.size ≤ count ∨ old.asRead.primary? k = old.primary? k) ∧
        ((Mapping.moving old.asRead new.asRead).locate k count =
            (Mapping.moving old new).locate k count ↔
          old.asRead.locate k count = old.locate k count ∧
            (old.asRead.gainedOwners new.asRead k count).take (count - old.size) =
              (old.gainedOwners new k count).take (count - old.size)) ∧
        ((Mapping.moving old.asRead new.asRead).writeOwners k count =
            (Mapping.moving old new).writeOwners k count ↔
          old.asRead.locate k count = old.locate k count ∧
            old.asRead.gainedOwners new.asRead k count = old.gainedOwners new k count)) ∧
    ∀ k : κ, ((∀ count, (Mapping.moving old.asRead new.asRead).writeOwners k count =
          (Mapping.moving old new).writeOwners k count) ↔
        old.asRead.primary? k = old.primary? k ∧ new.asRead.primary? k = new.primary? k) ∧
      (old.asRead.primary? k = old.primary? k ∧ new.asRead.primary? k = new.primary? k →
        ∀ count, (Mapping.moving old.asRead new.asRead).locate k count =
            (Mapping.moving old new).locate k count ∧
          ∀ a, (Mapping.moving old.asRead new.asRead).isOwner a k count =
            (Mapping.moving old new).isOwner a k count) := by
  have soundOld := Ring.sound_ofMembers builtOld
  have soundNew := Ring.sound_ofMembers builtNew
  have fineOld := Ring.inRange_ofMembers builtOld
  have fineNew := Ring.inRange_ofMembers builtNew
  have keeps := keeps_ringOf keepsMember keepsKey
  refine ⟨⟨?_, ?_, ?_⟩, ?_, ?_, ?_, ?_⟩
  · exact keeps.read?_write fineOld
  · exact (keeps_mappingOf keeps).read?_write (a := .settled old) fineOld
  · exact (keeps_mappingOf keeps).read?_write (a := .moving old new) ⟨fineOld, fineNew⟩
  · intro ms ms' old new requester builtOld builtNew
    have fineOld := Ring.inRange_ofMembers builtOld
    have fineNew := Ring.inRange_ofMembers builtNew
    refine ⟨?_, ?_, ?_⟩
    · exact keeps_command.read?_write (a := .installMapping (.settled old)) fineOld
    · exact keeps_command.read?_write (a := .installMapping (.moving old new)) ⟨fineOld, fineNew⟩
    · exact keeps_command.read?_write (a := .pullState requester old) fineOld
  · rintro rfl
    have hasherOld := Ring.hasher_ofMembers builtOld
    have hasherNew := Ring.hasher_ofMembers builtNew
    rw [Ring.asRead, Ring.asRead, ← hasherOld]
    exact ⟨rfl, by rw [hasherOld, ← hasherNew]⟩
  · intro k count
    exact ⟨soundOld.locate_asRead_iff k count, soundOld.isOwner_asRead_iff k count,
      Mapping.locate_asRead_iff soundOld soundNew k count,
      Mapping.writeOwners_asRead_iff soundOld soundNew k count⟩
  · intro k
    refine ⟨Mapping.forall_writeOwners_asRead_iff soundOld soundNew k, ?_⟩
    rintro ⟨sameOld, sameNew⟩ count
    have same := Mapping.locate_asRead soundOld soundNew sameOld sameNew count
    exact ⟨same, fun a => by rw [Mapping.isOwner, Mapping.isOwner, same]⟩

/-- Under another strategy than the standard one the ring that is read counts as equal, but
here "k3" goes from "A" to "C". -/
theorem owner_changed_by_reading :
    ((Ring.ofMembers Strategy.sip13 ["A", "C"]).toOption.bind fun r =>
      (ring.read? (ring.write r)).map fun read =>
        (read == r, r.locate "k3" 1, read.locate "k3" 1)) = some (true, ["A"], ["C"]) := by
  decide +kernel

theorem owners_as_read_iff_of_two :
    ∃ old new : MemberRing, Ring.ofMembers .sip13 ["A", "C"] = .ok old ∧
      Ring.ofMembers .sip13 ["A", "C", "D"] = .ok new ∧
      ring.read? (ring.write old) = some old.asRead ∧
      mapping.read? (mapping.write (.moving old new)) = some (.moving old.asRead new.asRead) ∧
      old.asRead.locate "k0" 1 = old.locate "k0" 1 ∧
      old.asRead.locate "k3" 1 ≠ old.locate "k3" 1 ∧
      ¬ ∀ count, (Mapping.moving old.asRead new.asRead).writeOwners "k3" count =
        (Mapping.moving old new).writeOwners "k3" count := by
  have roomOld : ["A", "C"].length ≤ ringSize := by decide
  have roomNew : ["A", "C", "D"].length ≤ ringSize := by decide
  obtain ⟨old, builtOld⟩ := Ring.exists_ofMembers Strategy.sip13 roomOld
  obtain ⟨new, builtNew⟩ := Ring.exists_ofMembers Strategy.sip13 roomNew
  obtain ⟨⟨read, -, moving⟩, -, -, owners, writers⟩ := owners_as_read_iff (κ := String)
    keeps_address keeps_textKey .sip13 builtOld builtNew
  have kept : old.asRead.primary? "k0" = old.primary? "k0" :=
    of_decide_eq_true (Ring.apply_eq_of_ofMembers builtOld
      (fun r => decide (r.asRead.primary? "k0" = r.primary? "k0")) (by decide +kernel))
  have changed : ¬ old.asRead.primary? "k3" = old.primary? "k3" :=
    of_decide_eq_false (Ring.apply_eq_of_ofMembers builtOld
      (fun r => decide (r.asRead.primary? "k3" = r.primary? "k3")) (by decide +kernel))
  refine ⟨old, new, builtOld, builtNew, read, moving, (owners "k0" 1).1.mpr (.inr kept), ?_, ?_⟩
  · intro same
    exact ((owners "k3" 1).1.mp same).elim Nat.one_ne_zero changed
  · intro same
    exact changed ((writers "k3").1.mp same).1

end Wire

end SlotRing
