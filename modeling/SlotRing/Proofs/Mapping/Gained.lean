/-
# Owners under two rings

While the ring moves, the owners under the old ring come first and the others under the new
one, the gained ones, behind them.  A write reaches all of them (`appendNew_eq`), and a read
asks the first of them, as many as there are copies (`topUp_eq_take`): a member that is read
from is one that is written to.  These are two loops over the same owners, and they agree
for every pair of rings (`routing_under_two_rings`).
-/
import SlotRing.Mapping.Basic
import SlotRing.Proofs.Ring.Walk

namespace SlotRing

section

variable {α : Type} [BEq α] [LawfulBEq α] {owners ms : List α}

theorem lost_cons_of_mem {m : α} (mem : m ∈ owners) : lost (m :: ms) owners = lost ms owners := by
  simp [lost, mem]

theorem lost_cons_of_notMem {m : α} (absent : m ∉ owners) :
    lost (m :: ms) owners = m :: lost ms owners := by
  simp [lost, absent]

theorem lost_append_singleton {m : α} (absent : m ∉ ms) :
    lost ms (owners ++ [m]) = lost ms owners := by
  refine List.filter_congr fun a mem => ?_
  have other : a ≠ m := fun same => absent (same ▸ mem)
  simp [other]

/-- Whether the first is gained beside at most one owner says who it is. -/
theorem head?_eq_of_lost_eq {ms' : List α} (length : ms'.length = ms.length)
    (same : lost (ms'.take 1) (owners.take 1) = lost (ms.take 1) (owners.take 1)) :
    ms'.head? = ms.head? := by
  cases ms with
  | nil => rw [List.length_eq_zero_iff.mp length]
  | cons b ms =>
    cases ms' with
    | nil => cases length
    | cons b' ms' =>
      simp only [List.take_succ_cons, List.take_zero] at same
      by_cases known : b ∈ owners.take 1
      · by_cases known' : b' ∈ owners.take 1
        · cases owners with
          | nil => cases known
          | cons a owners =>
            rw [List.take_succ_cons, List.take_zero, List.mem_singleton] at known known'
            rw [known, known', List.head?_cons, List.head?_cons]
        · rw [lost_cons_of_mem known, lost_cons_of_notMem known'] at same
          cases same
      · by_cases known' : b' ∈ owners.take 1
        · rw [lost_cons_of_mem known', lost_cons_of_notMem known] at same
          cases same
        · rw [lost_cons_of_notMem known', lost_cons_of_notMem known] at same
          cases same
          rfl

theorem appendNew_eq (nodup : ms.Nodup) : appendNew owners ms = owners ++ lost ms owners := by
  fun_induction appendNew owners ms with
  | case1 owners => simp [lost]
  | case2 owners m ms known ih =>
    obtain ⟨-, nodup⟩ := List.nodup_cons.mp nodup
    rw [ih nodup, lost_cons_of_mem (List.contains_iff_mem.mp known)]
  | case3 owners m ms unknown ih =>
    obtain ⟨absent, nodup⟩ := List.nodup_cons.mp nodup
    rw [ih nodup, lost_append_singleton absent,
      lost_cons_of_notMem (fun mem => unknown (List.contains_iff_mem.mpr mem)),
      List.append_assoc, List.singleton_append]

theorem nodup_appendNew (distinct : owners.Nodup) : (appendNew owners ms).Nodup := by
  fun_induction appendNew owners ms with
  | case1 => exact distinct
  | case2 owners m ms _ ih => exact ih distinct
  | case3 owners m ms new ih =>
    refine ih (List.nodup_append.mpr ⟨distinct, List.pairwise_singleton _ _, ?_⟩)
    intro a ha b hb same
    rw [List.mem_singleton] at hb
    subst hb
    exact new (List.contains_iff_mem.mpr (same ▸ ha))

omit [LawfulBEq α] in
theorem prefix_appendNew (owners ms : List α) : owners <+: appendNew owners ms := by
  fun_induction appendNew owners ms with
  | case1 owners => exact List.prefix_rfl
  | case2 owners m ms _ ih => exact ih
  | case3 owners m ms _ ih => exact (List.prefix_append owners [m]).trans ih

omit [LawfulBEq α] in
/-- To stop when there are enough owners is to look for all and to take the first. -/
theorem topUp_eq_take {count : Nat} (few : owners.length ≤ count) :
    topUp count owners ms = (appendNew owners ms).take count := by
  fun_induction topUp count owners ms with
  | case1 owners => rw [appendNew, List.take_of_length_le few]
  | case2 owners m ms full =>
    have length : owners.length = count := Nat.le_antisymm few full
    rw [← length, ← List.prefix_iff_eq_take]
    exact prefix_appendNew owners (m :: ms)
  | case3 owners m ms notFull known ih => rw [ih few, appendNew, if_pos known]
  | case4 owners m ms notFull unknown ih =>
    rw [appendNew, if_neg unknown]
    refine ih ?_
    rw [List.length_append, List.length_singleton]
    exact Nat.lt_of_not_le notFull

theorem topUp_eq {count : Nat} (nodup : ms.Nodup) (few : owners.length ≤ count) :
    topUp count owners ms = owners ++ (lost ms owners).take (count - owners.length) := by
  rw [topUp_eq_take few, appendNew_eq nodup, List.take_append, List.take_of_length_le few]

end

namespace Mapping

variable {η α κ : Type} [Ord α] [Std.TransOrd α] [Std.LawfulEqOrd α] [BEq α] [LawfulBEq α]
  [HashWith η κ] {old new : Ring η α}

omit [Std.LawfulEqOrd α] [HashWith η κ] in
theorem members_moving_eq (soundNew : new.Sound) :
    (moving old new).members = old.members ++ lost new.members old.members :=
  appendNew_eq soundNew.nodup_members

theorem writeOwners_moving_eq (soundNew : new.Sound) (k : κ) (count : Nat) :
    (moving old new).writeOwners k count =
      old.locate k count ++ old.gainedOwners new k count :=
  appendNew_eq (soundNew.nodup_locate k count)

theorem locate_moving_eq (soundOld : old.Sound) (soundNew : new.Sound) (k : κ) (count : Nat) :
    (moving old new).locate k count =
      old.locate k count ++ (old.gainedOwners new k count).take (count - old.size) := by
  have length := soundOld.length_locate k count
  have room : count - (old.locate k count).length = count - old.size := by omega
  rw [locate, topUp_eq (soundNew.nodup_locate k count) (by omega), room]
  rfl

omit [Std.LawfulEqOrd α] [LawfulBEq α] in
/-- Reads ask the first of those that writes reach. -/
theorem locate_moving_eq_take (soundOld : old.Sound) (k : κ) (count : Nat) :
    (moving old new).locate k count = ((moving old new).writeOwners k count).take count := by
  refine topUp_eq_take ?_
  rw [soundOld.length_locate]
  exact Nat.min_le_left _ _

/-! ## From a ring to itself -/

section Same

variable {r : Ring η α} (sound : r.Sound)
include sound

omit [Std.LawfulEqOrd α] [HashWith η κ] in
theorem members_moving_self : (moving r r).members = r.members := by
  rw [members_moving_eq sound, lost_eq_nil fun _ mem => mem, List.append_nil]

theorem writeOwners_moving_self (k : κ) (count : Nat) :
    (moving r r).writeOwners k count = r.locate k count := by
  rw [writeOwners_moving_eq sound, Ring.gainedOwners, lost_eq_nil fun _ mem => mem,
    List.append_nil]

theorem locate_moving_self (k : κ) (count : Nat) :
    (moving r r).locate k count = r.locate k count := by
  rw [locate_moving_eq_take sound, writeOwners_moving_self sound]
  refine List.take_of_length_le ?_
  rw [sound.length_locate]
  exact Nat.min_le_left _ _

end Same

variable [HashWith η α]

/-- While the ring moves, a write reaches the owners under the old ring and then those that
only the new one has, each of them once and nobody else; a read asks the first of them, and
who is asked counts as an owner; the members are those of the old ring and then those that
only the new one has.  From a ring to an equal one of the same hasher nothing moves, and keys
are routed as by the ring. -/
theorem routing_under_two_rings {hasher hasher' : η} {ms ms' : List α}
    (builtOld : Ring.ofMembers hasher ms = .ok old)
    (builtNew : Ring.ofMembers hasher' ms' = .ok new) :
    (∀ (key : κ) (count : Nat),
      (moving old new).writeOwners key count = old.locate key count ++
          (new.locate key count).filter (!(old.locate key count).contains ·) ∧
        ((moving old new).writeOwners key count).Nodup ∧
        (∀ m, m ∈ (moving old new).writeOwners key count ↔
          m ∈ old.locate key count ∨ m ∈ new.locate key count) ∧
        (moving old new).locate key count =
          ((moving old new).writeOwners key count).take count ∧
        ∀ m, (moving old new).isOwner m key count = true ↔
          m ∈ (moving old new).locate key count) ∧
      ((moving old new).members =
          old.members ++ new.members.filter (!old.members.contains ·) ∧
        (moving old new).members.Nodup) ∧
      ((old == new) = true → hasher = hasher' →
        (moving old new).members = old.members ∧
          ∀ (key : κ) (count : Nat),
            (moving old new).locate key count = old.locate key count ∧
              (moving old new).writeOwners key count = old.locate key count ∧
              ∀ m, (moving old new).isOwner m key count = old.isOwner m key count) := by
  have soundOld := Ring.sound_ofMembers builtOld
  have soundNew := Ring.sound_ofMembers builtNew
  refine ⟨fun key count => ⟨writeOwners_moving_eq soundNew key count, ?_, fun m => ?_,
    locate_moving_eq_take soundOld key count, fun m => ?_⟩, ⟨members_moving_eq soundNew, ?_⟩, ?_⟩
  · exact nodup_appendNew (soundOld.nodup_locate key count)
  · exact mem_appendNew
  · rw [isOwner, List.contains_iff_mem]
  · exact nodup_appendNew soundOld.nodup_members
  · rintro equal rfl
    obtain rfl := (Ring.beq_iff_of_ofMembers builtOld builtNew).mp equal
    refine ⟨members_moving_self soundOld, fun key count => ?_⟩
    have same := locate_moving_self soundOld key count
    exact ⟨same, writeOwners_moving_self soundOld key count,
      fun m => by rw [isOwner, Ring.isOwner, same]⟩

/-- With "D" coming, "C" and "D" are to be the owners of "k0" after "C" and "A": two of the
three are read from.  The ring of "C", "A" and "C" again is that of "A" and "C". -/
theorem routing_under_two_rings_of_arrival :
    ∃ old new again : Ring Strategy String,
      Ring.ofMembers .sip24 ["A", "C"] = .ok old ∧
      Ring.ofMembers .sip24 ["A", "C", "D"] = .ok new ∧
      Ring.ofMembers .sip24 ["C", "A", "C"] = .ok again ∧
      (old.locate "k0" 2 = ["C", "A"] ∧ new.locate "k0" 2 = ["C", "D"]) ∧
      (moving old new).writeOwners "k0" 2 = ["C", "A", "D"] ∧
      (moving old new).locate "k0" 2 = ["C", "A"] ∧
      (moving old new).isOwner "D" "k0" 2 = false ∧
      (moving old new).members = ["A", "C", "D"] ∧
      (old == again) = true ∧ (moving old again).writeOwners "k0" 2 = ["C", "A"] := by
  have room : ["A", "C", "D"].length ≤ ringSize := by decide
  obtain ⟨new, builtNew⟩ := Ring.exists_ofMembers Strategy.sip24 room
  obtain ⟨old, builtOld⟩ := Ring.exists_ofMembers_of_subset builtNew
    (show ∀ m ∈ ["A", "C"], m ∈ ["A", "C", "D"] by decide)
  obtain ⟨again, builtAgain⟩ := Ring.exists_ofMembers_of_subset builtNew
    (show ∀ m ∈ ["C", "A", "C"], m ∈ ["A", "C", "D"] by decide)
  have ownersOld : old.locate "k0" 2 = ["C", "A"] :=
    Ring.apply_eq_of_ofMembers builtOld (·.locate "k0" 2) (by decide +kernel)
  have ownersNew : new.locate "k0" 2 = ["C", "D"] :=
    Ring.apply_eq_of_ofMembers builtNew (·.locate "k0" 2) (by decide +kernel)
  have membersOld : old.members = ["A", "C"] :=
    Ring.apply_eq_of_ofMembers builtOld (·.members) (by decide +kernel)
  have membersNew : new.members = ["A", "C", "D"] :=
    Ring.apply_eq_of_ofMembers builtNew (·.members) (by decide +kernel)
  obtain ⟨routes, ⟨members, -⟩, -⟩ := routing_under_two_rings (κ := String) builtOld builtNew
  obtain ⟨-, -, unmoved⟩ := routing_under_two_rings (κ := String) builtOld builtAgain
  obtain ⟨writers, -, -, readers, owner⟩ := routes "k0" 2
  rw [ownersOld, ownersNew] at writers
  rw [writers] at readers
  have equal : (old == again) = true :=
    (Ring.beq_iff_of_ofMembers builtOld builtAgain).mpr
      ((Ring.eq_iff_of_ofMembers builtOld builtAgain).mpr (by simp [or_comm]))
  refine ⟨old, new, again, builtOld, builtNew, builtAgain, ⟨ownersOld, ownersNew⟩, writers,
    readers, ?_, ?_, equal, ?_⟩
  · rw [Bool.eq_false_iff, Ne, owner, readers]
    decide
  · rw [members, membersOld, membersNew]
    rfl
  · rw [((unmoved equal rfl).2 "k0" 2).2.1, ownersOld]

end Mapping

end SlotRing
