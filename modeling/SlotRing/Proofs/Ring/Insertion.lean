/-
# What an arrival does to the owners of a key

When a newcomer pushes nobody on, the walk of a key is the old one with the newcomer put in
at one place (`Adds.exists_insertion`).  The owners are the beginning of the walk, so that
there are three cases.  The newcomer may come behind all owners: they stay.  It may come
among them: it is gained, and the last one falls out, as there are as many as before.  Or
all members own the key, and the newcomer is one more (`arrival_inserts_newcomer`).
-/
import SlotRing.Proofs.Ring.Neighbourhood

namespace SlotRing

/-! ## A list and the list with one element put in -/

section

variable {α : Type}

theorem insertIdx_length_append (ahead behind : List α) (x : α) :
    (ahead ++ behind).insertIdx ahead.length x = ahead ++ x :: behind := by
  induction ahead with
  | nil => rfl
  | cons a ahead ih =>
    rw [List.cons_append, List.length_cons, List.insertIdx_succ_cons, ih, List.cons_append]

theorem eq_insertIdx_iff {ahead behind : List α} {x : α}
    (nodup : (ahead ++ x :: behind).Nodup) (i : Nat) :
    ahead ++ x :: behind = (ahead ++ behind).insertIdx i x ↔ i = ahead.length := by
  constructor
  · intro same
    have inside : i ≤ (ahead ++ behind).length := by
      by_contra outside
      have length := congrArg List.length same
      rw [List.insertIdx_of_length_lt (Nat.lt_of_not_le outside)] at length
      simp at length
    have there : (ahead ++ x :: behind)[i]? = some x := by
      rw [same, List.getElem?_insertIdx_self, if_pos inside]
    have middle : (ahead ++ x :: behind)[ahead.length]? = some x := by simp
    exact (List.getElem?_inj (List.getElem?_eq_some_iff.mp there).1 nodup).mp
      (there.trans middle.symm)
  · rintro rfl
    exact (insertIdx_length_append ahead behind x).symm

variable [BEq α] [LawfulBEq α]

/-- When the beginning of the list is long enough for `x`, it loses the one that would be its
last without `x`, if there are as many, and nobody else. -/
theorem lost_take_insertion {ahead behind : List α} {x : α} {count : Nat}
    (nodup : (ahead ++ x :: behind).Nodup) (reached : ahead.length < count) :
    lost ((ahead ++ x :: behind).take count) ((ahead ++ behind).take count) = [x] ∧
      lost ((ahead ++ behind).take count) ((ahead ++ x :: behind).take count) =
        (ahead ++ behind)[count - 1]?.toList := by
  obtain ⟨more, rfl⟩ : ∃ more, count = ahead.length + (more + 1) :=
    ⟨count - ahead.length - 1, by omega⟩
  obtain ⟨kept, hkept⟩ : ∃ kept, behind.take more = kept := ⟨_, rfl⟩
  obtain ⟨last, hlast⟩ : ∃ last, behind[more]?.toList = last := ⟨_, rfl⟩
  have with_ : (ahead ++ x :: behind).take (ahead.length + (more + 1)) = ahead ++ [x] ++ kept := by
    rw [List.take_length_add_append, List.take_succ_cons, hkept, List.append_cons]
  have without : (ahead ++ behind).take (ahead.length + (more + 1)) = ahead ++ kept ++ last := by
    rw [List.take_length_add_append, List.take_add_one, hkept, hlast, List.append_assoc]
  have there : (ahead ++ behind)[ahead.length + (more + 1) - 1]?.toList = last := by
    rw [← Nat.add_assoc, Nat.add_sub_cancel, List.getElem?_append_right (Nat.le_add_right _ _),
      Nat.add_sub_cancel_left, hlast]
  obtain ⟨absent, nodup⟩ := List.nodup_cons.mp (List.nodup_middle.mp nodup)
  have distinct : (ahead ++ kept ++ last).Nodup := without ▸ nodup.sublist (List.take_sublist _ _)
  have outside : x ∉ ahead ++ kept ++ last := fun mem =>
    absent (List.mem_of_mem_take (without ▸ mem))
  rw [there, with_, without]
  constructor
  · rw [lost_append, lost_append, lost_eq_nil fun m mem => by simp [mem],
      lost_eq_self fun m mem => by rwa [List.mem_singleton.mp mem],
      lost_eq_nil fun m mem => by simp [mem]]
    rfl
  · have fallen : ∀ m ∈ last, m ∉ ahead ++ [x] ++ kept := by
      intro m mem taken
      rw [List.mem_append, List.mem_append, List.mem_singleton] at taken
      have apart := List.disjoint_of_nodup_append distinct
      rcases taken with (taken | rfl) | taken
      · exact apart (List.mem_append_left _ taken) mem
      · exact outside (List.mem_append_right _ mem)
      · exact apart (List.mem_append_right _ taken) mem
    rw [lost_append, lost_append, lost_eq_nil fun m mem => by simp [mem],
      lost_eq_nil fun m mem => by simp [mem], lost_eq_self fallen]
    rfl

end

namespace Ring

section

variable {η α : Type} [DecidableEq α] [Ord α] [Std.TransOrd α] [Std.LawfulEqOrd α] [HashWith η α]

theorem size_ofMembers {hasher : η} {ms : List α} {r : Ring η α}
    (built : ofMembers hasher ms = .ok r) : r.size = ms.dedup.length := by
  have perm : r.members.Perm ms.dedup := by
    rw [List.perm_ext_iff_of_nodup (sound_ofMembers built).nodup_members ms.nodup_dedup]
    intro m
    rw [mem_members_ofMembers built, List.mem_dedup]
  exact perm.length_eq

variable [BEq α] [LawfulBEq α] {κ : Type} [HashWith η κ]

/-- When a newcomer pushes nobody on, all members are met on the walk of a key as before and
the newcomer at one place among them.  So the owners other than the newcomer are the first
of the old ones, in their order.  As long as there are members for all copies, either the
owners stay the same or the newcomer is gained and just the last owner falls out; if there
are fewer, the newcomer is gained and nobody falls out. -/
theorem arrival_inserts_newcomer (hasher : η) {ms : List α} {x : α}
    (room : ms.dedup.length < ringSize) (absent : x ∉ ms) :
    ∃ old new : Ring η α, ofMembers hasher ms = .ok old ∧ ofMembers hasher (ms ++ [x]) = .ok new ∧
      ((∀ m ∈ ms, new.position? m = old.position? m) → ∀ key : κ,
        ∃ place ≤ ms.dedup.length,
          (∀ i, new.locate key (ms.dedup.length + 1) =
            (old.locate key ms.dedup.length).insertIdx i x ↔ i = place) ∧
          ∀ count,
            new.locate key count =
              ((old.locate key ms.dedup.length).insertIdx place x).take count ∧
            (new.locate key count).filter (· != x) <+: old.locate key count ∧
            (x ∈ new.locate key count ↔ place < count) ∧
            (count ≤ ms.dedup.length →
              new.locate key count = old.locate key count ∨
              old.gainedOwners new key count = [x] ∧
                ∃ last, (old.locate key count).getLast? = some last ∧
                  old.staleOwners new key count = [last]) ∧
            (ms.dedup.length < count →
              old.gainedOwners new key count = [x] ∧ old.staleOwners new key count = [])) := by
  obtain ⟨old, new, before, after, -⟩ := exists_enters hasher room absent
  refine ⟨old, new, before, after, fun stays key => ?_⟩
  have grows : Grows hasher ms x old new := ⟨before, after, absent, fun mem => stays _ mem⟩
  have sound := sound_ofMembers before
  have sound' := sound_ofMembers after
  obtain ⟨ahead, behind, walk, walk', -, -⟩ := grows.adds.exists_insertion sound sound' key
  have nodup : (ahead ++ x :: behind).Nodup := walk' ▸ sound'.nodup_walk key
  have size : (ahead ++ behind).length = ms.dedup.length := by
    rw [← walk, sound.length_walk, size_ofMembers before]
  have locate (count : Nat) : old.locate key count = (ahead ++ behind).take count := by
    rw [sound.locate_eq_take, walk]
  have locate' (count : Nat) : new.locate key count = (ahead ++ x :: behind).take count := by
    rw [sound'.locate_eq_take, walk']
  have all : old.locate key ms.dedup.length = ahead ++ behind := by
    rw [locate, ← size, List.take_length]
  have all' : new.locate key (ms.dedup.length + 1) = ahead ++ x :: behind := by
    rw [locate', ← size, List.take_of_length_le (by simp; omega)]
  refine ⟨ahead.length, ?_, fun i => ?_, fun count => ⟨?_, ?_, ?_, fun enough => ?_, fun few => ?_⟩⟩
  · rw [← size, List.length_append]
    exact Nat.le_add_right _ _
  · rw [all, all', eq_insertIdx_iff nodup]
  · rw [all, locate', insertIdx_length_append]
  · exact grows.adds.filter_locate_isPrefix sound sound' key count
  · rw [locate', mem_take_middle_iff nodup]
  · by_cases reached : ahead.length < count
    · obtain ⟨gained, stale⟩ := lost_take_insertion nodup reached
      obtain ⟨last, found⟩ : ∃ last, (ahead ++ behind)[count - 1]? = some last :=
        ⟨_, List.getElem?_eq_getElem (by omega)⟩
      rw [found, Option.toList_some, ← locate, ← locate'] at stale
      rw [← locate, ← locate'] at gained
      refine .inr ⟨gained, last, ?_, stale⟩
      rw [locate, List.getLast?_take, if_neg (by omega), found, Option.some_or]
    · have ahead_all : count ≤ ahead.length := Nat.le_of_not_lt reached
      exact .inl (by rw [locate, locate', List.take_append_of_le_length ahead_all,
        List.take_append_of_le_length ahead_all])
  · have reached : ahead.length < count := by
      rw [List.length_append] at size
      omega
    obtain ⟨gained, stale⟩ := lost_take_insertion nodup reached
    rw [List.getElem?_eq_none (by omega), Option.toList_none, ← locate, ← locate'] at stale
    rw [← locate, ← locate'] at gained
    exact ⟨gained, stale⟩

/-- The newcomer "C" pushes nobody on.  The key "k7" belonged to "B" and "A", and "C" comes
between them: one copy stays where it was, and of two copies one goes from "A" to "C". -/
theorem arrival_inserts_newcomer_of_trio :
    (["A", "B"].dedup.length < ringSize ∧ "C" ∉ ["A", "B"]) ∧
      ∃ old new : Ring Strategy String,
        ofMembers .sip24 ["A", "B"] = .ok old ∧ ofMembers .sip24 (["A", "B"] ++ ["C"]) = .ok new ∧
        (∀ m ∈ ["A", "B"], new.position? m = old.position? m) ∧
        (∀ i, new.locate "k7" 3 = (old.locate "k7" 2).insertIdx i "C" ↔ i = 1) ∧
        new.locate "k7" 1 = old.locate "k7" 1 ∧
        (old.gainedOwners new "k7" 2 = ["C"] ∧ old.staleOwners new "k7" 2 = ["A"]) ∧
        old.gainedOwners new "k7" 3 = ["C"] ∧ old.staleOwners new "k7" 3 = [] := by
  have room : ["A", "B"].dedup.length < ringSize := by decide
  have absent : "C" ∉ ["A", "B"] := by decide
  obtain ⟨old, new, before, after, law⟩ :=
    arrival_inserts_newcomer (κ := String) Strategy.sip24 room absent
  have computed := fun {β : Type} (f : Ring Strategy String → β) {b : β} =>
    apply_eq_of_ofMembers (b := b) before f
  have computed' := fun {β : Type} (f : Ring Strategy String → β) {b : β} =>
    apply_eq_of_ofMembers (b := b) after f
  have stays : ∀ m ∈ ["A", "B"], new.position? m = old.position? m := by
    have slots : ["A", "B"].map old.position? = [some 2319, some 3927] :=
      computed (fun r => ["A", "B"].map r.position?) (by decide +kernel)
    have slots' : ["A", "B"].map new.position? = [some 2319, some 3927] :=
      computed' (fun r => ["A", "B"].map r.position?) (by decide +kernel)
    exact List.map_inj_left.mp (slots'.trans slots.symm)
  have walk : old.locate "k7" 2 = ["B", "A"] := computed (·.locate "k7" 2) (by decide +kernel)
  have walk' : new.locate "k7" 3 = ["B", "C", "A"] :=
    computed' (·.locate "k7" 3) (by decide +kernel)
  have members : ["A", "B"].dedup.length = 2 := by decide
  obtain ⟨place, -, places, owners⟩ := law stays "k7"
  rw [members] at places owners
  have second : 1 = place := (places 1).mp (by rw [walk, walk']; rfl)
  subst second
  refine ⟨⟨room, absent⟩, old, new, before, after, stays, places, ?_, ?_, ?_⟩
  · obtain ⟨-, -, reached, either, -⟩ := owners 1
    rcases either (by decide) with same | ⟨gained, -⟩
    · exact same
    · have mem : "C" ∈ old.gainedOwners new "k7" 1 := by simp [gained]
      exact absurd (reached.mp (mem_lost.mp mem).1) (by decide)
  · obtain ⟨-, -, reached, either, -⟩ := owners 2
    rcases either (by decide) with same | ⟨gained, last, isLast, stale⟩
    · have mem := reached.mpr (by decide)
      rw [same, walk] at mem
      exact absurd mem (by decide)
    · rw [walk] at isLast
      cases isLast
      exact ⟨gained, stale⟩
  · exact (owners 3).2.2.2.2 (by decide)

end

end Ring

end SlotRing
