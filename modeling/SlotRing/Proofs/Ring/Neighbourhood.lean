/-
# What an arrival touches

A newcomer takes the first slot that is free when its turn comes, and whoever is pushed
on goes on to a free slot as well.  Both are searches over taken slots, and all of them
together look at one stretch of the ring only: from the natural slot of the newcomer
forward to the one slot that is taken in the end and was not before.  Outside of this
stretch nothing changes (`displacement_local`).

Where nobody is pushed on, the state that the newcomer needs is in its neighbourhood, too.
Those whom it asks stand right before it and right behind it on the ring, and there is an
owner of every key among them that the newcomer is an owner of now
(`providers_cover_gained_keys`).
-/
import SlotRing.Proofs.Ring.Newcomer
import SlotRing.Proofs.Ring.Seating

namespace SlotRing

/-- The slots passed on the way forward from one slot to another, both of them included. -/
def OnWay (origin edge slot : Nat) : Prop :=
  slot < ringSize ∧ stepsTo origin slot ≤ stepsTo origin edge

namespace Ring

/-! ## From the natural slot on -/

section

variable {α : Type} {start origin edge : Nat} {O N : Std.ExtTreeMap Nat α}

/-- The stretch on which somebody moves can be counted from any slot before the newcomer,
if there is no free slot in between. -/
theorem Pushed.from_earlier (pushed : Pushed origin edge O N) (onRing : start < ringSize)
    (taken : ∀ t < ringSize, stepsTo start t < stepsTo start origin → O.contains t = true)
    (inside : ∀ {m : α} {p : Nat}, O[p]? = some m → p < ringSize)
    (inside' : ∀ {m : α} {p : Nat}, N[p]? = some m → p < ringSize) :
    Pushed start edge O N := by
  have beyond : stepsTo start origin ≤ stepsTo start edge := by
    by_contra near
    have held := taken edge pushed.limit (Nat.lt_of_not_le near)
    rw [pushed.untaken] at held
    exact absurd held (by decide)
  have short := stepsTo_lt start edge
  have counted {t : Nat} (ht : t < ringSize) := stepsTo_eq_of_counted onRing ht pushed.start
  have limit := counted pushed.limit
  rw [if_pos beyond] at limit
  refine ⟨onRing, pushed.limit, pushed.untaken, pushed.slots, fun {t} ht near => ?_,
    fun {m p q} hp hq => ?_⟩
  · by_cases before : stepsTo start t < stepsTo start origin
    · rw [pushed.slots, taken t ht before, Bool.or_true]
    · refine pushed.full ht ?_
      rw [counted ht, if_pos (Nat.le_of_not_lt before), limit]
      omega
  · refine (pushed.moves hp hq).imp_right fun forward => ?_
    rw [limit, counted (inside hp), counted (inside' hq)] at forward
    split_ifs at forward <;> omega

end

variable {η α : Type} [DecidableEq α]

theorem length_dedup_newcomer {ms : List α} {x : α} (absent : x ∉ ms) :
    (ms ++ [x]).dedup.length = ms.dedup.length + 1 := by
  have perm : (ms ++ [x]).dedup.Perm (x :: ms.dedup) := by
    rw [List.perm_ext_iff_of_nodup (List.nodup_dedup _)
      (List.nodup_cons.mpr ⟨mt List.mem_dedup.mp absent, List.nodup_dedup ms⟩)]
    intro m
    simp [or_comm]
  exact perm.length_eq

variable [Ord α] [Std.TransOrd α] [Std.LawfulEqOrd α] [HashWith η α]

theorem exists_ofMembers_of_dedup (hasher : η) {ms : List α} (room : ms.dedup.length ≤ ringSize) :
    ∃ r, ofMembers hasher ms = .ok r := by
  rw [← length_seats_eq hasher] at room
  exact ⟨_, if_neg (by omega)⟩

theorem exists_enters (hasher : η) {ms : List α} {x : α} (room : ms.dedup.length < ringSize)
    (absent : x ∉ ms) : ∃ old new : Ring η α, Enters hasher ms x old new := by
  have room' : (ms ++ [x]).dedup.length ≤ ringSize := by
    rw [length_dedup_newcomer absent]
    exact room
  obtain ⟨old, before⟩ := exists_ofMembers_of_dedup hasher (Nat.le_of_lt room)
  obtain ⟨new, after⟩ := exists_ofMembers_of_dedup hasher room'
  exact ⟨old, new, before, after, absent⟩

/-- A newcomer stands on the first slot from its natural one on that was free when its
turn came, and those that it pushes on stay between its natural slot and the slot that is
taken in the end. -/
theorem exists_pushed_from_natural (hasher : η) {ms : List α} {x : α}
    (room : ms.dedup.length < ringSize) (absent : x ∉ ms) :
    ∃ old new : Ring η α, ofMembers hasher ms = .ok old ∧ ofMembers hasher (ms ++ [x]) = .ok new ∧
      ∃ origin edge, new.position? x = some origin ∧
        Pushed origin edge old.positions new.positions ∧
        Pushed (naturalSlot hasher x) edge old.positions new.positions := by
  obtain ⟨old, new, before, after, -⟩ := exists_enters hasher room absent
  obtain ⟨first, rest, without, with_, edge, pushed⟩ :=
    exists_pushed_from hasher (placeable_of_ofMembers after).room absent
  have placeable := without ▸ placeable_of_ofMembers before
  have placeable' := with_ ▸ placeable_of_ofMembers after
  have positions := positions_ofMembers before
  have positions' := positions_ofMembers after
  rw [without] at positions
  rw [with_] at positions'
  rw [← positions, ← positions'] at pushed
  refine ⟨old, new, before, after, _, edge, ?_, pushed,
    pushed.from_earlier (slotOf_lt _) (fun t ht near => ?_) (onRing_ofMembers before)
      (onRing_ofMembers after)⟩
  · rw [(sound_ofMembers after).position_iff, positions']
    exact placeable'.sits
  · -- the search went over this slot, and who stood there has stayed
    have held := taken_of_stepsTo_lt_firstFree (slotOf_lt _) ht near
    obtain ⟨m, placed⟩ := Option.isSome_iff_exists.mp
      (Std.ExtTreeMap.contains_eq_isSome_getElem?.symm.trans held)
    rw [Std.ExtTreeMap.contains_eq_isSome_getElem?, positions, placeable.stays placed]
    rfl

/-! ## Who moves -/

/-- On every ring that has a free slot, an arrival takes one slot more, the `edge`.  There
is no free slot then from the natural slot of the newcomer up to the edge; who has moved
has gone forward on this stretch, and nobody has moved just when the newcomer stands on
the edge itself. -/
theorem displacement_local (hasher : η) {ms : List α} {x : α}
    (room : ms.dedup.length < ringSize) (absent : x ∉ ms) :
    ∃ old new : Ring η α, ofMembers hasher ms = .ok old ∧ ofMembers hasher (ms ++ [x]) = .ok new ∧
      ∃ edge < ringSize,
        (edge ∉ old.positions ∧
          ∀ slot, slot ∈ new.positions ↔ slot ∈ old.positions ∨ slot = edge) ∧
        (∀ slot, OnWay (naturalSlot hasher x) edge slot → slot ∈ new.positions) ∧
        (∀ m ∈ ms, ∃ p q, old.position? m = some p ∧ new.position? m = some q ∧
          (p ≠ q →
            OnWay (naturalSlot hasher x) edge p ∧ OnWay (naturalSlot hasher x) edge q ∧
              stepsTo (naturalSlot hasher x) p < stepsTo (naturalSlot hasher x) q)) ∧
        ((∀ m ∈ ms, new.position? m = old.position? m) ↔ new.position? x = some edge) := by
  obtain ⟨old, new, before, after, origin, edge, stands, pushed, wide⟩ :=
    exists_pushed_from_natural hasher room absent
  have sound := sound_ofMembers before
  have sound' := sound_ofMembers after
  have seated {m : α} (mem : m ∈ ms) : ∃ p q, old.position? m = some p ∧
      new.position? m = some q ∧ old.positions[p]? = some m ∧ new.positions[q]? = some m := by
    obtain ⟨p, hp⟩ := sound.mem_members_iff.mp ((mem_members_ofMembers before).mpr mem)
    obtain ⟨q, hq⟩ := sound'.mem_members_iff.mp
      ((mem_members_ofMembers after).mpr (List.mem_append_left [x] mem))
    exact ⟨p, q, hp, hq, (sound.position_iff m p).mp hp, (sound'.position_iff m q).mp hq⟩
  have free : edge ∉ old.positions := by
    rw [← Std.ExtTreeMap.contains_iff_mem, wide.untaken]
    decide
  have slots (slot : Nat) : slot ∈ new.positions ↔ slot ∈ old.positions ∨ slot = edge := by
    rw [← Std.ExtTreeMap.contains_iff_mem, wide.slots, Bool.or_eq_true, decide_eq_true_iff,
      Std.ExtTreeMap.contains_iff_mem, or_comm, eq_comm]
  refine ⟨old, new, before, after, edge, wide.limit, ⟨free, slots⟩, ?_, ?_, ?_⟩
  · intro slot onWay
    exact Std.ExtTreeMap.contains_iff_mem.mp (wide.full onWay.1 onWay.2)
  · intro m mem
    obtain ⟨p, q, hp, hq, stood, stays⟩ := seated mem
    refine ⟨p, q, hp, hq, fun moved => ?_⟩
    obtain ⟨forward, near⟩ := (wide.moves stood stays).resolve_left moved
    exact ⟨⟨onRing_ofMembers before stood, Nat.le_trans (Nat.le_of_lt forward) near⟩,
      ⟨onRing_ofMembers after stays, near⟩, forward⟩
  · constructor
    · -- whoever stands on the edge did not before, so it is no one but the newcomer
      intro still
      obtain ⟨m, there⟩ : ∃ m, new.positions[edge]? = some m :=
        ⟨_, Std.ExtTreeMap.getElem?_eq_some_getElem ((slots edge).mpr (.inr rfl))⟩
      rw [← sound'.position_iff] at there
      have known : m ∈ ms ∨ m = x := by
        simpa using (mem_members_ofMembers after).mp (sound'.mem_members_iff.mpr ⟨edge, there⟩)
      rcases known with mem | rfl
      · rw [still m mem, sound.position_iff] at there
        exact absurd (Std.ExtTreeMap.mem_iff_isSome_getElem?.mpr (by rw [there]; rfl)) free
      · exact there
    · intro last m mem
      rw [stands, Option.some.injEq] at last
      subst last
      obtain ⟨p, q, hp, hq, stood, stays⟩ := seated mem
      rcases pushed.moves stood stays with rfl | ⟨forward, near⟩
      · rw [hp, hq]
      · exact absurd (Nat.lt_of_lt_of_le forward near) (by simp [stepsTo_self pushed.start])

theorem displacement_local_of_pair :
    (["A", "n136"].dedup.length < ringSize ∧ "n132" ∉ ["A", "n136"]) ∧
      ∃ old new : Ring Strategy Address,
        ofMembers .sip24 ["A", "n136"] = .ok old ∧
        ofMembers .sip24 (["A", "n136"] ++ ["n132"]) = .ok new ∧
        ∃ edge < ringSize,
          (edge ∉ old.positions ∧
            ∀ slot, slot ∈ new.positions ↔ slot ∈ old.positions ∨ slot = edge) ∧
          (∀ slot, OnWay (naturalSlot Strategy.sip24 "n132") edge slot → slot ∈ new.positions) ∧
          (∀ m ∈ ["A", "n136"], ∃ p q, old.position? m = some p ∧ new.position? m = some q ∧
            (p ≠ q →
              OnWay (naturalSlot Strategy.sip24 "n132") edge p ∧
              OnWay (naturalSlot Strategy.sip24 "n132") edge q ∧
                stepsTo (naturalSlot Strategy.sip24 "n132") p <
                  stepsTo (naturalSlot Strategy.sip24 "n132") q)) ∧
          ((∀ m ∈ ["A", "n136"], new.position? m = old.position? m) ↔
            new.position? "n132" = some edge) := by
  have room : ["A", "n136"].dedup.length < ringSize := by decide
  have absent : "n132" ∉ ["A", "n136"] := by decide
  exact ⟨⟨room, absent⟩, displacement_local Strategy.sip24 room absent⟩

/-! ## Who can tell -/

variable [BEq α] [LawfulBEq α] {κ : Type} [HashWith η κ]

/-- When a newcomer finds its place without pushing anybody on, it asks an owner of every
key that it comes to own, for every number of copies. -/
theorem providers_cover_gained_keys (hasher : η) {ms : List α} {x : α} (inhabited : ms ≠ [])
    (room : ms.dedup.length < ringSize) (absent : x ∉ ms) :
    ∃ old new : Ring η α, ofMembers hasher ms = .ok old ∧ ofMembers hasher (ms ++ [x]) = .ok new ∧
      ((∀ m ∈ ms, new.position? m = old.position? m) →
        ∀ (key : κ) (count : Nat), x ∈ new.locate key count →
          ∃ p ∈ new.providers x count, p ∈ ms ∧ p ∈ old.locate key count) := by
  obtain ⟨old, before⟩ := exists_ofMembers_of_dedup hasher (Nat.le_of_lt room)
  obtain ⟨new, after⟩ : ∃ new, ofMembers hasher (ms ++ [x]) = .ok new :=
    exists_ofMembers_of_dedup hasher (by rw [length_dedup_newcomer absent]; exact room)
  refine ⟨old, new, before, after, fun stays key count gained => ?_⟩
  have grows : Grows hasher ms x old new := ⟨before, after, absent, fun mem => stays _ mem⟩
  have someone : old.members ≠ [] := by
    obtain ⟨m, mem⟩ := List.exists_mem_of_ne_nil ms inhabited
    exact List.ne_nil_of_mem ((mem_members_ofMembers before).mpr mem)
  obtain ⟨p, asked, -, owner⟩ := grows.adds.exists_provider (sound_ofMembers before)
    (sound_ofMembers after) someone gained
  exact ⟨p, asked, grows.enters.mem_of_provider asked, owner⟩

/-- The law for a newcomer "C" that moves nobody and comes to own the key "k0". -/
theorem providers_cover_gained_keys_of_trio :
    (["A", "B"] ≠ [] ∧ ["A", "B"].dedup.length < ringSize ∧ "C" ∉ ["A", "B"]) ∧
      (do
        let old ← ofMembers Strategy.sip24 ["A", "B"]
        let new ← ofMembers Strategy.sip24 (["A", "B"] ++ ["C"])
        pure (["A", "B"].map old.position?, ["A", "B"].map new.position?,
          new.locate "k0" 1, new.providers "C" 1, old.locate "k0" 1)) =
        (.ok ([some 2319, some 3927], [some 2319, some 3927], ["C"], ["A"], ["A"]) :
          Except RingFull _) ∧
      ∃ old new : Ring Strategy Address,
        ofMembers .sip24 ["A", "B"] = .ok old ∧ ofMembers .sip24 (["A", "B"] ++ ["C"]) = .ok new ∧
        ((∀ m ∈ ["A", "B"], new.position? m = old.position? m) →
          ∀ (key : String) (count : Nat), "C" ∈ new.locate key count →
            ∃ p ∈ new.providers "C" count, p ∈ ["A", "B"] ∧ p ∈ old.locate key count) := by
  have inhabited : ["A", "B"] ≠ [] := by decide
  have room : ["A", "B"].dedup.length < ringSize := by decide
  have absent : "C" ∉ ["A", "B"] := by decide
  exact ⟨⟨inhabited, room, absent⟩, by decide +kernel,
    providers_cover_gained_keys Strategy.sip24 inhabited room absent⟩

end Ring

end SlotRing
