/-
# The rule by which members are seated

A ring is built by putting its members on it one after the other.  Where they end up can
be said without the order of events: every member sits on the first slot, counted forward
from its natural one, on which nobody sits who comes before it (`ByRule`).  A rule of this
kind could have many solutions or none; this one has exactly one, the ring that is built
(`byRule_iff`), because whoever comes first has nobody to give way to, and the seat of
every other member follows from the seats before it.

A search for a free slot is bounded in `firstFree` by the number of slots.  `SearchEnds` is
the search without a bound, and it ends on the same slot every time a member is placed,
also when the ring gets full (`firstUntaken_firstFree`).
-/
import Mathlib.Data.List.Dedup
import Mathlib.Data.List.Induction
import SlotRing.Proofs.Ring.Displacement

namespace SlotRing

/-! ## Searching without a bound -/

/-- The search goes on from a taken slot to the next one, as often as it has to, and stops
on a slot that is not taken: begun on the first slot, it ends on the second. -/
inductive SearchEnds (taken : Nat → Prop) : Nat → Nat → Prop
  | stop {slot : Nat} : ¬ taken slot → SearchEnds taken slot slot
  | onward {slot found : Nat} : taken slot →
      SearchEnds taken ((slot + 1) % ringSize) found → SearchEnds taken slot found

/-- The second slot is the first one that is not taken, counted forward from the first
slot round the ring. -/
def FirstUntaken (taken : Nat → Prop) (slot found : Nat) : Prop :=
  ∃ j, found = (slot + j) % ringSize ∧ ¬ taken found ∧ ∀ i < j, taken ((slot + i) % ringSize)

namespace FirstUntaken

variable {taken taken' : Nat → Prop} {slot found found' : Nat}

theorem congr (same : ∀ s, taken s ↔ taken' s) (first : FirstUntaken taken slot found) :
    FirstUntaken taken' slot found := by
  obtain ⟨j, at_, free, before⟩ := first
  exact ⟨j, at_, fun h => free ((same _).mpr h), fun i hi => (same _).mp (before i hi)⟩

theorem unique (first : FirstUntaken taken slot found) (first' : FirstUntaken taken slot found') :
    found = found' := by
  obtain ⟨j, rfl, free, before⟩ := first
  obtain ⟨j', rfl, free', before'⟩ := first'
  rcases Nat.lt_trichotomy j j' with less | rfl | more
  · exact absurd (before' j less) free
  · rfl
  · exact absurd (before j' more) free'

theorem searchEnds (first : FirstUntaken taken slot found) (onRing : slot < ringSize) :
    SearchEnds taken slot found := by
  obtain ⟨j, at_, free, before⟩ := first
  induction j generalizing slot with
  | zero =>
    rw [Nat.add_zero, Nat.mod_eq_of_lt onRing] at at_
    subst at_
    exact .stop free
  | succ j ih =>
    have next (i : Nat) : ((slot + 1) % ringSize + i) % ringSize = (slot + (i + 1)) % ringSize := by
      rw [Nat.mod_add_mod, Nat.add_assoc, Nat.add_comm 1 i]
    refine .onward ?_ (ih (Nat.mod_lt _ (by decide)) ?_ ?_)
    · simpa [Nat.mod_eq_of_lt onRing] using before 0 (Nat.succ_pos j)
    · rw [next, at_]
    · intro i hi
      rw [next]
      exact before (i + 1) (Nat.succ_lt_succ hi)

end FirstUntaken

theorem firstUntaken_firstFree {taken : Nat → Bool} {slot free : Nat} (onRing : slot < ringSize)
    (hfree : free < ringSize) (isFree : taken free = false) :
    FirstUntaken (taken · = true) slot (firstFree taken ringSize slot) := by
  obtain ⟨j, -, found, before, -⟩ := firstFree_eq_add taken ringSize slot onRing
  refine ⟨j, found, ?_, before⟩
  simp [firstFree_free onRing hfree isFree]

namespace Ring

/-! ## One member after the other -/

section

variable {α : Type} {seats first rest : List (Nat × α)} {seat : Nat × α}

/-- Members that can be placed one after the other: their natural slots are on the ring,
none comes twice, and there are not more of them than slots. -/
structure Placeable (seats : List (Nat × α)) : Prop where
  onRing : ∀ seat ∈ seats, seat.1 < ringSize
  distinct : (seats.map Prod.snd).Nodup
  room : seats.length ≤ ringSize

namespace Placeable

theorem of_append (placeable : Placeable (first ++ rest)) : Placeable first where
  onRing seat h := placeable.onRing seat (List.mem_append_left _ h)
  distinct := placeable.distinct.sublist ((List.sublist_append_left first rest).map _)
  room := by
    have room := placeable.room
    rw [List.length_append] at room
    omega

theorem seated (placeable : Placeable seats) :
    Seated (seats.foldl place ∅) (seats.map Prod.snd).reverse := by
  have seated := Seated.nil.foldl_place seats placeable.onRing placeable.distinct
    (fun _ _ => List.not_mem_nil) (by simpa using placeable.room)
  rwa [List.append_nil] at seated

theorem exists_free (placeable : Placeable (first ++ seat :: rest)) :
    ∃ free < ringSize, (first.foldl place ∅).contains free = false := by
  have room := placeable.room
  rw [List.length_append, List.length_cons] at room
  refine placeable.of_append.seated.exists_free ?_
  rw [List.length_reverse, List.length_map]
  omega

theorem firstUntaken (placeable : Placeable (first ++ seat :: rest)) :
    FirstUntaken (· ∈ first.foldl place ∅) seat.1
      (firstFree (first.foldl place ∅).contains ringSize seat.1) := by
  obtain ⟨free, hfree, isFree⟩ := placeable.exists_free
  have onRing := placeable.onRing seat (List.mem_append_right _ List.mem_cons_self)
  exact (firstUntaken_firstFree onRing hfree isFree).congr
    fun _ => Std.ExtTreeMap.contains_iff_mem

theorem stays (placeable : Placeable (first ++ rest)) {slot : Nat} {m : α}
    (placed : (first.foldl place ∅)[slot]? = some m) :
    ((first ++ rest).foldl place ∅)[slot]? = some m := by
  induction rest generalizing first with
  | nil => rwa [List.append_nil]
  | cons seat rest ih =>
    have cut : first ++ seat :: rest = (first ++ [seat]) ++ rest := by simp
    rw [cut]
    refine ih (cut ▸ placeable) ?_
    obtain ⟨free, hfree, isFree⟩ := placeable.exists_free
    have onRing := placeable.onRing seat (List.mem_append_right _ List.mem_cons_self)
    have untaken := firstFree_free onRing hfree isFree
    rw [List.foldl_append, List.foldl_cons, List.foldl_nil, getElem?_place, if_neg, placed]
    rintro rfl
    rw [Std.ExtTreeMap.contains_eq_isSome_getElem?, placed] at untaken
    cases untaken

theorem sits (placeable : Placeable (first ++ seat :: rest)) :
    ((first ++ seat :: rest).foldl place ∅)[
      firstFree (first.foldl place ∅).contains ringSize seat.1]? = some seat.2 := by
  have cut : first ++ seat :: rest = (first ++ [seat]) ++ rest := by simp
  rw [cut] at placeable ⊢
  refine placeable.stays ?_
  rw [List.foldl_append, List.foldl_cons, List.foldl_nil, getElem?_place, if_pos rfl]

/-- The slots that are taken when a member is placed are those on which the members
before it sit in the end. -/
theorem mem_foldl_place_iff (placeable : Placeable (first ++ rest)) {slot : Nat} :
    slot ∈ first.foldl place ∅ ↔
      ∃ a ∈ first.map Prod.snd, ((first ++ rest).foldl place ∅)[slot]? = some a := by
  have seated := placeable.of_append.seated
  constructor
  · intro taken
    obtain ⟨a, ha⟩ : ∃ a, (first.foldl place ∅)[slot]? = some a :=
      ⟨_, Std.ExtTreeMap.getElem?_eq_some_getElem taken⟩
    exact ⟨a, List.mem_reverse.mp (seated.onRing ha).2, placeable.stays ha⟩
  · rintro ⟨a, mem, sits⟩
    obtain ⟨slot', ha⟩ := seated.seat (List.mem_reverse.mpr mem)
    rw [placeable.seated.once sits (placeable.stays ha), Std.ExtTreeMap.mem_iff_isSome_getElem?, ha]
    rfl

end Placeable

end

/-! ## The rule -/

variable {η α : Type} [Ord α] [HashWith η α]

/-- Whether `a` comes before `b`: by natural slot, and by member on one slot. -/
def Precedes (hasher : η) (a b : α) : Prop :=
  naturalSlot hasher a < naturalSlot hasher b ∨
    naturalSlot hasher a = naturalSlot hasher b ∧ compare a b = .lt

/-- Each of the members sits on the first slot, counted forward from its natural one, on
which none of those sits that come before it. -/
def ByRule (hasher : η) (ms : List α) (sits : α → Nat) : Prop :=
  ∀ m ∈ ms, FirstUntaken (fun slot => ∃ a ∈ ms, Precedes hasher a m ∧ sits a = slot)
    (naturalSlot hasher m) (sits m)

theorem precedes_iff {hasher : η} {a b : α} :
    Precedes hasher a b ↔ seatOrder (naturalSlot hasher a, a) (naturalSlot hasher b, b) = .lt := by
  simp [Precedes, seatOrder, compareLex, compareOn, Ordering.then_eq_lt, Nat.compare_eq_lt]

variable [Std.TransOrd α] {hasher : η} {ms : List α} {r : Ring η α}

theorem positions_ofMembers (built : ofMembers hasher ms = .ok r) :
    r.positions = (seats hasher ms).foldl place ∅ := by
  simp only [ofMembers] at built
  split at built
  · cases built
  · cases built
    rfl

variable [Std.LawfulEqOrd α]

theorem placeable_seats (room : (seats hasher ms).length ≤ ringSize) :
    Placeable (seats hasher ms) where
  onRing seat h := by
    rw [(mem_seats.mp h).2]
    exact slotOf_lt _
  distinct := nodup_seats hasher ms
  room := room

theorem mem_first_iff {first rest : List (Nat × α)} {seat : Nat × α}
    (cut : seats hasher ms = first ++ seat :: rest) (a : α) :
    a ∈ first.map Prod.snd ↔ a ∈ ms ∧ Precedes hasher a seat.2 := by
  have sorted : (seats hasher ms).Pairwise (seatOrder · · = .lt) := Std.ExtTreeSet.ordered_toList
  rw [cut, List.pairwise_append, List.pairwise_cons] at sorted
  obtain ⟨-, ⟨above, -⟩, below⟩ := sorted
  have natural {e : Nat × α} (h : e ∈ first ++ seat :: rest) :
      e.2 ∈ ms ∧ e = (naturalSlot hasher e.2, e.2) := by
    rw [← cut] at h
    exact ⟨(mem_seats.mp h).1, Prod.ext (mem_seats.mp h).2 rfl⟩
  have self := (natural (List.mem_append_right _ List.mem_cons_self)).2
  rw [precedes_iff, ← self]
  constructor
  · intro mem
    obtain ⟨e, he, rfl⟩ := List.mem_map.mp mem
    obtain ⟨known, eq⟩ := natural (List.mem_append_left _ he)
    exact ⟨known, eq ▸ below e he seat List.mem_cons_self⟩
  · rintro ⟨mem, lt⟩
    have listed : (naturalSlot hasher a, a) ∈ first ++ seat :: rest := by
      rw [← cut]
      exact mem_seats.mpr ⟨mem, rfl⟩
    rw [List.mem_append, List.mem_cons] at listed
    rcases listed with before | rfl | after
    · exact List.mem_map.mpr ⟨_, before, rfl⟩
    · exact absurd lt (Std.OrientedCmp.not_lt_of_lt lt)
    · exact absurd lt (Std.OrientedCmp.not_lt_of_lt (above _ after))

section Built

variable (built : ofMembers hasher ms = .ok r)
include built

theorem placeable_of_ofMembers : Placeable (seats hasher ms) := by
  refine placeable_seats (Nat.le_of_not_lt fun full => ?_)
  rw [ofMembers, if_pos full] at built
  cases built

/-- The seat of a member is the first slot on which none sits of those before it. -/
theorem firstUntaken_of_position {first rest : List (Nat × α)} {seat : Nat × α}
    (cut : seats hasher ms = first ++ seat :: rest) :
    ∃ slot, r.position? seat.2 = some slot ∧
      FirstUntaken (fun s => ∃ a ∈ ms, Precedes hasher a seat.2 ∧ r.position? a = some s)
        (naturalSlot hasher seat.2) slot := by
  have placeable := placeable_of_ofMembers built
  have positions := positions_ofMembers built
  have sound := sound_ofMembers built
  rw [cut] at placeable positions
  have natural : seat.1 = naturalSlot hasher seat.2 :=
    (mem_seats.mp (show seat ∈ seats hasher ms by rw [cut]; simp)).2
  refine ⟨_, (sound.position_iff _ _).mpr (positions ▸ placeable.sits), ?_⟩
  rw [← natural]
  refine placeable.firstUntaken.congr fun s => ?_
  rw [placeable.mem_foldl_place_iff]
  constructor
  · rintro ⟨a, mem, sits⟩
    obtain ⟨known, before⟩ := (mem_first_iff cut a).mp mem
    exact ⟨a, known, before, (sound.position_iff a s).mpr (positions ▸ sits)⟩
  · rintro ⟨a, known, before, sits⟩
    exact ⟨a, (mem_first_iff cut a).mpr ⟨known, before⟩,
      positions ▸ (sound.position_iff a s).mp sits⟩

/-- The rule has exactly one solution: the slots that the members have on the ring. -/
theorem byRule_iff (sits : α → Nat) :
    ByRule hasher ms sits ↔ ∀ m ∈ ms, r.position? m = some (sits m) := by
  -- where those before a member sit as on the ring, the rule gives it its seat on the ring
  have step {first rest : List (Nat × α)} {seat : Nat × α}
      (cut : seats hasher ms = first ++ seat :: rest)
      (agree : ∀ a ∈ first.map Prod.snd, r.position? a = some (sits a)) :
      FirstUntaken (fun s => ∃ a ∈ ms, Precedes hasher a seat.2 ∧ sits a = s)
        (naturalSlot hasher seat.2) (sits seat.2) ↔ r.position? seat.2 = some (sits seat.2) := by
    obtain ⟨slot, found, seated⟩ := firstUntaken_of_position built cut
    have seated : FirstUntaken (fun s => ∃ a ∈ ms, Precedes hasher a seat.2 ∧ sits a = s)
        (naturalSlot hasher seat.2) slot := by
      refine seated.congr fun s => exists_congr fun a => and_congr_right fun known =>
        and_congr_right fun before => ?_
      rw [agree a ((mem_first_iff cut a).mpr ⟨known, before⟩), Option.some.injEq]
    rw [found, Option.some.injEq]
    constructor
    · intro rule
      exact seated.unique rule
    · rintro rfl
      exact seated
  have listed {m : α} (mem : m ∈ ms) : (naturalSlot hasher m, m) ∈ seats hasher ms :=
    mem_seats.mpr ⟨mem, rfl⟩
  constructor
  · intro rule
    have agree : ∀ first rest, seats hasher ms = first ++ rest →
        ∀ a ∈ first.map Prod.snd, r.position? a = some (sits a) := by
      intro first
      induction first using List.reverseRecOn with
      | nil =>
        intro rest _ a mem
        cases mem
      | append_singleton first seat ih =>
        intro rest cut a mem
        rw [List.append_assoc, List.singleton_append] at cut
        have before := ih _ cut
        rw [List.map_append, List.mem_append, List.map_singleton, List.mem_singleton] at mem
        rcases mem with mem | rfl
        · exact before a mem
        · have known : seat.2 ∈ ms :=
            (mem_seats.mp (show seat ∈ seats hasher ms by rw [cut]; simp)).1
          exact (step cut before).mp (rule _ known)
    intro m mem
    exact agree _ [] (List.append_nil _).symm m (List.mem_map.mpr ⟨_, listed mem, rfl⟩)
  · intro agree m mem
    obtain ⟨first, rest, cut⟩ := List.append_of_mem (listed mem)
    refine (step cut fun a before => ?_).mpr (agree m mem)
    exact agree a ((mem_first_iff cut a).mp before).1

end Built

/-! ## The ring that is built -/

/-- The members and the slots that they sit on determine each other: every member sits on
one slot of the ring, on every taken slot sits one member, and there are as many of the
ones as of the others. -/
structure OneToOne [DecidableEq α] (r : Ring η α) (ms : List α) : Prop where
  inverse (slot : Nat) (m : α) : r.positions[slot]? = some m ↔ r.memberPositions[m]? = some slot
  seated (m : α) : m ∈ r.memberPositions ↔ m ∈ ms
  onRing {slot : Nat} : slot ∈ r.positions → slot < ringSize
  slots : r.positions.size = ms.dedup.length
  members : r.memberPositions.size = ms.dedup.length

/-- The members are listed once each, in the ascending order of their slots. -/
structure InOrder (r : Ring η α) (ms : List α) : Prop where
  once : r.members.Nodup
  listed (m : α) : m ∈ r.members ↔ m ∈ ms
  ascend : r.members.Pairwise fun a b =>
    ∃ s t, r.position? a = some s ∧ r.position? b = some t ∧ s < t

section

variable [DecidableEq α]

theorem length_seats_eq (hasher : η) (ms : List α) :
    (seats hasher ms).length = ms.dedup.length := by
  have perm : ((seats hasher ms).map Prod.snd).Perm ms.dedup := by
    rw [List.perm_ext_iff_of_nodup (nodup_seats hasher ms) ms.nodup_dedup]
    intro m
    rw [List.mem_dedup, List.mem_map]
    constructor
    · rintro ⟨seat, mem, rfl⟩
      exact (mem_seats.mp mem).1
    · intro mem
      exact ⟨(naturalSlot hasher m, m), mem_seats.mpr ⟨mem, rfl⟩, rfl⟩
  rw [← perm.length_eq, List.length_map]

theorem oneToOne_ofMembers (built : ofMembers hasher ms = .ok r) : r.OneToOne ms := by
  have sound := sound_ofMembers built
  have seated := (seated_ofMembers built).2
  have known (m : α) : m ∈ r.memberPositions ↔ m ∈ ms := by
    rw [← Std.ExtTreeMap.contains_iff_mem]
    exact contains_ofMembers built
  refine ⟨fun slot m => (sound.position_iff m slot).symm, known, ?_, ?_, ?_⟩
  · intro slot taken
    exact onRing_ofMembers built (Std.ExtTreeMap.getElem?_eq_some_getElem taken)
  · rw [seated.size, List.length_reverse, List.length_map, length_seats_eq]
  · have perm : r.memberPositions.keys.Perm ms.dedup := by
      rw [List.perm_ext_iff_of_nodup (nodup_keys _) ms.nodup_dedup]
      intro m
      rw [Std.ExtTreeMap.mem_keys, known, List.mem_dedup]
    rw [← Std.ExtTreeMap.length_keys, perm.length_eq]

omit [DecidableEq α] in
theorem inOrder_ofMembers (built : ofMembers hasher ms = .ok r) : r.InOrder ms := by
  have sound := sound_ofMembers built
  refine ⟨sound.nodup_members, fun m => mem_members_ofMembers built, ?_⟩
  rw [sound.members_eq, List.pairwise_map]
  refine (places_ascend r).imp_of_mem fun {a b} ha hb lt => ?_
  exact ⟨a.1, b.1, (sound.position_iff _ _).mpr (mem_places_iff.mp ha),
    (sound.position_iff _ _).mpr (mem_places_iff.mp hb), lt⟩

/-- More distinct members than slots are refused, and nothing else is.  Every other set of
members gets a ring: each search for a free slot ends, members and slots are one to one,
and the slots are those that the rule gives, which has no other solution.  So the ring
depends on the set of members only. -/
theorem ofMembers_by_rule (hasher : η) (ms : List α) :
    (∀ count, ofMembers hasher ms = .error ⟨count⟩ ↔
        ringSize < ms.dedup.length ∧ count = ms.dedup.length) ∧
      (ms.dedup.length ≤ ringSize →
        (∀ first seat rest, seats hasher ms = first ++ seat :: rest →
          ∃ slot, SearchEnds (· ∈ first.foldl place ∅) seat.1 slot ∧
            place (first.foldl place ∅) seat = (first.foldl place ∅).insert slot seat.2) ∧
        ∃ r, ofMembers hasher ms = .ok r ∧ r.OneToOne ms ∧ r.InOrder ms ∧
          ∃ sits, ByRule hasher ms sits ∧ (∀ m ∈ ms, r.position? m = some (sits m)) ∧
            ∀ sits', ByRule hasher ms sits' → ∀ m ∈ ms, sits' m = sits m) ∧
      ∀ ms', (∀ m, m ∈ ms ↔ m ∈ ms') → ofMembers hasher ms = ofMembers hasher ms' := by
  have length := length_seats_eq hasher ms
  refine ⟨fun count => ?_, fun room => ⟨?_, ?_⟩, fun ms' same => ofMembers_congr hasher same⟩
  · rw [← length, ofMembers]
    constructor
    · intro refused
      split at refused
      · next full =>
        cases refused
        exact ⟨full, rfl⟩
      · cases refused
    · rintro ⟨full, rfl⟩
      exact if_pos full
  · intro first seat rest cut
    have placeable := placeable_seats (length ▸ room)
    rw [cut] at placeable
    exact ⟨_, placeable.firstUntaken.searchEnds
      (placeable.onRing seat (List.mem_append_right _ List.mem_cons_self)), rfl⟩
  · obtain ⟨r, built⟩ : ∃ r, ofMembers hasher ms = .ok r := ⟨_, if_neg (by omega)⟩
    have position : ∀ m ∈ ms, r.position? m = some ((r.position? m).getD 0) := by
      intro m mem
      obtain ⟨slot, found⟩ :=
        (sound_ofMembers built).mem_members_iff.mp ((mem_members_ofMembers built).mpr mem)
      rw [found, Option.getD_some]
    refine ⟨r, built, oneToOne_ofMembers built, inOrder_ofMembers built,
      fun m => (r.position? m).getD 0, (byRule_iff built _).mpr position, position, ?_⟩
    intro sits' rule m mem
    have found := (byRule_iff built sits').mp rule m mem
    show sits' m = (r.position? m).getD 0
    rw [found, Option.getD_some]

/-- Two members that want one slot, and a third one that comes twice. -/
theorem ofMembers_by_rule_of_collision :
    ((ofMembers Strategy.sip24 ["n136", "A", "n132", "A"]).toOption.map fun r =>
        (r.members, ["A", "n132", "n136"].map r.position?)) =
      some (["A", "n132", "n136"], [some 2319, some 6404, some 6405]) ∧
    (∀ count, ofMembers Strategy.sip24 ["n136", "A", "n132", "A"] = .error ⟨count⟩ ↔
        ringSize < ["n136", "A", "n132", "A"].dedup.length ∧
          count = ["n136", "A", "n132", "A"].dedup.length) ∧
      (["n136", "A", "n132", "A"].dedup.length ≤ ringSize →
        (∀ first seat rest,
          seats Strategy.sip24 ["n136", "A", "n132", "A"] = first ++ seat :: rest →
          ∃ slot, SearchEnds (· ∈ first.foldl place ∅) seat.1 slot ∧
            place (first.foldl place ∅) seat = (first.foldl place ∅).insert slot seat.2) ∧
        ∃ r, ofMembers Strategy.sip24 ["n136", "A", "n132", "A"] = .ok r ∧
          r.OneToOne ["n136", "A", "n132", "A"] ∧ r.InOrder ["n136", "A", "n132", "A"] ∧
          ∃ sits, ByRule Strategy.sip24 ["n136", "A", "n132", "A"] sits ∧
            (∀ m ∈ ["n136", "A", "n132", "A"], r.position? m = some (sits m)) ∧
            ∀ sits', ByRule Strategy.sip24 ["n136", "A", "n132", "A"] sits' →
              ∀ m ∈ ["n136", "A", "n132", "A"], sits' m = sits m) ∧
      ∀ ms', (∀ m, m ∈ ["n136", "A", "n132", "A"] ↔ m ∈ ms') →
        ofMembers Strategy.sip24 ["n136", "A", "n132", "A"] = ofMembers Strategy.sip24 ms' := by
  exact ⟨by decide +kernel, ofMembers_by_rule Strategy.sip24 ["n136", "A", "n132", "A"]⟩

end

end Ring

end SlotRing
