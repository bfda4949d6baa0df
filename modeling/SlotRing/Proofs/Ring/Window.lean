/-
# The window of providers

Cut open at a member, the ring is that member and then the others in the order in which they
are met (`CutAt`).  The providers are the last of the others and the first of them, and in
the member list, closed to a circle, these stand in a window around the member: those right
before it, one fewer than there are copies, and the one right after it
(`providers_windowed`).

That window can be read off the member list by indices alone.  On every ring, also on one
whose parts do not agree, this comes to the same list, and on the way nothing is subtracted
from less and no index lies outside of the list (`providersChecked?_eq`).
-/
import Mathlib.Data.List.Rotate
import Mathlib.Data.Nat.PSub
import SlotRing.Proofs.Ring.Newcomer

namespace SlotRing.Ring

/-! ## Lists without repetitions -/

section

variable {α : Type}

theorem head_mem_drop_iff {a : α} {l : List α} (distinct : (a :: l).Nodup) {k : Nat} :
    a ∈ (a :: l).drop k ↔ k = 0 := by
  cases k with
  | zero => simp
  | succ k =>
    have absent : a ∉ l.drop k := fun h =>
      (List.nodup_cons.mp distinct).1 (List.mem_of_mem_drop h)
    simp [absent]

variable [BEq α] [LawfulBEq α]

theorem eraseDups_eq_self {l : List α} (distinct : l.Nodup) : l.eraseDups = l := by
  induction l with
  | nil => rfl
  | cons a l ih =>
    obtain ⟨new, distinct⟩ := List.nodup_cons.mp distinct
    have others : l.filter (fun b => !b == a) = l := by
      rw [List.filter_eq_self]
      intro b mem
      simpa using fun same : b = a => new (same ▸ mem)
    rw [List.eraseDups_cons, others, ih distinct]

theorem eraseDups_concat (l : List α) (a : α) :
    (l ++ [a]).eraseDups = if l.eraseDups.contains a then l.eraseDups else l.eraseDups ++ [a] := by
  have known : l.eraseDups.contains a = l.contains a := by
    rw [Bool.eq_iff_iff, List.contains_iff_mem, List.contains_iff_mem, List.mem_eraseDups]
  rw [List.eraseDups_append, List.cons_removeAll, known]
  cases l.contains a <;> simp [List.eraseDups_cons]

end

variable {η α : Type} [Ord α]

/-! ## Members by their indices -/

/-- The member at an index that is counted round the ring, in both directions. -/
def memberAt? (r : Ring η α) (index : Int) : Option α := r.members[(index % r.size).toNat]?

section

variable {r : Ring η α}

theorem memberAt?_natCast (n : Nat) : r.memberAt? n = r.members[n % r.size]? := by
  rw [memberAt?, ← Int.natCast_emod, Int.toNat_natCast]

theorem memberAt?_add_size (index : Int) : r.memberAt? (index + r.size) = r.memberAt? index := by
  rw [memberAt?, memberAt?, Int.add_emod_right]

end

/-- The number of members before one that own keys with it when `count` copies are kept; none
do when there are no copies. -/
def reach (r : Ring η α) (count : Nat) : Nat := min count r.size - 1

/-- The member so many places before an index, by a subtraction that has no result where it
would fall below zero, and with no result outside of the member list. -/
def before? (r : Ring η α) (index back : Nat) : Option α := do
  r.members[(← (index + r.size).psub back) % r.size]?

/-- Puts the members before an index behind those listed, the farthest first and nobody
twice. -/
def listBefore? [BEq α] (r : Ring η α) (index : Nat) : (back : Nat) → List α → Option (List α)
  | 0, listed => some listed
  | back + 1, listed => do
    let m ← r.before? index (back + 1)
    r.listBefore? index back (if listed.contains m then listed else listed ++ [m])

/-- As `providers`, by indices that have no result where they would fall below zero or lie
outside of the member list. -/
def providersChecked? [BEq α] (r : Ring η α) (m : α) (count : Nat) : Option (List α) :=
  match r.members.findIdx? (· == m) with
  | none => some []
  | some i => do
    let before ← r.listBefore? i (r.reach count) []
    let next ← r.members[(i + 1) % r.size]?
    return if next == m || before.contains next then before else before ++ [next]

/-- The providers of a member are found in a window around it, on the member list closed to
a circle. -/
structure Windowed [BEq α] (r : Ring η α) : Prop where
  /-- First come those before the member, the farthest first, and then the next one.  It is
  left out if it is the member itself or listed already, and that is so on a ring of one
  member, or when there are at least as many copies as members. -/
  window {m : α} {i : Nat} (count : Nat) : r.members[i]? = some m →
    ∃ before next,
      before.map some =
        (List.range (r.reach count)).map (fun k : Nat => r.memberAt? (i - r.reach count + k)) ∧
      r.memberAt? (i + 1) = some next ∧
      (next = m ∨ next ∈ before ↔ r.size = 1 ∨ r.size ≤ count) ∧
      r.providers m count = if r.size = 1 ∨ r.size ≤ count then before else before ++ [next]
  distinct (m : α) (count : Nat) : (r.providers m count).Nodup
  not_self (m : α) (count : Nat) : m ∉ r.providers m count
  length {m : α} (count : Nat) : m ∈ r.members →
    (r.providers m count).length = min (max count 1) (r.size - 1)
  unknown {m : α} (count : Nat) : m ∉ r.members → r.providers m count = []
  /-- Nothing is subtracted from less, and no index lies outside of the member list. -/
  checked (m : α) (count : Nat) : r.providersChecked? m count = some (r.providers m count)

/-! ## The ring cut open -/

/-- Cut open at a member, the ring is that member and then the others in the order in which
they are met. -/
structure CutAt [BEq α] (r : Ring η α) (m : α) (i : Nat) (others : List α) : Prop where
  found : r.members.findIdx? (· == m) = some i
  others_eq : r.others? m = some others
  turned : r.members.rotate i = m :: others

section

variable [BEq α] {r : Ring η α} {m : α} {i count : Nat} {others : List α}

namespace CutAt

variable (cut : CutAt r m i others)
include cut

theorem size_eq : r.size = others.length + 1 := by
  rw [size, ← List.length_rotate r.members i, cut.turned, List.length_cons]

theorem reach_le : r.reach count ≤ others.length := by
  rw [reach, cut.size_eq]
  omega

theorem getElem?_others {k : Nat} (met : k < others.length) :
    others[k]? = r.members[(i + (k + 1)) % r.size]? := by
  have size := cut.size_eq
  have turned : (r.members.rotate i)[k + 1]? = r.members[(k + 1 + i) % r.size]? :=
    List.getElem?_rotate (by rw [← Ring.size]; omega)
  rwa [cut.turned, List.getElem?_cons_succ, Nat.add_comm] at turned

theorem before?_eq {back : Nat} (away : 0 < back) (few : back ≤ others.length) :
    r.before? i back = others[others.length - back]? := by
  have size := cut.size_eq
  have same : i + r.size - back = i + (others.length - back + 1) := by omega
  rw [before?, Nat.psub_eq_sub (by omega), cut.getElem?_others (by omega), ← same]
  rfl

theorem map_some_drop : (others.drop (others.length - r.reach count)).map some =
    (List.range (r.reach count)).map (fun k : Nat => r.memberAt? (i - r.reach count + k)) := by
  have size := cut.size_eq
  have few : r.reach count ≤ others.length := cut.reach_le
  refine List.ext_getElem (by simp; omega) ?_
  intro k inside within
  rw [List.length_map, List.length_range] at within
  -- once round the ring, the index is a number of steps from the member on
  have round : ((i : Int) - r.reach count + k) + r.size =
      (i + (others.length - r.reach count + k + 1) : Nat) := by omega
  rw [List.getElem_map, ← List.getElem?_eq_getElem, List.getElem?_drop,
    cut.getElem?_others (by omega), List.getElem_map, List.getElem_range, ← memberAt?_add_size,
    round, memberAt?_natCast]

variable (distinct : r.members.Nodup)
include distinct

theorem nodup : (m :: others).Nodup := by
  rw [← cut.turned, List.nodup_rotate]
  exact distinct

theorem left_out_iff {next : α} (first : others.head?.getD m = next) :
    next = m ∨ next ∈ others.drop (others.length - r.reach count) ↔
      r.size = 1 ∨ r.size ≤ count := by
  have size := cut.size_eq
  have once := cut.nodup distinct
  cases others with
  | nil =>
    subst first
    simp [size]
  | cons a rest =>
    -- it is listed before only if no others are left out
    obtain rfl : a = next := first
    obtain ⟨absent, once⟩ := List.nodup_cons.mp once
    have other : a ≠ m := fun same => absent (same ▸ List.mem_cons_self)
    rw [List.length_cons] at size
    rw [or_iff_right other, head_mem_drop_iff once, reach, List.length_cons]
    omega

end CutAt

variable [LawfulBEq α]

theorem exists_cutAt (found : r.members.findIdx? (· == m) = some i) :
    ∃ others, CutAt r m i others := by
  obtain ⟨inside, same, -⟩ := List.findIdx?_eq_some_iff_getElem.mp found
  refine ⟨r.members.drop (i + 1) ++ r.members.take i, found, by rw [others?, found]; rfl, ?_⟩
  rw [List.rotate_eq_drop_append_take (Nat.le_of_lt inside), ← List.getElem_cons_drop inside,
    beq_iff_eq.mp same, List.cons_append]

theorem exists_cutAt_of_getElem? (distinct : r.members.Nodup) (listed : r.members[i]? = some m) :
    ∃ others, CutAt r m i others :=
  exists_cutAt (findIdx?_of_nodup distinct listed)

theorem findIdx?_eq_none_of_not_mem (absent : m ∉ r.members) :
    r.members.findIdx? (· == m) = none := by
  rw [List.findIdx?_eq_none_iff]
  intro a mem
  simpa using fun same : a = m => absent (same ▸ mem)

namespace CutAt

variable (cut : CutAt r m i others)
include cut

/-- The one right after the member comes first of the others, and on a ring of one member it
is that member. -/
theorem getElem?_next : r.members[(i + 1) % r.size]? = some (others.head?.getD m) := by
  have size := cut.size_eq
  cases others with
  | nil =>
    obtain ⟨inside, same, -⟩ := List.findIdx?_eq_some_iff_getElem.mp cut.found
    have only : r.members.length = 1 := size
    obtain rfl : i = 0 := by omega
    rw [size, List.length_nil, Nat.zero_add, Nat.mod_one, List.getElem?_eq_getElem inside,
      beq_iff_eq.mp same]
    rfl
  | cons next rest =>
    rw [← cut.getElem?_others (k := 0) (Nat.succ_pos _)]
    rfl

theorem listBefore?_eq {back : Nat} (few : back ≤ others.length) (seen : List α) :
    r.listBefore? i back seen.eraseDups =
      some (seen ++ others.drop (others.length - back)).eraseDups := by
  induction back generalizing seen with
  | zero => simp [listBefore?]
  | succ back ih =>
    -- the one that is met now is the first of those still to be listed
    have met : others.length - (back + 1) < others.length := by omega
    have later : others.length - (back + 1) + 1 = others.length - back := by omega
    rw [listBefore?, cut.before?_eq (Nat.succ_pos _) few, List.getElem?_eq_getElem met,
      List.drop_eq_getElem_cons met, later, List.append_cons, ← ih (by omega), eraseDups_concat]
    rfl

/-- The providers are the last of the others, and the first of them unless it is listed. -/
theorem providers_eq {next : α} (first : others.head?.getD m = next) :
    r.providers m count =
      if next == m || (others.drop (others.length - r.reach count)).eraseDups.contains next
      then (others.drop (others.length - r.reach count)).eraseDups
      else (others.drop (others.length - r.reach count)).eraseDups ++ [next] := by
  subst first
  rw [providers, cut.others_eq]
  cases others with
  | nil => simp
  | cons next rest => rfl

variable (distinct : r.members.Nodup)
include distinct

theorem providers_eq_of_nodup {next : α} (first : others.head?.getD m = next) :
    r.providers m count =
      if r.size = 1 ∨ r.size ≤ count then others.drop (others.length - r.reach count)
      else others.drop (others.length - r.reach count) ++ [next] := by
  have once := (List.nodup_cons.mp (cut.nodup distinct)).2
  rw [cut.providers_eq first, eraseDups_eq_self (once.sublist (List.drop_sublist _ _))]
  refine if_congr ?_ rfl rfl
  rw [Bool.or_eq_true, beq_iff_eq, List.contains_iff_mem, cut.left_out_iff distinct first]

theorem length_providers : (r.providers m count).length = min (max count 1) (r.size - 1) := by
  have size := cut.size_eq
  rw [cut.providers_eq_of_nodup distinct rfl, reach]
  split <;> simp <;> omega

end CutAt

theorem providersChecked?_eq (r : Ring η α) (m : α) (count : Nat) :
    r.providersChecked? m count = some (r.providers m count) := by
  cases found : r.members.findIdx? (· == m) with
  | none => simp [providersChecked?, providers, others?, found]
  | some i =>
    obtain ⟨others, cut⟩ := exists_cutAt found
    have before : r.listBefore? i (r.reach count) [] =
        some (others.drop (others.length - r.reach count)).eraseDups :=
      cut.listBefore?_eq cut.reach_le []
    simp [providersChecked?, found, before, cut.getElem?_next, cut.providers_eq rfl]

end

/-! ## The ring of a set -/

/-- On the ring of any set of members, whoever is asked stands in the window around the one
that asks. -/
theorem providers_windowed [Std.TransOrd α] [Std.LawfulEqOrd α] [BEq α] [LawfulBEq α]
    [HashWith η α] {hasher : η} {ms : List α} {r : Ring η α}
    (built : ofMembers hasher ms = .ok r) : r.Windowed := by
  have distinct := (sound_ofMembers built).nodup_members
  constructor
  case window =>
    intro m i count listed
    obtain ⟨others, cut⟩ := exists_cutAt_of_getElem? distinct listed
    refine ⟨_, _, cut.map_some_drop, ?_, cut.left_out_iff distinct rfl,
      cut.providers_eq_of_nodup distinct rfl⟩
    rw [← Int.natCast_succ, memberAt?_natCast]
    exact cut.getElem?_next
  case distinct => exact nodup_providers r
  case not_self =>
    intro m count asked
    exact (mem_providers distinct asked).2 rfl
  case length =>
    intro m count mem
    obtain ⟨i, listed⟩ := List.mem_iff_getElem?.mp mem
    obtain ⟨others, cut⟩ := exists_cutAt_of_getElem? distinct listed
    exact cut.length_providers distinct
  case unknown =>
    intro m count absent
    rw [providers, others?, findIdx?_eq_none_of_not_mem absent]
    rfl
  case checked => exact providersChecked?_eq r

/-- Five members.  With three copies the first one asks two before it, over the end of the
ring, and the one after it; with ten it is all the others, and without any it is the one
after it alone. -/
theorem providers_windowed_of_five :
    ∃ r : Ring Strategy String, ofMembers .sip24 ["n136", "A", "n132", "B", "C"] = .ok r ∧
      r.members = ["A", "B", "C", "n132", "n136"] ∧ r.Windowed ∧
      r.providers "A" 3 = ["n132", "n136", "B"] ∧
      r.providers "C" 10 = ["n132", "n136", "A", "B"] ∧
      r.providers "n136" 0 = ["A"] ∧ r.providers "D" 3 = [] := by
  obtain ⟨r, built⟩ := exists_ofMembers Strategy.sip24
    (show ["n136", "A", "n132", "B", "C"].length ≤ ringSize by decide)
  have members : r.members = ["A", "B", "C", "n132", "n136"] :=
    apply_eq_of_ofMembers built members (by decide +kernel)
  have size : r.size = 5 := by rw [size, members]; rfl
  have windowed := providers_windowed built
  refine ⟨r, built, members, windowed, ?_, ?_, ?_, windowed.unknown 3 (by simp [members])⟩
  · obtain ⟨before, next, behind, ahead, -, asked⟩ :=
      windowed.window 3 (show r.members[0]? = some "A" by simp [members])
    have two : before = ["n132", "n136"] := by
      simpa [memberAt?, reach, size, members, List.range_succ, List.map_eq_cons_iff] using behind
    have one : next = "B" := by simpa [memberAt?, size, members, eq_comm] using ahead
    simp [asked, size, two, one]
  · obtain ⟨before, next, behind, -, -, asked⟩ :=
      windowed.window 10 (show r.members[2]? = some "C" by simp [members])
    have all : before = ["n132", "n136", "A", "B"] := by
      simpa [memberAt?, reach, size, members, List.range_succ, List.map_eq_cons_iff] using behind
    simp [asked, size, all]
  · obtain ⟨before, next, behind, ahead, -, asked⟩ :=
      windowed.window 0 (show r.members[4]? = some "n136" by simp [members])
    have none : before = [] := by simpa [reach] using behind
    have one : next = "A" := by simpa [memberAt?, size, members, eq_comm] using ahead
    simp [asked, size, none, one]

end SlotRing.Ring
