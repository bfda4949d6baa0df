/-
# Distances in the order of the ring

The place of a member, found by counting the members on slots before its own, is its place
in the member list (`Sound.index?_eq_some_iff`).  So distances are those of places on a
circle of as many places as there are members: the distance from one to another is the number
of steps forward that lead there, and two members are adjacent when one of them follows the
other.  All differences are of numbers that can be subtracted (`stepsBetween?_eq`).
-/
import Mathlib.Data.Nat.PSub
import SlotRing.Proofs.Ring.Walk
import SlotRing.Ring.Distance

namespace SlotRing

/-! ## Places on a circle -/

/-- The number of steps forward from one of `size` places to another. -/
def stepsBetween (size i j : Nat) : Nat := if i ≤ j then j - i else size - (i - j)

/-- As `stepsBetween`, by subtractions that have no result where they would fall below
zero. -/
def stepsBetween? (size i j : Nat) : Option Nat :=
  if i ≤ j then j.psub i else do size.psub (← i.psub j)

section

variable {size i j d : Nat} (hi : i < size)
include hi

theorem stepsBetween?_eq : stepsBetween? size i j = some (stepsBetween size i j) := by
  rw [stepsBetween?, stepsBetween]
  split
  · next le => exact Nat.psub_eq_sub le
  · next lt =>
    rw [Nat.psub_eq_sub (by omega : j ≤ i)]
    exact Nat.psub_eq_sub (by omega)

theorem stepsBetween_eq_zero_iff : stepsBetween size i j = 0 ↔ i = j := by
  rw [stepsBetween]
  split <;> omega

theorem add_mod_eq (hd : d < size) :
    (i + d) % size = if i + d < size then i + d else i + d - size := by
  split
  · next lt => exact Nat.mod_eq_of_lt lt
  · next le => rw [Nat.mod_eq_sub_mod (by omega), Nat.mod_eq_of_lt (by omega)]

variable (hj : j < size)
include hj

theorem stepsBetween_eq_iff : stepsBetween size i j = d ↔ d < size ∧ (i + d) % size = j := by
  constructor
  · rintro rfl
    have lt : stepsBetween size i j < size := by
      rw [stepsBetween]
      split <;> omega
    refine ⟨lt, ?_⟩
    rw [add_mod_eq hi lt, stepsBetween]
    split <;> split <;> omega
  · rintro ⟨lt, rfl⟩
    rw [add_mod_eq hi lt, stepsBetween]
    split <;> split <;> omega

theorem stepsBetween_add_comm (other : i ≠ j) :
    stepsBetween size i j + stepsBetween size j i = size := by
  rw [stepsBetween, stepsBetween]
  split <;> split <;> omega

theorem stepsBetween_trans {k : Nat} (hk : k < size) :
    (stepsBetween size i j + stepsBetween size j k) % size = stepsBetween size i k := by
  obtain ⟨-, first⟩ := (stepsBetween_eq_iff hi hj).mp rfl
  obtain ⟨-, second⟩ := (stepsBetween_eq_iff hj hk).mp rfl
  refine ((stepsBetween_eq_iff hi hk).mpr ⟨Nat.mod_lt _ (by omega), ?_⟩).symm
  rw [Nat.add_mod_mod, ← Nat.add_assoc, ← Nat.mod_add_mod, first, second]

/-- The place before is reached by going on to the last one but the place itself. -/
theorem stepsBetween_eq_pred_iff : stepsBetween size i j = size - 1 ↔ (j + 1) % size = i := by
  rw [stepsBetween_eq_iff hi hj, and_iff_right (by omega), add_mod_eq hi (by omega)]
  by_cases single : size = 1
  · subst single
    rw [Nat.mod_one]
    split <;> omega
  · rw [add_mod_eq hj (by omega : 1 < size)]
    split <;> split <;> omega

/-- Two places are one step apart, forward or backward, when one of them follows the other.
On a circle of one place that is the place itself, and no step leads there. -/
theorem stepsBetween_eq_one_or_pred_iff :
    stepsBetween size i j = 1 ∨ stepsBetween size i j = size - 1 ↔
      (i + 1) % size = j ∨ (j + 1) % size = i := by
  rw [stepsBetween_eq_pred_iff hi hj, stepsBetween_eq_iff hi hj]
  by_cases single : size = 1
  · subst single
    rw [Nat.mod_one, Nat.mod_one]
    omega
  · rw [and_iff_right (by omega)]

end

namespace Ring

variable {η α : Type} [Ord α] [Std.TransOrd α]

/-! ## Members in their places -/

namespace Sound

variable {r : Ring η α} (sound : r.Sound) {a b : α} {i j d : Nat}
include sound

theorem getElem?_of_index? (found : r.index? a = some i) : r.members[i]? = some a := by
  obtain ⟨slot, stands, rfl⟩ := Option.map_eq_some_iff.mp found
  have listed : (slot, a) ∈ r.places.filter (slot ≤ ·.1) := by
    rw [List.mem_filter, mem_places_iff, ← sound.position_iff]
    exact ⟨stands, decide_eq_true (Nat.le_refl slot)⟩
  obtain ⟨first, rest, cut⟩ := List.exists_cons_of_ne_nil (List.ne_nil_of_mem listed)
  have ascend : (first :: rest).Pairwise fun p q : Nat × α => p.1 < q.1 :=
    cut ▸ (places_ascend r).filter _
  have split := filter_lt_append_filter_ge (places_ascend r) slot
  rw [cut] at listed split
  -- nobody stands between the slot and the first place from it on
  have same : first = (slot, a) := by
    have reached : first ∈ r.places.filter (slot ≤ ·.1) := cut ▸ List.mem_cons_self
    rcases List.mem_cons.mp listed with same | later
    · exact same.symm
    · exact absurd ((List.pairwise_cons.mp ascend).1 _ later)
        (Nat.not_lt.mpr (of_decide_eq_true (List.mem_filter.mp reached).2))
  generalize r.places.filter (·.1 < slot) = before at split ⊢
  rw [sound.members_eq, ← split, List.getElem?_map, List.getElem?_append_right (Nat.le_refl _),
    Nat.sub_self, same]
  rfl

theorem index?_eq_some_iff : r.index? a = some i ↔ r.members[i]? = some a := by
  refine ⟨sound.getElem?_of_index?, fun listed => ?_⟩
  obtain ⟨slot, stands⟩ := sound.mem_members_iff.mp (List.mem_of_getElem? listed)
  have counted : r.index? a = some (r.places.filter (·.1 < slot)).length := by
    rw [index?, stands, Option.map_some]
  have listed' := sound.getElem?_of_index? counted
  obtain ⟨inside, -⟩ := List.getElem?_eq_some_iff.mp listed'
  rw [counted, (List.getElem?_inj inside sound.nodup_members).mp (listed'.trans listed.symm)]

theorem index?_eq_none_iff : r.index? a = none ↔ a ∉ r.members := by
  rw [Option.eq_none_iff_forall_ne_some, List.mem_iff_getElem?, not_exists]
  exact forall_congr' fun i => not_congr sound.index?_eq_some_iff

end Sound

/-- As `distance?`, by subtractions that have no result where they would fall below zero. -/
def distanceChecked? (r : Ring η α) (a b : α) : Option Nat := do
  stepsBetween? r.size (← r.index? a) (← r.index? b)

/-- As `adjacent`, by a subtraction that has no result where it would fall below zero. -/
def adjacentChecked? (r : Ring η α) (a b : α) : Option Bool :=
  match r.distance? a b with
  | some d => (r.size.psub 1).map fun last => d = 1 || d = last
  | none => some false

/-- A member comes right after another one, the first of all after the last. -/
def Follows (r : Ring η α) (a b : α) : Prop :=
  ∃ i, r.members[i]? = some a ∧ r.members[(i + 1) % r.size]? = some b

/-- Distances and neighbours are those of the member list, closed to a circle. -/
structure Cyclic (r : Ring η α) : Prop where
  /-- The distance is the number of steps forward, less than once round. -/
  distance (a b : α) (d : Nat) : r.distance? a b = some d ↔
    d < r.size ∧ ∃ i, r.members[i]? = some a ∧ r.members[(i + d) % r.size]? = some b
  unknown (a b : α) : r.distance? a b = none ↔ a ∉ r.members ∨ b ∉ r.members
  zero {a : α} (b : α) : a ∈ r.members → (r.distance? a b = some 0 ↔ a = b)
  /-- There and back is once round. -/
  back {a b : α} : a ∈ r.members → b ∈ r.members → a ≠ b →
    ∃ d e, r.distance? a b = some d ∧ r.distance? b a = some e ∧ d + e = r.size
  /-- A way over a third member is as long, up to whole rounds. -/
  via {a b c : α} : a ∈ r.members → b ∈ r.members → c ∈ r.members →
    ∃ d e f, r.distance? a b = some d ∧ r.distance? b c = some e ∧ r.distance? a c = some f ∧
      (d + e) % r.size = f
  adjacent_comm (a b : α) : r.adjacent a b = r.adjacent b a
  adjacent_iff (a b : α) : r.adjacent a b = true ↔ r.Follows a b ∨ r.Follows b a
  /-- Nothing is subtracted from less. -/
  distanceChecked (a b : α) : r.distanceChecked? a b = r.distance? a b
  adjacentChecked (a b : α) : r.adjacentChecked? a b = some (r.adjacent a b)

section

variable {r : Ring η α} {a b : α} {i j : Nat}

theorem distance?_eq_some_iff_index {d : Nat} : r.distance? a b = some d ↔
    ∃ i j, r.index? a = some i ∧ r.index? b = some j ∧ stepsBetween r.size i j = d := by
  rw [distance?]
  cases r.index? a <;> cases r.index? b <;> simp [stepsBetween]

theorem distance?_of_index (ha : r.index? a = some i) (hb : r.index? b = some j) :
    r.distance? a b = some (stepsBetween r.size i j) :=
  distance?_eq_some_iff_index.mpr ⟨i, j, ha, hb, rfl⟩

theorem distance?_eq_none_iff_index :
    r.distance? a b = none ↔ r.index? a = none ∨ r.index? b = none := by
  rw [distance?]
  cases r.index? a <;> cases r.index? b <;> simp

theorem adjacent_eq_true_iff : r.adjacent a b = true ↔
    ∃ d, r.distance? a b = some d ∧ (d = 1 ∨ d = r.size - 1) := by
  rw [adjacent]
  cases r.distance? a b <;> simp

end

namespace Sound

variable {r : Ring η α} (sound : r.Sound) {a b : α} {i : Nat}
include sound

theorem index?_lt (found : r.index? a = some i) : i < r.size :=
  (List.getElem?_eq_some_iff.mp (sound.getElem?_of_index? found)).1

theorem size_pos_of_distance? {d : Nat} (known : r.distance? a b = some d) : 0 < r.size := by
  obtain ⟨i, j, ha, -, -⟩ := distance?_eq_some_iff_index.mp known
  exact Nat.zero_lt_of_lt (sound.index?_lt ha)

theorem exists_index (mem : a ∈ r.members) : ∃ i, r.index? a = some i ∧ i < r.size := by
  obtain ⟨i, listed⟩ := List.mem_iff_getElem?.mp mem
  have found := sound.index?_eq_some_iff.mpr listed
  exact ⟨i, found, sound.index?_lt found⟩

theorem eq_of_index? (ha : r.index? a = some i) (hb : r.index? b = some i) : a = b :=
  Option.some.inj ((sound.getElem?_of_index? ha).symm.trans (sound.getElem?_of_index? hb))

theorem distance?_eq_some_iff {d : Nat} : r.distance? a b = some d ↔
    d < r.size ∧ ∃ i, r.members[i]? = some a ∧ r.members[(i + d) % r.size]? = some b := by
  simp only [distance?_eq_some_iff_index, ← sound.index?_eq_some_iff]
  constructor
  · rintro ⟨i, j, ha, hb, steps⟩
    obtain ⟨lt, rfl⟩ :=
      (stepsBetween_eq_iff (sound.index?_lt ha) (sound.index?_lt hb)).mp steps
    exact ⟨lt, i, ha, hb⟩
  · rintro ⟨lt, i, ha, hb⟩
    exact ⟨i, _, ha, hb,
      (stepsBetween_eq_iff (sound.index?_lt ha) (sound.index?_lt hb)).mpr ⟨lt, rfl⟩⟩

theorem follows_iff : r.Follows a b ↔
    ∃ i j, r.index? a = some i ∧ r.index? b = some j ∧ (i + 1) % r.size = j := by
  simp only [Follows, ← sound.index?_eq_some_iff]
  exact exists_congr fun i => ⟨fun ⟨ha, hb⟩ => ⟨_, ha, hb, rfl⟩, fun ⟨_, ha, hb, rfl⟩ => ⟨ha, hb⟩⟩

theorem adjacent_iff : r.adjacent a b = true ↔ r.Follows a b ∨ r.Follows b a := by
  rw [adjacent_eq_true_iff, sound.follows_iff, sound.follows_iff]
  constructor
  · rintro ⟨d, known, near⟩
    obtain ⟨i, j, ha, hb, rfl⟩ := distance?_eq_some_iff_index.mp known
    rcases (stepsBetween_eq_one_or_pred_iff (sound.index?_lt ha) (sound.index?_lt hb)).mp near
      with next | next
    · exact .inl ⟨i, j, ha, hb, next⟩
    · exact .inr ⟨j, i, hb, ha, next⟩
  · rintro (⟨i, j, ha, hb, next⟩ | ⟨j, i, hb, ha, next⟩)
    · exact ⟨_, distance?_of_index ha hb,
        (stepsBetween_eq_one_or_pred_iff (sound.index?_lt ha) (sound.index?_lt hb)).mpr
          (.inl next)⟩
    · exact ⟨_, distance?_of_index ha hb,
        (stepsBetween_eq_one_or_pred_iff (sound.index?_lt ha) (sound.index?_lt hb)).mpr
          (.inr next)⟩

end Sound

/-- On the ring of any set of members, distances and neighbours are those of the member
list, closed to a circle. -/
theorem distance_cyclic [Std.LawfulEqOrd α] [HashWith η α] {hasher : η} {ms : List α}
    {r : Ring η α} (built : ofMembers hasher ms = .ok r) : r.Cyclic := by
  have sound := sound_ofMembers built
  constructor
  case distance => exact fun a b d => sound.distance?_eq_some_iff
  case unknown =>
    intro a b
    rw [distance?_eq_none_iff_index, sound.index?_eq_none_iff, sound.index?_eq_none_iff]
  case zero =>
    intro a b mem
    obtain ⟨i, ha, hi⟩ := sound.exists_index mem
    rw [distance?_eq_some_iff_index]
    constructor
    · rintro ⟨i, j, ha, hb, none⟩
      obtain rfl := (stepsBetween_eq_zero_iff (sound.index?_lt ha)).mp none
      exact sound.eq_of_index? ha hb
    · rintro rfl
      exact ⟨i, i, ha, ha, (stepsBetween_eq_zero_iff hi).mpr rfl⟩
  case back =>
    intro a b memA memB other
    obtain ⟨i, ha, hi⟩ := sound.exists_index memA
    obtain ⟨j, hb, hj⟩ := sound.exists_index memB
    have apart : i ≠ j := by
      rintro rfl
      exact other (sound.eq_of_index? ha hb)
    exact ⟨_, _, distance?_of_index ha hb, distance?_of_index hb ha,
      stepsBetween_add_comm hi hj apart⟩
  case via =>
    intro a b c memA memB memC
    obtain ⟨i, ha, hi⟩ := sound.exists_index memA
    obtain ⟨j, hb, hj⟩ := sound.exists_index memB
    obtain ⟨k, hc, hk⟩ := sound.exists_index memC
    exact ⟨_, _, _, distance?_of_index ha hb, distance?_of_index hb hc,
      distance?_of_index ha hc, stepsBetween_trans hi hj hk⟩
  case adjacent_comm =>
    intro a b
    rw [Bool.eq_iff_iff, sound.adjacent_iff, sound.adjacent_iff, or_comm]
  case adjacent_iff => exact fun a b => sound.adjacent_iff
  case distanceChecked =>
    intro a b
    cases ha : r.index? a with
    | none => simp [distanceChecked?, distance?, ha]
    | some i =>
      cases hb : r.index? b with
      | none => simp [distanceChecked?, distance?, ha, hb]
      | some j =>
        rw [distance?_of_index ha hb, ← stepsBetween?_eq (sound.index?_lt ha)]
        simp [distanceChecked?, ha, hb]
  case adjacentChecked =>
    intro a b
    cases known : r.distance? a b with
    | none => simp only [adjacentChecked?, adjacent, known]
    | some d =>
      simp only [adjacentChecked?, adjacent, known,
        Nat.psub_eq_sub (sound.size_pos_of_distance? known), Option.map_some]

/-- Four members in the order "A", "B", "n132" and "n136".  From the third to the first it is
two steps over the end of the ring; the last is adjacent to the first, and the third is not. -/
theorem distance_cyclic_of_four :
    ∃ r : Ring Strategy String, ofMembers .sip24 ["n136", "A", "n132", "B"] = .ok r ∧
      r.members = ["A", "B", "n132", "n136"] ∧ r.distance? "n132" "A" = some 2 ∧
      r.distance? "n136" "A" = some 1 ∧ r.adjacent "A" "n136" = true ∧
      r.adjacent "A" "n132" = false ∧ r.distance? "A" "C" = none := by
  obtain ⟨r, built⟩ := exists_ofMembers Strategy.sip24
    (show ["n136", "A", "n132", "B"].length ≤ ringSize by decide)
  have members : r.members = ["A", "B", "n132", "n136"] :=
    apply_eq_of_ofMembers built members (by decide +kernel)
  have size : r.size = 4 := by rw [size, members]; rfl
  have cyclic := distance_cyclic built
  have away : r.distance? "A" "n132" = some 2 :=
    (cyclic.distance _ _ _).mpr ⟨by omega, 0, by simp [members, size]⟩
  refine ⟨r, built, members, ?_, ?_, ?_, ?_, ?_⟩
  · exact (cyclic.distance _ _ _).mpr ⟨by omega, 2, by simp [members, size]⟩
  · exact (cyclic.distance _ _ _).mpr ⟨by omega, 3, by simp [members, size]⟩
  · exact (cyclic.adjacent_iff _ _).mpr (.inr ⟨3, by simp [members, size]⟩)
  · simp [adjacent, away, size]
  · exact (cyclic.unknown _ _).mpr (.inr (by simp [members]))

end Ring

end SlotRing
