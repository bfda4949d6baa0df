/-
# A newcomer that pushes others on

Who comes to the ring may find its slot held by a member that is placed after it.
That member goes forward then, and may push on the next one, and so on, up to a slot
that nobody held before (`Pushed`).  All others stay where they were.

For a key this makes no difference as long as nobody is carried over the slot of the
key.  A member that is comes to stand before members behind which it stood: it cuts in
(`CutsIn`), and for some number of copies it gains the key although it is not the
newcomer.  There is no other way of gaining a key from an arrival
(`gains_by_arrival_iff`).
-/
import SlotRing.Proofs.Ring.Walk

namespace SlotRing

/-! ## Going round the ring -/

/-- The number of steps forward from one slot to another. -/
def stepsTo (s t : Nat) : Nat := (t + ringSize - s) % ringSize

section

variable {s t u v w : Nat}

theorem stepsTo_eq (hs : s < ringSize) (ht : t < ringSize) :
    stepsTo s t = if s ≤ t then t - s else t + ringSize - s := by
  rw [stepsTo]
  split
  · next le =>
    rw [Nat.add_comm, Nat.add_sub_assoc le, Nat.add_mod_left, Nat.mod_eq_of_lt (by omega)]
  · exact Nat.mod_eq_of_lt (by omega)

theorem stepsTo_self (hs : s < ringSize) : stepsTo s s = 0 := by
  simp [stepsTo_eq hs hs]

theorem stepsTo_lt (s t : Nat) : stepsTo s t < ringSize := Nat.mod_lt _ (by decide)

theorem add_stepsTo (hs : s < ringSize) (ht : t < ringSize) :
    (s + stepsTo s t) % ringSize = t := by
  rw [stepsTo, Nat.add_mod_mod, Nat.add_sub_cancel' (by omega), Nat.add_mod_right,
    Nat.mod_eq_of_lt ht]

theorem stepsTo_add (hs : s < ringSize) {j : Nat} (hj : j < ringSize) :
    stepsTo s ((s + j) % ringSize) = j := by
  rw [stepsTo_eq hs (Nat.mod_lt _ (by decide))]
  by_cases inside : s + j < ringSize
  · rw [Nat.mod_eq_of_lt inside, if_pos (by omega)]
    omega
  · rw [Nat.mod_eq_sub_mod (by omega), Nat.mod_eq_of_lt (by omega), if_neg (by omega)]
    omega

theorem stepsTo_inj (hs : s < ringSize) (ht : t < ringSize) (hu : u < ringSize)
    (same : stepsTo s t = stepsTo s u) : t = u := by
  rw [← add_stepsTo hs ht, same, add_stepsTo hs hu]

/-- The way between two slots, when both are counted from a third one. -/
theorem stepsTo_eq_of_counted (hs : s < ringSize) (ht : t < ringSize) (hw : w < ringSize) :
    stepsTo w t = if stepsTo s w ≤ stepsTo s t then stepsTo s t - stepsTo s w
      else stepsTo s t + ringSize - stepsTo s w := by
  rw [stepsTo_eq hw ht, stepsTo_eq hs hw, stepsTo_eq hs ht]
  split_ifs <;> omega

/-- What comes between two slots on the way from `s` comes between them on any way that
meets them in the same order. -/
theorem stepsTo_between (hs : s < ringSize) (ht : t < ringSize) (hu : u < ringSize)
    (hv : v < ringSize) (hw : w < ringSize) (tu : stepsTo s t < stepsTo s u)
    (uv : stepsTo s u < stepsTo s v) (tv : stepsTo w t < stepsTo w v) :
    stepsTo w u < stepsTo w v := by
  have short := stepsTo_lt s v
  rw [stepsTo_eq_of_counted hs ht hw, stepsTo_eq_of_counted hs hv hw] at tv
  rw [stepsTo_eq_of_counted hs hu hw, stepsTo_eq_of_counted hs hv hw]
  split_ifs at * <;> omega

/-- Seen from a slot that `t` is carried over on its way to `u`, whatever comes behind
`u` from the start comes behind it. -/
theorem stepsTo_le_of_carried (hs : s < ringSize) (ht : t < ringSize) (hu : u < ringSize)
    (hv : v < ringSize) (hw : w < ringSize) (tu : stepsTo s t < stepsTo s u)
    (uv : stepsTo s u ≤ stepsTo s v) (carried : stepsTo w u < stepsTo w t) :
    stepsTo w u ≤ stepsTo w v := by
  have short := stepsTo_lt s v
  rw [stepsTo_eq_of_counted hs hu hw, stepsTo_eq_of_counted hs ht hw] at carried
  rw [stepsTo_eq_of_counted hs hu hw, stepsTo_eq_of_counted hs hv hw]
  split_ifs at * <;> omega

end

/-! ## The first free slot -/

section

variable {taken : Nat → Bool} {slot free : Nat}

theorem taken_of_stepsTo_lt_firstFree (onRing : slot < ringSize) {t : Nat} (ht : t < ringSize)
    (passed : stepsTo slot t < stepsTo slot (firstFree taken ringSize slot)) :
    taken t = true := by
  obtain ⟨j, hj, found, before, -⟩ := firstFree_eq_add taken ringSize slot onRing
  have reached := stepsTo_lt slot t
  rw [← add_stepsTo onRing ht]
  refine before _ ?_
  by_cases short : j < ringSize
  · rwa [found, stepsTo_add onRing short] at passed
  · omega

/-- The slot that is found is the only free one that is met over taken slots. -/
theorem firstFree_eq_of_free (onRing : slot < ringSize) (hfree : free < ringSize)
    (isFree : taken free = false)
    (before : ∀ t < ringSize, stepsTo slot t < stepsTo slot free → taken t = true) :
    firstFree taken ringSize slot = free := by
  have found := firstFree_lt taken ringSize slot onRing
  have untaken := firstFree_free onRing hfree isFree
  refine stepsTo_inj onRing found hfree (Nat.le_antisymm ?_ ?_)
  · by_contra later
    have := taken_of_stepsTo_lt_firstFree onRing hfree (Nat.lt_of_not_le later)
    rw [isFree] at this
    exact absurd this (by decide)
  · by_contra later
    have := before _ found (Nat.lt_of_not_le later)
    rw [untaken] at this
    exact absurd this (by decide)

end

/-! ## Placing the same members with and without the newcomer -/

namespace Ring

variable {η α : Type}

theorem getElem?_place (positions : Std.ExtTreeMap Nat α) (seat : Nat × α) (s : Nat) :
    (place positions seat)[s]? =
      if firstFree positions.contains ringSize seat.1 = s then some seat.2 else positions[s]? := by
  simp only [place, Std.ExtTreeMap.getElem?_insert, Nat.compare_eq_eq]

theorem contains_place (positions : Std.ExtTreeMap Nat α) (seat : Nat × α) (s : Nat) :
    (place positions seat).contains s =
      (decide (firstFree positions.contains ringSize seat.1 = s) || positions.contains s) := by
  rw [Std.ExtTreeMap.contains_eq_isSome_getElem?, getElem?_place,
    Std.ExtTreeMap.contains_eq_isSome_getElem?]
  split
  · next same => simp [same]
  · next other => simp [other]

theorem Seated.perm {positions : Std.ExtTreeMap Nat α} {ms ms' : List α}
    (seated : Seated positions ms) (same : ms.Perm ms') : Seated positions ms' where
  size := seated.size.trans same.length_eq
  onRing h := ⟨(seated.onRing h).1, same.subset (seated.onRing h).2⟩
  seat h := seated.seat (same.symm.subset h)
  once := seated.once

/-- The placement `N` is `O` with a newcomer on the slot `origin`: one slot more is
taken, the `edge`, there is no free slot from `origin` up to it, and whoever stands
elsewhere than in `O` was carried forward on this stretch. -/
structure Pushed (origin edge : Nat) (O N : Std.ExtTreeMap Nat α) : Prop where
  start : origin < ringSize
  limit : edge < ringSize
  untaken : O.contains edge = false
  slots (t : Nat) : N.contains t = (decide (edge = t) || O.contains t)
  full {t : Nat} : t < ringSize → stepsTo origin t ≤ stepsTo origin edge → N.contains t = true
  moves {m : α} {p q : Nat} : O[p]? = some m → N[q]? = some m →
    p = q ∨ stepsTo origin p < stepsTo origin q ∧ stepsTo origin q ≤ stepsTo origin edge

theorem Seated.pushed_place {O : Std.ExtTreeMap Nat α} {ms : List α} (seated : Seated O ms)
    (room : ms.length < ringSize) {seat : Nat × α} (onRing : seat.1 < ringSize)
    (new : seat.2 ∉ ms) :
    Pushed (firstFree O.contains ringSize seat.1) (firstFree O.contains ringSize seat.1) O
      (Ring.place O seat) := by
  obtain ⟨free, hfree, isFree⟩ := seated.exists_free room
  have found := firstFree_lt O.contains ringSize seat.1 onRing
  refine ⟨found, found, firstFree_free onRing hfree isFree, contains_place O seat, ?_, ?_⟩
  · intro t ht near
    rw [stepsTo_self found, Nat.le_zero, ← stepsTo_self found] at near
    rw [contains_place, stepsTo_inj found ht found near, decide_eq_true rfl, Bool.true_or]
  · intro m p q hp hq
    rw [getElem?_place] at hq
    split at hq
    · cases hq
      exact absurd (seated.onRing hp).2 new
    · exact .inl (seated.once hp hq)

section

variable {origin edge : Nat} {O N : Std.ExtTreeMap Nat α} {ms : List α} {x : α}

/-- One more member is placed, in both on the same slot or carried forward: then that is
true of all that are placed. -/
theorem Pushed.moves_place (pushed : Pushed origin edge O N) (without : Seated O ms)
    (with_ : Seated N (x :: ms)) {seat : Nat × α} (new : seat.2 ∉ x :: ms) {f g edge' : Nat}
    (hf : firstFree O.contains ringSize seat.1 = f) (hg : firstFree N.contains ringSize seat.1 = g)
    (carried : f = g ∨
      stepsTo origin f < stepsTo origin g ∧ stepsTo origin g ≤ stepsTo origin edge')
    (onward : stepsTo origin edge ≤ stepsTo origin edge') {m : α} {p q : Nat}
    (hp : (place O seat)[p]? = some m) (hq : (place N seat)[q]? = some m) :
    p = q ∨ stepsTo origin p < stepsTo origin q ∧ stepsTo origin q ≤ stepsTo origin edge' := by
  rw [getElem?_place, hf] at hp
  rw [getElem?_place, hg] at hq
  split at hp <;> split at hq
  · next here here' =>
    subst here here'
    exact carried
  · cases hp
    exact absurd (with_.onRing hq).2 new
  · cases hq
    exact absurd (without.onRing hp).2 fun h => new (List.mem_cons_of_mem _ h)
  · rcases pushed.moves hp hq with stays | ⟨further, near⟩
    · exact .inl stays
    · exact .inr ⟨further, Nat.le_trans near onward⟩

theorem Pushed.edge_lt (pushed : Pushed origin edge O N) {g : Nat} (g_lt : g < ringSize)
    (isFree : N.contains g = false) : stepsTo origin edge < stepsTo origin g := by
  by_contra near
  rw [pushed.full g_lt (Nat.le_of_not_lt near)] at isFree
  exact absurd isFree (by decide)

/-- One more member is placed, and without the newcomer it gets a slot other than the edge:
that is the same slot in both. -/
theorem Pushed.place_aside (pushed : Pushed origin edge O N) (without : Seated O ms)
    (with_ : Seated N (x :: ms)) (room : ms.length < ringSize) {seat : Nat × α}
    (onRing : seat.1 < ringSize) (new : seat.2 ∉ x :: ms)
    (other : firstFree O.contains ringSize seat.1 ≠ edge) :
    Pushed origin edge (place O seat) (place N seat) := by
  obtain ⟨free, hfree, isFree⟩ := without.exists_free room
  obtain ⟨f, hf⟩ : ∃ f, firstFree O.contains ringSize seat.1 = f := ⟨_, rfl⟩
  rw [hf] at other
  have f_lt : f < ringSize := hf ▸ firstFree_lt _ _ _ onRing
  have f_free : O.contains f = false := hf ▸ firstFree_free onRing hfree isFree
  have passed {t : Nat} (ht : t < ringSize) (near : stepsTo seat.1 t < stepsTo seat.1 f) :
      O.contains t = true := taken_of_stepsTo_lt_firstFree onRing ht (hf ▸ near)
  have hg : firstFree N.contains ringSize seat.1 = f := by
    refine firstFree_eq_of_free onRing f_lt ?_ fun t ht near => ?_
    · rw [pushed.slots, f_free, decide_eq_false (Ne.symm other)]
      rfl
    · rw [pushed.slots, passed ht near, Bool.or_true]
  refine ⟨pushed.start, pushed.limit, ?_, ?_, ?_, ?_⟩
  · rw [contains_place, hf, pushed.untaken, decide_eq_false other]
    rfl
  · intro t
    rw [contains_place, contains_place, hf, hg, pushed.slots, Bool.or_left_comm]
  · intro t ht near
    rw [contains_place, pushed.full ht near, Bool.or_true]
  · exact pushed.moves_place without with_ new hf hg (.inl rfl) (Nat.le_refl _)

/-- One more member is placed, and without the newcomer it gets the edge: those who were
pushed there have taken it, and it goes on to the next free slot, which is the edge from
now on. -/
theorem Pushed.place_edge (pushed : Pushed origin edge O N) (without : Seated O ms)
    (with_ : Seated N (x :: ms)) (room : ms.length + 1 < ringSize) {seat : Nat × α}
    (onRing : seat.1 < ringSize) (new : seat.2 ∉ x :: ms)
    (hf : firstFree O.contains ringSize seat.1 = edge) :
    Pushed origin (firstFree N.contains ringSize seat.1) (place O seat) (place N seat) := by
  obtain ⟨free, hfree, isFree⟩ := with_.exists_free room
  obtain ⟨g, hg⟩ : ∃ g, firstFree N.contains ringSize seat.1 = g := ⟨_, rfl⟩
  rw [hg]
  have g_lt : g < ringSize := hg ▸ firstFree_lt _ _ _ onRing
  have g_free : N.contains g = false := hg ▸ firstFree_free onRing hfree isFree
  have g_beyond := pushed.edge_lt g_lt g_free
  obtain ⟨g_other, g_old⟩ : edge ≠ g ∧ O.contains g = false := by
    simpa [pushed.slots] using g_free
  have further : stepsTo seat.1 edge < stepsTo seat.1 g := by
    rcases Nat.lt_trichotomy (stepsTo seat.1 edge) (stepsTo seat.1 g) with h | h | h
    · exact h
    · exact absurd (stepsTo_inj onRing pushed.limit g_lt h) g_other
    · have passed : O.contains g = true := taken_of_stepsTo_lt_firstFree onRing g_lt (hf ▸ h)
      rw [passed] at g_old
      exact absurd g_old (by decide)
  refine ⟨pushed.start, g_lt, ?_, ?_, ?_, ?_⟩
  · rw [contains_place, hf, g_old, decide_eq_false g_other]
    rfl
  · intro t
    rw [contains_place, contains_place, hf, hg, pushed.slots]
  · intro t ht near
    rw [contains_place, hg, Bool.or_eq_true, decide_eq_true_iff]
    by_cases before : stepsTo origin t ≤ stepsTo origin edge
    · exact .inr (pushed.full ht before)
    · by_cases last : g = t
      · exact .inl last
      · have strict : stepsTo origin t < stepsTo origin g := Nat.lt_of_le_of_ne near
          fun h => last (stepsTo_inj pushed.start ht g_lt h).symm
        exact .inr (taken_of_stepsTo_lt_firstFree onRing ht (hg ▸ stepsTo_between pushed.start
          pushed.limit ht g_lt onRing (Nat.lt_of_not_le before) strict further))
  · exact pushed.moves_place without with_ new hf hg (.inr ⟨g_beyond, Nat.le_refl _⟩)
      (Nat.le_of_lt g_beyond)

theorem Pushed.place (pushed : Pushed origin edge O N) (without : Seated O ms)
    (with_ : Seated N (x :: ms)) (room : ms.length + 1 < ringSize) {seat : Nat × α}
    (onRing : seat.1 < ringSize) (new : seat.2 ∉ x :: ms) :
    ∃ edge', Pushed origin edge' (place O seat) (place N seat) := by
  by_cases taken : firstFree O.contains ringSize seat.1 = edge
  · exact ⟨_, pushed.place_edge without with_ room onRing new taken⟩
  · exact ⟨edge, pushed.place_aside without with_ (by omega) onRing new taken⟩

theorem Pushed.foldl (pushed : Pushed origin edge O N) (without : Seated O ms)
    (with_ : Seated N (x :: ms)) (seats : List (Nat × α))
    (onRing : ∀ seat ∈ seats, seat.1 < ringSize) (distinct : (seats.map Prod.snd).Nodup)
    (new : ∀ seat ∈ seats, seat.2 ∉ x :: ms) (room : ms.length + 1 + seats.length ≤ ringSize) :
    ∃ edge', Pushed origin edge' (seats.foldl Ring.place O) (seats.foldl Ring.place N) := by
  induction seats generalizing O N ms edge with
  | nil => exact ⟨edge, pushed⟩
  | cons seat seats ih =>
    rw [List.length_cons] at room
    rw [List.map_cons, List.nodup_cons] at distinct
    have fresh := new seat List.mem_cons_self
    have here := onRing seat List.mem_cons_self
    have here' : ∀ s ∈ seats, s.1 < ringSize := fun s hs => onRing s (List.mem_cons_of_mem _ hs)
    obtain ⟨edge', placed⟩ := pushed.place without with_ (by omega) here fresh
    have without' := without.place (by omega) here fun h => fresh (List.mem_cons_of_mem _ h)
    have with' := with_.place (by rw [List.length_cons]; omega) here fresh
    refine ih placed without' (with'.perm (List.Perm.swap ..)) here' distinct.2 ?_
      (by rw [List.length_cons]; omega)
    intro s hs
    have other : s.2 ≠ seat.2 := fun same => distinct.1 (same ▸ List.mem_map_of_mem hs)
    have absent := new s (List.mem_cons_of_mem _ hs)
    simp only [List.mem_cons, not_or] at absent ⊢
    exact ⟨absent.1, other, absent.2⟩

end

/-! ## How many stand in front -/

theorem mem_take_iff_of_ascend {β : Type} {place : β → Nat} {l : List β}
    (ascend : l.Pairwise (place · < place ·)) {b : β} (mem : b ∈ l) (count : Nat) :
    b ∈ l.take count ↔ (l.filter (place · < place b)).length < count := by
  induction l generalizing count with
  | nil => cases mem
  | cons c l ih =>
    rw [List.pairwise_cons] at ascend
    cases count with
    | zero => simp
    | succ count =>
      rw [List.take_succ_cons, List.mem_cons]
      cases mem with
      | head =>
        have none : (b :: l).filter (place · < place b) = [] := by
          simpa [List.filter_eq_nil_iff] using fun a ha => Nat.le_of_lt (ascend.1 a ha)
        simp [none]
      | tail _ mem =>
        have later := ascend.1 b mem
        have other : b ≠ c := fun same => absurd (same ▸ later) (Nat.lt_irrefl _)
        rw [List.filter_cons_of_pos (by simpa using later), List.length_cons,
          Nat.add_lt_add_iff_right, ← ih ascend.2 mem]
        simp [other]

/-- Places are met in the order of their distance when the walk goes forward from a slot to
the end of the ring and then from its beginning up to the slot. -/
theorem turn_ascend {places : List (Nat × α)} (ascend : places.Pairwise fun a b => a.1 < b.1)
    (onRing : ∀ e ∈ places, e.1 < ringSize) {s : Nat} (hs : s < ringSize) :
    (places.filter (s ≤ ·.1) ++ places.filter (·.1 < s)).Pairwise
      (stepsTo s ·.1 < stepsTo s ·.1) := by
  have steps (e : Nat × α) (h : e ∈ places) :
      stepsTo s e.1 = if s ≤ e.1 then e.1 - s else e.1 + ringSize - s :=
    stepsTo_eq hs (onRing e h)
  have climbs (keep : Nat × α → Bool) (same : ∀ a b, keep a → keep b → (s ≤ a.1 ↔ s ≤ b.1)) :
      (places.filter keep).Pairwise (stepsTo s ·.1 < stepsTo s ·.1) := by
    refine (ascend.filter keep).imp_of_mem fun {a b} ha hb lt => ?_
    rw [List.mem_filter] at ha hb
    have side := same a b ha.2 hb.2
    rw [steps a ha.1, steps b hb.1]
    split_ifs <;> omega
  refine List.pairwise_append.mpr ⟨climbs _ ?_, climbs _ ?_, ?_⟩
  · intro a b ha hb
    simp_all
  · intro a b ha hb
    simp only [decide_eq_true_eq] at ha hb
    omega
  · intro a ha b hb
    simp only [List.mem_filter, decide_eq_true_eq] at ha hb
    have below := onRing a ha.1
    rw [steps a ha.1, steps b hb.1, if_pos ha.2, if_neg (by omega)]
    omega

section

variable [Ord α] [Std.TransOrd α]

/-- The number of members met before the slot `p` on the walk from the slot `s`. -/
def passed (r : Ring η α) (s p : Nat) : Nat :=
  (r.positions.keys.filter fun t => stepsTo s t < stepsTo s p).length

variable {κ : Type} [HashWith η κ]

theorem Sound.mem_locate_iff {r : Ring η α} (sound : r.Sound)
    (onRing : ∀ {slot : Nat} {m : α}, r.positions[slot]? = some m → slot < ringSize)
    {m : α} {p : Nat} (stands : r.position? m = some p) (key : κ) (count : Nat) :
    m ∈ r.locate key count ↔ r.passed (r.slotOfKey key) p < count := by
  obtain ⟨s, hs⟩ : ∃ s, r.slotOfKey key = s := ⟨_, rfl⟩
  have s_lt : s < ringSize := hs ▸ slotOf_lt _
  have placed : r.positions[p]? = some m := (sound.position_iff m p).mp stands
  have listed := mem_places_iff.mpr placed
  let walk := r.places.filter (s ≤ ·.1) ++ r.places.filter (·.1 < s)
  have rotated : walk.Perm r.places := by
    conv => rhs; rw [← filter_lt_append_filter_ge (places_ascend r) s]
    exact List.perm_append_comm
  have ascend : walk.Pairwise (stepsTo s ·.1 < stepsTo s ·.1) :=
    turn_ascend (places_ascend r) (fun _ h => onRing (mem_places_iff.mp h)) s_lt
  rw [sound.locate_eq_take, Ring.walk, walkFrom, hs, ← List.map_take]
  have found : m ∈ (walk.take count).map Prod.snd ↔ (p, m) ∈ walk.take count := by
    rw [List.mem_map]
    constructor
    · rintro ⟨⟨q, m'⟩, h, rfl⟩
      have there := mem_places_iff.mp (rotated.subset (List.mem_of_mem_take h))
      exact sound.slot_unique placed there ▸ h
    · exact fun h => ⟨_, h, rfl⟩
  rw [found, mem_take_iff_of_ascend ascend (rotated.symm.subset listed), passed,
    (rotated.filter _).length_eq, ← Std.ExtTreeMap.map_fst_toList_eq_keys, List.filter_map,
    List.length_map]
  rfl

omit [Std.TransOrd α] in
/-- A member has fewer members in front of it with the newcomer than without just when
it was carried over the slot of the key and there was someone to get in front of. -/
theorem Pushed.passed_lt_iff {old new : Ring η α} {origin edge : Nat}
    (pushed : Pushed origin edge old.positions new.positions)
    (onRing : ∀ {slot : Nat} {m : α}, old.positions[slot]? = some m → slot < ringSize)
    (onRing' : ∀ {slot : Nat} {m : α}, new.positions[slot]? = some m → slot < ringSize)
    {s p q : Nat} (hs : s < ringSize) {m : α} (stood : old.positions[p]? = some m)
    (stands : new.positions[q]? = some m) :
    new.passed s q < old.passed s p ↔
      ∃ t b, old.positions[t]? = some b ∧ stepsTo s q ≤ stepsTo s t ∧
        stepsTo s t < stepsTo s p := by
  have listed {r : Ring η α} {t : Nat} : t ∈ r.positions.keys ↔ r.positions.contains t = true := by
    rw [Std.ExtTreeMap.mem_keys, Std.ExtTreeMap.contains_iff_mem]
  constructor
  · intro fewer
    by_contra none
    refine absurd fewer (Nat.not_lt.mpr (List.subperm_of_subset
      ((nodup_keys old.positions).filter _) fun t ht => ?_).length_le)
    simp only [List.mem_filter, listed, decide_eq_true_eq] at ht ⊢
    rw [pushed.slots, ht.1, Bool.or_true]
    refine ⟨rfl, Nat.lt_of_not_le fun beyond => none ?_⟩
    obtain ⟨b, hb⟩ := Option.isSome_iff_exists.mp
      (Std.ExtTreeMap.contains_eq_isSome_getElem?.symm.trans ht.1)
    exact ⟨t, b, hb, beyond, ht.2⟩
  · rintro ⟨t, b, there, beyond, before⟩
    have carried : stepsTo s q < stepsTo s p := Nat.lt_of_le_of_lt beyond before
    have behind : stepsTo s q ≤ stepsTo s edge := by
      rcases pushed.moves stood stands with rfl | ⟨forward, near⟩
      · exact absurd carried (Nat.lt_irrefl _)
      · exact stepsTo_le_of_carried pushed.start (onRing stood) (onRing' stands) pushed.limit hs
          forward near carried
    -- all that are still in front were before, and the one that is passed was too
    have room : ((t :: new.positions.keys.filter fun u => stepsTo s u < stepsTo s q)).Subperm
        (old.positions.keys.filter fun u => stepsTo s u < stepsTo s p) := by
      refine List.subperm_of_subset
        (List.nodup_cons.mpr ⟨?_, (nodup_keys new.positions).filter _⟩) ?_
      · simp only [List.mem_filter, decide_eq_true_eq, not_and, Nat.not_lt]
        exact fun _ => beyond
      · intro u hu
        simp only [List.mem_cons, List.mem_filter, listed, decide_eq_true_eq] at hu ⊢
        rcases hu with rfl | ⟨hu, front⟩
        · rw [Std.ExtTreeMap.contains_eq_isSome_getElem?, there]
          exact ⟨rfl, before⟩
        · have other : edge ≠ u := fun same => absurd (same ▸ behind) (Nat.not_le.mpr front)
          rw [pushed.slots, decide_eq_false other, Bool.false_or] at hu
          exact ⟨hu, Nat.lt_trans front carried⟩
    exact room.length_le

end

/-! ## The two rings -/

variable [Ord α] [Std.TransOrd α] [Std.LawfulEqOrd α] [HashWith η α]

/-- With a newcomer, the members are placed in the same order, and the newcomer
somewhere among them. -/
theorem exists_seats_newcomer (hasher : η) {ms : List α} {x : α} (absent : x ∉ ms) :
    ∃ first rest, seats hasher ms = first ++ rest ∧
      seats hasher (ms ++ [x]) = first ++ (naturalSlot hasher x, x) :: rest := by
  obtain ⟨first, rest, cut⟩ := List.append_of_mem
    (show (naturalSlot hasher x, x) ∈ seats hasher (ms ++ [x]) from mem_seats.mpr ⟨by simp, rfl⟩)
  have sorted (l : List α) : (seats hasher l).Pairwise (seatOrder · · = .lt) :=
    Std.ExtTreeSet.ordered_toList
  have distinct {l : List (Nat × α)} (ascend : l.Pairwise (seatOrder · · = .lt)) : l.Nodup := by
    refine ascend.imp fun {a b} lt same => ?_
    rw [same] at lt
    exact Std.OrientedCmp.not_lt_of_lt lt lt
  have ascend := cut ▸ sorted (ms ++ [x])
  have others := ascend.sublist ((List.sublist_cons_self _ _).append_left first)
  have apart : (naturalSlot hasher x, x) ∉ first ++ rest :=
    (List.nodup_middle.mp (distinct ascend)).notMem
  refine ⟨first, rest, ?_, cut⟩
  have asymm (a b : Nat × α) (ab : seatOrder a b = .lt) : ¬ seatOrder b a = .lt :=
    Std.OrientedCmp.not_lt_of_lt ab
  refine List.Perm.eq_of_pairwise (fun a b _ _ ab ba => absurd ba (asymm a b ab)) (sorted ms)
    others ?_
  rw [List.perm_ext_iff_of_nodup (distinct (sorted ms)) (distinct others)]
  intro seat
  have listed : seat ∈ first ++ (naturalSlot hasher x, x) :: rest ↔
      (seat.2 ∈ ms ∨ seat.2 = x) ∧ seat.1 = naturalSlot hasher seat.2 := by
    rw [← cut, mem_seats, List.mem_append, List.mem_singleton]
  rw [mem_seats]
  constructor
  · intro h
    have mem := listed.mpr ⟨.inl h.1, h.2⟩
    simp only [List.mem_append, List.mem_cons] at mem ⊢
    rcases mem with h' | rfl | h'
    · exact .inl h'
    · exact absurd h.1 absent
    · exact .inr h'
  · intro h
    have mem := listed.mp (((List.sublist_cons_self _ _).append_left first).subset h)
    refine ⟨mem.1.resolve_right fun same => apart ?_, mem.2⟩
    rw [← same, ← mem.2]
    exact h

/-- The newcomer is placed after some of the members, on the first slot that is free
then, and pushes on those that are placed after it. -/
theorem exists_pushed_from (hasher : η) {ms : List α} {x : α}
    (room : (seats hasher (ms ++ [x])).length ≤ ringSize) (absent : x ∉ ms) :
    ∃ first rest, seats hasher ms = first ++ rest ∧
      seats hasher (ms ++ [x]) = first ++ (naturalSlot hasher x, x) :: rest ∧
      ∃ edge, Pushed
        (firstFree (first.foldl place ∅).contains ringSize (naturalSlot hasher x)) edge
        ((first ++ rest).foldl place ∅)
        ((first ++ (naturalSlot hasher x, x) :: rest).foldl place ∅) := by
  obtain ⟨first, rest, without, with_⟩ := exists_seats_newcomer hasher absent
  have distinct := with_ ▸ nodup_seats hasher (ms ++ [x])
  have onRing : ∀ seat ∈ first ++ (naturalSlot hasher x, x) :: rest, seat.1 < ringSize := by
    intro seat h
    rw [← with_] at h
    exact (mem_seats.mp h).2 ▸ slotOf_lt _
  rw [with_] at room
  simp only [List.length_append, List.length_cons] at room
  simp only [List.map_append, List.map_cons, List.nodup_append, List.nodup_cons,
    List.mem_cons] at distinct
  have before := Seated.nil.foldl_place first
    (fun seat h => onRing seat (List.mem_append_left _ h)) distinct.1
    (fun _ _ => List.not_mem_nil) (by simp; omega)
  rw [List.append_nil] at before
  have alone : (naturalSlot hasher x, x).2 ∉ (first.map Prod.snd).reverse := fun h =>
    distinct.2.2 x (List.mem_reverse.mp h) x (.inl rfl) rfl
  have here : (naturalSlot hasher x, x).1 < ringSize :=
    onRing (naturalSlot hasher x, x) (List.mem_append_right _ List.mem_cons_self)
  have few : (first.map Prod.snd).reverse.length + 1 + rest.length ≤ ringSize := by
    rw [List.length_reverse, List.length_map]
    omega
  have fresh : ∀ seat ∈ rest, seat.2 ∉ x :: (first.map Prod.snd).reverse := by
    intro seat h h'
    have listed := List.mem_map_of_mem (f := Prod.snd) h
    rw [List.mem_cons, List.mem_reverse] at h'
    cases h' with
    | inl same => exact distinct.2.1.1 (same ▸ listed)
    | inr h' => exact distinct.2.2 _ h' _ (.inr listed) rfl
  have placed := before.place (by omega) here alone
  have start := before.pushed_place (by omega) here alone
  obtain ⟨edge, pushed⟩ := start.foldl before placed rest
    (fun seat h => onRing seat (List.mem_append_right _ (List.mem_cons_of_mem _ h)))
    distinct.2.1.2 fresh few
  refine ⟨first, rest, without, with_, edge, ?_⟩
  rw [List.foldl_append, List.foldl_append]
  exact pushed

theorem exists_pushed (hasher : η) {ms : List α} {x : α} (room : ms.length + 1 ≤ ringSize)
    (absent : x ∉ ms) :
    ∃ old new : Ring η α, ofMembers hasher ms = .ok old ∧ ofMembers hasher (ms ++ [x]) = .ok new ∧
      ∃ origin edge, Pushed origin edge old.positions new.positions := by
  have few := length_seats_le hasher ms
  have seatedAll := length_seats_le hasher (ms ++ [x])
  rw [List.length_append, List.length_singleton] at seatedAll
  obtain ⟨first, rest, without, with_, edge, pushed⟩ :=
    exists_pushed_from hasher (Nat.le_trans seatedAll room) absent
  rw [← without, ← with_] at pushed
  exact ⟨_, _, if_neg (by omega), if_neg (by omega), _, edge, pushed⟩

/-! ## Who gains a key -/

/-- Seen from the slot `s`, the member `m` stands behind `b` on the one ring and not
behind the place of `b` on the other. -/
def CutsIn (old new : Ring η α) (s : Nat) (m b : α) : Prop :=
  ∃ p q t, old.position? m = some p ∧ new.position? m = some q ∧ old.position? b = some t ∧
    stepsTo s q ≤ stepsTo s t ∧ stepsTo s t < stepsTo s p

variable [BEq α] [LawfulBEq α] {κ : Type} [HashWith η κ]

/-- A key moves to the newcomer only, whatever the number of copies, just when nobody
is pushed on so far that it cuts in.  Who does cut in gains the key, although it was
there before. -/
theorem gains_by_arrival_iff (hasher : η) {ms : List α} {x : α} (room : ms.length + 1 ≤ ringSize)
    (absent : x ∉ ms) :
    ∃ old new : Ring η α, ofMembers hasher ms = .ok old ∧
      ofMembers hasher (ms ++ [x]) = .ok new ∧ ∀ key : κ,
        ((∀ count, ∀ a ∈ new.locate key count, a = x ∨ a ∈ old.locate key count) ↔
          ∀ m ∈ ms, ∀ b ∈ ms, ¬ CutsIn old new (old.slotOfKey key) m b) ∧
        ∀ m, (∃ count, m ∈ old.gainedOwners new key count ∧ m ≠ x) ↔
          m ∈ ms ∧ ∃ b ∈ ms, CutsIn old new (old.slotOfKey key) m b := by
  obtain ⟨old, new, before, after, origin, edge, pushed⟩ := exists_pushed hasher room absent
  refine ⟨old, new, before, after, fun key => ?_⟩
  have sound := sound_ofMembers before
  have sound' := sound_ofMembers after
  have same : new.slotOfKey key = old.slotOfKey key := by
    rw [slotOfKey, slotOfKey, hashOf, hashOf, hasher_ofMembers before, hasher_ofMembers after]
  have listed {m : α} : m ∈ ms ↔ ∃ p, old.position? m = some p := by
    rw [← mem_members_ofMembers before, sound.mem_members_iff]
  have gains (m : α) (mem : m ∈ ms) :
      (∃ count, m ∈ new.locate key count ∧ m ∉ old.locate key count) ↔
        ∃ b ∈ ms, CutsIn old new (old.slotOfKey key) m b := by
    obtain ⟨p, stood⟩ := listed.mp mem
    obtain ⟨q, stands⟩ := sound'.mem_members_iff.mp
      ((mem_members_ofMembers after).mpr (List.mem_append_left [x] mem))
    have fewer := pushed.passed_lt_iff (onRing_ofMembers before) (onRing_ofMembers after)
      (slotOf_lt _) ((sound.position_iff m p).mp stood) ((sound'.position_iff m q).mp stands)
      (s := old.slotOfKey key)
    simp only [sound.mem_locate_iff (onRing_ofMembers before) stood,
      sound'.mem_locate_iff (onRing_ofMembers after) stands, same, Nat.not_lt]
    constructor
    · rintro ⟨count, near, far⟩
      obtain ⟨t, b, there, between⟩ := fewer.mp (Nat.lt_of_lt_of_le near far)
      have place := (sound.position_iff b t).mpr there
      exact ⟨b, listed.mpr ⟨t, place⟩, p, q, t, stood, stands, place, between⟩
    · rintro ⟨b, -, p', q', t, stood', stands', place, between⟩
      rw [stood] at stood'
      rw [stands] at stands'
      cases stood'
      cases stands'
      exact ⟨_, fewer.mpr ⟨t, b, (sound.position_iff b t).mp place, between⟩, Nat.le_refl _⟩
  have known {m : α} {count : Nat} (h : m ∈ new.locate key count) : m ∈ ms ∨ m = x := by
    simpa using (mem_members_ofMembers after).mp (sound'.mem_members_of_mem_locate h)
  constructor
  · constructor
    · intro only m mem b hb cuts
      obtain ⟨count, gained, other⟩ := (gains m mem).mpr ⟨b, hb, cuts⟩
      rcases only count m gained with rfl | h
      · exact absent mem
      · exact other h
    · intro none count a h
      by_contra gained
      rw [not_or] at gained
      have mem := (known h).resolve_right gained.1
      obtain ⟨b, hb, cuts⟩ := (gains a mem).mp ⟨count, h, gained.2⟩
      exact none a mem b hb cuts
  · intro m
    constructor
    · rintro ⟨count, gained, other⟩
      obtain ⟨h, new⟩ := mem_lost.mp gained
      have mem := (known h).resolve_right other
      exact ⟨mem, (gains m mem).mp ⟨count, h, new⟩⟩
    · rintro ⟨mem, cuts⟩
      obtain ⟨count, h, new⟩ := (gains m mem).mpr cuts
      exact ⟨count, mem_lost.mpr ⟨h, new⟩, fun same => absent (same ▸ mem)⟩

theorem gains_by_arrival_iff_of_pair :
    (["A", "n136"].length + 1 ≤ ringSize ∧ "n132" ∉ ["A", "n136"]) ∧
      ∃ old new : Ring Strategy Address,
        ofMembers .sip24 ["A", "n136"] = .ok old ∧
        ofMembers .sip24 (["A", "n136"] ++ ["n132"]) = .ok new ∧ ∀ key : String,
          ((∀ count, ∀ a ∈ new.locate key count, a = "n132" ∨ a ∈ old.locate key count) ↔
            ∀ m ∈ ["A", "n136"], ∀ b ∈ ["A", "n136"],
              ¬ CutsIn old new (old.slotOfKey key) m b) ∧
          ∀ m, (∃ count, m ∈ old.gainedOwners new key count ∧ m ≠ "n132") ↔
            m ∈ ["A", "n136"] ∧ ∃ b ∈ ["A", "n136"], CutsIn old new (old.slotOfKey key) m b := by
  have room : ["A", "n136"].length + 1 ≤ ringSize := by decide
  have absent : "n132" ∉ ["A", "n136"] := by decide
  exact ⟨⟨room, absent⟩, gains_by_arrival_iff Strategy.sip24 room absent⟩

/-- Here "n136" stands on the slot that "n132" wants, and the key on the slot behind it:
"n136" is carried over the key and takes it from "A". -/
theorem key_moved_between_old_members :
    (do
      let old ← ofMembers Strategy.sip24 ["A", "n136"]
      let new ← ofMembers Strategy.sip24 ["A", "n136", "n132"]
      pure (old.locate "k35992" 1, new.locate "k35992" 1, old.gainedOwners new "k35992" 1)) =
      (.ok (["A"], ["n136"], ["n136"]) : Except RingFull _) := by
  decide +kernel

end Ring

end SlotRing
