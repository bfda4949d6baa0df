/-
# Merges in whatever order

State comes from several members, in chunks, perhaps more than once, and nobody says in
which order.  The version of a key alone decides what is left of that: before the first
entry with the highest version everything that was taken is older, and from it on
everything is refused (`get?_merge_of_greatest`).  So a second merge of the same entries
takes none, and it does not matter how they were ordered, as long as a version of a key
stands for one value (`merge_keeps_newest`).
-/
import Mathlib.Data.List.MinMax
import Mathlib.Order.Bounds.Basic
import SlotRing.Proofs.Store.Versions

namespace SlotRing.Store

variable {s t : Store} {key : String} {es fs : List Entry} {m : Nat}

theorem eq_of_sameAt (same : ∀ key, s.SameAt t key) : s = t := by
  obtain ⟨live, removed⟩ := s
  obtain ⟨live', removed'⟩ := t
  obtain rfl : live = live' := Std.ExtTreeMap.ext_getElem? fun key => (same key).1
  obtain rfl : removed = removed' := Std.ExtTreeMap.ext_getElem? fun key => (same key).2
  rfl

theorem merge_of_refused (refused : ∀ e ∈ es, s.accepts e = false) : s.merge es = (s, 0) := by
  induction es with
  | nil => rfl
  | cons e es ih =>
    obtain ⟨first, rest⟩ := List.forall_mem_cons.mp refused
    rw [merge, first]
    exact ih rest

/-- A second merge of the same entries takes none of them. -/
theorem merge_merge (s : Store) (es : List Entry) :
    (s.merge es).1.merge es = ((s.merge es).1, 0) :=
  merge_of_refused fun _ mem => accepts_eq_false_iff.mpr (exists_version?_merge mem)

theorem foldl_merge_count (chunks : List (List Entry)) (s : Store) (taken : Nat) :
    chunks.foldl (fun (s, taken) chunk => ((s.merge chunk).1, taken + (s.merge chunk).2))
        (s, taken) =
      ((s.merge chunks.flatten).1, taken + (s.merge chunks.flatten).2) := by
  induction chunks generalizing s taken with
  | nil => rfl
  | cons chunk chunks ih =>
    rw [List.foldl_cons, ih, List.flatten_cons, merge_append, Nat.add_assoc]

/-! ## The highest version -/

/-- What is known of a key stays below a version that nothing of what comes reaches. -/
theorem version?_merge_lt (known : ∀ v ∈ s.version? key, v < m)
    (older : ∀ e ∈ es, e.key = key → e.version < m) :
    ∀ v ∈ (s.merge es).1.version? key, v < m := by
  induction es generalizing s with
  | nil => exact known
  | cons e es ih =>
    obtain ⟨first, rest⟩ := List.forall_mem_cons.mp older
    cases accepted : s.accepts e with
    | true =>
      rw [merge_cons_of_accepts accepted]
      refine ih (fun v there => ?_) rest
      by_cases own : e.key = key
      · rw [version?_of_get? ((get?_insert s e key).trans (if_pos own))] at there
        exact Option.some.inj there ▸ first own
      · exact known v ((sameAt_insert own).version? ▸ there)
    | false =>
      rw [merge_cons_of_refuses accepted]
      exact ih known rest

theorem sameAt_merge_of_le {v : Nat} (known : s.version? key = some v)
    (older : ∀ e ∈ es, e.key = key → e.version ≤ v) : (s.merge es).1.SameAt s key :=
  sameAt_merge fun e mem own =>
    accepts_eq_false_iff.mpr ⟨v, by rw [own]; exact known, older e mem own⟩

def incoming (es : List Entry) (key : String) : Set Nat :=
  {v | ∃ e ∈ es, e.key = key ∧ e.version = v}

theorem incoming_eq_of_perm (order : es.Perm fs) : incoming es key = incoming fs key := by
  ext v
  exact exists_congr fun e => and_congr_left fun _ => order.mem_iff

/-- The first entry of a key with a version. -/
def first? (es : List Entry) (key : String) (v : Nat) : Option Entry :=
  es.find? fun e => e.key = key ∧ e.version = v

theorem exists_first? (comes : m ∈ incoming es key) :
    ∃ e ∈ es, first? es key m = some e ∧ e.key = key ∧ e.version = m := by
  obtain ⟨d, mem, own, top⟩ := comes
  obtain ⟨e, first⟩ : ∃ e, first? es key m = some e :=
    Option.isSome_iff_exists.mp (List.find?_isSome.mpr ⟨d, mem, by simp [own, top]⟩)
  exact ⟨e, List.mem_of_find?_eq_some first, first, of_decide_eq_true (List.find?_some first :)⟩

/-- The version is newer than what is known of the key, live or removed. -/
def Newer (m : Nat) (s : Store) (key : String) : Prop := ∀ v ∈ s.version? key, v < m

/-- The first of the entries with the highest version is there in the end, if that version
is newer than what was known. -/
theorem get?_merge_of_greatest (greatest : IsGreatest (incoming es key) m)
    (newer : Newer m s key) :
    (s.merge es).1.get? key = first? es key m ∧ (s.merge es).1.removed? key = none := by
  have bound (d : Entry) (mem : d ∈ es) (own : d.key = key) : d.version ≤ m :=
    greatest.2 ⟨d, mem, own, rfl⟩
  obtain ⟨e, -, first, own, top⟩ := exists_first? greatest.1
  obtain ⟨-, front, back, rfl, before⟩ := List.find?_eq_some_iff_append.mp first
  -- what comes before the entry is older, and what comes behind it is not newer
  have older : ∀ v ∈ (s.merge front).1.version? key, v < m := by
    refine version?_merge_lt newer fun d mem own => Nat.lt_of_le_of_ne ?_ fun top => ?_
    · exact bound d (List.mem_append_left _ mem) own
    · have other := before d mem
      simp [own, top] at other
  have accepted : (s.merge front).1.accepts e = true := by
    by_contra refused
    obtain ⟨v, known, le⟩ := accepts_eq_false_iff.mp (Bool.eq_false_iff.mpr refused)
    have := older v (own ▸ known)
    omega
  have live : ((s.merge front).1.insert e).get? key = some e :=
    (get?_insert _ e key).trans (if_pos own)
  have rest : (((s.merge front).1.insert e).merge back).1.SameAt
      ((s.merge front).1.insert e) key := by
    refine sameAt_merge_of_le (version?_of_get? live) fun d mem own => ?_
    rw [top]
    exact bound d (List.mem_append_right _ (List.mem_cons_of_mem _ mem)) own
  rw [first, merge_append, merge_cons_of_accepts accepted]
  exact ⟨rest.1.trans live, rest.2.trans ((removed?_insert _ e key).trans (if_pos own))⟩

theorem sameAt_merge_of_greatest (greatest : IsGreatest (incoming es key) m)
    (notNewer : ¬ Newer m s key) : (s.merge es).1.SameAt s key := by
  obtain ⟨v, known, le⟩ : ∃ v ∈ s.version? key, m ≤ v := by simpa [Newer] using notNewer
  exact sameAt_merge_of_le known fun e mem own => (greatest.2 ⟨e, mem, own, rfl⟩).trans le

theorem sameAt_merge_of_absent (absent : ∀ e ∈ es, e.key ≠ key) : (s.merge es).1.SameAt s key :=
  sameAt_merge fun e mem own => absurd own (absent e mem)

theorem exists_greatest (es : List Entry) (key : String) :
    (∀ e ∈ es, e.key ≠ key) ∨ ∃ m, IsGreatest (incoming es key) m := by
  have listed (e : Entry) : e ∈ es.filter (·.key == key) ↔ e ∈ es ∧ e.key = key := by
    rw [List.mem_filter, beq_iff_eq]
  cases top : (es.filter (·.key == key)).argmax Entry.version with
  | none =>
    have none := List.argmax_eq_none.mp top
    exact .inl fun e mem own => List.ne_nil_of_mem ((listed e).mpr ⟨mem, own⟩) none
  | some e =>
    obtain ⟨mem, own⟩ := (listed e).mp (List.argmax_mem top)
    refine .inr ⟨e.version, ⟨e, mem, own, rfl⟩, ?_⟩
    rintro _ ⟨d, mem', own', rfl⟩
    exact List.le_of_mem_argmax ((listed d).mpr ⟨mem', own'⟩) top

/-- Equal versions of a key stand for equal values. -/
def Consistent (es : List Entry) : Prop :=
  ∀ e ∈ es, ∀ d ∈ es, e.key = d.key → e.version = d.version → e.value = d.value

instance (es : List Entry) : Decidable (Consistent es) :=
  inferInstanceAs (Decidable (∀ e ∈ es, ∀ d ∈ es, _ → _ → _))

/-- Where a version of a key stands for one value, it does not matter in which order entries
are merged. -/
theorem merge_eq_of_perm (consistent : Consistent es) (order : es.Perm fs) :
    (s.merge es).1 = (s.merge fs).1 := by
  refine eq_of_sameAt fun key => ?_
  rcases exists_greatest es key with absent | ⟨m, greatest⟩
  · have absent' : ∀ e ∈ fs, e.key ≠ key := fun e mem => absent e (order.mem_iff.mpr mem)
    exact (sameAt_merge_of_absent absent).trans (sameAt_merge_of_absent absent').symm
  have greatest' : IsGreatest (incoming fs key) m := incoming_eq_of_perm order ▸ greatest
  by_cases newer : Newer m s key
  · obtain ⟨found, unremoved⟩ := get?_merge_of_greatest greatest newer
    obtain ⟨found', unremoved'⟩ := get?_merge_of_greatest greatest' newer
    refine ⟨?_, unremoved.trans unremoved'.symm⟩
    obtain ⟨⟨_, value, _⟩, mem, first, rfl, rfl⟩ := exists_first? greatest.1
    obtain ⟨⟨_, value', _⟩, mem', first', rfl, rfl⟩ := exists_first? greatest'.1
    have same : value = value' := consistent _ mem _ (order.mem_iff.mpr mem') rfl rfl
    rw [found, found', first, first', same]
  · exact (sameAt_merge_of_greatest greatest newer).trans
      (sameAt_merge_of_greatest greatest' newer).symm

/-- A merge leaves of each key the first of the entries with the highest version, if that
version is newer than what was known of the key, live or removed; else the key is what it
was, as are those of which nothing comes.  To merge the same entries again takes none of
them, to merge them in chunks comes to the same and takes as many, and so does, where a
version of a key stands for one value, to merge them in another order. -/
theorem merge_keeps_newest (s : Store) (es : List Entry) :
    (∀ key m, IsGreatest (incoming es key) m →
      (Newer m s key → (s.merge es).1.get? key = first? es key m ∧
        (s.merge es).1.removed? key = none) ∧
      (¬ Newer m s key → (s.merge es).1.SameAt s key)) ∧
    (∀ key, (∀ e ∈ es, e.key ≠ key) → (s.merge es).1.SameAt s key) ∧
    (s.merge es).1.merge es = ((s.merge es).1, 0) ∧
    (∀ chunks : List (List Entry), chunks.flatten = es →
      chunks.foldl (fun (s, taken) chunk => ((s.merge chunk).1, taken + (s.merge chunk).2))
        (s, 0) = s.merge es) ∧
    ∀ fs, es.Perm fs → Consistent es → (s.merge es).1 = (s.merge fs).1 := by
  refine ⟨fun key m greatest => ⟨?newer, ?older⟩, fun key => ?absent, ?again, ?chunks, ?order⟩
  case newer => exact get?_merge_of_greatest greatest
  case older => exact sameAt_merge_of_greatest greatest
  case absent => exact sameAt_merge_of_absent
  case again => exact merge_merge s es
  case chunks =>
    rintro chunks rfl
    rw [foldl_merge_count, Nat.zero_add]
  case order => exact fun fs order consistent => merge_eq_of_perm consistent order

/-- "k" was removed at version 2.  Of four entries of it that come, the second one is the
first of the newest, and brings the key back; "j" is new. -/
theorem merge_keeps_newest_of_ties :
    let s := empty.writeAll [.put "k" [1], .put "k" [2], .remove "k"]
    let es : List Entry :=
      [⟨"k", [2], 2⟩, ⟨"k", [3], 4⟩, ⟨"j", [5], 1⟩, ⟨"k", [4], 3⟩, ⟨"k", [6], 4⟩]
    (s.removed? "k" = some 2 ∧ IsGreatest (incoming es "k") 4 ∧ Newer 4 s "k") ∧
      (s.merge es).1.get? "k" = some ⟨"k", [3], 4⟩ ∧ (s.merge es).1.removed? "k" = none ∧
      (s.merge es).1.merge es = ((s.merge es).1, 0) ∧
      [es.take 2, es.drop 2].foldl
        (fun (s, taken) chunk => ((s.merge chunk).1, taken + (s.merge chunk).2)) (s, 0) =
          s.merge es ∧
      Consistent (es.take 4) ∧
      (s.merge (es.take 4)).1 = (s.merge (es.take 4).reverse).1 := by
  intro s es
  have greatest : IsGreatest (incoming es "k") 4 := by
    refine ⟨⟨⟨"k", [3], 4⟩, by decide, rfl, rfl⟩, ?_⟩
    rintro _ ⟨e, mem, -, rfl⟩
    revert e
    decide
  have newer : Newer 4 s "k" := by
    intro v known
    rw [show s.version? "k" = some 2 by decide +kernel] at known
    cases known
    decide
  have consistent : Consistent (es.take 4) := by decide
  obtain ⟨keys, -, again, chunks, -⟩ := merge_keeps_newest s es
  obtain ⟨-, -, -, -, order⟩ := merge_keeps_newest s (es.take 4)
  obtain ⟨found, unremoved⟩ := (keys "k" 4 greatest).1 newer
  exact ⟨⟨by decide +kernel, greatest, newer⟩, found.trans (by decide), unremoved, again,
    chunks _ rfl, consistent, order _ (List.reverse_perm _).symm consistent⟩

end SlotRing.Store
