/-
# Ordered maps as tables

Ordered maps are read as the lists of their pairs, and some are made from such
lists.  Here is what one can say of a row: that it is there (`getElem?_ofList_iff`),
and, where items are gathered per member, what stands in it
(`mem_perMember_iff`).
-/
import Mathlib.Data.List.Nodup
import SlotRing.Cluster.PerMember

namespace SlotRing

theorem values_eq_map_snd {α β : Type} [Ord α] [Std.TransOrd α] (t : Std.ExtTreeMap α β) :
    t.values = t.toList.map Prod.snd := by
  obtain ⟨⟨t⟩⟩ := t
  induction t using Quotient.ind with
  | _ t =>
    show t.inner.values = (Std.DTreeMap.Internal.Impl.Const.toList t.inner).map Prod.snd
    rw [Std.DTreeMap.Internal.Impl.values_eq_map_snd,
      Std.DTreeMap.Internal.Impl.Const.toList_eq_toListModel_map, List.map_map]
    rfl

theorem nodup_keys {α β : Type} [Ord α] [Std.TransOrd α] [Std.LawfulEqOrd α]
    (t : Std.ExtTreeMap α β) : t.keys.Nodup := by
  refine Std.ExtTreeMap.distinct_keys.imp fun {a b} other same => other ?_
  rw [same, Std.ReflOrd.compare_self]

/-- A table of pairs with distinct keys is found again in the map made of it. -/
theorem getElem?_ofList_iff {α β : Type} [Ord α] [Std.TransOrd α] [Std.LawfulEqOrd α]
    {table : List (α × β)}
    (distinct : table.Pairwise fun a b => ¬ compare a.1 b.1 = .eq) (k : α) (v : β) :
    (Std.ExtTreeMap.ofList table)[k]? = some v ↔ (k, v) ∈ table := by
  constructor
  · intro h
    classical
    have listed := Std.ExtTreeMap.contains_eq_isSome_getElem?
      (t := Std.ExtTreeMap.ofList table) (a := k)
    rw [Std.ExtTreeMap.contains_ofList, h, Option.isSome_some, List.contains_iff_mem] at listed
    obtain ⟨⟨k', v'⟩, mem, rfl⟩ := List.mem_map.mp listed
    have found := Std.ExtTreeMap.getElem?_ofList_of_mem Std.ReflOrd.compare_self distinct mem
    rw [h] at found
    cases found
    exact mem
  · exact fun mem =>
      Std.ExtTreeMap.getElem?_ofList_of_mem Std.ReflOrd.compare_self distinct mem

theorem lookup_filter_ne {γ : Type} (rows : List (Address × γ)) {a b : Address} (other : b ≠ a) :
    (rows.filter (·.1 != a)).lookup b = rows.lookup b := by
  induction rows with
  | nil => rfl
  | cons row rows ih =>
    by_cases gone : row.1 = a
    · have unlike : (b == row.1) = false := by
        simpa using fun same : b = row.1 => other (same.trans gone)
      rw [List.filter_cons_of_neg (by simpa using gone), ih, List.lookup_cons, unlike]
    · rw [List.filter_cons_of_pos (by simpa using gone), List.lookup_cons, List.lookup_cons, ih]

/-! ## Items per member -/

section

variable {β : Type}

/-- The items of a member, in the order in which they came up. -/
def itemsOf (items : List (Address × β)) (a : Address) : List β :=
  (items.filter (·.1 == a)).map Prod.snd

theorem mem_itemsOf {items : List (Address × β)} {a : Address} {b : β} :
    b ∈ itemsOf items a ↔ (a, b) ∈ items := by
  simp [itemsOf]

theorem getElem?_foldl_addFor (items : List (Address × β))
    (groups : Std.ExtTreeMap Address (List β)) (a : Address) :
    (items.foldl addFor groups)[a]? =
      if itemsOf items a = [] then groups[a]?
      else some ((groups[a]?.getD []) ++ itemsOf items a) := by
  induction items generalizing groups with
  | nil => simp [itemsOf]
  | cons item items ih =>
    rw [List.foldl_cons, ih, addFor, Std.ExtTreeMap.getElem?_insert]
    by_cases own : item.1 = a
    · have here : itemsOf (item :: items) a = item.2 :: itemsOf items a := by
        simp [itemsOf, own]
      rw [here, own]
      by_cases more : itemsOf items a = [] <;> simp [more]
    · have elsewhere : itemsOf (item :: items) a = itemsOf items a := by
        simp [itemsOf, own]
      rw [elsewhere]
      simp [own]

/-- The row of a member holds its items; who has none has no row. -/
theorem mem_perMember_iff {items : List (Address × β)} {a : Address} {bs : List β} :
    (a, bs) ∈ perMember items ↔ bs = itemsOf items a ∧ bs ≠ [] := by
  rw [perMember, Std.ExtTreeMap.mem_toList_iff_getElem?_eq_some, getElem?_foldl_addFor]
  split
  · next none => simp [none]
  · next some =>
    simp only [Std.ExtTreeMap.getElem?_empty, Option.getD_none, List.nil_append, Option.some.injEq]
    constructor
    · rintro rfl
      exact ⟨rfl, some⟩
    · rintro ⟨rfl, -⟩
      rfl

theorem nodup_perMember (items : List (Address × β)) :
    ((perMember items).map Prod.fst).Nodup := by
  rw [List.Nodup, List.pairwise_map]
  refine Std.ExtTreeMap.distinct_keys_toList.imp ?_
  intro a b distinct same
  exact distinct (same ▸ Std.ReflOrd.compare_self)

theorem ascending_perMember (items : List (Address × β)) :
    ((perMember items).map Prod.fst).Pairwise (· < ·) := by
  rw [List.pairwise_map]
  refine Std.ExtTreeMap.ordered_keys_toList.imp fun {_ _} before => ?_
  exact compareOfLessAndEq_eq_lt.mp before

theorem map_fst_perMember (items : List (Address × β)) :
    ((perMember items).map Prod.fst).map (fun a => (a, itemsOf items a)) = perMember items := by
  rw [List.map_map]
  refine (List.map_congr_left fun row mem => ?_).trans (List.map_id _)
  exact Prod.ext rfl (mem_perMember_iff.mp mem).1.symm

theorem lookup_eq_some_of_mem {γ : Type} {rows : List (Address × γ)}
    (distinct : (rows.map Prod.fst).Nodup) {a : Address} {c : γ} (mem : (a, c) ∈ rows) :
    rows.lookup a = some c := by
  induction rows with
  | nil => cases mem
  | cons row rows ih =>
    obtain ⟨absent, distinct⟩ := List.nodup_cons.mp distinct
    cases mem with
    | head => rw [List.lookup_cons, beq_self_eq_true]
    | tail _ mem =>
      have other : (a == row.1) = false := by
        simpa using fun same : a = row.1 => absent (same ▸ List.mem_map_of_mem mem)
      rw [List.lookup_cons, other]
      exact ih distinct mem

theorem lookup_perMember (items : List (Address × β)) (a : Address) :
    (perMember items).lookup a =
      if itemsOf items a = [] then none else some (itemsOf items a) := by
  split
  · next none =>
    rw [List.lookup_eq_none_iff]
    rintro ⟨b, bs⟩ mem
    obtain ⟨rfl, some⟩ := mem_perMember_iff.mp mem
    simpa using fun same : a = b => some (same ▸ none)
  · next some =>
    exact lookup_eq_some_of_mem (nodup_perMember items) (mem_perMember_iff.mpr ⟨rfl, some⟩)

/-- Where each item goes to several members, a member gets those that name
it. -/
theorem itemsOf_flatMap {γ : Type} (xs : List γ) (goals : γ → List Address)
    (distinct : ∀ x ∈ xs, (goals x).Nodup) (a : Address) :
    itemsOf (xs.flatMap fun x => (goals x).map (·, x)) a =
      xs.filter fun x => (goals x).contains a := by
  induction xs with
  | nil => rfl
  | cons x xs ih =>
    have own : itemsOf ((goals x).map (·, x)) a = if (goals x).contains a then [x] else [] := by
      have nodup := distinct x List.mem_cons_self
      rw [itemsOf, List.filter_map, List.map_map]
      show ((goals x).filter (· == a)).map (fun _ => x) = _
      rw [List.filter_beq, List.map_replicate, nodup.count]
      split <;> simp [*]
    have split : ∀ l l' : List (Address × γ), itemsOf (l ++ l') a = itemsOf l a ++ itemsOf l' a :=
      fun l l' => by rw [itemsOf, List.filter_append, List.map_append]; rfl
    rw [List.flatMap_cons, split, own, ih fun y hy => distinct y (List.mem_cons_of_mem _ hy),
      List.filter_cons]
    split <;> rfl

/-! ### Rows and pairs -/

/-- The pairs that stand in rows. -/
def pairsOf (rows : List (Address × List β)) : List (Address × β) :=
  rows.flatMap fun row => row.2.map (row.1, ·)

theorem mem_pairsOf_perMember {items : List (Address × β)} {item : Address × β} :
    item ∈ pairsOf (perMember items) ↔ item ∈ items := by
  obtain ⟨a, b⟩ := item
  refine Iff.trans ⟨?_, ?_⟩ mem_itemsOf
  · intro mem
    obtain ⟨⟨_, bs⟩, listed, here⟩ := List.mem_flatMap.mp mem
    obtain ⟨_, hb, same⟩ := List.mem_map.mp here
    obtain ⟨rfl, rfl⟩ := Prod.mk.inj same
    exact (mem_perMember_iff.mp listed).1 ▸ hb
  · exact fun mem => List.mem_flatMap.mpr ⟨(a, itemsOf items a),
      mem_perMember_iff.mpr ⟨rfl, List.ne_nil_of_mem mem⟩, List.mem_map.mpr ⟨b, mem, rfl⟩⟩

theorem nodup_itemsOf {items : List (Address × β)} (distinct : items.Nodup) (a : Address) :
    (itemsOf items a).Nodup := by
  refine (distinct.filter _).map_on fun item hi other ho same => ?_
  have left := (List.mem_filter.mp hi).2
  have right := (List.mem_filter.mp ho).2
  rw [beq_iff_eq] at left right
  exact Prod.ext (left.trans right.symm) same

theorem nodup_pairsOf_perMember {items : List (Address × β)} (distinct : items.Nodup) :
    (pairsOf (perMember items)).Nodup := by
  refine List.nodup_flatMap.mpr ⟨fun ⟨a, bs⟩ listed => ?_, ?_⟩
  · rw [(mem_perMember_iff.mp listed).1]
    exact (nodup_itemsOf distinct a).map fun _ _ same => (Prod.mk.inj same).2
  · refine (List.pairwise_map.mp (nodup_perMember items)).imp fun other pair here there => ?_
    obtain ⟨_, -, rfl⟩ := List.mem_map.mp here
    obtain ⟨_, -, same⟩ := List.mem_map.mp there
    exact other (Prod.mk.inj same).1.symm

theorem length_pairsOf_perMember {items : List (Address × β)} (distinct : items.Nodup) :
    (pairsOf (perMember items)).length = items.length :=
  ((List.perm_ext_iff_of_nodup (nodup_pairsOf_perMember distinct) distinct).mpr
    fun _ => mem_pairsOf_perMember).length_eq

end

end SlotRing
