/-
# What a store knows of a key

Of two copies of a key the one with the higher version survives.  A store that
has taken part in all writes of a key that another has taken part in is ahead of
it (`Store.Behind`), and then it refuses whatever the other has to offer.
-/
import SlotRing.Proofs.Cluster.Writes

namespace SlotRing.Store

variable {s t u : Store} {key : String}

/-! ## Stores that agree on a key -/

theorem SameAt.refl (s : Store) (key : String) : s.SameAt s key := ⟨rfl, rfl⟩

theorem SameAt.symm (h : s.SameAt t key) : t.SameAt s key := ⟨h.1.symm, h.2.symm⟩

theorem SameAt.trans (h : s.SameAt t key) (h' : t.SameAt u key) : s.SameAt u key :=
  ⟨h.1.trans h'.1, h.2.trans h'.2⟩

theorem SameAt.value? (h : s.SameAt t key) : s.value? key = t.value? key := by
  rw [Store.value?, Store.value?, h.1]

theorem SameAt.insert (h : s.SameAt t key) (e : Entry) : (s.insert e).SameAt (t.insert e) key := by
  refine ⟨?_, ?_⟩
  · rw [get?_insert, get?_insert, h.1]
  · rw [removed?_insert, removed?_insert, h.2]

theorem removed?_remove (removed : String) :
    (s.write (.remove removed)).removed? key =
      if removed = key then ((s.get? removed).map Entry.version).or (s.removed? removed)
      else s.removed? key := by
  rw [write]
  split
  · next none =>
    split
    · next same => rw [← same, none]; rfl
    · rfl
  · next e found =>
    rw [found]
    show (Std.ExtTreeMap.insert _ _ _)[key]? = _
    rw [Std.ExtTreeMap.getElem?_insert]
    simp [removed?]

theorem SameAt.write (h : s.SameAt t key) (w : Write) : (s.write w).SameAt (t.write w) key := by
  cases w with
  | put written value =>
    by_cases own : written = key
    · subst own
      have next : s.nextVersion written = t.nextVersion written := by
        rw [nextVersion, nextVersion, h.version?]
      show (s.insert ⟨written, value, s.nextVersion written⟩).SameAt
        (t.insert ⟨written, value, t.nextVersion written⟩) written
      rw [next]
      exact h.insert _
    · exact (sameAt_insert (e := ⟨written, value, _⟩) own).trans
        (h.trans (sameAt_insert (e := ⟨written, value, _⟩) own).symm)
  | remove removed =>
    refine ⟨?_, ?_⟩
    · rw [get?_remove, get?_remove, h.1]
    · rw [removed?_remove, removed?_remove]
      split
      · next same => rw [same, h.1, h.2]
      · exact h.2

theorem sameAt_write {w : Write} (other : w.key ≠ key) : (s.write w).SameAt s key := by
  cases w with
  | put written value => exact sameAt_insert (e := ⟨written, value, _⟩) other
  | remove removed =>
    refine ⟨?_, ?_⟩
    · exact (get?_remove removed).trans (if_neg other)
    · exact (removed?_remove removed).trans (if_neg other)

theorem SameAt.writeAll (h : s.SameAt t key) (ws : List Write) :
    (s.writeAll ws).SameAt (t.writeAll ws) key := by
  induction ws generalizing s t with
  | nil => exact h
  | cons w ws ih => exact ih (h.write w)

theorem sameAt_writeAll_filter {ws : List Write} {p : Write → Bool}
    (kept : ∀ w ∈ ws, w.key = key → p w = true) :
    (s.writeAll (ws.filter p)).SameAt (s.writeAll ws) key := by
  induction ws generalizing s with
  | nil => exact SameAt.refl s key
  | cons w ws ih =>
    have rest : ∀ s : Store, (s.writeAll (ws.filter p)).SameAt (s.writeAll ws) key :=
      fun s => ih fun w hw => kept w (List.mem_cons_of_mem _ hw)
    by_cases taken : p w = true
    · rw [List.filter_cons_of_pos taken]
      exact rest (s.write w)
    · have other : w.key ≠ key := fun same => taken (kept w List.mem_cons_self same)
      rw [List.filter_cons_of_neg taken]
      exact (rest s).trans ((sameAt_write other).symm.writeAll ws)

theorem sameAt_writeAll {ws : List Write} (untouched : ∀ w ∈ ws, w.key ≠ key) :
    (s.writeAll ws).SameAt s key := by
  have none : ws.filter (fun _ => false) = [] := by simp
  have := sameAt_writeAll_filter (s := s) (p := fun _ => false)
    fun w hw same => absurd same (untouched w hw)
  rw [none] at this
  exact this.symm

/-- Who is sent the writes of a key gets all of them, and who is not gets
none. -/
theorem sameAt_share (s : Store) (serving : String → List Address) (tx : Transaction)
    (a : Address) (key : String) :
    (s.writeAll (share serving tx a)).SameAt
      (if a ∈ serving key then s.writeAll tx.writes else s) key := by
  split
  · next serves =>
    exact sameAt_writeAll_filter fun w _ same => List.contains_iff_mem.mpr (same ▸ serves)
  · next other =>
    refine sameAt_writeAll fun w hw same => other ?_
    exact same ▸ List.contains_iff_mem.mp (List.mem_filter.mp hw).2

/-! ## Being behind -/

/-- What the first store knows of a key is not newer than what the second
knows. -/
def Behind (s t : Store) (key : String) : Prop :=
  ∀ v, s.version? key = some v → ∃ v', t.version? key = some v' ∧ v ≤ v'

theorem Behind.refl (s : Store) (key : String) : s.Behind s key :=
  fun v h => ⟨v, h, Nat.le_refl v⟩

theorem Behind.trans (h : s.Behind t key) (h' : t.Behind u key) : s.Behind u key := by
  intro v hv
  obtain ⟨v', hv', le⟩ := h v hv
  obtain ⟨v'', hv'', le'⟩ := h' v' hv'
  exact ⟨v'', hv'', Nat.le_trans le le'⟩

theorem Behind.congr {s' t' : Store} (h : s.Behind t key) (hs : s'.SameAt s key)
    (ht : t'.SameAt t key) : s'.Behind t' key := by
  intro v hv
  rw [hs.version?] at hv
  rw [ht.version?]
  exact h v hv

theorem behind_of_unknown (h : s.version? key = none) : s.Behind t key :=
  fun v hv => absurd (h.symm.trans hv) (by simp)

theorem version?_put (value : List UInt8) :
    (s.write (.put key value)).version? key = some (s.nextVersion key) :=
  version?_of_get? (e := ⟨key, value, s.nextVersion key⟩) ((get?_put key value).trans (if_pos rfl))

theorem Behind.write (h : s.Behind t key) (w : Write) : (s.write w).Behind (t.write w) key := by
  by_cases own : w.key = key
  · cases w with
    | put written value =>
      obtain rfl : written = key := own
      intro v hv
      refine ⟨t.nextVersion written, version?_put value, ?_⟩
      rw [version?_put, Option.some.injEq] at hv
      rw [← hv, nextVersion]
      split
      · rw [nextVersion]
        split
        · exact Nat.le_refl 1
        · exact Nat.le_add_left 1 _
      · next known =>
        obtain ⟨v', hv', le⟩ := h _ known
        rw [nextVersion, hv']
        exact Nat.succ_le_succ le
    | remove removed =>
      intro v hv
      rw [version?_remove] at hv ⊢
      exact h v hv
  · exact h.congr (sameAt_write own) (sameAt_write own)

theorem behind_write (s : Store) (w : Write) (key : String) : s.Behind (s.write w) key := by
  by_cases own : w.key = key
  · cases w with
    | put written value =>
      obtain rfl : written = key := own
      intro v hv
      refine ⟨s.nextVersion written, version?_put value, ?_⟩
      rw [nextVersion, hv]
      exact Nat.le_succ v
    | remove removed =>
      intro v hv
      rw [version?_remove]
      exact ⟨v, hv, Nat.le_refl v⟩
  · exact (Behind.refl s key).congr (SameAt.refl s key) (sameAt_write own)

theorem Behind.writeAll (h : s.Behind t key) (ws : List Write) :
    (s.writeAll ws).Behind (t.writeAll ws) key := by
  induction ws generalizing s t with
  | nil => exact h
  | cons w ws ih => exact ih (h.write w)

theorem behind_writeAll (s : Store) (ws : List Write) (key : String) :
    s.Behind (s.writeAll ws) key := by
  induction ws generalizing s with
  | nil => exact Behind.refl s key
  | cons w ws ih => exact (behind_write s w key).trans (ih (s.write w))

theorem accepts_eq_false_iff {e : Entry} :
    t.accepts e = false ↔ ∃ v, t.version? e.key = some v ∧ e.version ≤ v := by
  rw [accepts]
  cases known : t.version? e.key with
  | none => simp
  | some v => simp

/-! ## Merging -/

theorem behind_insert {e : Entry} (accepted : s.accepts e = true) (key : String) :
    s.Behind (s.insert e) key := by
  intro v known
  by_cases own : e.key = key
  · subst own
    rw [accepts, known, decide_eq_true_iff] at accepted
    exact ⟨e.version, version?_of_get? (by rw [get?_insert, if_pos rfl]), Nat.le_of_lt accepted⟩
  · exact ⟨v, (sameAt_insert own).version?.trans known, Nat.le_refl v⟩

theorem behind_merge (es : List Entry) (key : String) : s.Behind (s.merge es).1 key := by
  induction es generalizing s with
  | nil => exact Behind.refl s key
  | cons e es ih =>
    cases accepted : s.accepts e with
    | true =>
      rw [merge_cons_of_accepts accepted]
      exact (behind_insert accepted key).trans ih
    | false =>
      rw [merge_cons_of_refuses accepted]
      exact ih

/-- Nothing that was merged is newer than what is there then. -/
theorem exists_version?_merge {es : List Entry} {e : Entry} (mem : e ∈ es) :
    ∃ v, (s.merge es).1.version? e.key = some v ∧ e.version ≤ v := by
  induction es generalizing s with
  | nil => cases mem
  | cons d es ih =>
    cases accepted : s.accepts d with
    | true =>
      rw [merge_cons_of_accepts accepted]
      rcases List.mem_cons.mp mem with rfl | mem
      · exact behind_merge es e.key e.version
          (version?_of_get? (by rw [get?_insert, if_pos rfl]))
      · exact ih mem
    | false =>
      rw [merge_cons_of_refuses accepted]
      rcases List.mem_cons.mp mem with rfl | mem
      · obtain ⟨v, known, le⟩ := accepts_eq_false_iff.mp accepted
        obtain ⟨v', known', le'⟩ := behind_merge es e.key v known
        exact ⟨v', known', Nat.le_trans le le'⟩
      · exact ih mem

theorem get?_merge_empty (es : List Entry) (key : String) :
    ((empty.merge es).1.get? key = none ∧ ∀ e ∈ es, e.key ≠ key) ∨
    ∃ e ∈ es, e.key = key ∧ (empty.merge es).1.get? key = some e ∧
      ∀ d ∈ es, d.key = key → d.version ≤ e.version := by
  rcases get?_merge empty es key with none | ⟨e, he, own, found⟩
  · refine .inl ⟨none.trans (get?_empty key), ?_⟩
    rintro e he rfl
    obtain ⟨v, known, -⟩ := exists_version?_merge (s := empty) he
    rw [version?_of_not_live (none.trans (get?_empty e.key)),
      removed?_merge Std.ExtTreeMap.getElem?_empty] at known
    cases known
  · refine .inr ⟨e, he, own, found, ?_⟩
    rintro d hd rfl
    obtain ⟨v, known, le⟩ := exists_version?_merge (s := empty) hd
    rw [version?_of_get? found] at known
    exact Option.some.inj known ▸ le

/-! ## Being offered copies -/

/-- The second store has come out of the first, which had no entry of the key,
by being offered some: all of them were refused, or one of them was taken and
one of them is there now. -/
def Received (s : Store) (key : String) (offered : Entry → Prop) (t : Store) : Prop :=
  (t.SameAt s key ∧ ∀ e, offered e → s.accepts e = false) ∨
    ∃ e, offered e ∧ t.get? key = some e ∧ ∃ e', offered e' ∧ s.accepts e' = true

section

variable {offered offered' : Entry → Prop}

theorem Received.congr (h : s.Received key offered t) {t' : Store} (same : t'.SameAt t key)
    (all : ∀ e, offered e ↔ offered' e) : s.Received key offered' t' := by
  obtain rfl : offered = offered' := funext fun e => propext (all e)
  rcases h with ⟨untouched, refused⟩ | ⟨e, offer, found, taken⟩
  · exact .inl ⟨same.trans untouched, refused⟩
  · exact .inr ⟨e, offer, same.1.trans found, taken⟩

theorem Received.merge (h : s.Received key offered t) (dead : s.get? key = none)
    (es : List Entry) :
    s.Received key (fun e => offered e ∨ (e ∈ es ∧ e.key = key)) (t.merge es).1 := by
  rcases h with ⟨untouched, refused⟩ | ⟨e, offer, found, e', offer', taken⟩
  · by_cases all : ∀ e ∈ es, e.key = key → t.accepts e = false
    · refine .inl ⟨(sameAt_merge all).trans untouched, ?_⟩
      rintro e (offer | ⟨he, own⟩)
      · exact refused e offer
      · rw [← all e he own, accepts, accepts, own, untouched.version?]
    · obtain ⟨e, he, own, taken⟩ : ∃ e ∈ es, e.key = key ∧ t.accepts e = true := by
        simpa using all
      have live := isSome_get?_merge_of_accepts he taken
      rw [own] at live
      rcases get?_merge t es key with same | ⟨e', he', own', found⟩
      · rw [same, untouched.1, dead] at live
        cases live
      · refine .inr ⟨e', .inr ⟨he', own'⟩, found, e, .inr ⟨he, own⟩, ?_⟩
        rw [accepts, own, untouched.version?, ← own] at taken
        exact taken
  · rcases get?_merge t es key with same | ⟨e'', he, own, found'⟩
    · exact .inr ⟨e, .inl offer, same.trans found, e', .inl offer', taken⟩
    · exact .inr ⟨e'', .inr ⟨he, own⟩, found', e', .inl offer', taken⟩

end

end SlotRing.Store
