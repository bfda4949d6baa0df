/-
# What a store holds under a key

Nothing that happens to a store mixes keys up: what it holds under one key
follows from what was done to that key.  For writes that is the value of the
last one (`value?_writeAll`), for a merge the old entry or one of those that
came (`get?_merge`), where an entry that is refused leaves no trace
(`same_merge`), and for dropped copies nothing.
-/
import SlotRing.Proofs.Tables
import SlotRing.WriteLog.Basic

namespace SlotRing

/-! ## Values -/

/-- What a write makes of the value under a key. -/
def Write.upon (w : Write) (key : String) (current : Option (List UInt8)) :
    Option (List UInt8) :=
  if w.key = key then
    match w with
    | .put _ value => some value
    | .remove _ => none
  else current

theorem Write.upon_of_ne {w : Write} {key : String} {current : Option (List UInt8)}
    (other : w.key ≠ key) : w.upon key current = current :=
  if_neg other

/-- The value under a key after some writes: that of the last put if no remove
has come later, and `initial` if the key was not written. -/
def valueAfter (ws : List Write) (key : String) (initial : Option (List UInt8)) :
    Option (List UInt8) :=
  ws.foldl (fun current w => w.upon key current) initial

section

variable {key : String} {initial : Option (List UInt8)}

theorem valueAfter_append (ws ws' : List Write) :
    valueAfter (ws ++ ws') key initial = valueAfter ws' key (valueAfter ws key initial) :=
  List.foldl_append

theorem valueAfter_of_untouched {ws : List Write} (h : ∀ w ∈ ws, w.key ≠ key) :
    valueAfter ws key initial = initial := by
  induction ws with
  | nil => rfl
  | cons w ws ih =>
    rw [valueAfter, List.foldl_cons, Write.upon_of_ne (h w List.mem_cons_self)]
    exact ih fun w hw => h w (List.mem_cons_of_mem _ hw)

/-- Once a key has been written, its value does not depend on what it was. -/
theorem valueAfter_of_touched {ws : List Write} (h : ∃ w ∈ ws, w.key = key)
    (other : Option (List UInt8)) : valueAfter ws key initial = valueAfter ws key other := by
  induction ws generalizing initial other with
  | nil => obtain ⟨w, hw, -⟩ := h; cases hw
  | cons w ws ih =>
    by_cases this : w.key = key
    · simp only [valueAfter, List.foldl_cons, Write.upon, if_pos this]
    · obtain ⟨w', hw', same⟩ := h
      cases hw' with
      | head => exact absurd same this
      | tail _ hw' => exact ih ⟨w', hw', same⟩ _

theorem valueAfter_filter {ws : List Write} {p : Write → Bool}
    (h : ∀ w ∈ ws, w.key = key → p w = true) :
    valueAfter (ws.filter p) key initial = valueAfter ws key initial := by
  induction ws generalizing initial with
  | nil => rfl
  | cons w ws ih =>
    have rest : ∀ initial, valueAfter (ws.filter p) key initial = valueAfter ws key initial :=
      fun _ => ih fun w hw => h w (List.mem_cons_of_mem _ hw)
    by_cases kept : p w = true
    · rw [List.filter_cons_of_pos kept]
      exact rest _
    · have other : w.key ≠ key := fun same => kept (h w List.mem_cons_self same)
      rw [List.filter_cons_of_neg kept, rest]
      simp only [valueAfter, List.foldl_cons, Write.upon_of_ne other]

end

namespace Store

def value? (s : Store) (key : String) : Option (List UInt8) := (s.get? key).map Entry.value

def Keyed (s : Store) : Prop := ∀ key e, s.get? key = some e → e.key = key

theorem keyed_empty : Store.empty.Keyed := fun key e h => by simp at h

/-! ## A single entry -/

theorem get?_empty_insert (e : Entry) (key : String) :
    (empty.insert e).get? key = if key = e.key then some e else none := by
  rw [get?_insert, get?_empty]
  exact ite_congr (propext eq_comm) (fun _ => rfl) fun _ => rfl

theorem removed?_empty_insert (e : Entry) (key : String) :
    (empty.insert e).removed? key = none := by
  rw [removed?_insert]
  split
  · rfl
  · exact Std.ExtTreeMap.getElem?_empty

variable {s : Store} {key : String}

theorem version?_of_get? {e : Entry} (h : s.get? key = some e) :
    s.version? key = some e.version := by
  rw [version?, h]
  rfl

theorem version?_of_not_live (h : s.get? key = none) : s.version? key = s.removed? key := by
  rw [version?, h]
  rfl

/-! ## Writing -/

theorem get?_remove (removed : String) :
    (s.write (.remove removed)).get? key = if removed = key then none else s.get? key := by
  rw [write]
  split
  · next h =>
    split
    · next same => rw [← same, h]
    · rfl
  · simp [get?, Std.ExtTreeMap.getElem?_erase]

theorem version?_remove (removed : String) :
    (s.write (.remove removed)).version? key = s.version? key := by
  by_cases same : removed = key
  · subst same
    rw [write]
    split
    · rfl
    · next e h =>
      rw [version?_of_get? h]
      simp [version?, get?, removed?]
  · rw [write]
    split
    · rfl
    · simp [version?, get?, removed?, Std.ExtTreeMap.getElem?_erase,
        Std.ExtTreeMap.getElem?_insert, same]

theorem get?_put (written : String) (value : List UInt8) :
    (s.write (.put written value)).get? key =
      if written = key then some ⟨written, value, s.nextVersion written⟩ else s.get? key :=
  get?_insert s _ key

theorem value?_write (w : Write) : (s.write w).value? key = w.upon key (s.value? key) := by
  cases w with
  | put written value =>
    rw [value?, get?_put, Write.upon]
    show _ = if written = key then some value else _
    split <;> rfl
  | remove removed =>
    rw [value?, get?_remove, Write.upon]
    show _ = if removed = key then none else _
    split <;> rfl

theorem value?_writeAll (ws : List Write) :
    (s.writeAll ws).value? key = valueAfter ws key (s.value? key) := by
  induction ws generalizing s with
  | nil => rfl
  | cons w ws ih =>
    show ((s.write w).writeAll ws).value? key = valueAfter ws key (w.upon key (s.value? key))
    rw [ih, value?_write]

theorem Keyed.insert (keyed : s.Keyed) (e : Entry) : (s.insert e).Keyed := by
  intro key e' h
  rw [get?_insert] at h
  split at h
  · next same => cases h; exact same
  · exact keyed key e' h

theorem Keyed.write (keyed : s.Keyed) (w : Write) : (s.write w).Keyed := by
  cases w with
  | put written value => exact keyed.insert _
  | remove removed =>
    intro key e h
    rw [get?_remove] at h
    split at h
    · cases h
    · exact keyed key e h

theorem Keyed.writeAll (keyed : s.Keyed) (ws : List Write) : (s.writeAll ws).Keyed := by
  induction ws generalizing s with
  | nil => exact keyed
  | cons w ws ih => exact ih (keyed.write w)

/-! ## Merging -/

theorem Keyed.merge (keyed : s.Keyed) (es : List Entry) : (s.merge es).1.Keyed := by
  induction es generalizing s with
  | nil => exact keyed
  | cons e es ih =>
    rw [Store.merge]
    split
    · exact ih (keyed.insert e)
    · exact ih keyed

theorem merge_cons_of_accepts {e : Entry} (h : s.accepts e = true) (es : List Entry) :
    (s.merge (e :: es)).1 = ((s.insert e).merge es).1 := by
  rw [merge, if_pos h]

theorem merge_cons_of_refuses {e : Entry} (h : s.accepts e = false) (es : List Entry) :
    (s.merge (e :: es)).1 = (s.merge es).1 := by
  rw [merge, if_neg (by simp [h])]

/-- What a merge leaves under a key was there or has come. -/
theorem get?_merge (s : Store) (es : List Entry) (key : String) :
    (s.merge es).1.get? key = s.get? key ∨
      ∃ e ∈ es, e.key = key ∧ (s.merge es).1.get? key = some e := by
  induction es generalizing s with
  | nil => exact .inl rfl
  | cons e es ih =>
    by_cases h : s.accepts e = true
    · rw [merge_cons_of_accepts h]
      rcases ih (s.insert e) with same | ⟨e', he', hkey, found⟩
      · by_cases own : e.key = key
        · rw [get?_insert, if_pos own] at same
          exact .inr ⟨e, List.mem_cons_self, own, same⟩
        · rw [get?_insert, if_neg own] at same
          exact .inl same
      · exact .inr ⟨e', List.mem_cons_of_mem _ he', hkey, found⟩
    · rw [merge_cons_of_refuses (by simpa using h)]
      rcases ih s with same | ⟨e', he', hkey, found⟩
      · exact .inl same
      · exact .inr ⟨e', List.mem_cons_of_mem _ he', hkey, found⟩

/-- Two stores agree on a key: live, with the same entry, or not. -/
def SameAt (s t : Store) (key : String) : Prop :=
  s.get? key = t.get? key ∧ s.removed? key = t.removed? key

theorem SameAt.version? {t : Store} (same : s.SameAt t key) : s.version? key = t.version? key := by
  rw [Store.version?, Store.version?, same.1, same.2]

theorem sameAt_insert {e : Entry} (other : e.key ≠ key) : (s.insert e).SameAt s key :=
  ⟨by rw [get?_insert, if_neg other], by rw [removed?_insert, if_neg other]⟩

theorem sameAt_merge {es : List Entry} (refused : ∀ e ∈ es, e.key = key → s.accepts e = false) :
    (s.merge es).1.SameAt s key := by
  induction es generalizing s with
  | nil => exact ⟨rfl, rfl⟩
  | cons e es ih =>
    by_cases h : s.accepts e = true
    · have other : e.key ≠ key := fun same => by
        have := refused e List.mem_cons_self same
        rw [h] at this
        cases this
      have step : (s.insert e).SameAt s key := sameAt_insert other
      have rest : ((s.insert e).merge es).1.SameAt (s.insert e) key := ih fun e' he' same => by
        have := refused e' (List.mem_cons_of_mem _ he') same
        rw [accepts, same] at this ⊢
        rw [step.version?]
        exact this
      rw [merge_cons_of_accepts h]
      exact ⟨rest.1.trans step.1, rest.2.trans step.2⟩
    · rw [merge_cons_of_refuses (by simpa using h)]
      exact ih fun e' he' => refused e' (List.mem_cons_of_mem _ he')

theorem isSome_get?_merge (es : List Entry) (live : (s.get? key).isSome) :
    ((s.merge es).1.get? key).isSome := by
  rcases get?_merge s es key with same | ⟨e, -, -, found⟩
  · rw [same]
    exact live
  · rw [found]
    rfl

/-- An entry that the store would take makes its key live. -/
theorem isSome_get?_merge_of_accepts {es : List Entry} {e : Entry} (mem : e ∈ es)
    (accepted : s.accepts e = true) : ((s.merge es).1.get? e.key).isSome := by
  induction es generalizing s with
  | nil => cases mem
  | cons e' es ih =>
    by_cases h : s.accepts e' = true
    · rw [merge_cons_of_accepts h]
      by_cases own : e'.key = e.key
      · exact isSome_get?_merge es (by rw [get?_insert, if_pos own]; rfl)
      · cases mem with
        | head => exact absurd rfl own
        | tail _ mem =>
          refine ih mem ?_
          rw [accepts, (sameAt_insert own).version?]
          exact accepted
    · rw [merge_cons_of_refuses (by simpa using h)]
      cases mem with
      | head => exact absurd accepted h
      | tail _ mem => exact ih mem accepted

theorem removed?_merge (unremoved : s.removed? key = none) (es : List Entry) :
    (s.merge es).1.removed? key = none := by
  induction es generalizing s with
  | nil => exact unremoved
  | cons e es ih =>
    by_cases accepted : s.accepts e = true
    · rw [merge_cons_of_accepts accepted]
      refine ih ?_
      rw [removed?_insert, unremoved]
      split <;> rfl
    · rw [merge_cons_of_refuses (by simpa using accepted)]
      exact ih unremoved

/-- When only one entry of a key is merged, and no other has been there, then it is there
afterwards. -/
theorem get?_merge_of_same {es : List Entry} {e : Entry}
    (known : s.get? key = some e ∨ (s.get? key = none ∧ s.removed? key = none))
    (same : ∀ e' ∈ es, e'.key = key → e' = e) (listed : ∃ e' ∈ es, e'.key = key) :
    (s.merge es).1.get? key = some e := by
  rcases get?_merge s es key with still | ⟨e', he', own, got⟩
  · rcases known with there | ⟨dead, unremoved⟩
    · exact still.trans there
    · obtain ⟨e', he', own⟩ := listed
      have accepted : s.accepts e' = true := by
        rw [accepts, own, version?_of_not_live dead, unremoved]
      have live := isSome_get?_merge_of_accepts he' accepted
      rw [own, still, dead] at live
      cases live
  · exact got.trans (congrArg some (same e' he' own))

theorem foldl_merge (chunks : List (List Entry)) :
    chunks.foldl (fun s chunk => (s.merge chunk).1) s = (s.merge chunks.flatten).1 := by
  induction chunks generalizing s with
  | nil => rfl
  | cons chunk chunks ih => rw [List.foldl_cons, ih, List.flatten_cons, merge_append]

/-! ## Reading and dropping -/

theorem mem_entries_iff (keyed : s.Keyed) {e : Entry} :
    e ∈ s.entries ↔ s.get? e.key = some e := by
  rw [entries, values_eq_map_snd, List.mem_map]
  constructor
  · rintro ⟨⟨key, e'⟩, h, rfl⟩
    rw [Std.ExtTreeMap.mem_toList_iff_getElem?_eq_some] at h
    rw [keyed key e' h]
    exact h
  · exact fun h => ⟨(e.key, e), Std.ExtTreeMap.mem_toList_iff_getElem?_eq_some.mpr h, rfl⟩

theorem mem_select_iff (keyed : s.Keyed) {p : String → Bool} {e : Entry} :
    e ∈ s.select p ↔ s.get? e.key = some e ∧ p e.key = true := by
  rw [select, List.mem_filter, mem_entries_iff keyed]

theorem mem_keys_iff : key ∈ s.keys ↔ (s.get? key).isSome := by
  rw [keys, Std.ExtTreeMap.mem_keys, Std.ExtTreeMap.mem_iff_isSome_getElem?]
  rfl

theorem get?_foldl_drop (dropped : List String) :
    (dropped.foldl drop s).get? key = if key ∈ dropped then none else s.get? key := by
  induction dropped generalizing s with
  | nil => simp
  | cons d ds ih =>
    rw [List.foldl_cons, ih, get?_drop]
    simp only [List.mem_cons, eq_comm (a := key) (b := d)]
    by_cases h : key ∈ ds <;> by_cases h' : d = key <;> simp [h, h']

theorem removed?_foldl_drop (dropped : List String) :
    (dropped.foldl drop s).removed? key = s.removed? key := by
  induction dropped generalizing s with
  | nil => rfl
  | cons d ds ih => rw [List.foldl_cons, ih, removed?_drop]

def retain (s : Store) (p : String → Bool) : Store :=
  (s.keys.filter fun key => !p key).foldl drop s

theorem get?_retain (s : Store) (p : String → Bool) (key : String) :
    (s.retain p).get? key = if p key then s.get? key else none := by
  rw [retain, get?_foldl_drop]
  cases kept : p key with
  | true => simp [kept]
  | false =>
    by_cases live : (s.get? key).isSome
    · simp [kept, mem_keys_iff, live]
    · simp [Option.not_isSome_iff_eq_none.mp live]

theorem removed?_retain (s : Store) (p : String → Bool) (key : String) :
    (s.retain p).removed? key = s.removed? key :=
  removed?_foldl_drop _

theorem sameAt_retain {p : String → Bool} (kept : p key = true) : (s.retain p).SameAt s key :=
  ⟨by rw [get?_retain, if_pos kept], removed?_retain s p key⟩

theorem Keyed.foldl_drop (keyed : s.Keyed) (dropped : List String) :
    (dropped.foldl drop s).Keyed := by
  intro key e h
  rw [get?_foldl_drop] at h
  split at h
  · cases h
  · exact keyed key e h

end Store

end SlotRing
