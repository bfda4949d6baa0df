/-
# Versions go forward, and what was removed does not come back

The live entries and the last versions of removed keys are kept in two maps, and
everything that happens to a store moves a key between them.  No key is ever in
both (`Store.Sound`), and as long as the copy of a key is not dropped, its version
does not go back, whatever the store is asked to do (`Store.behind_after`).  So
from the remove of a key on there is nothing live under it but what is newer than
what was removed (`Store.Past`).
-/
import SlotRing.Store.Script
import SlotRing.Proofs.Store.Omissions

namespace SlotRing.Store

variable {s t : Store} {key : String} {v : Nat}

def after (s : Store) (steps : List StoreStep) : Store :=
  steps.foldl (fun s step => (step.run s).1) s

theorem run_cases (s : Store) (step : StoreStep) :
    (∃ w, step = .write w ∧ (step.run s).1 = s.write w) ∨
    (∃ es, step = .merge es ∧ (step.run s).1 = (s.merge es).1) ∨
    (∃ dropped, step = .drop dropped ∧ (step.run s).1 = s.drop dropped) ∨
    (step.run s).1 = s := by
  cases step with
  | write w => exact .inl ⟨w, rfl, rfl⟩
  | merge es => exact .inr (.inl ⟨es, rfl, rfl⟩)
  | drop dropped => exact .inr (.inr (.inl ⟨dropped, rfl, rfl⟩))
  | _ => exact .inr (.inr (.inr rfl))

/-! ## Two maps for one key -/

/-- Every live entry stands under its own key, and no live key is a removed one. -/
structure Sound (s : Store) : Prop where
  keyed : s.Keyed
  apart : ∀ key, s.get? key = none ∨ s.removed? key = none

theorem sound_empty : Store.empty.Sound :=
  ⟨keyed_empty, fun key => .inl (get?_empty key)⟩

theorem Sound.insert (sound : s.Sound) (e : Entry) : (s.insert e).Sound := by
  refine ⟨sound.keyed.insert e, fun key => ?_⟩
  rw [get?_insert, removed?_insert]
  split
  · exact .inr rfl
  · exact sound.apart key

theorem Sound.write (sound : s.Sound) (w : Write) : (s.write w).Sound := by
  cases w with
  | put written value => exact sound.insert _
  | remove removed =>
    refine ⟨sound.keyed.write _, fun key => ?_⟩
    rw [get?_remove, removed?_remove]
    split
    · exact .inl rfl
    · exact sound.apart key

theorem Sound.merge (sound : s.Sound) (es : List Entry) : (s.merge es).1.Sound := by
  induction es generalizing s with
  | nil => exact sound
  | cons e es ih =>
    cases taken : s.accepts e with
    | true =>
      rw [merge_cons_of_accepts taken]
      exact ih (sound.insert e)
    | false =>
      rw [merge_cons_of_refuses taken]
      exact ih sound

theorem Sound.drop (sound : s.Sound) (dropped : String) : (s.drop dropped).Sound := by
  refine ⟨sound.keyed.foldl_drop [dropped], fun key => ?_⟩
  rw [get?_drop, removed?_drop]
  split
  · exact .inl rfl
  · exact sound.apart key

theorem Sound.run (sound : s.Sound) (step : StoreStep) : (step.run s).1.Sound := by
  rcases run_cases s step with ⟨w, -, eq⟩ | ⟨es, -, eq⟩ | ⟨dropped, -, eq⟩ | eq <;> rw [eq]
  · exact sound.write w
  · exact sound.merge es
  · exact sound.drop dropped
  · exact sound

theorem Sound.after (sound : s.Sound) (steps : List StoreStep) : (s.after steps).Sound := by
  induction steps generalizing s with
  | nil => exact sound
  | cons step steps ih => exact ih (sound.run step)

/-! ## The version of a key -/

theorem sameAt_drop {dropped : String} (other : dropped ≠ key) :
    (s.drop dropped).SameAt s key :=
  ⟨by rw [get?_drop, if_neg other], removed?_drop s dropped key⟩

theorem behind_run {step : StoreStep} (kept : step ≠ .drop key) :
    s.Behind (step.run s).1 key := by
  rcases run_cases s step with ⟨w, -, eq⟩ | ⟨es, -, eq⟩ | ⟨dropped, rfl, eq⟩ | eq <;> rw [eq]
  · exact behind_write s w key
  · exact behind_merge es key
  · have other : dropped ≠ key := fun same => kept (congrArg StoreStep.drop same)
    exact (Behind.refl s key).congr (SameAt.refl s key) (sameAt_drop other)
  · exact Behind.refl s key

/-- While the copy of a key is not dropped, the version of the key does not go back. -/
theorem behind_after {steps : List StoreStep} (kept : .drop key ∉ steps) :
    s.Behind (s.after steps) key := by
  induction steps generalizing s with
  | nil => exact Behind.refl s key
  | cons step steps ih =>
    obtain ⟨first, rest⟩ := List.ne_and_not_mem_of_not_mem_cons kept
    exact (behind_run first.symm).trans (ih rest)

theorem Behind.reached_le (h : s.Behind t key) : s.reached key ≤ t.reached key := by
  rw [reached]
  cases known : s.version? key with
  | none => exact Nat.zero_le _
  | some v =>
    obtain ⟨v', known', le⟩ := h v known
    rw [reached, known']
    exact le

theorem merge_concat_of_accepts {es : List Entry} {e : Entry}
    (accepted : (s.merge es).1.accepts e = true) :
    (s.merge (es ++ [e])).1 = (s.merge es).1.insert e := by
  rw [merge_append]
  exact merge_cons_of_accepts accepted []

/-! ## No return -/

/-- The version `v` of a key is over: what is live under the key is newer, and what
comes has to be newer as well. -/
structure Past (s : Store) (key : String) (v : Nat) : Prop where
  known : ∃ v', s.version? key = some v' ∧ v ≤ v'
  newer : ∀ e, s.get? key = some e → v < e.version

theorem Past.congr (past : s.Past key v) (same : t.SameAt s key) : t.Past key v where
  known := same.version? ▸ past.known
  newer e found := past.newer e (same.1 ▸ found)

theorem past_remove {e : Entry} (live : s.get? key = some e) :
    (s.write (.remove key)).Past key e.version where
  known := ⟨e.version, by rw [version?_remove, version?_of_get? live], Nat.le_refl _⟩
  newer d found := by
    rw [get?_remove, if_pos rfl] at found
    cases found

theorem Past.insert (past : s.Past key v) {e : Entry} (newer : e.key = key → v < e.version) :
    (s.insert e).Past key v := by
  by_cases own : e.key = key
  · have live : (s.insert e).get? key = some e := by rw [get?_insert, if_pos own]
    refine ⟨⟨e.version, version?_of_get? live, Nat.le_of_lt (newer own)⟩, fun d found => ?_⟩
    rw [live] at found
    exact Option.some.inj found ▸ newer own
  · exact past.congr (sameAt_insert own)

theorem Past.write (past : s.Past key v) (w : Write) : (s.write w).Past key v := by
  cases w with
  | put written value =>
    refine past.insert fun own => ?_
    obtain rfl : written = key := own
    obtain ⟨v', known, le⟩ := past.known
    show v < s.nextVersion written
    rw [nextVersion, known]
    exact Nat.lt_succ_of_le le
  | remove removed =>
    refine ⟨?_, fun e found => past.newer e ?_⟩
    · rw [version?_remove]
      exact past.known
    · rw [get?_remove] at found
      split at found
      · cases found
      · exact found

theorem Past.lt_of_accepts (past : s.Past key v) {e : Entry} (own : e.key = key)
    (accepted : s.accepts e = true) : v < e.version := by
  obtain ⟨v', known, le⟩ := past.known
  rw [accepts, own, known, decide_eq_true_iff] at accepted
  exact Nat.lt_of_le_of_lt le accepted

theorem Past.merge (past : s.Past key v) (es : List Entry) : (s.merge es).1.Past key v := by
  induction es generalizing s with
  | nil => exact past
  | cons e es ih =>
    cases accepted : s.accepts e with
    | true =>
      rw [merge_cons_of_accepts accepted]
      exact ih (past.insert fun own => past.lt_of_accepts own accepted)
    | false =>
      rw [merge_cons_of_refuses accepted]
      exact ih past

theorem Past.run (past : s.Past key v) {step : StoreStep} (kept : step ≠ .drop key) :
    (step.run s).1.Past key v := by
  rcases run_cases s step with ⟨w, -, eq⟩ | ⟨es, -, eq⟩ | ⟨dropped, rfl, eq⟩ | eq <;> rw [eq]
  · exact past.write w
  · exact past.merge es
  · exact past.congr (sameAt_drop fun same => kept (congrArg StoreStep.drop same))
  · exact past

theorem Past.after (past : s.Past key v) {steps : List StoreStep} (kept : .drop key ∉ steps) :
    (s.after steps).Past key v := by
  induction steps generalizing s with
  | nil => exact past
  | cons step steps ih =>
    obtain ⟨first, rest⟩ := List.ne_and_not_mem_of_not_mem_cons kept
    exact ih (past.run first.symm) rest

/-- Whatever has been done to a store that was empty in the beginning, a key is not live
and removed at once, and what is live under it is an entry of it.  A put moves the
version of the key on by one, a remove leaves it, and an entry that a merge takes is
newer than all that was known of its key, and its version is that of the key then.
While the copy is not dropped the version does not go back, and after the key has been
removed nothing is live under it, and no merge takes an entry of it, unless newer than
what was removed. -/
theorem versions_go_forward (steps : List StoreStep) (key : String) :
    let s := empty.after steps
    (¬ ((s.get? key).isSome ∧ (s.removed? key).isSome)) ∧
    (∀ e, s.get? key = some e → e.key = key) ∧
    (∀ value, (s.write (.put key value)).reached key = s.reached key + 1) ∧
    (s.write (.remove key)).reached key = s.reached key ∧
    (∀ es e, e.key = key → (s.merge es).1.accepts e = true →
      (s.merge (es ++ [e])).1.get? key = some e ∧
      (s.merge (es ++ [e])).1.reached key = e.version ∧
      ∀ v, (s.merge es).1.version? key = some v → v < e.version) ∧
    (∀ stretch, .drop key ∉ stretch → s.reached key ≤ (s.after stretch).reached key) ∧
    (∀ e, s.get? key = some e → ∀ stretch, .drop key ∉ stretch →
      let t := (s.write (.remove key)).after stretch
      (∀ d, t.get? key = some d → e.version < d.version) ∧
      ∀ es d, d.key = key → (t.merge es).1.accepts d = true → e.version < d.version) := by
  intro s
  have sound : s.Sound := sound_empty.after steps
  refine ⟨?apart, sound.keyed key, fun value => ?put, ?remove, ?taken, ?forward, ?gone⟩
  case apart =>
    rintro ⟨live, removed⟩
    rcases sound.apart key with dead | unremoved
    · rw [dead] at live
      cases live
    · rw [unremoved] at removed
      cases removed
  case put =>
    rw [reached_write]
    simp [Write.puts]
  case remove => rw [reached_write]; rfl
  case taken =>
    intro es e own accepted
    have live : (s.merge (es ++ [e])).1.get? key = some e := by
      rw [merge_concat_of_accepts accepted, get?_insert, if_pos own]
    refine ⟨live, by rw [reached, version?_of_get? live]; rfl, fun v known => ?_⟩
    rw [accepts, own, known, decide_eq_true_iff] at accepted
    exact accepted
  case forward => exact fun stretch kept => (behind_after kept).reached_le
  case gone =>
    intro e live stretch kept t
    have past : t.Past key e.version := (past_remove live).after kept
    exact ⟨past.newer, fun es d own accepted => (past.merge es).lt_of_accepts own accepted⟩

/-- Two puts, a remove, and a merge of what was removed together with something newer:
only the latter comes back. -/
theorem versions_go_forward_past_remove :
    let s := empty.after [.write (.put "k" [1]), .write (.put "k" [2])]
    let stretch := [StoreStep.merge [⟨"k", [2], 2⟩, ⟨"k", [3], 5⟩]]
    let t := (s.write (.remove "k")).after stretch
    s.get? "k" = some ⟨"k", [2], 2⟩ ∧ t.get? "k" = some ⟨"k", [3], 5⟩ ∧
      s.reached "k" ≤ (s.after stretch).reached "k" ∧
      (s.merge ([] ++ [⟨"k", [3], 5⟩])).1.reached "k" = 5 ∧
      (∀ d, t.get? "k" = some d → 2 < d.version) ∧
      (t.merge []).1.accepts ⟨"k", [4], 6⟩ = true ∧ 2 < 6 := by
  intro s stretch t
  have live : s.get? "k" = some ⟨"k", [2], 2⟩ := by decide +kernel
  have kept : .drop "k" ∉ stretch := by simp [stretch]
  have accepted : (t.merge []).1.accepts ⟨"k", [4], 6⟩ = true := by decide +kernel
  obtain ⟨-, -, -, -, taken, forward, gone⟩ :=
    versions_go_forward [.write (.put "k" [1]), .write (.put "k" [2])] "k"
  obtain ⟨newer, late⟩ := gone _ live stretch kept
  exact ⟨live, by decide +kernel, forward stretch kept,
    (taken [] ⟨"k", [3], 5⟩ rfl (by decide +kernel)).2.1, newer, accepted,
    late [] ⟨"k", [4], 6⟩ rfl accepted⟩

end SlotRing.Store
