/-
# Writes that are left out

A store that has missed some writes of a key, and takes part in those that come
after them, is what it would have been if it has missed no put, and no remove that
had an effect and has not been covered by a later write
(`Store.sameAt_omitting_iff`).  A put that was missed is always noticed: every put
of a key moves its version on by one (`Store.reached_writeAll`).
-/
import SlotRing.Proofs.Store.Versions

namespace SlotRing

def Write.puts (w : Write) (key : String) : Bool :=
  match w with
  | .put written _ => written == key
  | .remove _ => false

theorem valueAfter_of_unput {key : String} {ws : List Write}
    (unput : ∀ w ∈ ws, w.puts key = false) : valueAfter ws key none = none := by
  induction ws with
  | nil => rfl
  | cons w ws ih =>
    have first : w.upon key none = none := by
      cases w with
      | put written value =>
        exact Write.upon_of_ne (ne_of_beq_false (unput _ List.mem_cons_self))
      | remove removed => exact ite_self none
    rw [valueAfter, List.foldl_cons, first]
    exact ih fun w hw => unput w (List.mem_cons_of_mem _ hw)

namespace Store

variable {s : Store} {key : String} {ws : List Write}

/-- The number that the version of a key has reached, 0 if it has none. -/
def reached (s : Store) (key : String) : Nat := (s.version? key).getD 0

theorem nextVersion_eq (s : Store) (key : String) : s.nextVersion key = s.reached key + 1 := by
  rw [nextVersion, reached]
  cases s.version? key <;> rfl

theorem reached_write (w : Write) :
    (s.write w).reached key = s.reached key + if w.puts key then 1 else 0 := by
  by_cases own : w.key = key
  · subst own
    cases w with
    | put written value =>
      rw [reached, show Write.key (.put written value) = written from rfl, version?_put,
        nextVersion_eq]
      simp [Write.puts]
    | remove removed => rw [reached, version?_remove]; rfl
  · have idle : w.puts key = false := by
      cases w with
      | put written value => exact beq_false_of_ne own
      | remove removed => rfl
    rw [idle, reached, (sameAt_write own).version?]
    rfl

theorem reached_writeAll (ws : List Write) :
    (s.writeAll ws).reached key = s.reached key + ws.countP (·.puts key) := by
  induction ws generalizing s with
  | nil => rfl
  | cons w ws ih =>
    show ((s.write w).writeAll ws).reached key = _
    rw [ih, reached_write, List.countP_cons]
    omega

/-! ## Removing -/

theorem write_remove_of_dead (dead : s.get? key = none) : s.write (.remove key) = s := by
  simp only [write, dead]

/-- What a key is after a write of it does not depend on whether it has been removed
before. -/
theorem sameAt_write_remove {w : Write} (own : w.key = key) :
    (s.write w).SameAt ((s.write (.remove key)).write w) key := by
  subst own
  cases w with
  | put written value =>
    have next : (s.write (.remove written)).nextVersion written = s.nextVersion written := by
      rw [nextVersion, nextVersion, version?_remove]
    refine ⟨?_, ?_⟩
    · show (s.write (.put written value)).get? written =
        ((s.write (.remove written)).write (.put written value)).get? written
      rw [get?_put, get?_put, next, if_pos rfl, if_pos rfl]
    · show (s.insert _).removed? written = ((s.write (.remove written)).insert _).removed? written
      rw [removed?_insert, removed?_insert, if_pos rfl, if_pos rfl]
  | remove removed =>
    show (s.write (.remove removed)).SameAt ((s.write (.remove removed)).write _) removed
    have dead : (s.write (.remove removed)).get? removed = none := by
      rw [get?_remove, if_pos rfl]
    rw [show (s.write (.remove removed)).write (.remove removed) = _ from
      write_remove_of_dead dead]
    exact SameAt.refl _ _

/-- Writes that touch a key leave the same whether it has been removed before. -/
theorem sameAt_writeAll_remove (touched : ∃ w ∈ ws, w.key = key) :
    (s.writeAll ws).SameAt ((s.write (.remove key)).writeAll ws) key := by
  induction ws generalizing s with
  | nil => obtain ⟨w, hw, -⟩ := touched; cases hw
  | cons w ws ih =>
    by_cases own : w.key = key
    · exact (sameAt_write_remove own).writeAll ws
    · obtain ⟨w', hw', same⟩ := touched
      have rest := ih (s := s.write w) ⟨w', (List.mem_cons.mp hw').resolve_left
        (fun eq => own (eq ▸ same)), same⟩
      have swapped : ((s.write w).write (.remove key)).SameAt
          ((s.write (.remove key)).write w) key :=
        ((sameAt_write own).write _).trans (sameAt_write own).symm
      exact rest.trans (swapped.writeAll ws)

theorem sameAt_writeAll_of_removes (unput : ∀ w ∈ ws, w.puts key = false)
    (removed : .remove key ∈ ws) : (s.writeAll ws).SameAt (s.write (.remove key)) key := by
  induction ws generalizing s with
  | nil => cases removed
  | cons w ws ih =>
    have unput' := fun w hw => unput w (List.mem_cons_of_mem _ hw)
    show ((s.write w).writeAll ws).SameAt _ key
    by_cases own : w.key = key
    · obtain rfl : w = .remove key := by
        cases w with
        | put written value => exact absurd own (ne_of_beq_false (unput _ List.mem_cons_self))
        | remove removed => exact congrArg Write.remove own
      by_cases more : .remove key ∈ ws
      · have dead : (s.write (.remove key)).get? key = none := by rw [get?_remove, if_pos rfl]
        have := ih (s := s.write (.remove key)) unput' more
        rwa [write_remove_of_dead dead] at this
      · refine sameAt_writeAll fun w hw same => more ?_
        cases w with
        | put written value => exact absurd same (ne_of_beq_false (unput' _ hw))
        | remove removed => exact (congrArg Write.remove same : Write.remove removed = _) ▸ hw
    · have rest : .remove key ∈ ws :=
        (List.mem_cons.mp removed).resolve_left fun eq => own (eq ▸ rfl)
      exact (ih (s := s.write w) unput' rest).trans ((sameAt_write own).write _)

/-! ## Leaving out -/

/-- The value under a key is not affected by writes that were missed if and only if a
later write has covered it, or they would have left it as it was. -/
theorem valueAfter_omitting_iff {initial : Option (List UInt8)} (ws later : List Write) :
    valueAfter later key initial = valueAfter (ws ++ later) key initial ↔
      (∃ w ∈ later, w.key = key) ∨ valueAfter ws key initial = initial := by
  rw [valueAfter_append]
  by_cases touched : ∃ w ∈ later, w.key = key
  · exact ⟨fun _ => .inl touched, fun _ => valueAfter_of_touched touched _⟩
  · have aside : ∀ w ∈ later, w.key ≠ key := fun w hw own => touched ⟨w, hw, own⟩
    rw [valueAfter_of_untouched aside, valueAfter_of_untouched aside]
    exact ⟨fun same => .inr same.symm, fun h => (h.resolve_left touched).symm⟩

/-- A store that has missed the writes `ws` knows of a key what it would know with
them if and only if none of them was a put of the key, and if one of them was a
remove, a later write has covered it or there was nothing to remove. -/
theorem sameAt_omitting_iff (ws later : List Write) :
    (s.writeAll later).SameAt (s.writeAll (ws ++ later)) key ↔
      (∀ w ∈ ws, w.puts key = false) ∧
        (.remove key ∈ ws → (∃ w ∈ later, w.key = key) ∨ s.get? key = none) := by
  rw [show s.writeAll (ws ++ later) = (s.writeAll ws).writeAll later from List.foldl_append]
  constructor
  · intro same
    have unput : ws.countP (·.puts key) = 0 := by
      have level := congrArg (·.getD 0) same.version?
      have := (reached_writeAll later).symm.trans (level.trans (reached_writeAll later))
      rw [reached_writeAll] at this
      omega
    have unput : ∀ w ∈ ws, w.puts key = false := fun w hw =>
      Bool.eq_false_iff.mpr (List.countP_eq_zero.mp unput w hw)
    refine ⟨unput, fun removed => Classical.or_iff_not_imp_left.mpr fun untouched => ?_⟩
    have aside : ∀ w ∈ later, w.key ≠ key := fun w hw own => untouched ⟨w, hw, own⟩
    have missed := (sameAt_writeAll (s := s) aside).1
    have found := (sameAt_writeAll (s := s.writeAll ws) aside).1
    rw [← missed, same.1, found, (sameAt_writeAll_of_removes unput removed).1, get?_remove,
      if_pos rfl]
  · rintro ⟨unput, covered⟩
    by_cases removed : .remove key ∈ ws
    · refine SameAt.trans ?_ ((sameAt_writeAll_of_removes unput removed).symm.writeAll later)
      rcases covered removed with touched | dead
      · exact sameAt_writeAll_remove touched
      · rw [write_remove_of_dead dead]
        exact SameAt.refl _ _
    · refine (sameAt_writeAll fun w hw own => ?_).symm.writeAll later
      cases w with
      | put written value => exact absurd own (ne_of_beq_false (unput _ hw))
      | remove gone => exact removed ((congrArg Write.remove own : Write.remove gone = _) ▸ hw)

end Store

end SlotRing
