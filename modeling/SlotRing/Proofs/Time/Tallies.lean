/-
# What a procedure does itself

While a procedure waits, others change the state as they like.  What it does itself
is what it does to the state from where it goes on to where it stops again, and that
can be counted whatever the others do: `step s m s'` says what counts as going from
`s` to `s'` by `m`, and `p.Tallies step due Q cut now s m` that the procedure, started
at `now` in `s` with `m` on its tally, has a tally that `Q` says when it ends and `cut`
when it is cut off.  Only the procedure's own stretches are added to the tally, and
nothing is asked of the others.

Side by side, the tallies of several procedures add up (`tallies_all`), and a procedure
that is cut off at a deadline has one of a procedure that is cut off or of one that ends
(`Tallies.within`).  On its own, the whole run is a step by the tally
(`Tallies.run`).
-/
import Mathlib.Algebra.Group.Basic
import Mathlib.Data.List.Forall2
import SlotRing.Proofs.Time.Alone

namespace SlotRing

/-- Steps of one's own, with what they come to: they can be put together, and turns come
to nothing. -/
structure Paced.Tally {σ M : Type} [Paced σ] [AddCommMonoid M] (step : σ → M → σ → Prop) :
    Prop where
  refl (s : σ) : step s 0 s
  trans {s s' s'' : σ} {m m' : M} : step s m s' → step s' m' s'' → step s (m + m') s''
  credit (n : Nat) (s : σ) : step s 0 (Paced.setCredit n s)

namespace Paced.Tally

variable {σ M : Type} [Paced σ] [AddCommMonoid M] {step : σ → M → σ → Prop}

theorem after (tally : Paced.Tally step) {s s' s'' : σ} {m : M} (first : step s 0 s')
    (second : step s' m s'') : step s m s'' := by
  have both := tally.trans first second
  rwa [zero_add] at both

theorem before (tally : Paced.Tally step) {s s' s'' : σ} {m : M} (first : step s m s')
    (second : step s' 0 s'') : step s m s'' := by
  have both := tally.trans first second
  rwa [add_zero] at both

end Paced.Tally

namespace Task

variable {σ α β M : Type} [AddCommMonoid M] {step : σ → M → σ → Prop} {due : Wake σ → Prop}
variable {Q : M → α → Prop} {cut : M → Prop}

/-- With `m` on its tally, the task ends as `Q` says of its tally or is cut off as `cut`
says, and all that it waits for is `due`. -/
def Tallies (step : σ → M → σ → Prop) (due : Wake σ → Prop) (Q : M → α → Prop)
    (cut : M → Prop) : Task σ α → M → Prop
  | .done _ a, m => Q m a
  | .wait _ wake resume abandon, m =>
    due wake ∧
      (∀ now s, ∃ d, step s d (resume now s).state ∧
        (resume now s).Tallies step due Q cut (m + d)) ∧
      ∀ s, ∃ d, step s d (abandon s) ∧ cut (m + d)

theorem Tallies.mono {due' : Wake σ → Prop} {Q' : M → α → Prop} {cut' : M → Prop} {t : Task σ α}
    {m : M} (h : t.Tallies step due Q cut m) (dues : ∀ wake, due wake → due' wake)
    (weaker : ∀ m a, Q m a → Q' m a) (cuts : ∀ m, cut m → cut' m) :
    t.Tallies step due' Q' cut' m := by
  induction t generalizing m with
  | done s a => exact weaker m a h
  | wait s wake resume abandon ih =>
    obtain ⟨waits, resumed, abandoned⟩ := h
    refine ⟨dues wake waits, fun now s => ?_, fun s => ?_⟩
    · obtain ⟨d, moved, rest⟩ := resumed now s
      exact ⟨d, moved, ih now s rest⟩
    · obtain ⟨d, moved, holds⟩ := abandoned s
      exact ⟨d, moved, cuts _ holds⟩

theorem Tallies.relax {step' : σ → M → σ → Prop} {t : Task σ α} {m : M}
    (h : t.Tallies step due Q cut m) (steps : ∀ s d s', step s d s' → step' s d s') :
    t.Tallies step' due Q cut m := by
  induction t generalizing m with
  | done s a => exact h
  | wait s wake resume abandon ih =>
    obtain ⟨waits, resumed, abandoned⟩ := h
    refine ⟨waits, fun now s => ?_, fun s => ?_⟩
    · obtain ⟨d, moved, rest⟩ := resumed now s
      exact ⟨d, steps _ _ _ moved, ih now s rest⟩
    · obtain ⟨d, moved, holds⟩ := abandoned s
      exact ⟨d, steps _ _ _ moved, holds⟩

theorem Tallies.beyond {t : Task σ α} {m : M} (h : t.Tallies step due Q cut m) (k : M) :
    t.Tallies step due (fun l a => ∃ d, l = k + d ∧ Q d a) (fun l => ∃ d, l = k + d ∧ cut d)
      (k + m) := by
  induction t generalizing m with
  | done s a => exact ⟨m, rfl, h⟩
  | wait s wake resume abandon ih =>
    obtain ⟨waits, resumed, abandoned⟩ := h
    refine ⟨waits, fun now s => ?_, fun s => ?_⟩
    · obtain ⟨d, moved, rest⟩ := resumed now s
      exact ⟨d, moved, add_assoc k m d ▸ ih now s rest⟩
    · obtain ⟨d, moved, holds⟩ := abandoned s
      exact ⟨d, moved, _, add_assoc k m d, holds⟩

variable [Paced σ] (tally : Paced.Tally step)
include tally

theorem Tallies.bind {R : M → β → Prop} {next : α → Procedure σ β} {t : Task σ α} {m : M}
    (h : t.Tallies step due Q cut m) (now : Nat)
    (then_ : ∀ now s m a, Q m a → ∃ d, step s d (next a now s).state ∧
      (next a now s).Tallies step due R cut (m + d)) :
    ∃ d, step t.state d (t.bind now next).state ∧
      (t.bind now next).Tallies step due R cut (m + d) := by
  induction t generalizing m now with
  | done s a => exact then_ now s m a h
  | wait s wake resume abandon ih =>
    obtain ⟨waits, resumed, abandoned⟩ := h
    refine ⟨0, tally.refl s, waits, fun now s => ?_, by simpa using abandoned⟩
    obtain ⟨d, moved, rest⟩ := resumed now s
    obtain ⟨d', moved', rest'⟩ := ih now s rest now
    exact ⟨d + d', tally.trans moved moved', by simpa [add_assoc] using rest'⟩

theorem Tallies.ensuring {release : σ → σ} (released : ∀ s, step s 0 (release s)) {t : Task σ α}
    {m : M} (h : t.Tallies step due Q cut m) :
    step t.state 0 (t.ensuring release).state ∧ (t.ensuring release).Tallies step due Q cut m := by
  induction t generalizing m with
  | done s a => exact ⟨released s, h⟩
  | wait s wake resume abandon ih =>
    obtain ⟨waits, resumed, abandoned⟩ := h
    refine ⟨tally.refl s, waits, fun now s => ?_, fun s => ?_⟩
    · obtain ⟨d, moved, rest⟩ := resumed now s
      obtain ⟨moved', rest'⟩ := ih now s rest
      exact ⟨d, tally.before moved moved', rest'⟩
    · obtain ⟨d, moved, holds⟩ := abandoned s
      exact ⟨d, tally.before moved (released _), holds⟩

theorem Tallies.within {R : M → Option α → Prop} {t : Task σ α} {m : M}
    (h : t.Tallies step due (fun m a => R m (some a)) cut m) (cuts : ∀ m, cut m → R m none)
    (deadline now credit : Nat) :
    ∃ d, step t.state d (t.within deadline now credit).state ∧
      (t.within deadline now credit).Tallies step (fun _ => True) R cut (m + d) := by
  induction t generalizing m now credit with
  | done s a =>
    refine ⟨0, tally.refl s, ?_⟩
    rw [add_zero]
    exact h
  | wait s wake resume abandon ih =>
    obtain ⟨-, resumed, abandoned⟩ := h
    have ended (s : σ) : ∃ d, step s d (Paced.spend (abandon s)) ∧ R (m + d) none := by
      obtain ⟨d, moved, holds⟩ := abandoned s
      exact ⟨d, tally.before moved (tally.credit _ _), cuts _ holds⟩
    rw [Task.within]
    split
    · exact ended s
    · refine ⟨0, tally.refl s, trivial, fun now s => ?_, by simpa using abandoned⟩
      simp only [add_zero]
      split
      · obtain ⟨d, moved, rest⟩ := resumed now s
        obtain ⟨d', moved', rest'⟩ := ih now s rest now _
        exact ⟨d + d', tally.trans moved moved', by simpa [add_assoc] using rest'⟩
      · exact ended s

/-! ## Side by side -/

omit [Paced σ] tally in
theorem state_pairLeft (a : α) (u : Task σ β) (s : σ) : (pairLeft a u s).state = s := by
  cases u <;> rfl

omit [Paced σ] tally in
theorem state_pairWaiting (wake : Wake σ)
    (resume : Nat → σ → σ × (Task σ β → σ → Task σ (α × β))) (abandon : σ → σ) (u : Task σ β)
    (s : σ) : (pairWaiting wake resume abandon u s).state = s := by
  cases u <;> rfl

omit [Paced σ] tally in
theorem state_both (t : Task σ α) (u : Task σ β) (s : σ) : (t.both u s).state = s := by
  cases t with
  | done s' a => exact state_pairLeft a u s
  | wait s' wake resume abandon => exact state_pairWaiting ..

/-- The tally of a pair is made up of those of its two sides. -/
def Apart (Q : M → α → Prop) (R : M → β → Prop) (m : M) (r : α × β) : Prop :=
  ∃ l k, m = l + k ∧ Q l r.1 ∧ R k r.2

section

variable {R : M → β → Prop}

omit [Paced σ] tally in
theorem Tallies.pairLeft {u : Task σ β} {l m : M} {a : α} (left : Q l a)
    (h : u.Tallies step due R (fun _ => True) m) (s : σ) :
    (Task.pairLeft a u s).Tallies step due (Apart Q R) (fun _ => True) (l + m) := by
  induction u generalizing m s with
  | done s' b => exact ⟨l, m, rfl, left, h⟩
  | wait s' wake resume abandon ih =>
    obtain ⟨waits, resumed, abandoned⟩ := h
    refine ⟨waits, fun now s => ?_, fun s => ?_⟩
    · obtain ⟨d, moved, rest⟩ := resumed now s
      refine ⟨d, ?_, ?_⟩
      · show step s d (Task.pairLeft a _ _).state
        rw [state_pairLeft]
        exact moved
      · rw [add_assoc]
        exact ih now s rest _
    · obtain ⟨d, moved, -⟩ := abandoned s
      exact ⟨d, moved, trivial⟩

variable (dues : ∀ a b, due a → due b → due (a.either b))
include dues

theorem Tallies.pairWaiting {wake : Wake σ} {abandon : σ → σ}
    {resume : Nat → σ → σ × (Task σ β → σ → Task σ (α × β))} {l : M} (waits : due wake)
    (resumed : ∀ now s, ∃ d, step s d (resume now s).1 ∧
      ∀ (u : Task σ β) (s' : σ) (m : M), u.Tallies step due R (fun _ => True) m →
        ((resume now s).2 u s').state = s' ∧
        ((resume now s).2 u s').Tallies step due (Apart Q R) (fun _ => True) (l + d + m))
    (abandoned : ∀ s, ∃ d, step s d (abandon s)) {u : Task σ β} {m : M}
    (h : u.Tallies step due R (fun _ => True) m) (s : σ) :
    (Task.pairWaiting wake resume abandon u s).Tallies step due (Apart Q R) (fun _ => True)
      (l + m) := by
  induction u generalizing m s with
  | done s' b =>
    refine ⟨waits, fun now s => ?_, fun s => ?_⟩
    · obtain ⟨d, moved, rest⟩ := resumed now s
      obtain ⟨left, tallied⟩ := rest (.done (resume now s).1 b) (resume now s).1 m h
      refine ⟨d, ?_, ?_⟩
      · show step s d ((resume now s).2 _ _).state
        rw [left]
        exact moved
      · rw [add_right_comm]
        exact tallied
    · obtain ⟨d, moved⟩ := abandoned s
      exact ⟨d, moved, trivial⟩
  | wait s' wake' resume' abandon' ih =>
    obtain ⟨waits', resumed', abandoned'⟩ := id h
    refine ⟨dues _ _ waits waits', fun now s => ?_, fun s => ?_⟩
    · obtain ⟨d, moved, rest⟩ := resumed now s
      simp only
      split
      · split
        · -- both sides go on, the left one first
          obtain ⟨d', moved', rest'⟩ := resumed' now (resume now s).1
          obtain ⟨left, tallied⟩ := rest _ (resume' now (resume now s).1).state _ rest'
          refine ⟨d + d', ?_, ?_⟩
          · rw [left]
            exact tally.trans moved moved'
          · rw [add_add_add_comm]
            exact tallied
        · obtain ⟨left, tallied⟩ := rest (.wait (resume now s).1 wake' resume' abandon')
            (resume now s).1 m ⟨waits', resumed', abandoned'⟩
          refine ⟨d, ?_, ?_⟩
          · rw [left]
            exact moved
          · rw [add_right_comm]
            exact tallied
      · obtain ⟨d', moved', rest'⟩ := resumed' now s
        refine ⟨d', ?_, ?_⟩
        · rw [state_pairWaiting]
          exact moved'
        · rw [add_assoc]
          exact ih now s rest' _
    · obtain ⟨d, moved⟩ := abandoned s
      obtain ⟨d', moved', -⟩ := abandoned' (abandon s)
      exact ⟨d + d', tally.trans moved moved', trivial⟩

theorem Tallies.both {t : Task σ α} {u : Task σ β} {l m : M}
    (ht : t.Tallies step due Q (fun _ => True) l) (hu : u.Tallies step due R (fun _ => True) m)
    (s : σ) : (t.both u s).Tallies step due (Apart Q R) (fun _ => True) (l + m) := by
  induction t generalizing u l m s with
  | done s' a =>
    have left : Q l a := ht
    exact Tallies.pairLeft left hu s
  | wait s' wake resume abandon ih =>
    obtain ⟨waits, resumed, abandoned⟩ := ht
    refine Tallies.pairWaiting tally dues waits (fun now s => ?_) (fun s => ?_) hu s
    · obtain ⟨d, moved, rest⟩ := resumed now s
      exact ⟨d, moved, fun u s' m hu => ⟨state_both _ u s', ih now s rest hu s'⟩⟩
    · obtain ⟨d, moved, -⟩ := abandoned s
      exact ⟨d, moved⟩

end

/-! ## On its own -/

theorem Tallies.run {t : Task σ α} {m : M} (h : t.Tallies step due Q cut m) (now : Nat) :
    ∃ d, step t.state d (t.run now).2.1 ∧ Q (m + d) (t.run now).2.2 := by
  induction t generalizing m now with
  | done s a =>
    refine ⟨0, tally.refl s, ?_⟩
    rw [add_zero]
    exact h
  | wait s wake resume abandon ih =>
    obtain ⟨-, resumed, -⟩ := h
    obtain ⟨d, moved, rest⟩ := resumed (max now (wake.alarm.getD now)) (Paced.renew s)
    obtain ⟨d', moved', holds⟩ := ih _ _ rest (max now (wake.alarm.getD now))
    refine ⟨d + d', ?_, by rwa [← add_assoc]⟩
    exact tally.trans (tally.after (tally.credit _ s) moved) moved'

end Task

/-! ## Stretch by stretch -/

/-- A later stretch of a task, from where it goes on or is cut off, leads from one state to
another. -/
inductive Task.Stretch {σ α : Type} : Task σ α → σ → σ → Prop
  | resumed {s : σ} {wake : Wake σ} {resume : Nat → σ → Task σ α} {abandon : σ → σ} (now : Nat)
    (t : σ) : Stretch (.wait s wake resume abandon) t (resume now t).state
  | abandoned {s : σ} {wake : Wake σ} {resume : Nat → σ → Task σ α} {abandon : σ → σ} (t : σ) :
    Stretch (.wait s wake resume abandon) t (abandon t)
  | later {s t u u' : σ} {wake : Wake σ} {resume : Nat → σ → Task σ α} {abandon : σ → σ}
    {now : Nat} (rest : Stretch (resume now t) u u') :
    Stretch (.wait s wake resume abandon) u u'

theorem Task.tallies_of_stretch {σ α M : Type} [AddCommMonoid M] {step : σ → M → σ → Prop}
    {t : Task σ α} (goes : ∀ s s', t.Stretch s s' → step s 0 s') (m : M) :
    t.Tallies step (fun _ => True) (fun m' _ => m' = m) (fun m' => m' = m) m := by
  induction t with
  | done s a => rfl
  | wait s wake resume abandon ih =>
    refine ⟨trivial, fun now t => ⟨0, goes _ _ (.resumed now t), ?_⟩,
      fun t => ⟨0, goes _ _ (.abandoned t), add_zero m⟩⟩
    rw [add_zero]
    exact ih now t fun _ _ rest => goes _ _ (.later rest)

/-! ## With the clock -/

/-- The clock brings it about by `limit`. -/
def Wake.DueBy {σ : Type} [Paced σ] (limit : Nat) (wake : Wake σ) : Prop :=
  ∃ tick ≤ limit, wake.alarm = some tick ∧
    ∀ now s, tick ≤ now → wake.ready now (Paced.renew s) = true

theorem Wake.DueBy.either {σ : Type} [Paced σ] {limit : Nat} {a b : Wake σ} (ha : a.DueBy limit)
    (hb : b.DueBy limit) : (a.either b).DueBy limit := by
  obtain ⟨tick, early, alarm, ready⟩ := ha
  obtain ⟨tick', -, alarm', ready'⟩ := hb
  refine ⟨min tick tick', by omega, ?_, fun now s late => ?_⟩
  · simp only [Wake.either, alarm, alarm']
    rfl
  · rw [Wake.either, Bool.or_eq_true]
    rcases Nat.le_total tick tick' with h | h
    · exact .inl (ready now s (by omega))
    · exact .inr (ready' now s (by omega))

/-- On its own, what waits for the clock only has ended when the clock is there. -/
theorem Task.Tallies.run_le {σ α M : Type} [Paced σ] [AddCommMonoid M] {step : σ → M → σ → Prop}
    {Q : M → α → Prop} {cut : M → Prop} {limit : Nat} {t : Task σ α} {m : M}
    (h : t.Tallies step (Wake.DueBy limit) Q cut m) {now : Nat} (early : now ≤ limit) :
    (t.run now).1 ≤ limit := by
  induction t generalizing m now with
  | done s a => exact early
  | wait s wake resume abandon ih =>
    obtain ⟨⟨tick, by_, alarm, -⟩, resumed, -⟩ := h
    obtain ⟨d, -, rest⟩ := resumed (max now (wake.alarm.getD now)) (Paced.renew s)
    refine ih _ _ rest ?_
    rw [alarm, Option.getD_some]
    omega

namespace Procedure

variable {σ α β M : Type} [AddCommMonoid M] {step : σ → M → σ → Prop} {due : Wake σ → Prop}
variable {Q : M → α → Prop} {cut : M → Prop} {p : Procedure σ α} {now : Nat} {s : σ} {m : M}

/-- Started at `now` in `s` with `m` on its tally, the procedure ends as `Q` says of its
tally or is cut off as `cut` says, and all that it waits for is `due`. -/
def Tallies (p : Procedure σ α) (step : σ → M → σ → Prop) (due : Wake σ → Prop)
    (Q : M → α → Prop) (cut : M → Prop) (now : Nat) (s : σ) (m : M) : Prop :=
  ∃ d, step s d (p now s).state ∧ (p now s).Tallies step due Q cut (m + d)

theorem Tallies.mono {due' : Wake σ → Prop} {Q' : M → α → Prop} {cut' : M → Prop}
    (h : p.Tallies step due Q cut now s m) (dues : ∀ wake, due wake → due' wake)
    (weaker : ∀ m a, Q m a → Q' m a) (cuts : ∀ m, cut m → cut' m) :
    p.Tallies step due' Q' cut' now s m := by
  obtain ⟨d, moved, holds⟩ := h
  exact ⟨d, moved, holds.mono dues weaker cuts⟩

theorem Tallies.relax {step' : σ → M → σ → Prop} (h : p.Tallies step due Q cut now s m)
    (steps : ∀ s d s', step s d s' → step' s d s') : p.Tallies step' due Q cut now s m := by
  obtain ⟨d, moved, holds⟩ := h
  exact ⟨d, steps _ _ _ moved, holds.relax steps⟩

theorem Tallies.beyond (h : p.Tallies step due Q cut now s m) (k : M) :
    p.Tallies step due (fun l a => ∃ d, l = k + d ∧ Q d a) (fun l => ∃ d, l = k + d ∧ cut d)
      now s (k + m) := by
  obtain ⟨d, moved, holds⟩ := h
  exact ⟨d, moved, add_assoc k m d ▸ holds.beyond k⟩

variable [Paced σ] (tally : Paced.Tally step)
include tally

omit [Paced σ] tally in
theorem tallies_of_ends {d : M} (h : p.Ends now s fun s' a => step s d s' ∧ Q (m + d) a) :
    p.Tallies step due Q cut now s m := by
  obtain ⟨s', a, run, moved, holds⟩ := h
  rw [Tallies, run]
  exact ⟨d, moved, holds⟩

theorem tallies_pure {a : α} (h : Q m a) :
    (pure a : Procedure σ α).Tallies step due Q cut now s m := by
  refine ⟨0, tally.refl s, ?_⟩
  rw [add_zero]
  exact h

theorem Tallies.bind {R : M → β → Prop} {next : α → Procedure σ β}
    (h : p.Tallies step due Q cut now s m)
    (then_ : ∀ now s m a, Q m a → (next a).Tallies step due R cut now s m) :
    (p >>= next).Tallies step due R cut now s m := by
  obtain ⟨d, moved, holds⟩ := h
  obtain ⟨d', moved', holds'⟩ := holds.bind tally now then_
  exact ⟨d + d', tally.trans moved moved', add_assoc m d d' ▸ holds'⟩

/-- What follows at once on a part that does not wait starts at the same tick. -/
theorem Ends.bind_tallies {R : M → β → Prop} {next : α → Procedure σ β}
    (h : p.Ends now s fun s' a => ∃ d, step s d s' ∧
      (next a).Tallies step due R cut now s' (m + d)) :
    (p >>= next).Tallies step due R cut now s m := by
  obtain ⟨s', a, run, d, moved, d', moved', holds⟩ := h
  have goes : (p >>= next) now s = next a now s' := by
    show (p now s).bind now next = _
    rw [run]
    rfl
  rw [Tallies, goes]
  exact ⟨d + d', tally.trans moved moved', add_assoc m d d' ▸ holds⟩

theorem Tallies.ensuring {release : σ → σ} (released : ∀ s, step s 0 (release s))
    (h : p.Tallies step due Q cut now s m) :
    (p.ensuring release).Tallies step due Q cut now s m := by
  obtain ⟨d, moved, holds⟩ := h
  obtain ⟨moved', holds'⟩ := holds.ensuring tally released
  exact ⟨d, tally.before moved moved', holds'⟩

theorem Tallies.within {R : M → Option α → Prop}
    (h : p.Tallies step due (fun m a => R m (some a)) cut now s m)
    (cuts : ∀ m, cut m → R m none) (deadline : Nat) :
    (p.within deadline).Tallies step (fun _ => True) R cut now s m := by
  obtain ⟨d, moved, holds⟩ := h
  obtain ⟨d', moved', holds'⟩ := holds.within tally cuts deadline now (Paced.credit s)
  exact ⟨d + d', tally.trans moved moved', add_assoc m d d' ▸ holds'⟩

theorem Tallies.run (h : p.Tallies step due Q cut now s m) :
    ∃ d, step s d ((p now s).run now).2.1 ∧ Q (m + d) ((p now s).run now).2.2 := by
  obtain ⟨d, moved, holds⟩ := h
  obtain ⟨d', moved', ends⟩ := holds.run tally now
  exact ⟨d + d', tally.trans moved moved', add_assoc m d d' ▸ ends⟩

omit tally in
/-- On its own, a procedure that waits for the clock only has ended when the clock is there. -/
theorem Tallies.run_le {limit : Nat} (h : p.Tallies step (Wake.DueBy limit) Q cut now s m)
    (early : now ≤ limit) : ((p now s).run now).1 ≤ limit := by
  obtain ⟨d, -, holds⟩ := h
  exact holds.run_le early

theorem tallies_sleep {Q : M → Unit → Prop} {ticks : Nat} (waits : due (.clock (now + ticks)))
    (ends : Q m ()) (cuts : cut m) :
    (sleep ticks : Procedure σ Unit).Tallies step due Q cut now s m := by
  show ∃ d, step s d (await (.clock (now + ticks)) now s).state ∧
    (await (.clock (now + ticks)) now s).Tallies step due Q cut (m + d)
  unfold await
  refine ⟨0, ?_⟩
  split
  · exact ⟨tally.credit _ s, (add_zero m).symm ▸ ends⟩
  · refine ⟨tally.refl s, waits, fun _ s => ⟨0, tally.credit _ s, ?_⟩,
      fun s => ⟨0, tally.refl s, ?_⟩⟩
    · rw [add_zero, add_zero]
      exact ends
    · rw [add_zero, add_zero]
      exact cuts

/-- Side by side, procedures of which each has on its tally what goes with its result have
the sum of that on theirs. -/
theorem tallies_all {ι : Type} (dues : ∀ a b, due a → due b → due (a.either b))
    {f : ι → Procedure σ α} {v : α → M} {P : ι → α → Prop} (is : List ι)
    (each : ∀ i ∈ is, ∀ s' d, step s d s' →
      (f i).Tallies step due (fun m a => m = v a ∧ P i a) (fun _ => True) now s' 0) :
    (all (is.map f)).Tallies step due
      (fun m as => m = (as.map v).sum ∧ List.Forall₂ P is as) (fun _ => True) now s 0 := by
  induction is generalizing s with
  | nil => exact tallies_pure tally ⟨rfl, .nil⟩
  | cons i is ih =>
    obtain ⟨d, moved, left⟩ := each i List.mem_cons_self s 0 (tally.refl s)
    obtain ⟨d', moved', right⟩ := ih (s := (f i now s).state) fun j hj s' d' step' =>
      each j (List.mem_cons_of_mem i hj) s' _ (tally.trans moved step')
    have pair : ((f i).both (all (is.map f))).Tallies step due
        (Task.Apart (fun m a => m = v a ∧ P i a)
          fun m as => m = (as.map v).sum ∧ List.Forall₂ P is as) (fun _ => True) now s 0 := by
      refine ⟨d + d', ?_, ?_⟩
      · show step s _ (Task.both _ _ _).state
        rw [Task.state_both]
        exact tally.trans moved moved'
      · rw [zero_add] at left right ⊢
        exact left.both tally dues right _
    refine pair.bind tally fun now s m r holds => tallies_pure tally ?_
    obtain ⟨l, k, rfl, ⟨rfl, hi⟩, rfl, his⟩ := holds
    exact ⟨(List.sum_cons).symm, .cons hi his⟩

end Procedure

/-! ## One side by itself -/

/-- Beside one that has ended, a task goes on as it would by itself. -/
theorem Task.both_done {σ α β : Type} (t : Task σ α) (now : Nat) (b : β) :
    t.both (.done t.state b) t.state = t.bind now fun a => Procedure.pure (a, b) := by
  induction t generalizing now with
  | done s a => rfl
  | wait s wake resume abandon ih =>
    have rest : (fun now s =>
        (resume now s).both (.done (resume now s).state b) (resume now s).state) =
        fun now s => (resume now s).bind now fun a => Procedure.pure (a, b) :=
      funext fun now => funext fun s => ih now s now
    show Task.wait s wake _ abandon = .wait s wake _ abandon
    exact congrArg (Task.wait s wake · abandon) rest

theorem Procedure.all_singleton {σ α : Type} (p : Procedure σ α) :
    Procedure.all [p] = (do return [← p]) := by
  funext now s
  show (Task.both (p now s) (.done (p now s).state []) (p now s).state).bind now _ = _
  rw [Task.both_done _ now, Task.bind_assoc]
  rfl

end SlotRing
