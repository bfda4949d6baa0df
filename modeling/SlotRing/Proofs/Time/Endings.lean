/-
# How a task may end

A task that waits goes on at some later tick, in whatever state the others have brought
about by then.  `t.EndsUp now now' s a` says that the task `t`, which has come to where it is
at `now`, may end at `now'` in `s` and with `a`, when it goes on in that way after every
stop.  What a task ends with on its own is one of these ends (`endsUp_run`), and so is what
it ends with in company (`endsUp_runBeside`).  Of what is done one after the other, an end
is one of the second part that begins where one of the first is (`endsUp_bind_iff`).
-/
import SlotRing.Time.Background

namespace SlotRing

namespace Task

variable {σ α β : Type}

/-- Having come to where it is at a tick, a task may end at a tick, in a state and with a
result. -/
inductive EndsUp : Nat → Task σ α → Nat → σ → α → Prop
  | done {now : Nat} {s : σ} {a : α} : EndsUp now (.done s a) now s a
  /-- It goes on at the tick `now₁` in the state `t`. -/
  | wait {now now₁ now' : Nat} {s t s' : σ} {wake : Wake σ} {resume : Nat → σ → Task σ α}
      {abandon : σ → σ} {a : α} (later : now ≤ now₁)
      (rest : EndsUp now₁ (resume now₁ t) now' s' a) :
      EndsUp now (.wait s wake resume abandon) now' s' a

theorem endsUp_done_iff {now now' : Nat} {s s' : σ} {a a' : α} :
    EndsUp now (.done s a) now' s' a' ↔ now' = now ∧ s' = s ∧ a' = a := by
  constructor
  · rintro ⟨⟩
    exact ⟨rfl, rfl, rfl⟩
  · rintro ⟨rfl, rfl, rfl⟩
    exact .done

theorem endsUp_bind_iff {now now' : Nat} {t : Task σ α} {next : α → Procedure σ β} {s : σ}
    {b : β} :
    EndsUp now (t.bind now next) now' s b ↔
      ∃ now₁ s₁ a, EndsUp now t now₁ s₁ a ∧ EndsUp now₁ (next a now₁ s₁) now' s b := by
  constructor
  case mp =>
    intro h
    induction t generalizing now with
    | done s₁ a => exact ⟨now, s₁, a, .done, h⟩
    | wait left wake resume abandon ih =>
      cases h with
      | wait later rest =>
        obtain ⟨now₂, s₂, a, first, second⟩ := ih _ _ rest
        exact ⟨now₂, s₂, a, .wait later first, second⟩
  case mpr =>
    rintro ⟨now₁, s₁, a, first, second⟩
    induction first with
    | done => exact second
    | wait later _ ih => exact .wait later (ih second)

section

variable [Paced σ]

theorem endsUp_run (t : Task σ α) (now : Nat) :
    EndsUp now t (t.run now).1 (t.run now).2.1 (t.run now).2.2 := by
  induction t generalizing now with
  | done s a => exact .done
  | wait s wake resume abandon ih => exact .wait (Nat.le_max_left _ _) (ih _ _ _)

/-- What is left of a task after a turn in some state has no other ends. -/
theorem EndsUp.of_turn {now now₁ now' : Nat} {s s₁ s' : σ} {wake : Wake σ}
    {resume : Nat → σ → Task σ α} {abandon : σ → σ} {a : α} (later : now ≤ now₁)
    (h : EndsUp now₁ (turn now₁ s₁ (.wait s wake resume abandon)) now' s' a) :
    EndsUp now (.wait s wake resume abandon) now' s' a := by
  rw [turn] at h
  split at h
  · exact .wait later h
  · cases h with
    | wait later' rest => exact .wait (Nat.le_trans later later') rest

/-- What a task ends with in company is one of its ends. -/
theorem endsUp_runBeside {launch : σ → σ × List (Procedure σ Unit)} {rounds now : Nat}
    {background held : List (Task σ Unit)} {t : Task σ α} {finish : Finish σ α}
    (ends : t.runBeside launch rounds now background held = some finish) :
    EndsUp now t finish.now finish.state finish.result := by
  induction rounds generalizing now background held t with
  | zero =>
    cases t with
    | done s a =>
      cases ends
      exact .done
    | wait => cases ends
  | succ rounds ih =>
    cases t with
    | done s a =>
      cases ends
      exact .done
    | wait s wake resume abandon =>
      rw [runBeside] at ends
      simp only at ends
      split at ends
      · -- the others have had their turns, and the task waits as before
        cases ih ends with
        | wait later rest => exact .wait later rest
      · split at ends
        · exact .of_turn (Nat.le_refl _) (ih ends)
        · obtain ⟨now₁, tick, ends⟩ := Option.bind_eq_some_iff.mp ends
          obtain ⟨alarm, -, rfl⟩ := Option.map_eq_some_iff.mp tick
          exact .of_turn (Nat.le_max_left _ _) (ih ends)

end

end Task

namespace Procedure

variable {σ α β : Type}

/-- Started at `now` in `s`, the procedure may end at `now'` in `s'` and with `a`. -/
def EndsUp (p : Procedure σ α) (now : Nat) (s : σ) (now' : Nat) (s' : σ) (a : α) : Prop :=
  Task.EndsUp now (p now s) now' s' a

variable {p : Procedure σ α} {now now' : Nat} {s s' : σ}

theorem endsUp_pure_iff {a a' : α} :
    (pure a : Procedure σ α).EndsUp now s now' s' a' ↔ now' = now ∧ s' = s ∧ a' = a :=
  Task.endsUp_done_iff

theorem endsUp_modify_iff {f : σ → σ} {a : Unit} :
    (modify f).EndsUp now s now' s' a ↔ now' = now ∧ s' = f s ∧ a = () :=
  Task.endsUp_done_iff

theorem endsUp_bind_iff {next : α → Procedure σ β} {b : β} :
    (p >>= next).EndsUp now s now' s' b ↔
      ∃ now₁ s₁ a, p.EndsUp now s now₁ s₁ a ∧ (next a).EndsUp now₁ s₁ now' s' b :=
  Task.endsUp_bind_iff

end Procedure

end SlotRing
