/-
# Procedures on their own

A procedure that nobody else acts beside does not stop for good: whenever it waits,
the clock goes on to the tick that it waits for, and so it returns.  `p.Returns now s
Q` says that `Q` holds of what it then leaves behind.  What comes one after the other
in such a procedure can have its own invariant for every part, where `Procedure.Keeps`
has one for the whole.

A part for which an invariant is all that needs to be known maintains it
(`Procedure.Maintains`), wherever it is started.
-/
import SlotRing.Proofs.Time.Waiting

namespace SlotRing

/-- In a new turn, the clock alone decides. -/
theorem Wake.clock_ready_renew {σ : Type} [Paced σ] (tick now : Nat) (s : σ) :
    (Wake.clock tick).ready now (Paced.renew s) = decide (tick ≤ now) := by
  simp [Wake.clock, Paced.renew, Paced.credit_setCredit, Paced.perTurn]

namespace Task

variable {σ α β : Type} [Paced σ]

theorem run_bind (t : Task σ α) (now : Nat) (next : α → Procedure σ β) :
    (t.bind now next).run now =
      (next (t.run now).2.2 (t.run now).1 (t.run now).2.1).run (t.run now).1 := by
  induction t generalizing now with
  | done s a => rfl
  | wait s wake resume abandon ih => exact ih _ _ _

theorem run_ensuring (t : Task σ α) (now : Nat) (release : σ → σ) :
    (t.ensuring release).run now =
      ((t.run now).1, release (t.run now).2.1, (t.run now).2.2) := by
  induction t generalizing now with
  | done s a => rfl
  | wait s wake resume abandon ih => exact ih _ _ _

end Task

namespace Procedure

variable {σ α β : Type}

/-- Started at `now` in `s` with nobody beside it, the procedure returns so that `Q`
holds. -/
def Returns [Paced σ] (p : Procedure σ α) (now : Nat) (s : σ) (Q : σ → α → Prop) : Prop :=
  Q ((p now s).run now).2.1 ((p now s).run now).2.2

theorem run_bind [Paced σ] (p : Procedure σ α) (next : α → Procedure σ β) (now : Nat) (s : σ) :
    ((p >>= next) now s).run now =
      (next ((p now s).run now).2.2 ((p now s).run now).1 ((p now s).run now).2.1).run
        ((p now s).run now).1 :=
  Task.run_bind (p now s) now next

section

variable [Paced σ] {p : Procedure σ α} {now : Nat} {s : σ} {Q : σ → α → Prop}

theorem Returns.mono {T : σ → α → Prop} (h : p.Returns now s Q) (weaker : ∀ s a, Q s a → T s a) :
    p.Returns now s T :=
  weaker _ _ h

theorem returns_pure {a : α} (h : Q s a) : (pure a : Procedure σ α).Returns now s Q := h

theorem Returns.bind {next : α → Procedure σ β} {T : σ → β → Prop} (h : p.Returns now s Q)
    (then_ : ∀ now s a, Q s a → (next a).Returns now s T) : (p >>= next).Returns now s T := by
  show T (((p now s).bind now next).run now).2.1 (((p now s).bind now next).run now).2.2
  rw [Task.run_bind]
  exact then_ _ _ _ h

theorem Returns.ensuring {release : σ → σ} (h : p.Returns now s fun s' a => Q (release s') a) :
    (p.ensuring release).Returns now s Q := by
  show Q (((p now s).ensuring release).run now).2.1 (((p now s).ensuring release).run now).2.2
  rw [Task.run_ensuring]
  exact h

/-- Of a procedure that ends at once, what is known of its return is known of its end. -/
theorem Ends.and_returns {T : σ → α → Prop} (h : p.Ends now s Q) (returns : p.Returns now s T) :
    p.Ends now s fun s' a => Q s' a ∧ T s' a := by
  obtain ⟨s', a, run, holds⟩ := h
  rw [Returns, run] at returns
  exact ⟨s', a, run, holds, returns⟩

end

/-! ## Parts that maintain an invariant -/

/-- Wherever the procedure is started with `J`, it keeps `J` and ends with it. -/
def Maintains (p : Procedure σ α) (J : σ → Prop) : Prop :=
  ∀ now s, J s → p.Keeps J now s fun s' _ => J s'

section

variable {p : Procedure σ α} {J : σ → Prop}

theorem maintains_pure (a : α) : (pure a : Procedure σ α).Maintains J := fun _ _ h => keeps_pure h

theorem maintains_read (f : σ → α) : (read f).Maintains J :=
  fun _ _ h => (ends_read (Q := fun s _ => J s) h).keeps

theorem maintains_modify {f : σ → σ} (kept : ∀ s, J s → J (f s)) : (modify f).Maintains J :=
  fun _ s h => (ends_modify (Q := fun s _ => J s) (kept s h)).keeps

theorem maintains_change {f : σ → σ × α} (kept : ∀ s, J s → J (f s).1) :
    (change f).Maintains J :=
  fun _ s h => (ends_change (Q := fun s _ => J s) (kept s h)).keeps

theorem Maintains.bind {next : α → Procedure σ β} (h : p.Maintains J)
    (then_ : ∀ a, (next a).Maintains J) : (p >>= next).Maintains J :=
  fun now s hs => (h now s hs).bind fun now s' a hs' => then_ a now s' hs'

theorem Maintains.discard (h : p.Maintains J) : (discard p).Maintains J :=
  fun now s hs => (h now s hs).discard

theorem Maintains.ensuring (h : p.Maintains J) {release : σ → σ} (kept : ∀ s, J s → J (release s)) :
    (p.ensuring release).Maintains J :=
  fun now s hs => ((h now s hs).mono fun s' _ hs' => kept s' hs').ensuring kept

theorem maintains_all {ps : List (Procedure σ α)} (each : ∀ p ∈ ps, p.Maintains J) :
    (all ps).Maintains J :=
  fun _ _ hs => keeps_all (fun p hp now s hs => each p hp now s hs) hs

variable [Paced σ] (steady : Paced.Steady J)
include steady

theorem maintains_sleep (ticks : Nat) : (sleep ticks : Procedure σ Unit).Maintains J :=
  fun _ _ hs => keeps_sleep steady ticks hs

theorem Maintains.returns (h : p.Maintains J) {now : Nat} {s : σ} (hs : J s) :
    p.Returns now s fun s' _ => J s' :=
  Task.Keeps.run steady (h now s hs) now

end

end Procedure

end SlotRing
