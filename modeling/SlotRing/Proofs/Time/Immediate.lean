/-
# Procedures that end at once

Where nothing is lost or held back, no procedure of the library has to wait for
the clock.  `p.Ends now s Q` says so of one run: started at `now` in `s`, the
procedure ends without a stop, and `Q` holds of the state and the result it
ends with.  That is total correctness, and there is one rule for each way of
putting procedures together; whatever is proved about a longer procedure is put
together from these rules.
-/
import SlotRing.Time.Procedure

namespace SlotRing

/-- A list is worked through from the front.  What is true when all is done, and
is handed back by each item to what was done before it, is true at the beginning. -/
theorem work_through {α : Type} {items : List α} {motive : List α → List α → Prop}
    (worked : motive items [])
    (next : ∀ done a todo, done ++ a :: todo = items → motive (done ++ [a]) todo →
      motive done (a :: todo)) : motive [] items := by
  have all : ∀ todo done, done ++ todo = items → motive done todo := by
    intro todo
    induction todo with
    | nil =>
      intro done split
      rw [List.append_nil] at split
      exact split ▸ worked
    | cons a todo ih =>
      intro done split
      refine next done a todo split (ih (done ++ [a]) ?_)
      rw [List.append_assoc]
      exact split
  exact all items [] rfl

namespace Procedure

variable {σ α β : Type}

/-- Started at `now` in `s`, the procedure ends without a stop, and `Q` holds
of the state and the result that it ends with. -/
def Ends (p : Procedure σ α) (now : Nat) (s : σ) (Q : σ → α → Prop) : Prop :=
  ∃ s' a, p now s = .done s' a ∧ Q s' a

section Rules

variable {p : Procedure σ α} {now : Nat} {s : σ} {Q R : σ → α → Prop}

theorem Ends.mono (h : p.Ends now s Q) (weaker : ∀ s' a, Q s' a → R s' a) :
    p.Ends now s R := by
  obtain ⟨s', a, run, holds⟩ := h
  exact ⟨s', a, run, weaker s' a holds⟩

theorem ends_pure {a : α} (h : Q s a) : (pure a : Procedure σ α).Ends now s Q :=
  ⟨s, a, rfl, h⟩

theorem Ends.bind {next : α → Procedure σ β} {T : σ → β → Prop} (h : p.Ends now s Q)
    (then_ : ∀ s' a, Q s' a → (next a).Ends now s' T) : (p >>= next).Ends now s T := by
  obtain ⟨s', a, run, holds⟩ := h
  obtain ⟨s'', b, run', holds'⟩ := then_ s' a holds
  refine ⟨s'', b, ?_, holds'⟩
  show (p now s).bind now next = _
  rw [run]
  exact run'

theorem Ends.map {f : α → β} {T : σ → β → Prop} (h : p.Ends now s fun s' a => T s' (f a)) :
    (f <$> p).Ends now s T := by
  rw [← bind_pure_comp]
  exact h.bind fun _ _ holds => ends_pure holds

theorem Ends.discard {T : σ → Unit → Prop} (h : p.Ends now s fun s' _ => T s' ()) :
    (discard p).Ends now s T :=
  h.map

theorem ends_now {Q : σ → Nat → Prop} (h : Q s now) : Procedure.now.Ends now s Q :=
  ⟨s, now, rfl, h⟩

theorem ends_read {f : σ → α} (h : Q s (f s)) : (read f).Ends now s Q :=
  ⟨s, f s, rfl, h⟩

theorem ends_modify {f : σ → σ} {Q : σ → Unit → Prop} (h : Q (f s) ()) :
    (modify f).Ends now s Q :=
  ⟨f s, (), rfl, h⟩

theorem ends_change {f : σ → σ × α} (h : Q (f s).1 (f s).2) : (change f).Ends now s Q :=
  ⟨(f s).1, (f s).2, rfl, h⟩

theorem Ends.ensuring {release : σ → σ} (h : p.Ends now s fun s' a => Q (release s') a) :
    (p.ensuring release).Ends now s Q := by
  obtain ⟨s', a, run, holds⟩ := h
  refine ⟨release s', a, ?_, holds⟩
  simp only [Procedure.ensuring, run, Task.ensuring]

/-- A deadline does not matter to a procedure that never waits. -/
theorem Ends.within [Paced σ] {deadline : Nat} {T : σ → Option α → Prop}
    (h : p.Ends now s fun s' a => T s' (some a)) : (p.within deadline).Ends now s T := by
  obtain ⟨s', a, run, holds⟩ := h
  refine ⟨s', some a, ?_, holds⟩
  simp only [Procedure.within, run, Task.within]

end Rules

/-! ## Side by side -/

theorem Ends.both {p : Procedure σ α} {q : Procedure σ β} {now : Nat} {s : σ}
    {Q : σ → α → Prop} {T : σ → α × β → Prop} (h : p.Ends now s Q)
    (then_ : ∀ s' a, Q s' a → q.Ends now s' fun s'' b => T s'' (a, b)) :
    (p.both q).Ends now s T := by
  obtain ⟨s', a, run, holds⟩ := h
  obtain ⟨s'', b, run', holds'⟩ := then_ s' a holds
  refine ⟨s'', (a, b), ?_, holds'⟩
  simp only [Procedure.both, run, Task.state, run', Task.both, Task.pairLeft]

theorem ends_all_nil {now : Nat} {s : σ} {T : σ → List α → Prop} (h : T s []) :
    (all ([] : List (Procedure σ α))).Ends now s T :=
  ⟨s, [], rfl, h⟩

theorem ends_all_cons {p : Procedure σ α} {ps : List (Procedure σ α)} {now : Nat} {s : σ}
    {Q : σ → α → Prop} {T : σ → List α → Prop} (h : p.Ends now s Q)
    (then_ : ∀ s' a, Q s' a → (all ps).Ends now s' fun s'' as => T s'' (a :: as)) :
    (all (p :: ps)).Ends now s T := by
  obtain ⟨s', ⟨a, as⟩, run, holds⟩ := h.both (T := fun s' r => T s' (r.1 :: r.2)) then_
  refine ⟨s', a :: as, ?_, holds⟩
  simp only [all, Procedure.bind, run, Task.bind, Procedure.pure]

end Procedure

end SlotRing
