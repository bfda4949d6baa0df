/-
# Procedures that may wait

Who waits leaves the state to others, and goes on in whatever they have made of
it.  What can still be relied on is an invariant `J` that all of them keep.
`p.Keeps J now s Q` says that a procedure, started at `now` in `s`, does its
part: `J` holds whenever it stops and after it has been cut off, and when it
ends, `Q` holds of the state and the result, if only `J` held whenever it went
on.  Nothing is said of how long that takes.

A procedure that ends at once keeps everything (`Procedure.Ends.keeps`); the
other rules are, as for `Procedure.Ends`, one for each way of putting procedures
together.
-/
import SlotRing.Proofs.Time.Immediate

namespace SlotRing

/-- A property does not depend on the credit that is left. -/
def Paced.Steady {σ : Type} [Paced σ] (J : σ → Prop) : Prop :=
  ∀ n s, J s → J (Paced.setCredit n s)

namespace Task

variable {σ α β : Type} {J : σ → Prop}

/-- Wherever the task stops, `J` holds, and `Q` does where it ends, as long as
`J` holds whenever it goes on. -/
def Keeps (J : σ → Prop) (Q : σ → α → Prop) : Task σ α → Prop
  | .done s a => Q s a
  | .wait s _ resume abandon =>
    J s ∧ (∀ now s, J s → (resume now s).Keeps J Q) ∧ ∀ s, J s → J (abandon s)

theorem Keeps.mono {Q R : σ → α → Prop} {t : Task σ α} (h : t.Keeps J Q)
    (weaker : ∀ s a, Q s a → R s a) : t.Keeps J R := by
  induction t with
  | done s a => exact weaker s a h
  | wait s wake resume abandon ih =>
    obtain ⟨stopped, resumed, abandoned⟩ := h
    exact ⟨stopped, fun now s hs => ih now s (resumed now s hs), abandoned⟩

theorem Keeps.bind {Q : σ → α → Prop} {T : σ → β → Prop} {next : α → Procedure σ β}
    {t : Task σ α} (h : t.Keeps J Q) (now : Nat)
    (then_ : ∀ now s a, Q s a → (next a now s).Keeps J T) : (t.bind now next).Keeps J T := by
  induction t generalizing now with
  | done s a => exact then_ now s a h
  | wait s wake resume abandon ih =>
    obtain ⟨stopped, resumed, abandoned⟩ := h
    exact ⟨stopped, fun now s hs => ih now s (resumed now s hs) now, abandoned⟩

theorem Keeps.ensuring {Q : σ → α → Prop} {release : σ → σ} {t : Task σ α}
    (h : t.Keeps J fun s a => Q (release s) a) (released : ∀ s, J s → J (release s)) :
    (t.ensuring release).Keeps J Q := by
  induction t with
  | done s a => exact h
  | wait s wake resume abandon ih =>
    obtain ⟨stopped, resumed, abandoned⟩ := h
    exact ⟨stopped, fun now s hs => ih now s (resumed now s hs),
      fun s hs => released _ (abandoned s hs)⟩

theorem Keeps.within [Paced σ] (steady : Paced.Steady J) {T : σ → Option α → Prop}
    {t : Task σ α} (h : t.Keeps J fun s a => T s (some a)) (cut : ∀ s, J s → T s none)
    (deadline now credit : Nat) : (t.within deadline now credit).Keeps J T := by
  induction t generalizing now credit with
  | done s a => exact h
  | wait s wake resume abandon ih =>
    obtain ⟨stopped, resumed, abandoned⟩ := h
    have ended (s : σ) (hs : J s) : T (Paced.spend (abandon s)) none :=
      cut _ (steady _ _ (abandoned s hs))
    rw [Task.within]
    split
    · exact ended s stopped
    · refine ⟨stopped, fun now s hs => ?_, abandoned⟩
      show (if _ then _ else _ : Task σ (Option α)).Keeps J T
      split
      · exact ih now s (resumed now s hs) now _
      · exact ended s hs

/-! ## Side by side -/

theorem Keeps.state {t : Task σ α} (h : t.Keeps J fun s _ => J s) : J t.state := by
  cases t with
  | done s a => exact h
  | wait s wake resume abandon => exact h.1

theorem Keeps.pairLeft {u : Task σ β} (h : u.Keeps J fun s _ => J s) (a : α) {s : σ}
    (hs : J s) : (Task.pairLeft a u s).Keeps J fun s _ => J s := by
  induction u generalizing s with
  | done s' b => exact hs
  | wait s' wake resume abandon ih =>
    obtain ⟨-, resumed, abandoned⟩ := h
    exact ⟨hs, fun now s hs => ih now s (resumed now s hs) (resumed now s hs).state, abandoned⟩

theorem Keeps.pairWaiting {wake : Wake σ} {abandon : σ → σ}
    {resume : Nat → σ → σ × (Task σ β → σ → Task σ (α × β))}
    (resumed : ∀ now s, J s → J (resume now s).1 ∧ ∀ (u : Task σ β) (s' : σ),
      (u.Keeps J fun s _ => J s) → J s' → ((resume now s).2 u s').Keeps J fun s _ => J s)
    (abandoned : ∀ s, J s → J (abandon s)) {u : Task σ β} (h : u.Keeps J fun s _ => J s) {s : σ}
    (hs : J s) : (Task.pairWaiting wake resume abandon u s).Keeps J fun s _ => J s := by
  induction u generalizing s with
  | done s' b =>
    exact ⟨hs, fun now s hs => (resumed now s hs).2 _ _ (resumed now s hs).1
      (resumed now s hs).1, abandoned⟩
  | wait s' wake' resume' abandon' ih =>
    obtain ⟨-, resumed', abandoned'⟩ := h
    refine ⟨hs, fun now s hs => ?_, fun s hs => abandoned' _ (abandoned s hs)⟩
    obtain ⟨left, rest⟩ := resumed now s hs
    show (if _ then _ else _ : Task σ (α × β)).Keeps J _
    split
    · show (if _ then _ else _ : Task σ (α × β)).Keeps J _
      split
      · have right := resumed' now _ left
        exact rest _ _ right right.state
      · exact rest _ _ ⟨left, resumed', abandoned'⟩ left
    · have right := resumed' now s hs
      exact ih now s right right.state

theorem Keeps.both {t : Task σ α} {u : Task σ β} (ht : t.Keeps J fun s _ => J s)
    (hu : u.Keeps J fun s _ => J s) {s : σ} (hs : J s) :
    (t.both u s).Keeps J fun s _ => J s := by
  induction t generalizing u s with
  | done s' a => exact hu.pairLeft a hs
  | wait s' wake resume abandon ih =>
    obtain ⟨-, resumed, abandoned⟩ := ht
    exact Keeps.pairWaiting (fun now s hs => ⟨(resumed now s hs).state,
      fun u s' hu hs' => ih now s (resumed now s hs) hu hs'⟩) abandoned hu hs

/-! ## On its own -/

theorem Keeps.run [Paced σ] (steady : Paced.Steady J) {Q : σ → α → Prop} {t : Task σ α}
    (h : t.Keeps J Q) (now : Nat) : Q (t.run now).2.1 (t.run now).2.2 := by
  induction t generalizing now with
  | done s a => exact h
  | wait s wake resume abandon ih =>
    obtain ⟨stopped, resumed, -⟩ := h
    exact ih _ _ (resumed _ _ (steady _ _ stopped)) _

end Task

namespace Procedure

variable {σ α β : Type} {J : σ → Prop} {p : Procedure σ α} {now : Nat} {s : σ}
variable {Q R : σ → α → Prop}

/-- Started at `now` in `s`, the procedure keeps `J` where it stops, and `Q`
holds where it ends. -/
def Keeps (p : Procedure σ α) (J : σ → Prop) (now : Nat) (s : σ) (Q : σ → α → Prop) : Prop :=
  (p now s).Keeps J Q

/-- Nobody else has a say in a procedure that never waits. -/
theorem Ends.keeps (h : p.Ends now s Q) : p.Keeps J now s Q := by
  obtain ⟨s', a, run, holds⟩ := h
  rw [Keeps, run]
  exact holds

/-- To end at once is to promise an end without ever stopping. -/
theorem ends_iff_keeps : p.Ends now s Q ↔ p.Keeps (fun _ => False) now s Q := by
  constructor
  · exact Ends.keeps
  · intro h
    cases run : p now s with
    | done s' a =>
      rw [Keeps, run] at h
      exact ⟨s', a, run, h⟩
    | wait s' wake resume abandon =>
      rw [Keeps, run] at h
      exact h.1.elim

theorem keeps_pure {a : α} (h : Q s a) : (pure a : Procedure σ α).Keeps J now s Q := h

theorem Keeps.mono (h : p.Keeps J now s Q) (weaker : ∀ s' a, Q s' a → R s' a) :
    p.Keeps J now s R :=
  Task.Keeps.mono h weaker

theorem Keeps.bind {next : α → Procedure σ β} {T : σ → β → Prop} (h : p.Keeps J now s Q)
    (then_ : ∀ now s' a, Q s' a → (next a).Keeps J now s' T) : (p >>= next).Keeps J now s T :=
  Task.Keeps.bind h now then_

theorem Keeps.discard {T : σ → Unit → Prop} (h : p.Keeps J now s fun s' _ => T s' ()) :
    (discard p).Keeps J now s T := by
  show (Functor.map (fun _ => ()) p).Keeps J now s T
  rw [← bind_pure_comp]
  exact h.bind fun now s' a holds => keeps_pure holds

theorem Keeps.ensuring {release : σ → σ} (h : p.Keeps J now s fun s' a => Q (release s') a)
    (released : ∀ s, J s → J (release s)) : (p.ensuring release).Keeps J now s Q :=
  Task.Keeps.ensuring h released

section

variable [Paced σ] (steady : Paced.Steady J)
include steady

theorem Keeps.within {T : σ → Option α → Prop} (h : p.Keeps J now s fun s' a => T s' (some a))
    (cut : ∀ s', J s' → T s' none) (deadline : Nat) : (p.within deadline).Keeps J now s T :=
  Task.Keeps.within steady h cut deadline now _

/-- Who sleeps has nothing but the invariant when the time is over. -/
theorem keeps_sleep (ticks : Nat) (h : J s) :
    (sleep ticks : Procedure σ Unit).Keeps J now s fun s' _ => J s' := by
  show (await (.clock (now + ticks)) now s).Keeps J _
  unfold await
  split
  · exact steady _ _ h
  · exact ⟨h, fun _ s' hs => steady _ _ hs, fun _ hs => hs⟩

end

/-- Procedures that keep an invariant from wherever it holds do so side by
side. -/
theorem keeps_all {ps : List (Procedure σ α)}
    (each : ∀ p ∈ ps, ∀ now s, J s → p.Keeps J now s fun s' _ => J s') (h : J s) :
    (all ps).Keeps J now s fun s' _ => J s' := by
  induction ps generalizing now s with
  | nil => exact h
  | cons p ps ih =>
    have left := each p List.mem_cons_self now s h
    have right : (all ps).Keeps J now (p now s).state fun s' _ => J s' :=
      ih (fun q hq => each q (List.mem_cons_of_mem _ hq)) left.state
    exact Task.Keeps.bind (left.both right right.state) now fun _ _ _ hs => hs

end Procedure

end SlotRing
