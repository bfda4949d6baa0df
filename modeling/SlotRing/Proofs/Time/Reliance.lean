/-
# Procedures that rely on others

An invariant (`Procedure.Keeps`) says what is true all along, but not that
something, once it has been brought about, stays so.  For that, what everybody
does to the state is given by relations: `p.Abides others own now s Q` says that a
procedure, started at `now` in `s`, takes steps along `own` only, and ends as `Q`
says, if only the others take steps along `others` whenever it waits.  Nothing is
said of how long that takes.

Side by side, what each of several procedures does is among what the others have
to put up with; with that, what one of them has brought about is still there when
all of them have ended (`Procedure.abides_all`).
-/
import Mathlib.Data.List.Forall2
import SlotRing.Proofs.Time.Waiting

namespace SlotRing

/-- A way for a state to develop: nothing may happen, one development may follow
another, and the credit does not matter. -/
structure Paced.Drift {σ : Type} [Paced σ] (R : σ → σ → Prop) : Prop where
  refl (s : σ) : R s s
  trans {s t u : σ} : R s t → R t u → R s u
  credit (n : Nat) (s : σ) : R s (Paced.setCredit n s)

def Stable {σ : Type} (R : σ → σ → Prop) (P : σ → Prop) : Prop :=
  ∀ s s', R s s' → P s → P s'

/-- The development that preserves a property. -/
def Preserving {σ : Type} (P : σ → Prop) (s s' : σ) : Prop := P s → P s'

namespace Task

variable {σ α β : Type}

/-- From `s` on the task takes steps along `own`, and it ends as `Q` says, as long
as the others take steps along `others`. -/
def Abides (others own : σ → σ → Prop) (Q : σ → α → Prop) : Task σ α → σ → Prop
  | .done t a, s => own s t ∧ Q t a
  | .wait t _ resume abandon, s =>
    own s t ∧ (∀ now t', others t t' → (resume now t').Abides others own Q t') ∧
      ∀ t', others t t' → own t' (abandon t')

section

variable {others own others' own' : σ → σ → Prop} {Q T : σ → α → Prop} {t : Task σ α} {s : σ}

theorem Abides.moved (h : t.Abides others own Q s) : own s t.state := by
  cases t with
  | done s' a => exact h.1
  | wait s' wake resume abandon => exact h.1

theorem Abides.mono (h : t.Abides others own Q s) (weaker : ∀ s a, Q s a → T s a) :
    t.Abides others own T s := by
  induction t generalizing s with
  | done s' a => exact ⟨h.1, weaker s' a h.2⟩
  | wait s' wake resume abandon ih =>
    obtain ⟨moved, resumed, abandoned⟩ := h
    exact ⟨moved, fun now t' step => ih now t' (resumed now t' step), abandoned⟩

theorem Abides.relax (h : t.Abides others own Q s) (fewer : ∀ s s', others' s s' → others s s')
    (more : ∀ s s', own s s' → own' s s') : t.Abides others' own' Q s := by
  induction t generalizing s with
  | done s' a => exact ⟨more _ _ h.1, h.2⟩
  | wait s' wake resume abandon ih =>
    obtain ⟨moved, resumed, abandoned⟩ := h
    exact ⟨more _ _ moved, fun now t' step => ih now t' (resumed now t' (fewer _ _ step)),
      fun t' step => more _ _ (abandoned t' (fewer _ _ step))⟩

end

variable [Paced σ] {others own : σ → σ → Prop} {t : Task σ α} {s : σ}

section

variable {Q : σ → α → Prop} (drift : Paced.Drift own)
include drift

theorem Abides.after {s₀ : σ} (first : own s₀ s) (h : t.Abides others own Q s) :
    t.Abides others own Q s₀ := by
  cases t with
  | done s' a => exact ⟨drift.trans first h.1, h.2⟩
  | wait s' wake resume abandon => exact ⟨drift.trans first h.1, h.2⟩

theorem Abides.bind {T : σ → β → Prop} {next : α → Procedure σ β} (h : t.Abides others own Q s)
    (now : Nat) (then_ : ∀ now s a, Q s a → (next a now s).Abides others own T s) :
    (t.bind now next).Abides others own T s := by
  induction t generalizing now s with
  | done s' a => exact (then_ now s' a h.2).after drift h.1
  | wait s' wake resume abandon ih =>
    obtain ⟨moved, resumed, abandoned⟩ := h
    exact ⟨moved, fun now t' step => ih now t' (resumed now t' step) now, abandoned⟩

theorem Abides.ensuring {release : σ → σ} (released : ∀ s, own s (release s))
    (h : t.Abides others own (fun s a => Q (release s) a) s) :
    (t.ensuring release).Abides others own Q s := by
  induction t generalizing s with
  | done s' a => exact ⟨drift.trans h.1 (released s'), h.2⟩
  | wait s' wake resume abandon ih =>
    obtain ⟨moved, resumed, abandoned⟩ := h
    exact ⟨moved, fun now t' step => ih now t' (resumed now t' step),
      fun t' step => drift.trans (abandoned t' step) (released _)⟩

end

/-- What the task does is among what the others may do, so that the whole way is
of that kind. -/
theorem Abides.along {Q : σ → α → Prop} {s₀ : σ} (theirs : Paced.Drift others)
    (part : ∀ s s', own s s' → others s s')
    (start : others s₀ s) (h : t.Abides others own Q s) :
    t.Abides others own (fun s' a => others s₀ s' ∧ Q s' a) s := by
  induction t generalizing s with
  | done s' a => exact ⟨h.1, theirs.trans start (part _ _ h.1), h.2⟩
  | wait s' wake resume abandon ih =>
    obtain ⟨moved, resumed, abandoned⟩ := h
    exact ⟨moved, fun now t' step =>
      ih now t' (theirs.trans start (theirs.trans (part _ _ moved) step)) (resumed now t' step),
      abandoned⟩

/-- A task that is cut off has gone part of its way. -/
theorem Abides.within {T : σ → Option α → Prop} (theirs : Paced.Drift others)
    (mine : Paced.Drift own) (part : ∀ s s', own s s' → others s s')
    (h : t.Abides others own (fun s a => T s (some a)) s) (cut : ∀ s', others s s' → T s' none)
    (deadline now credit : Nat) : (t.within deadline now credit).Abides others own T s := by
  induction t generalizing now credit s with
  | done s' a => exact h
  | wait s' wake resume abandon ih =>
    obtain ⟨moved, resumed, abandoned⟩ := h
    have ended (t' : σ) (step : others s' t') : own t' (Paced.spend (abandon t')) ∧
        T (Paced.spend (abandon t')) none := by
      have back : own t' (Paced.spend (abandon t')) :=
        mine.trans (abandoned t' step) (mine.credit _ _)
      exact ⟨back, cut _ (theirs.trans (theirs.trans (part _ _ moved) step) (part _ _ back))⟩
    rw [Task.within]
    split
    · obtain ⟨back, holds⟩ := ended s' (theirs.refl s')
      exact ⟨mine.trans moved back, holds⟩
    · refine ⟨moved, fun now t' step => ?_, abandoned⟩
      show (if _ then _ else _ : Task σ (Option α)).Abides others own T t'
      split
      · exact ih now t' (resumed now t' step)
          (fun u later => cut u (theirs.trans (theirs.trans (part _ _ moved) step) later)) now _
      · exact ended t' step

/-! ## Side by side -/

section

variable {Q : σ → α → Prop} {T : σ → β → Prop} (theirs : Paced.Drift others)
  (part : ∀ s s', own s s' → others s s')
include theirs part

theorem Abides.pairLeft (lasts : ∀ a, Stable others (Q · a)) {u : Task σ β} {a : α} {s₀ s : σ}
    (left : Q s a) (h : u.Abides others own T s₀) (stayed : others u.state s)
    (lastsT : ∀ b, Stable others (T · b)) {s₁ : σ} (moved : own s₁ s) :
    (Task.pairLeft a u s).Abides others own (fun s r => Q s r.1 ∧ T s r.2) s₁ := by
  induction u generalizing s₀ s s₁ with
  | done s' b => exact ⟨moved, left, lastsT b _ _ stayed h.2⟩
  | wait s' wake resume abandon ih =>
    obtain ⟨-, resumed, abandoned⟩ := h
    refine ⟨moved, fun now t' step => ?_, fun t' step => abandoned t' (theirs.trans stayed step)⟩
    have rest := resumed now t' (theirs.trans stayed step)
    exact ih now t' (lasts a _ _ (theirs.trans step (part _ _ rest.moved)) left) rest
      (theirs.refl _) rest.moved

variable (mine : Paced.Drift own)
include mine

theorem Abides.pairWaiting {wake : Wake σ} {abandon : σ → σ}
    {resume : Nat → σ → σ × (Task σ β → σ → Task σ (α × β))} {stop : σ}
    (resumed : ∀ now t, others stop t → own t (resume now t).1 ∧
      ∀ (u : Task σ β) (s₀ s : σ), u.Abides others own T s₀ → others u.state s →
        others (resume now t).1 s → ∀ s₁, own s₁ s →
        ((resume now t).2 u s).Abides others own (fun s r => Q s r.1 ∧ T s r.2) s₁)
    (abandoned : ∀ t, others stop t → own t (abandon t)) {u : Task σ β} {s₀ s : σ}
    (h : u.Abides others own T s₀) (stayed : others u.state s) (waited : others stop s)
    (lastsT : ∀ b, Stable others (T · b)) {s₁ : σ} (moved : own s₁ s) :
    (Task.pairWaiting wake resume abandon u s).Abides others own
      (fun s r => Q s r.1 ∧ T s r.2) s₁ := by
  induction u generalizing s₀ s s₁ with
  | done s' b =>
    refine ⟨moved, fun now t step => ?_, fun t step => abandoned t (theirs.trans waited step)⟩
    obtain ⟨left, rest⟩ := resumed now t (theirs.trans waited step)
    refine rest (.done (resume now t).1 b) (resume now t).1 _ ⟨mine.refl _, ?_⟩ (theirs.refl _)
      (theirs.refl _) t left
    exact lastsT b _ _ (theirs.trans (theirs.trans stayed step) (part _ _ left)) h.2
  | wait s' wake' resume' abandon' ih =>
    obtain ⟨-, resumed', abandoned'⟩ := h
    refine ⟨moved, fun now t step => ?_, fun t step => ?_⟩
    · have waited' := theirs.trans waited step
      have stayed' := theirs.trans stayed step
      obtain ⟨left, rest⟩ := resumed now t waited'
      show (if _ then _ else _ : Task σ (α × β)).Abides others own _ t
      split
      · show (if _ then _ else _ : Task σ (α × β)).Abides others own _ t
        split
        · have right := resumed' now _ (theirs.trans stayed' (part _ _ left))
          exact (rest _ _ _ right (theirs.refl _) (part _ _ right.moved) _ right.moved).after mine
            left
        · have since := theirs.trans stayed' (part _ _ left)
          have right : (Task.wait (resume now t).1 wake' resume' abandon').Abides others own T
              (resume now t).1 :=
            ⟨mine.refl _, fun now t' more => resumed' now t' (theirs.trans since more),
              fun t' more => abandoned' t' (theirs.trans since more)⟩
          exact rest _ _ _ right (theirs.refl _) (theirs.refl _) t left
      · have right := resumed' now t stayed'
        exact ih now t right (theirs.refl _) (theirs.trans waited' (part _ _ right.moved))
          right.moved
    · have first := abandoned t (theirs.trans waited step)
      exact mine.trans first
        (abandoned' _ (theirs.trans (theirs.trans stayed step) (part _ _ first)))

theorem Abides.both {u : Task σ β} {s₀ s₀' s : σ} (ht : t.Abides others own Q s₀)
    (stayed : others t.state s) (hu : u.Abides others own T s₀') (stayed' : others u.state s)
    (lasts : ∀ a, Stable others (Q · a)) (lastsT : ∀ b, Stable others (T · b)) {s₁ : σ}
    (moved : own s₁ s) :
    (t.both u s).Abides others own (fun s r => Q s r.1 ∧ T s r.2) s₁ := by
  induction t generalizing u s₀ s₀' s s₁ with
  | done s' a =>
    exact Abides.pairLeft theirs part lasts (lasts a _ _ stayed ht.2) hu stayed' lastsT moved
  | wait s' wake resume abandon ih =>
    obtain ⟨-, resumed, abandoned⟩ := ht
    refine Abides.pairWaiting theirs part mine (fun now t step => ?_) abandoned hu stayed' stayed
      lastsT moved
    have rest := resumed now t step
    exact ⟨rest.moved, fun u s₀ s hu here there s₁ moved => ih now t rest there hu here moved⟩

end

theorem Abides.run {Q : σ → α → Prop} (alone : ∀ n s, others s (Paced.setCredit n s))
    (h : t.Abides others own Q s) (now : Nat) : Q (t.run now).2.1 (t.run now).2.2 := by
  induction t generalizing s now with
  | done s' a => exact h.2
  | wait s' wake resume abandon ih =>
    obtain ⟨-, resumed, -⟩ := h
    exact ih _ _ (resumed _ _ (alone _ _)) _

end Task

namespace Procedure

variable {σ α β : Type} {others own others' own' : σ → σ → Prop} {p : Procedure σ α} {now : Nat}
  {s : σ} {Q T : σ → α → Prop}

/-- Started at `now` in `s`, the procedure takes steps along `own`, and it ends as
`Q` says, as long as the others take steps along `others`. -/
def Abides (p : Procedure σ α) (others own : σ → σ → Prop) (now : Nat) (s : σ)
    (Q : σ → α → Prop) : Prop :=
  (p now s).Abides others own Q s

theorem Abides.mono (h : p.Abides others own now s Q) (weaker : ∀ s a, Q s a → T s a) :
    p.Abides others own now s T :=
  Task.Abides.mono h weaker

theorem Abides.relax (h : p.Abides others own now s Q)
    (fewer : ∀ s s', others' s s' → others s s') (more : ∀ s s', own s s' → own' s s') :
    p.Abides others' own' now s Q :=
  Task.Abides.relax h fewer more

/-- Nobody else has a say in a procedure that never waits. -/
theorem Ends.abides (h : p.Ends now s fun s' a => own s s' ∧ Q s' a) :
    p.Abides others own now s Q := by
  obtain ⟨s', a, run, holds⟩ := h
  rw [Abides, run]
  exact holds

section

variable [Paced σ] (drift : Paced.Drift own)
include drift

theorem abides_pure {a : α} (h : Q s a) : (pure a : Procedure σ α).Abides others own now s Q :=
  ⟨drift.refl s, h⟩

theorem Abides.bind {next : α → Procedure σ β} {T : σ → β → Prop}
    (h : p.Abides others own now s Q)
    (then_ : ∀ now s a, Q s a → (next a).Abides others own now s T) :
    (p >>= next).Abides others own now s T :=
  Task.Abides.bind drift h now then_

theorem Abides.discard {T : σ → Unit → Prop}
    (h : p.Abides others own now s fun s' _ => T s' ()) :
    (discard p).Abides others own now s T := by
  show (Functor.map (fun _ => ()) p).Abides others own now s T
  rw [← bind_pure_comp]
  exact h.bind drift fun now s' a holds => abides_pure drift holds

theorem Abides.ensuring {release : σ → σ} (released : ∀ s, own s (release s))
    (h : p.Abides others own now s fun s' a => Q (release s') a) :
    (p.ensuring release).Abides others own now s Q :=
  Task.Abides.ensuring drift released h

end

section

variable [Paced σ] (theirs : Paced.Drift others) (mine : Paced.Drift own)
include theirs mine

/-- Who sleeps finds what the others have done meanwhile. -/
theorem abides_sleep (ticks : Nat) :
    (sleep ticks : Procedure σ Unit).Abides others own now s fun s' _ => others s s' := by
  show (await (.clock (now + ticks)) now s).Abides others own _ s
  unfold await
  split
  · exact ⟨mine.credit _ _, theirs.credit _ _⟩
  · exact ⟨mine.refl s, fun _ t step => ⟨mine.credit _ _, theirs.trans step (theirs.credit _ _)⟩,
      fun t _ => mine.refl t⟩

omit theirs in
/-- What starts at the next turn starts in what the others have made of the
state. -/
theorem Abides.later (h : ∀ now s', others s s' → p.Abides others own now s' Q) :
    p.later.Abides others own now s Q :=
  ⟨mine.refl s, h, fun t _ => mine.refl t⟩

variable (part : ∀ s s', own s s' → others s s')
include part

theorem Abides.both {q : Procedure σ β} {Q : σ → α → Prop} {T : σ → β → Prop}
    (hp : p.Abides others own now s Q)
    (hq : ∀ s', others s s' → q.Abides others own now s' T)
    (lasts : ∀ a, Stable others (Q · a)) (lastsT : ∀ b, Stable others (T · b)) :
    (p.both q).Abides others own now s fun s' r => Q s' r.1 ∧ T s' r.2 := by
  have left : (p now s).Abides others own Q s := hp
  have right : (q now (p now s).state).Abides others own T (p now s).state :=
    hq _ (part _ _ left.moved)
  exact Task.Abides.both theirs part mine left (part _ _ right.moved) right (theirs.refl _) lasts
    lastsT (mine.trans left.moved right.moved)

omit mine in
theorem Abides.along (h : p.Abides others own now s Q) :
    p.Abides others own now s fun s' a => others s s' ∧ Q s' a :=
  Task.Abides.along theirs part (theirs.refl s) h

theorem Abides.within {T : σ → Option α → Prop}
    (h : p.Abides others own now s fun s' a => T s' (some a)) (cut : ∀ s', others s s' → T s' none)
    (deadline : Nat) : (p.within deadline).Abides others own now s T :=
  Task.Abides.within theirs mine part h cut deadline now _

/-- Side by side, each procedure brings about its part, and all of it is there in
the end. -/
theorem abides_all {ι : Type} {f : ι → Procedure σ α} {Q : ι → σ → α → Prop}
    (lasts : ∀ i a, Stable others (Q i · a)) (is : List ι)
    (each : ∀ i ∈ is, ∀ s', others s s' → (f i).Abides others own now s' (Q i)) :
    (all (is.map f)).Abides others own now s fun s' as =>
      List.Forall₂ (fun i a => Q i s' a) is as := by
  induction is generalizing s with
  | nil => exact ⟨mine.refl s, .nil⟩
  | cons i is ih =>
    have rest : ∀ s', others s s' → (all (is.map f)).Abides others own now s' fun s' as =>
        List.Forall₂ (fun i a => Q i s' a) is as := fun s' step =>
      ih fun j hj s'' step' => each j (List.mem_cons_of_mem i hj) s'' (theirs.trans step step')
    have lasting (as : List α) :
        Stable others fun s' => List.Forall₂ (fun i a => Q i s' a) is as := by
      intro s' s'' step all
      exact all.imp fun {j a} holds => lasts j a s' s'' step holds
    refine ((each i List.mem_cons_self s (theirs.refl s)).both theirs mine part rest (lasts i)
      lasting).bind mine fun now s' r holds => ?_
    exact abides_pure mine (.cons holds.1 holds.2)

end

end Procedure

end SlotRing
