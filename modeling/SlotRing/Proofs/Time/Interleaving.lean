/-
# A task among others

A main task goes on beside others, and more of them may be started at any time.  A
schedule says who has the next turn and at which tick; nothing is asked of it, so
that it may pass anybody over for as long as it likes.

What `Procedure.Abides` says of the parts is enough for the whole, whatever the
schedule: if the others do only what the main task can put up with, and it does only
what they can, then it ends as it promises (`Procedure.Abides.follow`).
-/
import SlotRing.Proofs.Time.Reliance

namespace SlotRing

/-- A main task and those beside it, with the state that they share. -/
structure Ensemble (σ α : Type) where
  main : Task σ α
  beside : List (Task σ Unit)
  state : σ

inductive Pick where
  | main
  /-- The task of that number beside the main one. -/
  | beside (i : Nat)
  /-- A new task, which is the one of that number among those that can be started. -/
  | start (i : Nat)

namespace Ensemble

variable {σ α : Type} [Paced σ]

/-- A main task that has just been started, with nobody beside it. -/
def of (p : Procedure σ α) (now : Nat) (s : σ) : Ensemble σ α :=
  let t := p now s
  { main := t, beside := [], state := t.state }

/-- Somebody has a turn; `offers` is what can be started.  Who is not there, or cannot
go on, lets the turn pass. -/
def take (offers : σ → List (Procedure σ Unit)) (e : Ensemble σ α) (now : Nat) :
    Pick → Ensemble σ α
  | .main =>
    let t := e.main.turn now e.state
    { e with main := t, state := t.state }
  | .beside i =>
    match e.beside[i]? with
    | none => e
    | some t =>
      let t := t.turn now e.state
      { e with beside := e.beside.set i t, state := t.state }
  | .start i =>
    match (offers e.state)[i]? with
    | none => e
    | some p =>
      let t := p now e.state
      { e with beside := e.beside ++ [t], state := t.state }

def follow (offers : σ → List (Procedure σ Unit)) (e : Ensemble σ α)
    (schedule : List (Nat × Pick)) : Ensemble σ α :=
  schedule.foldl (fun e pick => e.take offers pick.1 pick.2) e

end Ensemble

namespace Task

variable {σ α : Type} [Paced σ] {others own : σ → σ → Prop} {Q : σ → α → Prop} {t : Task σ α}
  {s₀ s : σ}

theorem Abides.turn (theirs : Paced.Drift others) (mine : Paced.Drift own)
    (lasts : ∀ a, Stable others (Q · a)) (h : t.Abides others own Q s₀)
    (stayed : others t.state s) (now : Nat) : (t.turn now s).Abides others own Q s := by
  cases t with
  | done s' a => exact ⟨mine.refl s, lasts a _ _ stayed h.2⟩
  | wait s' wake resume abandon =>
    obtain ⟨-, resumed, abandoned⟩ := h
    rw [Task.turn]
    split
    · have step := theirs.trans stayed (theirs.credit Paced.perTurn s)
      exact (resumed now _ step).after mine (mine.credit _ _)
    · exact ⟨mine.refl s, fun now t' step => resumed now t' (theirs.trans stayed step),
        fun t' step => abandoned t' (theirs.trans stayed step)⟩

end Task

namespace Ensemble

variable {σ α : Type}

/-- Everybody does the part of the whole that is theirs: the main task takes steps along
`own`, the others along `others`, and what they start from is still so. -/
structure Abides (others own : σ → σ → Prop) (J : σ → Prop) (Q : σ → α → Prop)
    (e : Ensemble σ α) : Prop where
  main : ∃ s, e.main.Abides others own Q s ∧ others e.main.state e.state
  beside {t : Task σ Unit} : t ∈ e.beside →
    ∃ s, t.Abides own others (fun _ _ => True) s ∧ own t.state e.state
  state : J e.state

variable [Paced σ] {others own : σ → σ → Prop} {J : σ → Prop} {Q : σ → α → Prop}
  {e : Ensemble σ α} {offers : σ → List (Procedure σ Unit)}
  (theirs : Paced.Drift others) (mine : Paced.Drift own)
  (part : ∀ s s', others s s' → own s s') (lasts : ∀ a, Stable others (Q · a))
  (steady : Stable own J)
  (offered : ∀ now s, J s → ∀ p ∈ offers s, p.Abides own others now s fun _ _ => True)

include theirs mine part steady in
theorem Abides.aside (h : e.Abides others own J Q) {t : Task σ Unit}
    (moved : t.Abides own others (fun _ _ => True) e.state) {beside : List (Task σ Unit)}
    (rest : ∀ u ∈ beside, u = t ∨ u ∈ e.beside) :
    Ensemble.Abides others own J Q { e with beside, state := t.state } := by
  have step : others e.state t.state := moved.moved
  obtain ⟨s, main, stayed⟩ := h.main
  refine ⟨⟨s, main, theirs.trans stayed step⟩, fun {u} hu => ?_, steady _ _ (part _ _ step) h.state⟩
  rcases rest u hu with rfl | old
  · exact ⟨e.state, moved, mine.refl _⟩
  · obtain ⟨s', abides, stayed'⟩ := h.beside old
    exact ⟨s', abides, mine.trans stayed' (part _ _ step)⟩

include theirs mine part lasts steady offered in
theorem Abides.take (h : e.Abides others own J Q) (now : Nat) (pick : Pick) :
    (e.take offers now pick).Abides others own J Q := by
  cases pick with
  | main =>
    obtain ⟨s, main, stayed⟩ := h.main
    have moved := main.turn theirs mine lasts stayed now
    refine ⟨⟨e.state, moved, theirs.refl _⟩, fun {t} ht => ?_, steady _ _ moved.moved h.state⟩
    obtain ⟨s', abides, stayed'⟩ := h.beside ht
    exact ⟨s', abides, mine.trans stayed' moved.moved⟩
  | beside i =>
    show (match e.beside[i]? with | none => e | some t => _ : Ensemble σ α).Abides others own J Q
    cases found : e.beside[i]? with
    | none => exact h
    | some t =>
      obtain ⟨s, abides, stayed⟩ := h.beside (List.mem_of_getElem? found)
      refine h.aside theirs mine part steady
        (abides.turn mine theirs (fun _ _ _ _ => id) stayed now) fun u hu => ?_
      exact (List.mem_or_eq_of_mem_set hu).symm
  | start i =>
    show (match (offers e.state)[i]? with | none => e | some p => _ : Ensemble σ α).Abides
      others own J Q
    cases found : (offers e.state)[i]? with
    | none => exact h
    | some p =>
      refine h.aside theirs mine part steady
        (offered now e.state h.state p (List.mem_of_getElem? found)) fun u hu => ?_
      exact (List.mem_append.mp hu).symm.imp List.mem_singleton.mp id

include theirs mine part lasts steady offered in
theorem Abides.follow (h : e.Abides others own J Q) (schedule : List (Nat × Pick)) :
    (e.follow offers schedule).Abides others own J Q := by
  induction schedule generalizing e with
  | nil => exact h
  | cons pick schedule ih =>
    exact ih (h.take theirs mine part lasts steady offered pick.1 pick.2)

end Ensemble

/-- Whatever the schedule, a procedure ends as it promises, and that is still so when
others have gone on. -/
theorem Procedure.Abides.follow {σ α : Type} [Paced σ] {others own : σ → σ → Prop} {J : σ → Prop}
    {Q : σ → α → Prop} {p : Procedure σ α} {now : Nat} {s : σ}
    {offers : σ → List (Procedure σ Unit)} (theirs : Paced.Drift others)
    (mine : Paced.Drift own) (part : ∀ s s', others s s' → own s s')
    (lasts : ∀ a, Stable others (Q · a)) (steady : Stable own J)
    (offered : ∀ now s, J s → ∀ p ∈ offers s, p.Abides own others now s fun _ _ => True)
    (h : p.Abides others own now s Q) (start : J s) {schedule : List (Nat × Pick)} {s' : σ}
    {a : α} (ended : ((Ensemble.of p now s).follow offers schedule).main = .done s' a) :
    Q ((Ensemble.of p now s).follow offers schedule).state a := by
  have begun : (Ensemble.of p now s).Abides others own J Q :=
    ⟨⟨s, h, theirs.refl _⟩, fun ht => absurd ht List.not_mem_nil,
      steady _ _ (Task.Abides.moved h) start⟩
  obtain ⟨s₀, main, stayed⟩ :=
    (begun.follow theirs mine part lasts steady offered schedule).main
  rw [ended] at main stayed
  exact lasts a _ _ stayed main.2

end SlotRing
