/-
# Waiting for what is done beside

A main task may stop for something that a task in the background brings about.
`p.Stops now s wake P Q` says that a procedure stops once, for `wake`, and leaves a state
with `P` behind; wherever it goes on it ends, and `Q` holds of the states between which it
did and of its result.  If the task that is started then brings about what is waited for,
the main task ends (`Stops.beside`).
-/
import SlotRing.Proofs.Time.Immediate
import SlotRing.Time.Background

namespace SlotRing

theorem Task.runBeside_done {σ α : Type} [Paced σ] {launch : σ → σ × List (Procedure σ Unit)}
    {now : Nat} {background held : List (Task σ Unit)} {s : σ} {a : α} (rounds : Nat) :
    runBeside launch rounds now background held (.done s a) =
      some ⟨now, s, a, background ++ held⟩ := by
  cases rounds <;> rfl

namespace Procedure

variable {σ α β : Type} {p : Procedure σ α} {now : Nat} {s : σ} {wake : Wake σ}
  {P : σ → Prop} {Q : σ → σ → α → Prop}

/-- Started at `now` in `s`, the procedure stops once, for `wake` and with `P`; when it
goes on in a state, it ends in another one with a result so that `Q` holds of them. -/
def Stops (p : Procedure σ α) (now : Nat) (s : σ) (wake : Wake σ) (P : σ → Prop)
    (Q : σ → σ → α → Prop) : Prop :=
  ∃ s' resume abandon, p now s = .wait s' wake resume abandon ∧ P s' ∧
    ∀ now t, ∃ t' a, resume now t = .done t' a ∧ Q t t' a

theorem Stops.mono {P' : σ → Prop} (h : p.Stops now s wake P Q) (weaker : ∀ s', P s' → P' s') :
    p.Stops now s wake P' Q := by
  obtain ⟨s', resume, abandon, waits, left, resumed⟩ := h
  exact ⟨s', resume, abandon, waits, weaker s' left, resumed⟩

theorem await_stops [Paced σ] (unready : wake.ready now s = false) (left : P s) :
    (await wake).Stops now s wake P fun t t' _ => t' = Paced.spend t := by
  refine ⟨s, fun _ t => .done (Paced.spend t) (), id, ?_, left, fun _ t => ⟨_, _, rfl, rfl⟩⟩
  rw [await, unready]
  rfl

theorem Ends.bind_stops {q : Procedure σ β} {R : σ → β → Prop} {next : β → Procedure σ α}
    (h : q.Ends now s R) (then_ : ∀ s' b, R s' b → (next b).Stops now s' wake P Q) :
    (q >>= next).Stops now s wake P Q := by
  obtain ⟨s', b, run, holds⟩ := h
  obtain ⟨s'', resume, abandon, waits, rest⟩ := then_ s' b holds
  refine ⟨s'', resume, abandon, ?_, rest⟩
  show (q now s).bind now next = _
  rw [run]
  exact waits

theorem Stops.bind {next : α → Procedure σ β} {T : σ → σ → β → Prop}
    (h : p.Stops now s wake P Q)
    (then_ : ∀ now t t' a, Q t t' a → (next a).Ends now t' (T t)) :
    (p >>= next).Stops now s wake P T := by
  obtain ⟨s', resume, abandon, waits, left, resumed⟩ := h
  refine ⟨s', fun now t => (resume now t).bind now next, abandon, ?_, left, fun now t => ?_⟩
  · show (p now s).bind now next = _
    rw [waits]
    rfl
  · obtain ⟨t', a, run, holds⟩ := resumed now t
    obtain ⟨t'', b, run', holds'⟩ := then_ now t t' a holds
    refine ⟨t'', b, ?_, holds'⟩
    show (resume now t).bind now next = _
    rw [run]
    exact run'

/-- What is started when the procedure stops brings about what it stops for. -/
theorem Stops.beside [Paced σ] {launch : σ → σ × List (Procedure σ Unit)} {R : σ → Prop}
    (h : p.Stops now s wake P Q)
    (brings : ∀ s', P s' → ∃ s₁ q, launch s' = (s₁, [q]) ∧
      q.Ends now (Paced.renew s₁) fun s₂ _ => ∃ s₃, launch s₂ = (s₃, []) ∧ R s₃)
    (ready : ∀ s₃, R s₃ → wake.ready now (Paced.renew s₃) = true) (rounds : Nat) :
    ∃ s₃ t a, (p now s).runBeside launch (rounds + 2) now [] [] = some ⟨now, t, a, []⟩ ∧
      R s₃ ∧ Q (Paced.renew s₃) t a := by
  obtain ⟨s', resume, abandon, waits, left, resumed⟩ := h
  obtain ⟨s₁, q, starts, s₂, ⟨⟩, run, s₃, none, there⟩ := brings s' left
  obtain ⟨t, a, goes, holds⟩ := resumed now (Paced.renew s₃)
  refine ⟨s₃, t, a, ?_, there, holds⟩
  rw [waits]
  -- the first round is that of the background, the second that of the main task
  have first : Task.runBeside launch (rounds + 2) now [] [] (.wait s' wake resume abandon) =
      Task.runBeside launch (rounds + 1) now [] [] (.wait s₂ wake resume abandon) := by
    have turns : Task.takeTurns now [q.later now s₁] s₁ = { state := s₂ } := by
      simp [Task.takeTurns, Procedure.later, Task.isReady, Task.turn, Wake.nextTurn, run,
        Task.state]
    rw [Task.runBeside]
    simp only [starts, List.map_cons, List.map_nil, List.nil_append]
    rw [if_pos (by rfl), turns]
    rfl
  have second : Task.runBeside launch (rounds + 1) now [] [] (.wait s₂ wake resume abandon) =
      some ⟨now, t, a, []⟩ := by
    rw [Task.runBeside]
    simp [none, Task.isReady, Task.turn, ready s₃ there, goes, Task.runBeside_done]
  rw [first, second]

end Procedure

end SlotRing
