/-
# Procedures — work that may have to wait

A procedure acts on a shared state and may stop until something has come about:
the clock shows a given tick, or the state has got where it is waited for
(`Wake`).  What it has become after such a stop is a `Task`: finished, or
waiting with the rest of the work still to come.  Everything that looks like
concurrency is built from that one notion:

* `both` and `all` run procedures side by side: they are started in order, each
  goes on until it has to wait, and whenever some of them can go on they do so
  in the same order;
* `within` cuts a procedure off at a deadline, at which the procedure itself
  still has the last word;
* `ensuring` gives back what a procedure holds, also when it is cut off.

A task goes on in turns.  What it waits for may be there already, and then it
need not stop; but a turn allows for that only `Paced.perTurn` times, so that
who tries again and again at one tick lets the others go on, too.

The clock moves only when everything waits, and then to the first tick that
something waits for.  `Task.run` does that for a task on its own, and
`SlotRing.Time.Background` for one with others beside it.
-/

namespace SlotRing

/-- States that count how often, in the current turn, one may still go on
without a stop where one would wait. -/
class Paced (σ : Type) where
  credit : σ → Nat
  setCredit : Nat → σ → σ
  credit_setCredit (n : Nat) (s : σ) : credit (setCredit n s) = n

namespace Paced

variable {σ : Type} [Paced σ]

def perTurn : Nat := 128

/-- Goes on without a stop once. -/
def spend (s : σ) : σ := setCredit (credit s - 1) s

def renew (s : σ) : σ := setCredit perTurn s

end Paced

/-- What is waited for. -/
structure Wake (σ : Type) where
  /-- The tick that the clock has to reach, if that can bring it about. -/
  alarm : Option Nat
  /-- Whether it is there, at a tick and in a state. -/
  ready : Nat → σ → Bool

namespace Wake

variable {σ : Type}

def nextTurn : Wake σ where
  alarm := some 0
  ready _ _ := true

def clock [Paced σ] (tick : Nat) : Wake σ where
  alarm := some tick
  ready now s := tick ≤ now && 0 < Paced.credit s

/-- The state has a property, which does not come from the clock. -/
def when [Paced σ] (p : σ → Bool) : Wake σ where
  alarm := none
  ready _ s := p s && 0 < Paced.credit s

def either (a b : Wake σ) : Wake σ where
  alarm := a.alarm.merge min b.alarm
  ready now s := a.ready now s || b.ready now s

end Wake

/-- A procedure that has been started, on states `σ` and with a result in `α`.
The state is the one that the task has left behind. -/
inductive Task (σ α : Type) where
  | done (s : σ) (result : α)
  /-- Waits for `wake`; `resume` takes the tick at which it goes on and the
  state it then finds, `abandon` is what is left to do if it never does. -/
  | wait (s : σ) (wake : Wake σ) (resume : Nat → σ → Task σ α) (abandon : σ → σ)

/-- Work that starts at a tick of the clock in a state. -/
def Procedure (σ α : Type) : Type := Nat → σ → Task σ α

namespace Task

variable {σ α β : Type}

def state : Task σ α → σ
  | .done s _ => s
  | .wait s .. => s

def bind (now : Nat) : Task σ α → (α → Procedure σ β) → Task σ β
  | .done s a, next => next a now s
  | .wait s wake resume abandon, next =>
    .wait s wake (fun now s => (resume now s).bind now next) abandon

/-- Runs `release` when the task ends, in whichever way. -/
def ensuring (release : σ → σ) : Task σ α → Task σ α
  | .done s a => .done (release s) a
  | .wait s wake resume abandon =>
    .wait s wake (fun now s => (resume now s).ensuring release) (release ∘ abandon)

/-- Runs a task to its end beside one that has ended with `a`. -/
def pairLeft (a : α) : Task σ β → σ → Task σ (α × β)
  | .done _ b, s => .done s (a, b)
  | .wait _ wake resume abandon, s =>
    .wait s wake
      (fun now s =>
        let rest := resume now s
        pairLeft a rest rest.state)
      abandon

/-- Runs a task beside one that waits for `wake`.  Given the tick at which the
waiting one goes on and the state it finds, `resume` is the state it leaves
behind and the rest of the pair. -/
def pairWaiting (wake : Wake σ) (resume : Nat → σ → σ × (Task σ β → σ → Task σ (α × β)))
    (abandon : σ → σ) : Task σ β → σ → Task σ (α × β)
  | .done _ b, s =>
    .wait s wake
      (fun now s =>
        let (s, rest) := resume now s
        rest (.done s b) s)
      abandon
  | .wait _ wake' resume' abandon', s =>
    .wait s (wake.either wake')
      (fun now s =>
        if wake.ready now s then
          let (s, rest) := resume now s
          if wake'.ready now s then
            let right := resume' now s
            rest right right.state
          else rest (.wait s wake' resume' abandon') s
        else
          let right := resume' now s
          pairWaiting wake resume abandon right right.state)
      (abandon' ∘ abandon)

/-- Runs two started tasks side by side, in the given state. -/
def both : Task σ α → Task σ β → σ → Task σ (α × β)
  | .done _ a => pairLeft a
  | .wait _ wake resume abandon =>
    pairWaiting wake (fun now s => let left := resume now s; (left.state, both left)) abandon

def isReady [Paced σ] (now : Nat) (s : σ) : Task σ α → Bool
  | .done .. => false
  | .wait _ wake .. => wake.ready now (Paced.renew s)

def turn [Paced σ] (now : Nat) (s : σ) : Task σ α → Task σ α
  | .done _ a => .done s a
  | .wait _ wake resume abandon =>
    if wake.ready now (Paced.renew s) then resume now (Paced.renew s)
    else .wait s wake resume abandon

/-- The tick that a task has to be woken at. -/
def alarm? : Task σ α → Option Nat
  | .done .. => none
  | .wait _ wake .. => wake.alarm

/-- Lets the clock run until the task is finished, when only the clock keeps it
waiting. -/
def run [Paced σ] (now : Nat) : Task σ α → Nat × σ × α
  | .done s a => (now, s, a)
  | .wait s wake resume _ =>
    let now := max now (wake.alarm.getD now)
    (resume now (Paced.renew s)).run now

/-- Cuts the task off when it still waits at the tick `deadline`; `credit` is
what its turn began with. -/
def within [Paced σ] (deadline now credit : Nat) : Task σ α → Task σ (Option α)
  | .done s a => .done s (some a)
  | .wait s wake resume abandon =>
    if deadline ≤ now ∧ 0 < credit then .done (Paced.spend (abandon s)) none
    else
      .wait s (wake.either (.clock deadline))
        (fun now s =>
          if wake.ready now s then (resume now s).within deadline now (Paced.credit s)
          else .done (Paced.spend (abandon s)) none)
        abandon

end Task

namespace Procedure

variable {σ α β : Type}

protected def pure (a : α) : Procedure σ α := fun _ s => .done s a

protected def bind (p : Procedure σ α) (next : α → Procedure σ β) : Procedure σ β :=
  fun now s => (p now s).bind now next

instance : Monad (Procedure σ) where
  pure := Procedure.pure
  bind := Procedure.bind

def now : Procedure σ Nat := fun now s => .done s now

def read (f : σ → α) : Procedure σ α := fun _ s => .done s (f s)

def modify (f : σ → σ) : Procedure σ Unit := fun _ s => .done (f s) ()

def change (f : σ → σ × α) : Procedure σ α := fun _ s => .done (f s).1 (f s).2

/-- Waits for something; there is no stop if it is there already. -/
def await [Paced σ] (wake : Wake σ) : Procedure σ Unit := fun now s =>
  if wake.ready now s then .done (Paced.spend s) ()
  else .wait s wake (fun _ s => .done (Paced.spend s) ()) id

def sleep [Paced σ] (ticks : Nat) : Procedure σ Unit := fun now s =>
  await (.clock (now + ticks)) now s

def later (p : Procedure σ α) : Procedure σ α := fun _ s => .wait s .nextTurn p id

/-- Runs `release` when the procedure ends, in whichever way. -/
def ensuring (p : Procedure σ α) (release : σ → σ) : Procedure σ α :=
  fun now s => (p now s).ensuring release

/-- Cuts the procedure off when it still waits at the tick `deadline`. -/
def within [Paced σ] (deadline : Nat) (p : Procedure σ α) : Procedure σ (Option α) :=
  fun now s => (p now s).within deadline now (Paced.credit s)

/-- Runs two procedures side by side. -/
def both (p : Procedure σ α) (q : Procedure σ β) : Procedure σ (α × β) := fun now s =>
  let left := p now s
  let right := q now left.state
  left.both right right.state

/-- Runs procedures side by side; the results are in the order of the
procedures, whichever ends first. -/
def all : List (Procedure σ α) → Procedure σ (List α)
  | [] => Procedure.pure []
  | p :: ps => (p.both (all ps)).bind fun (a, as) => Procedure.pure (a :: as)

end Procedure

/-! ## One after the other -/

namespace Task

variable {σ α β γ : Type}

theorem bind_pure (now : Nat) (t : Task σ α) : t.bind now Procedure.pure = t := by
  induction t generalizing now with
  | done => rfl
  | wait s wake resume abandon ih => simp [bind, ih]

theorem bind_assoc (now : Nat) (t : Task σ α) (p : α → Procedure σ β) (q : β → Procedure σ γ) :
    (t.bind now p).bind now q = t.bind now fun a => (p a).bind q := by
  induction t generalizing now with
  | done => rfl
  | wait s wake resume abandon ih => simp [bind, ih]

end Task

instance {σ : Type} : LawfulMonad (Procedure σ) :=
  LawfulMonad.mk' (Procedure σ)
    (fun p => funext fun now => funext fun s => Task.bind_pure now (p now s))
    (fun _ _ => rfl)
    (fun p f g => funext fun now => funext fun s => Task.bind_assoc now (p now s) f g)

end SlotRing
