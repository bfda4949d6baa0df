/-
# Work in the background

A main task goes on beside tasks in the background, which it may have started
itself and which outlive it.  At every tick the main task has the first turn.
Then the others have theirs, in the order in which they had their last ones,
until all of them wait; one that has stopped only because its turn was over
lets the main task go first.  The clock moves on when nobody can go on.

Tasks are finite, but how many of them get started depends on what happens, so
the number of rounds is an argument.
-/
import SlotRing.Time.Procedure

namespace SlotRing

namespace Task

variable {σ α : Type} [Paced σ]

/-- What has come of a round of turns. -/
structure Turns (σ : Type) where
  /-- Tasks that could not go on. -/
  kept : List (Task σ Unit) := []
  /-- Tasks that have gone on and wait again. -/
  moved : List (Task σ Unit) := []
  /-- Tasks whose turns were over before they had to wait, the last one
  first. -/
  held : List (Task σ Unit) := []
  state : σ

/-- Gives a turn to each task that can go on. -/
def takeTurns (now : Nat) : List (Task σ Unit) → σ → Turns σ
  | [], state => { state }
  | t :: ts, s =>
    if t.isReady now s then
      let t := t.turn now s
      let turns := takeTurns now ts t.state
      match t with
      | .done .. => turns
      | .wait s .. =>
        if t.isReady now s then { turns with held := turns.held ++ [t] }
        else { turns with moved := t :: turns.moved }
    else
      let turns := takeTurns now ts s
      { turns with kept := t :: turns.kept }

def firstAlarm (alarms : List (Option Nat)) : Option Nat :=
  alarms.foldl (Option.merge min) none

/-- What has come of a main task: its result, the tick and the state at its
end, and the tasks that go on in the background. -/
structure Finish (σ α : Type) where
  now : Nat
  state : σ
  result : α
  background : List (Task σ Unit)

/-- Runs a main task to its end, beside others; those that are `held` let it go
first.  What is to be started in the background is taken off the state by
`launch`.  Nothing comes of a main task that waits for ever. -/
def runBeside (launch : σ → σ × List (Procedure σ Unit)) :
    (rounds : Nat) → (now : Nat) → (background held : List (Task σ Unit)) → Task σ α →
      Option (Finish σ α)
  | _, now, background, held, .done state result =>
    some { now, state, result, background := background ++ held }
  | 0, _, _, _, .wait .. => none
  | rounds + 1, now, background, held, .wait s wake resume abandon => do
    let (s, started) := launch s
    let background := background ++ started.map (·.later now s)
    if background.any (·.isReady now s) then
      let turns := takeTurns now background s
      runBeside launch rounds now (turns.kept ++ turns.moved) (turns.held ++ held)
        (.wait turns.state wake resume abandon)
    else
      let main : Task σ α := .wait s wake resume abandon
      let now ← if main.isReady now s || !held.isEmpty then some now else
        (firstAlarm (main.alarm? :: background.map alarm?)).map (max now)
      runBeside launch rounds now (background ++ held) [] (main.turn now s)

end Task

end SlotRing
