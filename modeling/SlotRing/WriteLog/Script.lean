/-
# Scripts over a write log

A drain hands every transaction to whoever drains, and that one may use the log
again: log more, ask, abort, even drain.  In a script a drain lists, by the
number of the transaction, the steps to take while it is applied.

A script is finite, so the number of its steps bounds both how deep drains can
nest and how many batches a drain can meet.
-/
import SlotRing.WriteLog.Basic

namespace SlotRing

/-- One operation on a write log. -/
inductive LogStep where
  | enable
  | append (tx : Transaction)
  | abort
  | ask (key : String)
  /-- Drains the log; the steps listed under a number are taken while the
  transaction of that number is applied. -/
  | drain (during : List (Nat × List LogStep))
  | touches (tx : Transaction) (key : String)
  | withWrites (tx : Transaction) (ws : List Write)
  | single (w : Write)

inductive LogResult where
  /-- Whether the log could be opened. -/
  | opened (ok : Bool)
  | appended (ok : Bool)
  /-- The number of transactions that were dropped. -/
  | dropped (count : Nat)
  | about (uncertain pending : Bool) (writes : List Write)
  /-- The number of transactions that were replayed, and each of them with what
  the steps taken meanwhile came to. -/
  | drained (replayed : Nat) (seen : List (Transaction × List (LogResult × WriteLog)))
  | touched (yes : Bool)
  | transaction (tx : Transaction)

namespace LogStep

mutual

/-- The number of steps, with those inside drains. -/
def size : LogStep → Nat
  | .drain during => sizeDuring during + 1
  | _ => 1

def sizeDuring : List (Nat × List LogStep) → Nat
  | [] => 0
  | (_, steps) :: rest => sizeAll steps + sizeDuring rest

def sizeAll : List LogStep → Nat
  | [] => 0
  | step :: steps => step.size + sizeAll steps

end

/-- Takes steps one after the other; each result stands with the log after
it. -/
def runAll (run : LogStep → WriteLog → LogResult × WriteLog) :
    List LogStep → WriteLog → List (LogResult × WriteLog) × WriteLog
  | [], log => ([], log)
  | step :: steps, log =>
    let (result, log) := run step log
    let (results, last) := runAll run steps log
    ((result, log) :: results, last)

/-- Carries out one operation; `react` takes the steps that fall into a
drain. -/
def runWith (react : List LogStep → WriteLog → List (LogResult × WriteLog) × WriteLog)
    (log : WriteLog) (step : LogStep) : LogResult × WriteLog :=
  match step with
  | .enable =>
    match log.enable? with
    | some log => (.opened true, log)
    | none => (.opened false, log)
  | .append tx =>
    match log.append? tx with
    | some log => (.appended true, log)
    | none => (.appended false, log)
  | .abort => (.dropped log.pending.length, log.abort)
  | .ask key => (.about (log.isUncertain key) (log.hasPending key) (log.pendingWrites key), log)
  | .drain during =>
    let apply i tx := fun (log, seen) =>
      let (answers, log) := react ((during.lookup i).getD []) log
      (log, (tx, answers) :: seen)
    let (replayed, log, seen) := log.drain apply step.size []
    (.drained replayed seen.reverse, log)
  | .touches tx key => (.touched (tx.touches key), log)
  | .withWrites tx ws => (.transaction (tx.withWrites ws), log)
  | .single w => (.transaction (.single w), log)

/-- As `run`, for drains that nest less than `depth` deep. -/
def runNested : (depth : Nat) → LogStep → WriteLog → LogResult × WriteLog
  | 0, step, log => runWith (fun _ log => ([], log)) log step
  | depth + 1, step, log => runWith (runAll (runNested depth)) log step

def run (step : LogStep) (log : WriteLog) : LogResult × WriteLog :=
  runNested step.size step log

end LogStep

end SlotRing
