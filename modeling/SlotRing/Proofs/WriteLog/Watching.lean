/-
# A log that is watched

What becomes of the transactions that a log accepts can only be said about a log and all
that has happened to it.  A `WatchedLog` is a log with its journal, in which every event
stands with the log as it was after it, also the events inside of a drain.

Whoever drains a log gets the transactions handed one by one and may log others meanwhile;
`LogUse` is what it does with the log for one of them, and what it does next may depend on
whether a transaction was accepted.  A drain has no bound of its own: when it gets more
logged in every round it goes on for ever.  So `Drains` is a relation, which holds of what
the drain comes to from some number of rounds on.
-/
import SlotRing.WriteLog.Basic

namespace SlotRing

inductive LogEvent where
  | opened
  /-- The log was to be opened and was open. -/
  | busy
  | accepted (tx : Transaction)
  | refused (tx : Transaction)
  /-- A drain hands a transaction over to be carried out. -/
  | replayed (tx : Transaction)
  /-- The log was closed with that many transactions in it. -/
  | dropped (count : Nat)
  deriving DecidableEq, Repr

namespace LogEvent

/-- What has been accepted since the log was last opened, and not dropped, with the event. -/
def gather (txs : List Transaction) : LogEvent → List Transaction
  | .opened => []
  | .accepted tx => txs ++ [tx]
  | .dropped _ => []
  | _ => txs

/-- What waits to be replayed after the event. -/
def leave (txs : List Transaction) : LogEvent → List Transaction
  | .accepted tx => txs ++ [tx]
  | .replayed tx => txs.erase tx
  | .dropped _ => []
  | _ => txs

end LogEvent

/-- What has happened to a log, the oldest event first, each with the log after it. -/
abbrev Journal := List (LogEvent × WriteLog)

namespace Journal

def accepted (journal : Journal) : List Transaction :=
  journal.filterMap fun
    | (.accepted tx, _) => some tx
    | _ => none

def replayed (journal : Journal) : List Transaction :=
  journal.filterMap fun
    | (.replayed tx, _) => some tx
    | _ => none

/-- The transactions that were offered to the log, whether it took them or not. -/
def offered (journal : Journal) : List Transaction :=
  journal.filterMap fun
    | (.accepted tx, _) => some tx
    | (.refused tx, _) => some tx
    | _ => none

/-- The transactions that have been accepted since the log was last opened and were not
dropped. -/
def sinceOpened (journal : Journal) : List Transaction :=
  journal.foldl (fun txs event => event.1.gather txs) []

/-- The transactions that were accepted and have been neither replayed nor dropped. -/
def waiting (journal : Journal) : List Transaction :=
  journal.foldl (fun txs event => event.1.leave txs) []

end Journal

/-- What is done with a log while a transaction is carried out: others are logged, one
after the other, each time going on by whether it was accepted. -/
inductive LogUse (σ : Type) where
  | done (s : σ)
  | log (tx : Transaction) (onward : Bool → LogUse σ)

structure WatchedLog where
  log : WriteLog
  journal : Journal
  deriving DecidableEq

namespace WatchedLog

def fresh : WatchedLog := ⟨.closed, []⟩

def enable (w : WatchedLog) : WatchedLog :=
  match w.log.enable? with
  | some log => ⟨log, w.journal ++ [(.opened, log)]⟩
  | none => ⟨w.log, w.journal ++ [(.busy, w.log)]⟩

/-- Offers a transaction to the log, which says whether it takes it. -/
def offer (w : WatchedLog) (tx : Transaction) : Bool × WatchedLog :=
  match w.log.append? tx with
  | some log => (true, ⟨log, w.journal ++ [(.accepted tx, log)]⟩)
  | none => (false, ⟨w.log, w.journal ++ [(.refused tx, w.log)]⟩)

def abort (w : WatchedLog) : WatchedLog :=
  ⟨w.log.abort, w.journal ++ [(.dropped w.log.pending.length, w.log.abort)]⟩

end WatchedLog

variable {σ : Type}

def LogUse.run : LogUse σ → WatchedLog → σ × WatchedLog
  | .done s, w => (s, w)
  | .log tx onward, w => (onward (w.offer tx).1).run (w.offer tx).2

namespace WatchedLog

/-- Hands a transaction over to `callback`, which has a state of its own. -/
def hand (callback : Transaction → σ → LogUse σ) (_ : Nat) (tx : Transaction) :
    WriteLog × σ × Journal → WriteLog × σ × Journal
  | (log, s, journal) =>
    let (s, w) := (callback tx s).run ⟨log, journal ++ [(.replayed tx, log)]⟩
    (w.log, s, w.journal)

/-- Drains the log through `callback`, at most `rounds` times what is pending at once.  The
result begins with the number of transactions handed over. -/
def drain (callback : Transaction → σ → LogUse σ) (rounds : Nat) (w : WatchedLog) (s : σ) :
    Nat × WatchedLog × σ :=
  let (count, log, s, journal) := w.log.drain (hand callback) rounds (s, w.journal)
  (count, ⟨log, journal⟩, s)

/-- Draining the log through `callback` ends, in this way: from some number of rounds on it
comes to this. -/
def Drains (callback : Transaction → σ → LogUse σ) (w : WatchedLog) (s : σ) (count : Nat)
    (w' : WatchedLog) (s' : σ) : Prop :=
  ∃ enough, ∀ rounds ≥ enough, w.drain callback rounds s = (count, w', s')

/-- Whatever becomes of a new log when it is used, drains that end included. -/
inductive Session : WatchedLog → Prop
  | fresh : Session fresh
  | enable {w : WatchedLog} : Session w → Session w.enable
  | log {w : WatchedLog} (tx : Transaction) : Session w → Session (w.offer tx).2
  | abort {w : WatchedLog} : Session w → Session w.abort
  | drain {w w' : WatchedLog} {σ : Type} {callback : Transaction → σ → LogUse σ} {s s' : σ}
      {count : Nat} : Session w → Drains callback w s count w' s' → Session w'

end WatchedLog

end SlotRing
