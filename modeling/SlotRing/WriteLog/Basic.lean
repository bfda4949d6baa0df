/-
# `WriteLog` — writes that wait for state to arrive

While ownership moves, a node does not carry out the writes it accepts but logs
them, in order, until the state they belong to has been merged.  The log is
then drained: what is pending is taken out as one batch and replayed, what has
arrived meanwhile is the next batch, and the log closes at the moment it is
found empty.  A log can also be dropped with everything in it.
-/
import SlotRing.Store.Basic

namespace SlotRing

/-- Writes that were issued together and are carried out together. -/
structure Transaction where
  id : Option Nat
  writes : List Write
  deriving DecidableEq, Repr

namespace Transaction

def single (w : Write) : Transaction := ⟨none, [w]⟩

def withWrites (tx : Transaction) (ws : List Write) : Transaction := { tx with writes := ws }

def touches (tx : Transaction) (key : String) : Bool := tx.writes.any (·.key == key)

end Transaction

/-- What a log does with a transaction: refuse it, keep it, or keep it for the
drain that is under way. -/
inductive LogState where
  | disabled
  | enabled
  | draining
  deriving DecidableEq, Repr

/-- Transactions that were accepted and wait to be replayed. -/
structure WriteLog where
  state : LogState
  pending : List Transaction
  deriving DecidableEq, Repr

namespace WriteLog

/-- The log that nothing waits in and that takes nothing. -/
def closed : WriteLog := ⟨.disabled, []⟩

instance : Inhabited WriteLog := ⟨closed⟩

/-- Opens the log; only a closed one can be opened. -/
def enable? (log : WriteLog) : Option WriteLog :=
  if log.state = .disabled then some { log with state := .enabled } else none

def isActive (log : WriteLog) : Bool := log.state ≠ .disabled

/-- Keeps a transaction, unless the log is closed. -/
def append? (log : WriteLog) (tx : Transaction) : Option WriteLog :=
  if log.isActive then some { log with pending := log.pending ++ [tx] } else none

theorem append?_eq_none_iff (log : WriteLog) (tx : Transaction) :
    log.append? tx = none ↔ log.state = .disabled := by
  simp [append?, isActive]

def hasPending (log : WriteLog) (key : String) : Bool := log.pending.any (·.touches key)

/-- Whether the store is behind for a key. -/
def isUncertain (log : WriteLog) (key : String) : Bool := log.isActive && log.hasPending key

def pendingWrites (log : WriteLog) (key : String) : List Write :=
  (log.pending.flatMap (·.writes)).filter (·.key == key)

def abort (_ : WriteLog) : WriteLog := closed

/-! ## Draining -/

/-- Closes the log if nothing is pending. -/
def settle (log : WriteLog) : WriteLog :=
  if log.pending.isEmpty then { log with state := .disabled } else log

variable {σ : Type}

/-- Replays a batch.  `apply i tx` carries out the `i`-th transaction of the
drain; it has the log at hand and may use it. -/
def replay (apply : Nat → Transaction → WriteLog × σ → WriteLog × σ) :
    Nat → List Transaction → WriteLog × σ → WriteLog × σ
  | _, [], s => s
  | i, tx :: txs, s => replay apply (i + 1) txs (apply i tx s)

/-- Replays batch after batch, at most `rounds` of them, until none is
pending; the result begins with the number of replayed transactions. -/
def drainFrom (apply : Nat → Transaction → WriteLog × σ → WriteLog × σ) :
    (rounds done : Nat) → WriteLog × σ → Nat × WriteLog × σ
  | 0, done, (log, s) => (done, log.settle, s)
  | rounds + 1, done, (log, s) =>
    if log.pending.isEmpty then (done, log.settle, s)
    else
      let batch := log.pending
      drainFrom apply rounds (done + batch.length)
        (replay apply done batch ({ log with pending := [] }, s))

/-- Replays everything that is pending and closes the log.  A closed log has
nothing to replay. -/
def drain (apply : Nat → Transaction → WriteLog × σ → WriteLog × σ) (rounds : Nat)
    (log : WriteLog) (s : σ) : Nat × WriteLog × σ :=
  if log.isActive then drainFrom apply rounds 0 ({ log with state := .draining }, s)
  else (0, log, s)

end WriteLog

end SlotRing
