/-
# Steps that every rehash is made of

A step that depends on another member is tried again until it succeeds, with a
pause between two tries, up to the deadline of the rehash: a try is cut off at
the deadline, and no try is started after it.  Everything else (installing a
mapping everywhere, going back to the old ring) is best effort.
-/
import SlotRing.Cluster.Sending

namespace SlotRing

/-- The latest tick at which a deadline, in nanoseconds, has not passed: a tick
is whole milliseconds, rounded up. -/
def deadlineTick (deadline : Nat) : Nat := (Duration.mk deadline).ticks

def retryFor {σ α : Type} [Paced σ] (phase : Phase) (deadline backoff : Nat)
    (attempt : Procedure σ (Except RehashError α)) :
    (tries : Nat) → Procedure σ (Except RehashError α)
  | 0 => return .error (.timeout phase)
  | tries + 1 => do
    match ← attempt.within (deadlineTick deadline) with
    | none => return .error (.timeout phase)
    | some (.ok value) => return .ok value
    | some (.error _) =>
      let now ← Procedure.now
      if deadline ≤ (now + backoff) * Duration.perTick then return .error (.timeout phase)
      Procedure.sleep backoff
      retryFor phase deadline backoff attempt tries

/-- How often at most a step is tried at one tick. -/
def triesPerTick : Nat := UInt32.size

/-- Tries a step until it succeeds, `backoff` ticks apart, or the deadline (in
nanoseconds) is reached.  With a pause, every new try comes at least a tick
after the one before and before the deadline, so that the ticks up to the
deadline are more than enough tries; without one, they follow each other until
the step succeeds or the deadline is there. -/
def retryUntil {σ α : Type} [Paced σ] (phase : Phase) (deadline backoff : Nat)
    (attempt : Procedure σ (Except RehashError α)) : Procedure σ (Except RehashError α) :=
  fun now s =>
    retryFor phase deadline backoff attempt ((deadlineTick deadline - now + 1) * triesPerTick)
      now s

namespace Rehash

variable {ε : Type} (around : Surroundings ε)

def enter (rehash : Serial) (phase : Phase) : Procedure (World ε) Unit :=
  World.modify (·.updateRehash rehash fun r => { r with trail := phase :: r.trail })

/-- What a running rehash goes by. -/
structure Plan where
  /-- The number of the rehash, under which its progress is published. -/
  rehash : Serial
  /-- The number of the node that carries it out. -/
  self : Serial
  /-- The name of that node. -/
  node : Address
  settings : Settings
  strategy : Strategy
  /-- In nanoseconds. -/
  deadline : Nat

variable (plan : Plan)

def retry {α : Type} (phase : Phase) (attempt : Procedure (World ε) (Except RehashError α)) :
    Procedure (World ε) (Except RehashError α) :=
  retryUntil phase plan.deadline plan.settings.backoff attempt

/-- Installs a mapping on this node and on every other that can be reached. -/
def announce (mapping : MemberMapping) : Procedure (World ε) Unit := do
  World.modifyNode plan.self (·.install mapping)
  discard (broadcast around plan.node (.installMapping mapping) plan.settings.rpcTimeout false)

def settle (new : MemberRing) : Procedure (World ε) Unit := do
  enter plan.rehash .broadcastFinal
  announce around plan (.settled new)

/-- Goes back to the old ring: the log is dropped. -/
def abort (old : MemberRing) : Procedure (World ε) Unit := do
  World.modifyNode plan.self (·.abortTransition)
  announce around plan (.settled old)

/-- Opens the log, unless it is open. -/
def openLog (old : MemberRing) : Procedure (World ε) (Except RehashError Unit) :=
  .change fun w =>
    match (w.cluster.nodes.get? plan.self).bind (·.beginTransition? old) with
    | none => (w, .error .alreadyInProgress)
    | some node =>
      ({ w with cluster := w.cluster.updateNode plan.self fun _ => node }, .ok ())

/-- Moves state from one ring to another: the union of both is announced,
`moveState` moves what has to move, and the log is replayed.  When the state
cannot be moved, everything goes back to the old ring. -/
def transfer (old new : MemberRing) (moveState : Procedure (World ε) (Except RehashError Unit)) :
    Procedure (World ε) (Except RehashError Unit) := do
  World.modify (·.updateRehash plan.rehash ({ · with passage := some ⟨old, new⟩ }))
  match ← openLog plan old with
  | .error cause => return .error cause
  | .ok () =>
    enter plan.rehash .broadcastUnion
    announce around plan (.moving old new)
    enter plan.rehash .pullState
    match ← moveState with
    | .error cause =>
      abort around plan old
      return .error cause
    | .ok () =>
      enter plan.rehash .drainLog
      World.modifyNode plan.self (·.finishTransition)
      return .ok ()

/-- Leaves the errand of telling former owners what they no longer own, if the
settings ask for it. -/
def leaveHints (old new : MemberRing) : Procedure (World ε) Unit := do
  if plan.settings.invalidateStale then
    enter plan.rehash .invalidateStale
    World.modify (·.leaveErrand plan.rehash { node := plan.self, passage := ⟨old, new⟩ })

end Rehash

end SlotRing
