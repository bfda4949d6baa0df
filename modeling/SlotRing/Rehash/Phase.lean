/-
# `Phase` — how far a rehash has come

A rehash goes through the phases in the order of `Phase.all`.  One that moves
no state leaves out the phases that are about it, and one that fails goes from
wherever it is to `Phase.failed`.
-/

namespace SlotRing

/-- Where a rehash stands.  The last two are final. -/
inductive Phase where
  | idle
  | fetchOldMapping
  | buildUnion
  | broadcastUnion
  | pullState
  | applyState
  | drainLog
  | broadcastFinal
  | invalidateStale
  | done
  | failed
  deriving DecidableEq, Repr

namespace Phase

def title : Phase → String
  | .idle => "Idle"
  | .fetchOldMapping => "FetchOldMapping"
  | .buildUnion => "BuildUnion"
  | .broadcastUnion => "BroadcastUnion"
  | .pullState => "PullState"
  | .applyState => "ApplyState"
  | .drainLog => "DrainLog"
  | .broadcastFinal => "BroadcastFinal"
  | .invalidateStale => "InvalidateStale"
  | .done => "Done"
  | .failed => "Failed"

/-- The phases in the order in which a rehash goes through them. -/
def all : List Phase :=
  [.idle, .fetchOldMapping, .buildUnion, .broadcastUnion, .pullState, .applyState, .drainLog,
    .broadcastFinal, .invalidateStale, .done, .failed]

/-- The place of a phase in that order. -/
def rank (p : Phase) : Nat := all.idxOf p

def isFinal (p : Phase) : Bool := p = .done || p = .failed

end Phase

end SlotRing
