/-
# `Settings` — what a node is configured with

Settings come from whoever embeds the library; here they have their defaults
and are checked, the faults in a fixed order.

The pause before a step is tried again is drawn from `retryMin` to `retryMax`.
Here it is always the shortest one (`Settings.backoff`).  Longer ones come in
through the surroundings, which may let time pass when the next try is sent and
before it gets anywhere (`Surroundings.atSend`).
-/
import SlotRing.Error

namespace SlotRing

/-- The settings of one node. -/
structure Settings where
  /-- How many members own a key. -/
  owners : Nat := 2
  strategyName : String := "default"
  /-- When false, a change of members moves no state. -/
  rehashEnabled : Bool := true
  /-- How long the answer to one command may take. -/
  rpcTimeout : Duration := .ofSeconds 60 0
  /-- The shortest wait before a step is tried again. -/
  retryMin : Duration := .ofMillis 500
  /-- The longest wait before a step is tried again. -/
  retryMax : Duration := .ofMillis 2000
  /-- How long all tries of a rehash may take together. -/
  rehashDeadline : Option Duration := none
  /-- Whether members are told which of their copies they no longer own. -/
  invalidateStale : Bool := true
  deriving DecidableEq, Repr

namespace Settings

/-- The time all tries may take: ten rpc timeouts when nothing is said. -/
def deadline (s : Settings) : Duration :=
  s.rehashDeadline.getD (s.rpcTimeout.scale 10)

def strategy (s : Settings) : Except SetupError Strategy :=
  match Strategy.named? s.strategyName with
  | some strategy => .ok strategy
  | none => .error (.settings (.unknownStrategy (Strategy.canonicalName s.strategyName)))

/-- The first fault of the settings, in the order in which they are looked
for. -/
def validate (s : Settings) : Except SetupError Unit :=
  if s.owners = 0 then .error (.settings .noOwners)
  else if s.rpcTimeout = .zero then .error (.settings .zeroRpcTimeout)
  else if s.retryMax.nanoseconds < s.retryMin.nanoseconds then
    .error (.settings (.retryWindow s.retryMin s.retryMax))
  else discard s.strategy

/-- The pause between two tries, the shortest that may be drawn, in whole
milliseconds, of which 64 bits are kept. -/
def backoff (s : Settings) : Nat := s.retryMin.millis % UInt64.size

end Settings

end SlotRing
