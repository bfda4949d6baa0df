/-
# Errors — what can go wrong, and how it is put into words

Three layers: setting up a ring or a node, sending commands, and moving a
cluster from one ring to another.  Each error is its cause; the wording is in
one `message` per layer.
-/
import SlotRing.Address
import SlotRing.Rehash.Phase
import SlotRing.Ring.Build
import SlotRing.Time.Duration

namespace SlotRing

/-! ## Setting up -/

/-- Why settings are refused. -/
inductive SettingsFault where
  | noOwners
  | zeroRpcTimeout
  | retryWindow (min max : Duration)
  /-- The name as it was compared. -/
  | unknownStrategy (name : String)
  /-- A member is asked to carry out its own departure. -/
  | ownDeparture (a : Address)
  /-- A reason given by whoever embeds the library. -/
  | other (reason : String)
  deriving DecidableEq, Repr

def SettingsFault.message : SettingsFault → String
  | .noOwners => "num_owners must be at least 1"
  | .zeroRpcTimeout => "rehash_rpc_timeout must be greater than zero"
  | .retryWindow min max =>
    "rehash_retry_min (" ++ min.text ++ ") exceeds rehash_retry_max (" ++ max.text ++ ")"
  | .unknownStrategy name =>
    "unknown hash strategy '" ++ name ++ "', expected one of " ++
      Text.listed (Strategy.names.map Text.quoted)
  | .ownDeparture a => a ++ " cannot rehash its own departure"
  | .other reason => reason

/-- A ring or a node cannot be set up.  Such an error is reported and never
retried. -/
inductive SetupError where
  | settings (fault : SettingsFault)
  | ringFull (full : RingFull)
  deriving DecidableEq, Repr

/-- The error in words; a fault of the settings says so first. -/
def SetupError.message : SetupError → String
  | .settings fault => "config error: " ++ fault.message
  | .ringFull full =>
    "cannot place " ++ toString full.count ++ " members on a ring of " ++ toString ringSize ++
      " slots"

/-! ## Sending -/

/-- A command was not carried out. -/
inductive TransportError where
  /-- No answer came in time. -/
  | timeout (target : Address)
  /-- The target is not in the view, or nobody answers for it. -/
  | unreachable (target : Address)
  /-- The target answered something else than what it was asked for. -/
  | rejected (target : Address) (reason : String)
  /-- A broadcast that needs every answer lacks some. -/
  | missingAcks (members : List Address)
  deriving DecidableEq, Repr

def TransportError.message : TransportError → String
  | .timeout target => "no response from " ++ target ++ " within the rpc timeout"
  | .unreachable target => target ++ " is unreachable"
  | .rejected target reason => target ++ " rejected the command: " ++ reason
  | .missingAcks members =>
    "broadcast missing acks from " ++ Text.listed (members.map addressText)

/-! ## Rehashing -/

/-- A rehash ended without its new ring. -/
inductive RehashError where
  | alreadyInProgress
  | timeout (phase : Phase)
  | transport (cause : TransportError)
  | notAMember (a : Address)
  | setup (cause : SetupError)
  /-- The clock does not count to the deadline.  This is not returned to anybody: it
  ends the task that runs the rehash. -/
  | overflow
  deriving DecidableEq, Repr

namespace RehashError

/-- The error in words; what comes from setting up is not prefixed again. -/
def message : RehashError → String
  | .alreadyInProgress => "a rehash is already in progress on this node"
  | .timeout phase => "rehash timed out during " ++ phase.title
  | .transport cause => "transport error: " ++ cause.message
  | .notAMember a => a ++ " is not a member of the accepted mapping"
  | .setup cause => cause.message
  | .overflow => "overflow when adding duration to instant"

/-- Whether the same change may be tried again later. -/
def isRetryable : RehashError → Bool
  | .alreadyInProgress | .timeout _ | .transport _ => true
  | .notAMember _ | .setup _ | .overflow => false

end RehashError

end SlotRing
