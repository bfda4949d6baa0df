/-
# Commands and replies — what members say to each other
-/
import SlotRing.Mapping.Accepted
import SlotRing.WriteLog.Basic

namespace SlotRing

/-- What one member can ask of another. -/
inductive Command where
  /-- Asks for the settled ring. -/
  | getCurrentMapping (requester : Address)
  /-- Replaces the mapping that the receiver goes by. -/
  | installMapping (mapping : MemberMapping)
  /-- Asks for the entries that the requester owns under a ring. -/
  | pullState (requester : Address) (ring : MemberRing)
  /-- Hands over entries that the receiver now owns. -/
  | pushState (entries : List Entry)
  /-- Names keys that the receiver may hold without owning them. -/
  | invalidateHint (keys : List String)
  | joinComplete (member : Address)
  /-- A client's writes, for one of the owners. -/
  | write (tx : Transaction)
  /-- A client's read, for one of the owners. -/
  | clusteredGet (key : String)

/-- A command without what it carries.  Faults are set per kind. -/
inductive CommandKind where
  | getCurrentMapping
  | installMapping
  | pullState
  | pushState
  | invalidateHint
  | joinComplete
  | write
  | clusteredGet
  deriving DecidableEq, Repr

def Command.kind : Command → CommandKind
  | .getCurrentMapping _ => .getCurrentMapping
  | .installMapping _ => .installMapping
  | .pullState .. => .pullState
  | .pushState _ => .pushState
  | .invalidateHint _ => .invalidateHint
  | .joinComplete _ => .joinComplete
  | .write _ => .write
  | .clusteredGet _ => .clusteredGet

namespace CommandKind

def title : CommandKind → String
  | .getCurrentMapping => "GetCurrentMapping"
  | .installMapping => "InstallMapping"
  | .pullState => "PullState"
  | .pushState => "PushState"
  | .invalidateHint => "InvalidateHint"
  | .joinComplete => "JoinComplete"
  | .write => "Write"
  | .clusteredGet => "ClusteredGet"

def all : List CommandKind :=
  [.getCurrentMapping, .installMapping, .pullState, .pushState, .invalidateHint, .joinComplete,
    .write, .clusteredGet]

end CommandKind

/-- What a member answers. -/
inductive Reply where
  /-- The settled ring, or nothing while the member is moving. -/
  | currentMapping (ring : Option MemberRing)
  | stateChunk (entries : List Entry)
  | value (entry : Option Entry)
  /-- The member cannot vouch for its copy at the moment. -/
  | uncertain
  | ack
  | unsuccessful (reason : String)

end SlotRing
