/-
# `Node` — one member and what it answers on its own

A node has a store, a write log and the mapping it goes by.  While a rehash
runs on it, the log is on and the node remembers the ring it comes from: only
the keys it owned there are complete in its store, and of all others it says
that it is uncertain.

Everything here is a function of the node alone.  What takes commands to other
members is in `SlotRing.Cluster.Client` and `SlotRing.Rehash`.
-/
import SlotRing.Mapping.Change
import SlotRing.Message.Basic
import SlotRing.Settings

namespace SlotRing

/-- A member of a cluster. -/
structure Node where
  address : Address
  settings : Settings
  /-- What the node places members with. -/
  strategy : Strategy
  accepted : Accepted
  log : WriteLog
  /-- The ring that a running rehash comes from. -/
  movingFrom : Option MemberRing
  store : Store
  /-- Whether a rehash runs on this node. -/
  rehashing : Bool

namespace Node

/-- A node with an empty store that goes by the ring of `members`. -/
def create (address : Address) (settings : Settings) (members : List Address) :
    Except SetupError Node := do
  settings.validate
  let strategy ← settings.strategy
  let ring ← (Ring.ofMembers strategy members).mapError .ringFull
  return {
    address, settings, strategy
    accepted := .initial (.settled ring)
    log := .closed
    movingFrom := none
    store := .empty
    rehashing := false }

variable (n : Node)

def mapping : MemberMapping := n.accepted.mapping

/-- How many members own a key. -/
def copies : Nat := n.settings.owners

def install (mapping : MemberMapping) : Node :=
  { n with accepted := n.accepted.install mapping }

def isOwner (key : String) : Bool := n.mapping.isOwner n.address key n.copies

def stableRing : MemberRing := n.mapping.stable

/-- Whether the node's copy of a key may be incomplete: while the log is on,
of every key that the node did not own under the ring it comes from. -/
def isUncertain (key : String) : Bool :=
  n.log.isActive &&
    match n.movingFrom with
    | some old => !old.isOwner n.address key n.copies
    | none => true

/-! ## Moving from a ring -/

def beginTransition? (old : MemberRing) : Option Node :=
  n.log.enable?.map fun log => { n with log, movingFrom := some old }

/-- Replays the log into the store and closes it.  Nothing arrives while the
node replays, so that one round empties the log. -/
def finishTransition : Node :=
  let (_, log, store) :=
    n.log.drain (fun _ tx (log, store) => (log, store.writeAll tx.writes)) 1 n.store
  { n with log, store, movingFrom := none }

def abortTransition : Node := { n with log := n.log.abort, movingFrom := none }

/-! ## Reading and writing -/

/-- What a logged write makes of the entry of its key. -/
def overlay (current : Option Entry) : Write → Option Entry
  | .put key value => some ⟨key, value, (current.map (·.version + 1)).getD 1⟩
  | .remove _ => none

/-- The entry of a key, with the writes that still wait in the log. -/
def localEntry (key : String) : Option Entry :=
  if n.log.isUncertain key then (n.log.pendingWrites key).foldl overlay (n.store.get? key)
  else n.store.get? key

/-- The members that serve a key, owners under the old ring first: reads and
writes of it are sent to them.  A member that is not on the ring the mapping
ends with has left. -/
def serving (key : String) : List Address :=
  (n.mapping.writeOwners key n.copies).filter n.mapping.target.contains

/-- Takes a transaction over: into the log while it is on, else into the
store. -/
def acceptWrite (tx : Transaction) : Node :=
  match n.log.append? tx with
  | some log => { n with log }
  | none => { n with store := n.store.writeAll tx.writes }

/-- The entries that `requester` owns under `ring`.  Copies that this node does
not own itself are left out: a later write may have passed them by. -/
def stateFor (requester : Address) (ring : MemberRing) : List Entry :=
  n.store.select fun key =>
    ring.isOwner requester key n.copies && n.stableRing.isOwner n.address key n.copies

/-- Drops the copies of keys that the node does not own. -/
def invalidate (keys : List String) : Node :=
  { n with store := (keys.filter fun key => !n.isOwner key).foldl Store.drop n.store }

/-- Drops every entry that the node does not own under `ring`. -/
def dropUnowned (ring : MemberRing) : Node :=
  { n with
    store := (n.store.keys.filter fun key => !ring.isOwner n.address key n.copies).foldl
      Store.drop n.store }

/-! ## Answering -/

def handle : Command → Node × Reply
  | .getCurrentMapping _ => (n, .currentMapping n.mapping.settled?)
  | .installMapping mapping => (n.install mapping, .ack)
  | .pullState requester ring => (n, .stateChunk (n.stateFor requester ring))
  | .pushState entries => ({ n with store := (n.store.merge entries).1 }, .ack)
  | .invalidateHint keys => (n.invalidate keys, .ack)
  | .joinComplete _ => (n, .ack)
  | .write tx => (n.acceptWrite tx, .ack)
  | .clusteredGet key =>
    (n, if n.isUncertain key then .uncertain else .value (n.localEntry key))

end Node

end SlotRing
