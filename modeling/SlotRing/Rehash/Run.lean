/-
# Running a rehash

Only one rehash runs on a node at a time; a second attempt is refused and
leaves no trace.  The deadline is set when the node has been taken, and one that
the clock does not count to stops the run on the spot (`RehashError.overflow`),
with the node given back.  The settings are not checked for that.

When a rehash has succeeded, former owners are told which copies they may drop:
that errand (`runErrand`) is run beside whatever else the node does, and
`awaitInvalidation` waits for it.
-/
import SlotRing.Rehash.Arrival
import SlotRing.Rehash.Departure

namespace SlotRing

namespace Rehash

variable {ε : Type} (around : Surroundings ε)

/-! ## One at a time -/

/-- Takes the node for a rehash, unless one is running on it. -/
def acquire (n : Serial) : Procedure (World ε) (Option Node) :=
  .change fun w =>
    match w.cluster.nodes.get? n with
    | none => (w, none)
    | some node =>
      if node.rehashing then (w, none)
      else
        ({ w with cluster := w.cluster.updateNode n ({ · with rehashing := true }) }, some node)

def release (n : Serial) (w : World ε) : World ε :=
  { w with cluster := w.cluster.updateNode n ({ · with rehashing := false }) }

def carryOut (plan : Plan) (change : Change) :
    Procedure (World ε) (Except RehashError MemberRing) := do
  let result ← match change with
    | .join => arrive around plan
    | .leave leaver old => depart around plan leaver old
  match result with
  | .ok _ => enter plan.rehash .done
  | .error _ => enter plan.rehash .failed
  return result

/-- Runs the rehash of that number, in which a node carries out a change.  It stops
before anything is published if the clock does not count to its deadline. -/
def run (rehash self : Serial) (change : Change) :
    Procedure (World ε) (Except RehashError MemberRing) := do
  match ← acquire self with
  | none => return .error .alreadyInProgress
  | some n =>
    let now ← Procedure.now
    let plan : Plan := {
      rehash, self, node := n.address, settings := n.settings, strategy := n.strategy
      deadline := now * Duration.perTick + n.settings.deadline.nanoseconds }
    let work := if n.settings.deadline.CountedFrom now then carryOut around plan change
      else pure (.error .overflow)
    work.ensuring (release self)

/-! ## Telling former owners -/

/-- For each former owner that is still a member the keys it may drop. -/
def hints (n : Node) (p : Passage) : List (Address × List String) :=
  perMember (n.store.keys.flatMap fun key =>
    ((p.old.staleOwners p.new key n.copies).filter fun stale =>
      stale != n.address && p.new.contains stale).map (·, key))

/-- Tells former owners, one after the other, and counts the keys of those that
answered. -/
def tell (sender : Address) (timeout : Duration) :
    List (Address × List String) → Procedure (World ε) Nat
  | [] => return 0
  | (target, keys) :: rest => do
    match ← sendTo around sender target (.invalidateHint keys) timeout with
    | .ok _ => return keys.length + (← tell sender timeout rest)
    | .error _ => tell sender timeout rest

def runErrand (n : Nat) (errand : Errand) : Procedure (World ε) Unit := do
  let told ← match ← World.readNode errand.node id with
    | none => pure 0
    | some node =>
      tell around node.address node.settings.rpcTimeout (hints node errand.passage)
  World.modify (·.finishErrand n told)

/-- Waits until the errand that a rehash has left is done, and says of how many
keys former owners have been told; none if there is no errand any more. -/
def awaitInvalidation (rehash : Serial) : Procedure (World ε) Nat := do
  match ← World.read fun c => (c.rehashes.get? rehash).bind (·.errand) with
  | none => return 0
  | some n =>
    World.modify (·.updateRehash rehash ({ · with errand := none }))
    Procedure.await (.when fun w => (w.cluster.told? n).isSome)
    World.read fun c => (c.told? n).getD 0

end Rehash

end SlotRing
