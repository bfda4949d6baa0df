/-
# Departure — a member has left the cluster

Every survivor does its own part.  It takes the ring that the member left,
removes the member, and pushes the entries it owned there to the members that
come to own them.
-/
import SlotRing.Cluster.PerMember
import SlotRing.Rehash.Basic
import SlotRing.Message.Text

namespace SlotRing.Rehash

variable {ε : Type} (around : Surroundings ε) (plan : Plan)

/-- For each other member the entries among `entries` that it gains. -/
def gains (old new : MemberRing) (entries : List Entry) : List (Address × List Entry) :=
  perMember (entries.flatMap fun e =>
    ((old.gainedOwners new e.key plan.settings.owners).filter (· != plan.node)).map (·, e))

/-- Hands entries to one member, once. -/
def handTo (target : Address) (entries : List Entry) :
    Procedure (World ε) (Except RehashError Unit) := do
  match ← sendTo around plan.node target (.pushState entries) plan.settings.rpcTimeout with
  | .ok .ack => return .ok ()
  | .ok reply => return .error (.transport (.rejected target reply.text))
  | .error cause => return .error (.transport cause)

/-- Pushes every entry that this node owned under the old ring to its new
owners. -/
def pushState (old new : MemberRing) : Procedure (World ε) (Except RehashError Unit) := do
  let held ← World.readNode plan.self fun n =>
    n.store.select fun key => old.isOwner plan.node key plan.settings.owners
  let results ← Procedure.all ((gains plan old new (held.getD [])).map fun (target, entries) =>
    retry plan .pullState (handTo around plan target entries))
  match results.findSome? fun | .error cause => some cause | .ok () => none with
  | some cause => return .error cause
  | none =>
    enter plan.rehash .applyState
    return .ok ()

def depart (leaver : Address) (old : MemberRing) :
    Procedure (World ε) (Except RehashError MemberRing) := do
  enter plan.rehash .fetchOldMapping
  if leaver = plan.node then
    return .error (.setup (.settings (.ownDeparture plan.node)))
  if !old.contains leaver then
    return .error (.notAMember leaver)
  enter plan.rehash .buildUnion
  match old.without plan.strategy leaver with
  | .error full => return .error (.setup (.ringFull full))
  | .ok new =>
    if !plan.settings.rehashEnabled then
      settle around plan new
      return .ok new
    match ← transfer around plan old new (pushState around plan old new) with
    | .error cause => return .error cause
    | .ok () =>
      settle around plan new
      World.modifyNode plan.self (·.dropUnowned new)
      leaveHints plan old new
      return .ok new

end SlotRing.Rehash
