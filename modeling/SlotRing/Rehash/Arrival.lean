/-
# Arrival — a member joins the cluster

The joining member itself does the work.  It asks the coordinator for the
settled ring, adds itself, and pulls the entries it is to own from the members
that may hold them; meanwhile it logs the writes that already reach it.
-/
import SlotRing.Rehash.Basic
import SlotRing.Message.Text

namespace SlotRing.Rehash

variable {ε : Type} (around : Surroundings ε) (plan : Plan)

def askForRing (coordinator : Address) :
    Procedure (World ε) (Except RehashError MemberRing) := do
  match ← sendTo around plan.node coordinator (.getCurrentMapping plan.node)
      plan.settings.rpcTimeout with
  | .ok (.currentMapping (some ring)) => return .ok ring
  | .ok (.currentMapping none) => return .error .alreadyInProgress
  | .ok reply => return .error (.transport (.rejected coordinator reply.text))
  | .error cause => return .error (.transport cause)

/-- The ring that the cluster goes by. -/
def fetchRing : Procedure (World ε) (Except RehashError MemberRing) := do
  match ← World.read (·.coordinator?) with
  | none => return .error (.transport (.unreachable plan.node))
  | some coordinator => retry plan .fetchOldMapping (askForRing around plan coordinator)

/-- Asks one member once for the entries this node owns under the new ring.  A
reply without state counts as an empty one. -/
def askForState (new : MemberRing) (source : Address) :
    Procedure (World ε) (Except RehashError (List Entry)) := do
  match ← sendTo around plan.node source (.pullState plan.node new) plan.settings.rpcTimeout with
  | .ok (.stateChunk entries) => return .ok entries
  | .ok _ => return .ok []
  | .error cause => return .error (.transport cause)

/-- The first error in a list of results, or all values. -/
def allOk {α : Type} : List (Except RehashError α) → Except RehashError (List α)
  | [] => .ok []
  | .error cause :: _ => .error cause
  | .ok a :: rest => (a :: ·) <$> allOk rest

/-- What each provider hands over, in the order of their addresses. -/
def pull (new : MemberRing) :
    Procedure (World ε) (Except RehashError (List (Address × List Entry))) := do
  let sources := new.providers plan.node plan.settings.owners
  let results ← Procedure.all (sources.map fun source => do
    return (← retry plan .pullState (askForState around plan new source)).map (source, ·))
  return (allOk results).map fun chunks => (Std.ExtTreeMap.ofList chunks).toList

def owned (ring : MemberRing) (a : Address) (copies : Nat) (chunk : List Entry) : List Entry :=
  chunk.filter fun e => ring.isOwner a e.key copies

/-- Pulls the state this node is to own and merges it, chunk by chunk. -/
def pullState (new : MemberRing) : Procedure (World ε) (Except RehashError Unit) := do
  match ← pull around plan new with
  | .error cause => return .error cause
  | .ok chunks =>
    enter plan.rehash .applyState
    let owned := chunks.map fun (_, chunk) => owned new plan.node plan.settings.owners chunk
    World.modifyNode plan.self fun n =>
      { n with store := owned.foldl (fun store chunk => (store.merge chunk).1) n.store }
    return .ok ()

/-- Tells the coordinator, if it is another member, that this one has joined. -/
def reportArrival : Procedure (World ε) Unit := do
  match ← World.read (·.coordinator?) with
  | none => return
  | some coordinator =>
    if coordinator ≠ plan.node then
      discard (sendTo around plan.node coordinator (.joinComplete plan.node)
        plan.settings.rpcTimeout)

def arrive : Procedure (World ε) (Except RehashError MemberRing) := do
  enter plan.rehash .fetchOldMapping
  match ← fetchRing around plan with
  | .error cause => return .error cause
  | .ok old =>
    enter plan.rehash .buildUnion
    match old.extend plan.strategy [plan.node] with
    | .error full => return .error (.setup (.ringFull full))
    | .ok new =>
      if new == old || !plan.settings.rehashEnabled then
        settle around plan new
        return .ok new
      match ← transfer around plan old new (pullState around plan new) with
      | .error cause => return .error cause
      | .ok () =>
        settle around plan new
        reportArrival around plan
        leaveHints plan old new
        return .ok new

end SlotRing.Rehash
