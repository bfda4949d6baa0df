/-
# Scenarios — the steps of a scripted run

A scenario sets up members, has clients and rehashes act on them, and looks at
what they hold.  Steps can also be hung up on a command to come (`Step.hook`):
they are taken at the moment it is sent.
-/
import SlotRing.Rehash.Run
import SlotRing.Store.Script
import SlotRing.WriteLog.Script

namespace SlotRing.Scenario

/-- One step of a scenario.  What needs a ring that cannot be built carries the
error in its place. -/
inductive Step where
  /-- A new node that goes by the ring of `members`, and its endpoint. -/
  | node (name : Address) (members : List Address) (settings : Settings) (register : Bool)
  /-- A registered endpoint without a node: it acknowledges everything. -/
  | stub (name : Address)
  /-- From now on the member has a fixed answer to commands of a kind. -/
  | fix (name : Address) (kind : CommandKind) (reply : Except SetupError Reply)
  /-- The member has no fixed answers any more. -/
  | unfix (name : Address)
  /-- The member's endpoint is the one in the view. -/
  | register (name : Address)
  | unregister (name : Address)
  /-- Nobody answers for the member any more; it stays in the view. -/
  | forget (name : Address)
  | view
  | lose (kind : CommandKind) (lost : Bool)
  | loseTo (target : Address) (kind : CommandKind) (lost : Bool)
  | hold (kind : CommandKind) (delay : Duration)
  | clearFaults
  | clearHooks
  | sleep (ticks : Nat)
  | put (node : Address) (key : String) (value : List UInt8)
  | remove (node : Address) (key : String)
  | write (node : Address) (tx : Transaction)
  | get (node : Address) (key : String)
  /-- Hands a command to a node without sending it. -/
  | handle (node sender : Address) (command : Except SetupError Command)
  | install (node : Address) (mapping : Except SetupError MemberMapping)
  /-- Asks a node what it thinks of a key. -/
  | ask (node : Address) (key : String)
  | store (node : Address) (step : StoreStep)
  | log (node : Address) (step : LogStep)
  /-- Shows the nodes of those names, all nodes if the list is empty. -/
  | dump (names : List Address)
  | send (sender : Address) (targets : List Address) (command : Except SetupError Command)
      (timeout : Duration)
  | broadcast (sender : Address) (command : Except SetupError Command) (timeout : Duration)
      (allNeeded : Bool)
  /-- Prepares a rehash in which a node joins. -/
  | join (node : Address) (id : String)
  /-- Prepares a rehash in which a node goes on without a member that left the
  ring which the node is settled on at this moment. -/
  | leave (node leaver : Address) (id : String)
  /-- Runs a rehash, and waits until former owners have been told. -/
  | run (id : String)
  | wait (id : String)
  /-- Shows how far a rehash has come. -/
  | progress (id : String)
  /-- Has steps taken at the `nth` sending from now on that matches. -/
  | hook (sender target : Option Address) (kind : CommandKind) (nth : Nat) (steps : List Step)

inductive Outcome where
  | ok
  /-- The step names something that does not exist. -/
  | unbound
  | setupError (error : SetupError)
  | transportError (error : TransportError)
  | node (n : Node)
  | view (members : List Address) (coordinator : Option Address)
  | value (value : Option (List UInt8))
  | reply (reply : Reply)
  | version (version : Nat)
  | key (owner uncertain : Bool) (stable : MemberRing)
  | store (result : StoreResult)
  | log (result : LogResult) (log : WriteLog)
  | nodes (ns : List Node)
  | responses (rs : List Response)
  | replies (rs : List (Address × Reply))
  /-- How a rehash ended, its phase right then, and of how many keys former
  owners were told. -/
  | ran (result : Except RehashError MemberRing) (phase : Phase) (hinted : Nat)
  | hinted (count : Nat)
  | progress (rehash : Rehash)

/-- What is seen while a step is taken. -/
inductive Event where
  /-- A command was sent, in a phase of the rehash that runs on the sender. -/
  | sent (sending : Sending) (phase : Option Phase)
  | answered (answered : Answered)
  /-- A step of a hook has been taken. -/
  | hooked (step : Step) (outcome : Outcome)

/-- Steps that wait for a command to be sent. -/
structure Hook where
  sender : Option Address
  target : Option Address
  kind : CommandKind
  /-- Which of the matching sendings it is, counted from now on. -/
  nth : Nat
  steps : List Step

def Hook.matches (h : Hook) (sending : Sending) : Bool :=
  h.kind = sending.command.kind && h.sender.all (· == sending.sender) &&
    h.target.all sending.targets.contains

/-- What a scenario keeps beside the cluster. -/
structure Session where
  hooks : List Hook := []
  /-- The rehashes that run, with the names of their nodes, the innermost
  first. -/
  running : List (Address × Serial) := []
  /-- How many errands have been begun. -/
  begun : Nat := 0
  /-- What was seen, with its tick, the last event first. -/
  events : List (Nat × Event) := []

/-- Counts a sending off the hooks that wait for it: those that have waited
long enough, and those that go on waiting. -/
def countDown (sending : Sending) : List Hook → List Hook × List Hook
  | [] => ([], [])
  | h :: hs =>
    let (due, waiting) := countDown sending hs
    if h.matches sending then
      if h.nth ≤ 1 then (h :: due, waiting)
      else (due, { h with nth := h.nth - 1 } :: waiting)
    else (due, h :: waiting)

namespace Step

mutual

def hooks : Step → Nat
  | .hook _ _ _ _ steps => hooksIn steps + 1
  | _ => 0

def hooksIn : List Step → Nat
  | [] => 0
  | step :: steps => step.hooks + hooksIn steps

end

end Step

end SlotRing.Scenario
