/-
# `Cluster` — members, the view they share and the faults between them

A cluster is the nodes, the view (who is registered, in the order of
registration; the first one coordinates), whoever answers for a member, the
faults that are set, and the rehashes that have been prepared with the errands
they leave behind.

Nodes, endpoints and rehashes are known by number: when a name is given to a
new one, whoever works with the old one goes on with it.

Everything here is a function of the cluster alone: whether a member can be
reached, and what it answers.
-/
import SlotRing.Cluster.Fault
import SlotRing.Cluster.Node
import SlotRing.Rehash.Progress
import SlotRing.Roster

namespace SlotRing

/-- Whoever answers for a member. -/
structure Endpoint where
  /-- The node that answers; without one, every command is acknowledged and
  that is all. -/
  node : Option Serial := none
  /-- Fixed answers, by kind; a command that has one is not seen by the node. -/
  fixed : List (CommandKind × Reply) := []

/-- The members, what connects them and the rehashes they carry out. -/
structure Cluster where
  /-- The registered members with their endpoints, in the order of
  registration. -/
  view : List (Address × Serial) := []
  endpoints : Roster Endpoint := {}
  /-- The endpoints that commands are on their way to, one entry a command. -/
  approached : List Serial := []
  nodes : Roster Node := {}
  faults : Faults := {}
  rehashes : Roster Rehash := {}
  /-- The errands that rehashes have left, in the order in which they did. -/
  errands : List Errand := []

namespace Cluster

variable (c : Cluster)

def members : List Address := c.view.map (·.1)

/-- The member that is asked for the settled ring. -/
def coordinator? : Option Address := c.members.head?

/-- Puts a member into the view, or gives it another endpoint there. -/
def register (a : Address) (endpoint : Serial) : Cluster :=
  if c.members.contains a then
    { c with view := c.view.map fun entry => if entry.1 = a then (a, endpoint) else entry }
  else { c with view := c.view ++ [(a, endpoint)] }

def unregister (a : Address) : Cluster := { c with view := c.view.filter (·.1 != a) }

def addNode (a : Address) (node : Node) : Cluster := { c with nodes := c.nodes.add a node }

def addEndpoint (a : Address) (endpoint : Endpoint) : Cluster :=
  { c with endpoints := c.endpoints.add a endpoint }

/-- Prepares a rehash under an id. -/
def addRehash (id : String) (rehash : Rehash) : Cluster :=
  { c with rehashes := c.rehashes.add id rehash }

def updateEndpoint (n : Serial) (f : Endpoint → Endpoint) : Cluster :=
  { c with endpoints := c.endpoints.update n f }

def updateNode (n : Serial) (f : Node → Node) : Cluster :=
  { c with nodes := c.nodes.update n f }

def updateRehash (n : Serial) (f : Rehash → Rehash) : Cluster :=
  { c with rehashes := c.rehashes.update n f }

def leaveErrand (rehash : Serial) (errand : Errand) : Cluster :=
  { c with
    rehashes := c.rehashes.update rehash ({ · with errand := some c.errands.length })
    errands := c.errands ++ [errand] }

/-- Notes of how many keys former owners have been told on an errand. -/
def finishErrand (n told : Nat) : Cluster :=
  { c with errands := c.errands.modify n ({ · with told := some told }) }

/-- Of how many keys former owners have been told on an errand, once it is
done. -/
def told? (n : Nat) : Option Nat := c.errands[n]?.bind (·.told)

/-- The endpoint that a member is reached at: the one in the view, as long as
it is the member's own or a command is on its way to it. -/
def reach? (target : Address) : Option Serial :=
  (c.view.lookup target).filter fun endpoint =>
    c.endpoints.serial? target = some endpoint || c.approached.contains endpoint

/-- Who answers a command to that target, and what happens on the way;
nothing if the target cannot be reached. -/
def route? (target : Address) (kind : CommandKind) : Option (Serial × Fault) :=
  (c.reach? target).map fun endpoint => (endpoint, c.faults.between target kind)

/-- The answer of an endpoint: a fixed one, that of the node, or a bare
acknowledgement. -/
def answer (endpoint : Serial) (command : Command) : Cluster × Reply :=
  let e := (c.endpoints.get? endpoint).getD {}
  match e.fixed.lookup command.kind with
  | some reply => (c, reply)
  | none =>
    match e.node.bind c.nodes.get? with
    | none => (c, .ack)
    | some node =>
      let (node, reply) := node.handle command
      (e.node.elim c fun n => c.updateNode n fun _ => node, reply)

end Cluster

end SlotRing
