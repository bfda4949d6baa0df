/-
# `Surroundings` — what goes on beside a procedure

Procedures share the cluster, and with it whatever their surroundings keep for
themselves.  The surroundings act at one point only, when a command is sent and
before it is delivered (`Surroundings.atSend`): that is where other members'
operations come between two steps of a procedure.
-/
import SlotRing.Cluster.Basic
import SlotRing.Time.Procedure

namespace SlotRing

/-- The state that procedures share: the cluster, and whatever the surroundings
keep for themselves. -/
structure World (ε : Type) where
  cluster : Cluster
  outside : ε
  /-- How often one may still go on without a stop in this turn. -/
  credit : Nat := Paced.perTurn

instance {ε : Type} : Paced (World ε) where
  credit := World.credit
  setCredit credit w := { w with credit }
  credit_setCredit _ _ := rfl

/-- A command at the moment it is sent. -/
structure Sending where
  sender : Address
  targets : List Address
  command : Command

/-- A command at the moment it has been answered. -/
structure Answered where
  target : Address
  sender : Address
  kind : CommandKind
  reply : Reply

/-- What goes on beside the procedures of the library. -/
structure Surroundings (ε : Type) where
  /-- Runs when a command is sent and before anything is delivered. -/
  atSend : Sending → Procedure (World ε) Unit
  /-- Takes note of an answer, at a tick. -/
  noteAnswer : Nat → Answered → ε → ε

def Surroundings.quiet {ε : Type} : Surroundings ε where
  atSend _ := pure ()
  noteAnswer _ _ outside := outside

namespace World

variable {ε α : Type}

def read (f : Cluster → α) : Procedure (World ε) α := .read fun w => f w.cluster

def modify (f : Cluster → Cluster) : Procedure (World ε) Unit :=
  .modify fun w => { w with cluster := f w.cluster }

def readNode (n : Serial) (f : Node → α) : Procedure (World ε) (Option α) :=
  read fun c => (c.nodes.get? n).map f

def modifyNode (n : Serial) (f : Node → Node) : Procedure (World ε) Unit :=
  modify (·.updateNode n f)

end World

end SlotRing
