/-
# Reading and writing through a member

A write goes to every member that owns one of its keys, under either ring
while ownership moves, and each of them gets only its own part.  A read is
served locally where the copy is complete; else the other owners are asked one
after the other, and one that is itself uncertain is passed over.
-/
import SlotRing.Cluster.Sending
import SlotRing.Cluster.PerMember
import SlotRing.Message.Text

namespace SlotRing

namespace Node

variable (n : Node)

def shares (writes : List Write) : List (Address × List Write) :=
  perMember (writes.flatMap fun w => (n.serving w.key).map (·, w))

end Node

namespace Client

variable {ε : Type} (around : Surroundings ε)

/-- Hands each share to its recipient, the local one without a message, and
lists the recipients that did not acknowledge. -/
def handOut (self : Serial) (sender : Address) (timeout : Duration) (tx : Transaction) :
    List (Address × List Write) → Procedure (World ε) (List Address)
  | [] => return []
  | (owner, writes) :: rest => do
    let part := tx.withWrites writes
    if owner = sender then
      World.modifyNode self (·.acceptWrite part)
      handOut self sender timeout tx rest
    else
      match ← sendTo around sender owner (.write part) timeout with
      | .ok .ack => handOut self sender timeout tx rest
      | _ => return owner :: (← handOut self sender timeout tx rest)

/-- Writes a transaction through the node of that number, which is `n` now. -/
def write (self : Serial) (n : Node) (tx : Transaction) :
    Procedure (World ε) (Except TransportError Unit) := do
  match ← handOut around self n.address n.settings.rpcTimeout tx (n.shares tx.writes) with
  | [] => return .ok ()
  | failed => return .error (.missingAcks failed)

inductive Inquiry where
  /-- An owner has answered. -/
  | answered (entry : Option Entry)
  /-- None has; the last failure that was not mere uncertainty. -/
  | unanswered (failure : Option TransportError)

/-- Asks owners one after the other, up to the first that answers. -/
def inquire (sender : Address) (timeout : Duration) (key : String)
    (failure : Option TransportError) : List Address → Procedure (World ε) Inquiry
  | [] => return .unanswered failure
  | owner :: rest => do
    match ← sendTo around sender owner (.clusteredGet key) timeout with
    | .ok (.value entry) => return .answered entry
    | .ok .uncertain => inquire sender timeout key failure rest
    | .ok reply => inquire sender timeout key (some (.rejected owner reply.text)) rest
    | .error failure => inquire sender timeout key (some failure) rest

/-- Reads a key through the node of that number, which is `n` now. -/
def get (self : Serial) (n : Node) (key : String) :
    Procedure (World ε) (Except TransportError (Option (List UInt8))) := do
  let owners := n.serving key
  let isOwner := owners.contains n.address
  if isOwner && !n.isUncertain key then
    return .ok ((n.localEntry key).map (·.value))
  let others := owners.filter (· != n.address)
  match ← inquire around n.address n.settings.rpcTimeout key none others with
  | .answered entry => return .ok (entry.map (·.value))
  | .unanswered failure =>
    if isOwner then
      let entry ← World.readNode self (·.localEntry key)
      return .ok (entry.join.map (·.value))
    match failure, owners with
    | some failure, _ => return .error failure
    | none, owner :: _ => return .error (.unreachable owner)
    | none, [] => return .ok none

end Client

end SlotRing
