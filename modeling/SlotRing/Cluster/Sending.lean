/-
# Sending commands

`send` and `broadcast` are the only ways from one member to another.  Every
target of a `send` gives exactly one response: its answer, or the reason why
there is none.
-/
import SlotRing.Cluster.Surroundings

namespace SlotRing

variable {ε : Type} (around : Surroundings ε)

def deliver (sender : Address) (command : Command) (target : Address) (endpoint : Serial) :
    Procedure (World ε) Reply := fun now w =>
  let (cluster, reply) := w.cluster.answer endpoint command
  let answered := { target, sender, kind := command.kind, reply }
  .done { w with cluster, outside := around.noteAnswer now answered w.outside } reply

/-- Lets time pass while a command is on its way to an endpoint. -/
def underway (endpoint : Serial) (time : Duration) : Procedure (World ε) Unit := do
  World.modify fun c => { c with approached := endpoint :: c.approached }
  (Procedure.sleep time.wait).ensuring fun w =>
    { w with cluster.approached := w.cluster.approached.erase endpoint }

/-- Takes a command to one target, past the fault that is set for it.  A lost
command takes the sender's whole patience, and so does one that is held back
for longer. -/
def transmit (sender : Address) (command : Command) (timeout : Duration) (target : Address) :
    Procedure (World ε) (Except TransportError Reply) := do
  match ← World.read (·.route? target command.kind) with
  | none => return .error (.unreachable target)
  | some (endpoint, fault) =>
    if fault.lost || fault.delay.any (timeout.wait < ·.wait) then
      underway endpoint timeout
      return .error (.timeout target)
    else
      if let some delay := fault.delay then
        underway endpoint delay
      return .ok (← deliver around sender command target endpoint)

abbrev Response := Address × Except TransportError Reply

/-- Sends a command to every target at once.  There is one response per target,
in the order of the targets. -/
def send (sender : Address) (targets : List Address) (command : Command) (timeout : Duration) :
    Procedure (World ε) (List Response) := do
  around.atSend { sender, targets, command }
  .all (targets.map fun target =>
    return (target, ← transmit around sender command timeout target))

def sendTo (sender target : Address) (command : Command) (timeout : Duration) :
    Procedure (World ε) (Except TransportError Reply) := do
  match ← send around sender [target] command timeout with
  | [] => return .error (.unreachable target)
  | (_, response) :: _ => return response

/-- Splits what came back into answers and the members that gave none; a reply
that reports a failure counts as none. -/
def collect : List Response → List (Address × Reply) × List Address
  | [] => ([], [])
  | (target, response) :: rest =>
    let (replies, missing) := collect rest
    match response with
    | .ok (.unsuccessful _) | .error _ => (replies, target :: missing)
    | .ok reply => ((target, reply) :: replies, missing)

/-- Sends a command to every other member of the view.  Members that give no
answer are an error only if all answers are needed. -/
def broadcast (sender : Address) (command : Command) (timeout : Duration) (allNeeded : Bool) :
    Procedure (World ε) (Except TransportError (List (Address × Reply))) := do
  let targets ← World.read fun c => c.members.filter (· != sender)
  let (replies, missing) := collect (← send around sender targets command timeout)
  if allNeeded && !missing.isEmpty then return .error (.missingAcks missing)
  return .ok replies

end SlotRing
