/-
# Running a scenario

Steps are taken one after the other on a clock that starts at zero.  While a
command is being sent, the hooks that wait for it take their steps; those can
send commands themselves, at which further hooks act.  Every hook acts once, so
the number of hooks in the scenario bounds how deep this goes.

The errands that rehashes leave are run in the background.  They go on while
later steps are taken, even when nobody waits for them.  A rehash that ends its own
task ends the whole scenario (`play`).
-/
import SlotRing.Cluster.Client
import SlotRing.Scenario.Step
import SlotRing.Time.Background

namespace SlotRing.Scenario

abbrev Play (α : Type) := Procedure (World Session) α

def note (event : Event) : Play Unit := fun now w =>
  .done { w with outside.events := (now, event) :: w.outside.events } ()

/-- The phase of the rehash that runs on a member, the innermost if there are
several.  One that has been cut off still counts. -/
def phaseOf (w : World Session) (a : Address) : Option Phase := do
  let rehash ← w.outside.running.lookup a
  let r ← w.cluster.rehashes.get? rehash
  return r.phase

def withNode (a : Address) (next : Serial → Node → Play Outcome) : Play Outcome := do
  match ← World.read fun c => (c.nodes.serial? a).bind fun n => (c.nodes.get? n).map (n, ·) with
  | none => return .unbound
  | some (n, node) => next n node

def withEndpoint (a : Address) (next : Serial → Play Outcome) : Play Outcome := do
  match ← World.read (·.endpoints.serial? a) with
  | none => return .unbound
  | some n => next n

def withRehash (id : String) (next : Serial → Rehash → Play Outcome) : Play Outcome := do
  match ← World.read fun c =>
    (c.rehashes.serial? id).bind fun n => (c.rehashes.get? n).map (n, ·) with
  | none => return .unbound
  | some (n, r) => next n r

/-- Runs `next` with a value, or ends with the error in its place. -/
def withBuilt {α : Type} (built : Except SetupError α) (next : α → Play Outcome) : Play Outcome :=
  match built with
  | .error error => return .setupError error
  | .ok a => next a

def doing (f : Cluster → Cluster) : Play Outcome := do
  World.modify f
  return .ok

def written : Except TransportError Unit → Outcome
  | .ok () => .ok
  | .error error => .transportError error

/-- Runs a rehash while it counts as the innermost of its node. -/
def runRehash (around : Surroundings Session) (n : Serial) (r : Rehash) : Play Outcome := do
  Procedure.modify fun w => { w with outside.running := (r.address, n) :: w.outside.running }
  let result ← Rehash.run around n r.node r.change
  let phase ← World.read fun c => ((c.rehashes.get? n).map (·.phase)).getD .idle
  let hinted ← Rehash.awaitInvalidation n
  Procedure.modify fun w =>
    { w with outside.running := w.outside.running.eraseP (·.1 == r.address) }
  return .ran result phase hinted

def take (around : Surroundings Session) : Step → Play Outcome
  | .node name members settings register =>
    withBuilt (Node.create name settings members) fun node => do
      World.modify fun c =>
        let joined := (c.addNode name node).addEndpoint name { node := some c.nodes.next }
        if register then joined.register name c.endpoints.next else joined
      return .node node
  | .stub name => doing fun c => (c.addEndpoint name {}).register name c.endpoints.next
  | .fix name kind reply =>
    withEndpoint name fun n => withBuilt reply fun reply => doing fun c =>
      c.updateEndpoint n fun e => { e with fixed := (kind, reply) :: e.fixed }
  | .unfix name => withEndpoint name fun n => doing (·.updateEndpoint n ({ · with fixed := [] }))
  | .register name => withEndpoint name fun n => doing (·.register name n)
  | .unregister name => doing (·.unregister name)
  | .forget name => doing fun c => { c with endpoints := c.endpoints.unname name }
  | .view => World.read fun c => .view c.members c.coordinator?
  | .lose kind lost => doing fun c => { c with faults := c.faults.lose kind lost }
  | .loseTo target kind lost => doing fun c => { c with faults := c.faults.loseTo target kind lost }
  | .hold kind delay => doing fun c => { c with faults := c.faults.hold kind delay }
  | .clearFaults => doing fun c => { c with faults := {} }
  | .clearHooks => do
    Procedure.modify fun w => { w with outside.hooks := [] }
    return .ok
  | .sleep ticks => do
    Procedure.sleep ticks
    return .ok
  | .put node key value => withNode node fun n node => do
    return written (← Client.write around n node (.single (.put key value)))
  | .remove node key => withNode node fun n node => do
    return written (← Client.write around n node (.single (.remove key)))
  | .write node tx => withNode node fun n node => do
    return written (← Client.write around n node tx)
  | .get node key => withNode node fun n node => do
    match ← Client.get around n node key with
    | .ok value => return .value value
    | .error error => return .transportError error
  | .handle node _ command => withNode node fun n node => withBuilt command fun command => do
    let (node, reply) := node.handle command
    World.modifyNode n fun _ => node
    return .reply reply
  | .install node mapping => withNode node fun n node => withBuilt mapping fun mapping => do
    let node := node.install mapping
    World.modifyNode n fun _ => node
    return .version node.accepted.version
  | .ask node key => withNode node fun _ node =>
    return .key (node.isOwner key) (node.isUncertain key) node.stableRing
  | .store node step => withNode node fun n node => do
    let (store, result) := step.run node.store
    World.modifyNode n ({ · with store })
    return .store result
  | .log node step => withNode node fun n node => do
    let (result, log) := step.run node.log
    World.modifyNode n ({ · with log })
    return .log result log
  | .dump [] => World.read fun c => .nodes c.nodes.current
  | .dump names => World.read fun c => .nodes (names.filterMap c.nodes.find?)
  | .send sender targets command timeout => withBuilt command fun command => do
    return .responses (← SlotRing.send around sender targets command timeout)
  | .broadcast sender command timeout allNeeded => withBuilt command fun command => do
    match ← SlotRing.broadcast around sender command timeout allNeeded with
    | .ok replies => return .replies replies
    | .error error => return .transportError error
  | .join node id => withNode node fun n node =>
    doing (·.addRehash id { node := n, address := node.address, change := .join })
  | .leave node leaver id => withNode node fun n node =>
    let change := .leave leaver node.stableRing
    doing (·.addRehash id { node := n, address := node.address, change })
  | .run id => withRehash id (runRehash around)
  | .wait id => withRehash id fun n _ => .hinted <$> Rehash.awaitInvalidation n
  | .progress id => withRehash id fun _ r => return .progress r
  | .hook sender target kind nth steps => do
    Procedure.modify fun w =>
      { w with outside.hooks := w.outside.hooks ++ [{ sender, target, kind, nth, steps }] }
    return .ok

/-- Takes the steps of a hook, and notes each of them. -/
def takeHooked (around : Surroundings Session) : List Step → Play Unit
  | [] => return
  | step :: steps => do
    let outcome ← take around step
    note (.hooked step outcome)
    takeHooked around steps

/-- Takes the hooks that wait for a sending off the session. -/
def dueHooks (sending : Sending) : Play (List Hook) :=
  .change fun w =>
    let (due, waiting) := countDown sending w.outside.hooks
    ({ w with outside.hooks := waiting }, due)

/-- Surroundings that note everything and in which `act` is what hooks do. -/
def watching (act : List Step → Play Unit) : Surroundings Session where
  atSend sending := do
    let phase ← Procedure.read (phaseOf · sending.sender)
    note (.sent sending phase)
    let due ← dueHooks sending
    act (due.flatMap (·.steps))
  noteAnswer now answered session :=
    { session with events := (now, .answered answered) :: session.events }

/-- Surroundings in which hooks act, at most `depth` of them inside each
other. -/
def surroundings : (depth : Nat) → Surroundings Session
  | 0 => watching fun _ => return
  | depth + 1 => watching (takeHooked (surroundings depth))

/-- What a step came to, the tick at which it ended, and what was seen. -/
structure Answer where
  outcome : Outcome
  tick : Nat
  events : List (Nat × Event)

/-- A rehash was to be run, and ended the task that was to run it. -/
def Outcome.stops : Outcome → Bool
  | .ran (.error .overflow) .. => true
  | _ => false

/-- The step has ended the whole scenario, or one of the steps taken inside it has. -/
def Answer.stops (a : Answer) : Bool :=
  a.outcome.stops || a.events.any fun
    | (_, .hooked _ outcome) => outcome.stops
    | _ => false

/-- The errands that nobody has begun yet. -/
def beginErrands (around : Surroundings Session) (w : World Session) :
    World Session × List (Play Unit) :=
  let errands := w.cluster.errands.zipIdx.drop w.outside.begun
  ({ w with outside.begun := w.cluster.errands.length },
    errands.map fun (errand, n) => Rehash.runErrand around n errand)

/-- How many rounds of turns a step may take. -/
def rounds : Nat := UInt64.size

/-- Takes steps one after the other.  A step that never ends is the last one,
and has no answer. -/
def takeAll (around : Surroundings Session) :
    List Step → (now : Nat) → List (Task (World Session) Unit) → World Session → List Answer
  | [], _, _, _ => []
  | step :: steps, now, background, w =>
    match (take around step now w).runBeside (beginErrands around) rounds now background [] with
    | none => []
    | some finish =>
      let w := finish.state
      let answer := {
        outcome := finish.result, tick := finish.now, events := w.outside.events.reverse }
      answer :: takeAll around steps finish.now finish.background
        { w with outside.events := [] }

/-- Runs a scenario on an empty cluster. -/
def run (steps : List Step) : List Answer :=
  takeAll (surroundings (Step.hooksIn steps)) steps 0 [] { cluster := {}, outside := {} }

/-- What comes of a scenario: nothing if it is ended by one of its steps. -/
def play (steps : List Step) : Option (List Answer) :=
  let answers := run steps
  if answers.any (·.stops) then none else some answers

end SlotRing.Scenario
