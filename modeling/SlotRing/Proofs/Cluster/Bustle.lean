/-
# Bustle beside a rehash

Whenever a rehash sends a command, anything may come between: other faults come into
force, time passes, commands get to nodes and are sent by members, clients write and
read, and the rehash of the node, or another one on it, is attempted once more.  What
is sent in the course of that can have its own company, to any depth (`crowd`).

Apart from rehashes, none of this changes how a node stands with respect to them
(`Node.stance`): whether it is taken, the ring it comes from, and its log as far as it is
closed.  What depends on nothing else of the nodes goes on holding (`Standing`), if only
the rehashes that are attempted maintain it, too (`crowd_spares`).

So it is with what a rehash has of its own node, for no other one gets to run on it: the
node stays as it stands, and nobody else publishes phases of the rehash (`Watched`,
`crowd_spares_watched`).
-/
import SlotRing.Cluster.Client
import SlotRing.Proofs.Cluster.Lasting
import SlotRing.Proofs.Rehash.Steps

namespace SlotRing

/-! ## What may happen -/

inductive Act where
  /-- From now on, these are the faults. -/
  | weather (faults : Faults)
  /-- Time passes. -/
  | pass (ticks : Nat)
  /-- A command gets to a node. -/
  | hand (node : Serial) (command : Command)
  | send (sender : Address) (targets : List Address) (command : Command) (timeout : Duration)
  | write (issuer : Address) (tx : Transaction)
  | read (issuer : Address) (key : String)
  /-- A rehash is run on the node that one runs on already. -/
  | attempt (rehash : Serial) (change : Change)

namespace Act

variable {ε : Type} (around : Surroundings ε) (self : Serial)

/-- Has something done with the node of a name, if there is one. -/
def through (a : Address) (next : Serial → Node → Procedure (World ε) Unit) :
    Procedure (World ε) Unit := do
  match ← World.read fun c => (c.nodes.serial? a).bind fun n => (c.nodes.get? n).map (n, ·) with
  | none => return
  | some (n, node) => next n node

def carryOut : Act → Procedure (World ε) Unit
  | .weather faults => World.modify ({ · with faults })
  | .pass ticks => Procedure.sleep ticks
  | .hand node command => World.modifyNode node fun n => (n.handle command).1
  | .send sender targets command timeout =>
    discard (SlotRing.send around sender targets command timeout)
  | .write issuer tx => through issuer fun n node => discard (Client.write around n node tx)
  | .read issuer key => through issuer fun n node => discard (Client.get around n node key)
  | .attempt rehash change => discard (Rehash.run around rehash self change)

def carryOutAll : List Act → Procedure (World ε) Unit
  | [] => return
  | act :: acts => do
    act.carryOut around self
    carryOutAll acts

end Act

/-- Counts a sending, and says the how manieth it is. -/
def countSending : Procedure (World Nat) Nat :=
  .change fun w => ({ w with outside := w.outside + 1 }, w.outside)

/-- Surroundings in which the acts of `script i sending` come about when `sending` is
sent as the `i`-th one, also when it is sent in the course of another act, up to
`depth` of them inside each other. -/
def crowd (self : Serial) (script : Nat → Sending → List Act) : (depth : Nat) → Surroundings Nat
  | 0 => {
    atSend _ := discard countSending
    noteAnswer _ _ outside := outside }
  | depth + 1 => {
    atSend sending := do
      let i ← countSending
      Act.carryOutAll (crowd self script depth) self (script i sending)
    noteAnswer _ _ outside := outside }

/-! ## How a node stands -/

/-- How a node stands with respect to rehashes. -/
structure Stance where
  rehashing : Bool
  movingFrom : Option MemberRing
  /-- The log, if it is closed. -/
  shut : Option WriteLog

namespace Node

def stance (n : Node) : Stance where
  rehashing := n.rehashing
  movingFrom := n.movingFrom
  shut := if n.log.isActive then none else some n.log

theorem stance_acceptWrite (n : Node) (tx : Transaction) :
    (n.acceptWrite tx).stance = n.stance := by
  cases active : n.log.isActive with
  | true =>
    have still : ({ n.log with pending := n.log.pending ++ [tx] } : WriteLog).isActive = true :=
      active
    simp [acceptWrite, WriteLog.append?, active, stance, still]
  | false => simp [acceptWrite, WriteLog.append?, active, stance]

theorem stance_handle (n : Node) (command : Command) :
    (n.handle command).1.stance = n.stance := by
  cases command with
  | write tx => exact stance_acceptWrite n tx
  | _ => rfl

end Node

/-! ## What depends on how nodes stand -/

/-- As long as every node stands as it does, it goes on holding. -/
structure Standing {ε : Type} (J : World ε → Prop) : Prop where
  steady : Paced.Steady J
  approached {w : World ε} (h : J w) (approached : List Serial) :
    J { w with cluster.approached := approached }
  weather {w : World ε} (h : J w) (faults : Faults) : J { w with cluster.faults := faults }
  outside {w : World ε} (h : J w) (outside : ε) : J { w with outside }
  node {w : World ε} (h : J w) {n : Serial} {f : Node → Node}
    (kept : ∀ node, w.cluster.nodes.get? n = some node → (f node).stance = node.stance) :
    J { w with cluster := w.cluster.updateNode n f }

variable {ε : Type} {J : World ε → Prop}

namespace Standing

theorem modifyNode (standing : Standing J) {n : Serial} {f : Node → Node}
    (kept : ∀ node, (f node).stance = node.stance) : (World.modifyNode n f).Maintains J :=
  Procedure.maintains_modify fun _ h => standing.node h fun node _ => kept node

theorem answer (standing : Standing J) {w : World ε} (h : J w) (endpoint : Serial)
    (command : Command) (outside : ε) :
    J { w with cluster := (w.cluster.answer endpoint command).1, outside } := by
  have idle : J { w with outside } := standing.outside h outside
  unfold Cluster.answer
  generalize (w.cluster.endpoints.get? endpoint).getD {} = e
  dsimp only
  split
  · exact idle
  · cases found : e.node with
    | none => exact idle
    | some n =>
      simp only [Option.bind_some]
      split
      · exact idle
      · next node there =>
        refine standing.node idle fun m m_there => ?_
        obtain rfl : node = m := Option.some.inj (there.symm.trans m_there)
        exact node.stance_handle command

theorem lasting (standing : Standing J) : Lasting J where
  steady := standing.steady
  answer h endpoint command outside := standing.answer h endpoint command outside
  approached h approached := standing.approached h approached

end Standing

section

variable {around : Surroundings ε} (standing : Standing J) (spares : around.Spares J)
include standing spares

/-! ## Clients -/

theorem maintains_handOut (n : Serial) (sender : Address) (timeout : Duration) (tx : Transaction)
    (shares : List (Address × List Write)) :
    (Client.handOut around n sender timeout tx shares).Maintains J := by
  induction shares with
  | nil => exact Procedure.maintains_pure _
  | cons row shares ih =>
    rw [Client.handOut]
    split
    · exact (standing.modifyNode fun node => node.stance_acceptWrite _).bind fun _ => ih
    · refine (maintains_sendTo standing.lasting spares _ _ _ _).bind fun response => ?_
      split
      · exact ih
      · exact ih.bind fun _ => Procedure.maintains_pure _

theorem maintains_write (n : Serial) (node : Node) (tx : Transaction) :
    (Client.write around n node tx).Maintains J := by
  refine (maintains_handOut standing spares _ _ _ _ _).bind fun failed => ?_
  split <;> exact Procedure.maintains_pure _

theorem maintains_inquire (sender : Address) (timeout : Duration) (key : String)
    (owners : List Address) (failure : Option TransportError) :
    (Client.inquire around sender timeout key failure owners).Maintains J := by
  induction owners generalizing failure with
  | nil => exact Procedure.maintains_pure _
  | cons owner owners ih =>
    rw [Client.inquire]
    refine (maintains_sendTo standing.lasting spares _ _ _ _).bind fun response => ?_
    split
    · exact Procedure.maintains_pure _
    all_goals exact ih _

theorem maintains_get (n : Serial) (node : Node) (key : String) :
    (Client.get around n node key).Maintains J := by
  unfold Client.get
  dsimp only
  split
  · exact Procedure.maintains_pure _
  · refine (maintains_inquire standing spares _ _ _ _ _).bind fun found => ?_
    split
    · exact Procedure.maintains_pure _
    · split
      · exact (maintains_world_read _).bind fun _ => Procedure.maintains_pure _
      · split <;> exact Procedure.maintains_pure _

/-! ## The crowd -/

omit standing spares in
theorem maintains_through {a : Address} {next : Serial → Node → Procedure (World ε) Unit}
    (each : ∀ n node, (next n node).Maintains J) : (Act.through a next).Maintains J := by
  refine (maintains_world_read _).bind fun found => ?_
  split
  · exact Procedure.maintains_pure _
  · exact each _ _

variable {self : Serial}
  (attempts : ∀ other change, (Rehash.run around other self change).Maintains J)
include attempts

theorem Act.maintains (act : Act) : (act.carryOut around self).Maintains J := by
  cases act with
  | weather faults => exact Procedure.maintains_modify fun _ h => standing.weather h faults
  | pass ticks => exact Procedure.maintains_sleep standing.steady _
  | hand node command => exact standing.modifyNode fun n => n.stance_handle command
  | send sender targets command timeout =>
    exact (maintains_send standing.lasting spares _ _ _ _).discard
  | write issuer tx =>
    exact maintains_through fun n node => (maintains_write standing spares _ _ _).discard
  | read issuer key =>
    exact maintains_through fun n node => (maintains_get standing spares _ _ _).discard
  | attempt other change => exact (attempts other change).discard

theorem Act.maintains_all (acts : List Act) :
    (Act.carryOutAll around self acts).Maintains J := by
  induction acts with
  | nil => exact Procedure.maintains_pure _
  | cons act acts ih => exact (act.maintains standing spares attempts).bind fun _ => ih

end

/-- Whatever the crowd does, it goes on holding, if rehashes in such company maintain it. -/
theorem crowd_spares {J : World Nat → Prop} (standing : Standing J) {self : Serial}
    (attempts : ∀ {around : Surroundings Nat}, around.Spares J → ∀ other change,
      (Rehash.run around other self change).Maintains J)
    (script : Nat → Sending → List Act) (depth : Nat) : (crowd self script depth).Spares J := by
  have count : countSending.Maintains J :=
    Procedure.maintains_change fun w h => standing.outside h (w.outside + 1)
  induction depth with
  | zero => exact fun _ => count.discard
  | succ depth ih =>
    exact fun sending => count.bind fun i => Act.maintains_all standing ih (attempts ih) _

/-! ## What a rehash has of its node -/

variable {home rehash : Serial} {st : Stance} {trail : List Phase}

/-- The node stands as given, and these are the phases published of the rehash. -/
structure Watched (home rehash : Serial) (st : Stance) (trail : List Phase) (w : World ε) :
    Prop where
  stance : (w.cluster.nodes.get? home).map Node.stance = some st
  trail : (w.cluster.rehashes.get? rehash).map Rehash.trail = some trail

theorem Roster.map_get?_update {β γ : Type} (r : Roster β) {m n : Serial} {f : β → β} {g : β → γ}
    (kept : ∀ b, r.get? m = some b → g (f b) = g b) :
    ((r.update m f).get? n).map g = (r.get? n).map g := by
  by_cases same : m = n
  · subst same
    rw [get?_update_self]
    cases found : r.get? m with
    | none => rfl
    | some b => exact congrArg some (kept b found)
  · rw [get?_update_of_ne r same]

theorem standing_watched : Standing (Watched (ε := ε) home rehash st trail) where
  steady := fun _ _ h => ⟨h.stance, h.trail⟩
  approached h _ := ⟨h.stance, h.trail⟩
  weather h _ := ⟨h.stance, h.trail⟩
  outside h _ := ⟨h.stance, h.trail⟩
  node h _ _ kept := ⟨(Roster.map_get?_update _ kept).trans h.stance, h.trail⟩

theorem lasting_watched : Lasting (Watched (ε := ε) home rehash st trail) :=
  standing_watched.lasting

/-- Who does something to the node itself knows how it stands then. -/
theorem Watched.restance {w : World ε} (st' : Stance) (h : Watched home rehash st trail w)
    {f : Node → Node} (changed : ∀ n, n.stance = st → (f n).stance = st') :
    Watched home rehash st' trail { w with cluster := w.cluster.updateNode home f } := by
  refine ⟨?_, h.trail⟩
  obtain ⟨n, there, same⟩ := Option.map_eq_some_iff.mp h.stance
  show ((w.cluster.nodes.update home f).get? home).map Node.stance = some st'
  rw [Roster.get?_update_self, there]
  exact congrArg some (changed n same)

theorem Watched.updateRehash {w : World ε} {trail' : List Phase}
    (h : Watched home rehash st trail w)
    {f : Rehash → Rehash} (changed : ∀ r, r.trail = trail → (f r).trail = trail') :
    Watched home rehash st trail' { w with cluster := w.cluster.updateRehash rehash f } := by
  refine ⟨h.stance, ?_⟩
  obtain ⟨r, there, same⟩ := Option.map_eq_some_iff.mp h.trail
  show ((w.cluster.rehashes.update rehash f).get? rehash).map Rehash.trail = some trail'
  rw [Roster.get?_update_self, there]
  exact congrArg some (changed r same)

theorem maintains_attempt {around : Surroundings ε} (taken : st.rehashing = true)
    (other : Serial) (change : Change) :
    (Rehash.run around other home change).Maintains (Watched home rehash st trail) := by
  intro now w h
  obtain ⟨n, there, stands⟩ := Option.map_eq_some_iff.mp h.stance
  have held : n.rehashing = true := (congrArg Stance.rehashing stands).trans taken
  rw [Procedure.Keeps, Rehash.run_refused there held]
  exact h

/-- As long as the node is taken, the crowd leaves it as it stands. -/
theorem crowd_spares_watched (taken : st.rehashing = true) (script : Nat → Sending → List Act)
    (depth : Nat) : (crowd home script depth).Spares (Watched home rehash st trail) :=
  crowd_spares standing_watched (fun _ => maintains_attempt taken) script depth

end SlotRing
