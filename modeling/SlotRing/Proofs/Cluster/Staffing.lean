/-
# Members, however hard they are to reach

Where commands get lost or are held back, a command is no longer a call: it may
come to nothing, and while it is on its way others go on.  `c.Staffs who nodes`
is what remains of the picture of a cluster then: the members are registered and
each of them is answered for by a node of its own.

What the others do to that picture, and what a procedure does to it itself, are
given by two relations on pictures, the second among the first (`Fits`).  A
command to a member is one step of the second kind if it arrives; if an answer
comes back, what it says is still true when the procedure goes on, as long as
the first relation preserves it (`sendTo_abides`, `send_abides`).
-/
import SlotRing.Proofs.Cluster.Hosting
import SlotRing.Proofs.Time.Reliance

namespace SlotRing

/-- The cluster has exactly these members, and each of them is answered for by
its node, whatever happens to commands on their way. -/
structure Cluster.Staffs (c : Cluster) (who : Census) (nodes : Address → Node) : Prop where
  members_eq : c.members = who.members
  nodup : who.members.Nodup
  endpoint {a : Address} : a ∈ who.members → ∃ e, c.view.lookup a = some e ∧
    c.endpoints.serial? a = some e ∧ c.endpoints.get? e = some { node := some (who.serial a) }
  named {a : Address} : a ∈ who.members → c.nodes.serial? a = some (who.serial a)
  node {a : Address} : a ∈ who.members → c.nodes.get? (who.serial a) = some (nodes a)
  address {a : Address} : a ∈ who.members → (nodes a).address = a

namespace Cluster

variable {c : Cluster} {who : Census} {nodes : Address → Node}

/-- Members that can be reached while nothing is on its way are reached at
endpoints of their own. -/
theorem Hosts.staffs (h : c.Hosts who nodes) (idle : c.approached = []) :
    c.Staffs who nodes where
  members_eq := h.members_eq
  nodup := h.nodup
  endpoint ha := by
    obtain ⟨e, reach, endpoint⟩ := h.reached ha
    rw [reach?, Option.filter_eq_some_iff] at reach
    exact ⟨e, reach.1, by simpa [idle] using reach.2, endpoint⟩
  named := h.named
  node := h.node
  address := h.address

namespace Staffs

theorem weather (h : c.Staffs who nodes) (faults : Faults) :
    Cluster.Staffs { c with faults } who nodes :=
  ⟨h.members_eq, h.nodup, h.endpoint, h.named, h.node, h.address⟩

theorem lists (h : c.Staffs who nodes) : c.Lists who nodes :=
  ⟨h.members_eq, h.nodup, h.named, h.node, h.address⟩

theorem updateNode (h : c.Staffs who nodes) {a : Address} (ha : a ∈ who.members)
    {f : Node → Node} (address : (f (nodes a)).address = a) :
    (c.updateNode (who.serial a) f).Staffs who (Function.update nodes a (f (nodes a))) where
  members_eq := h.members_eq
  nodup := h.nodup
  endpoint := h.endpoint
  named := h.named
  node := (h.lists.updateNode ha address).node
  address := (h.lists.updateNode ha address).address

theorem find? (h : c.Staffs who nodes) {a : Address} (ha : a ∈ who.members) :
    c.nodes.find? a = some (nodes a) :=
  h.lists.find? ha

theorem answer_eq (h : c.Staffs who nodes) {a : Address} (ha : a ∈ who.members) {e : Serial}
    (listed : c.view.lookup a = some e) (command : Command) :
    c.answer e command =
      (c.updateNode (who.serial a) fun _ => ((nodes a).handle command).1,
        ((nodes a).handle command).2) := by
  obtain ⟨e', listed', -, endpoint⟩ := h.endpoint ha
  obtain rfl : e' = e := Option.some.inj (listed'.symm.trans listed)
  simp only [Cluster.answer, endpoint, Option.getD_some, List.lookup_nil, Option.bind_some,
    h.node ha, Option.elim_some]

end Staffs

end Cluster

/-! ## Pictures -/

/-- What is seen of a world: the nodes of the members, the errands that rehashes
have left, and what the surroundings keep. -/
structure Picture (ε : Type) where
  nodes : Address → Node
  errands : List Errand
  outside : ε

/-- Who is on the books and at which endpoint, and what stands in the picture for
everybody else. -/
structure Crew where
  who : Census
  strangers : Address → Node
  view : List (Address × Serial)
  endpoints : Roster Endpoint

def Cluster.crew (c : Cluster) (who : Census) (nodes : Address → Node) : Crew where
  who := who
  strangers := nodes
  view := c.view
  endpoints := c.endpoints

namespace Picture

variable {ε : Type}

def withNode (p : Picture ε) (a : Address) (n : Node) : Picture ε :=
  { p with nodes := Function.update p.nodes a n }

@[simp] theorem withNode_self (p : Picture ε) (a : Address) (n : Node) :
    (p.withNode a n).nodes a = n :=
  Function.update_self ..

theorem withNode_of_ne (p : Picture ε) {a b : Address} (n : Node) (other : b ≠ a) :
    (p.withNode a n).nodes b = p.nodes b :=
  Function.update_of_ne other ..

def answered (around : Surroundings ε) (now : Nat) (sender : Address) (command : Command)
    (target : Address) (p : Picture ε) : Picture ε :=
  let (node, reply) := (p.nodes target).handle command
  { p.withNode target node with
    outside := around.noteAnswer now { target, sender, kind := command.kind, reply } p.outside }

/-- A way for pictures to develop. -/
structure Flow (N : Picture ε → Picture ε → Prop) : Prop where
  refl (p : Picture ε) : N p p
  trans {p q r : Picture ε} : N p q → N q r → N p r

/-- What one of several does is among what any of them may do. -/
structure Fits (E N : Picture ε → Picture ε → Prop) : Prop where
  theirs : Flow E
  mine : Flow N
  part (p q : Picture ε) : N p q → E p q

theorem Flow.fits {N : Picture ε → Picture ε → Prop} (flow : Flow N) : Fits N N :=
  ⟨flow, flow, fun _ _ h => h⟩

/-- A part of a procedure, during which `E` and `N` are what anybody may do and
what it does itself; of the whole procedure that is said of `E₀` and `N₀`. -/
structure Room (E₀ N₀ E N : Picture ε → Picture ε → Prop) : Prop where
  fits : Fits E N
  mine : Flow N₀
  fewer (p q : Picture ε) : E₀ p q → E p q
  more (p q : Picture ε) : N p q → N₀ p q

theorem Fits.room {E N : Picture ε → Picture ε → Prop} (fits : Fits E N) : Room E N E N :=
  ⟨fits, fits.mine, fun _ _ h => h, fun _ _ h => h⟩

theorem flow_eq : Flow (Eq : Picture ε → Picture ε → Prop) :=
  ⟨fun _ => rfl, fun first second => first.trans second⟩

def Any (_ _ : Picture ε) : Prop := True

theorem flow_any : Flow (Any : Picture ε → Picture ε → Prop) :=
  ⟨fun _ => trivial, fun _ _ => trivial⟩

theorem flow_preserving (I : Picture ε → Prop) : Flow (Preserving I) :=
  ⟨fun _ holds => holds, fun first second holds => second (first holds)⟩

/-- A part of a procedure beside which nobody does anything. -/
theorem Flow.alone {N : Picture ε → Picture ε → Prop} (flow : Flow N) : Room Eq Any N N :=
  ⟨flow.fits, flow_any, fun p _ same => same ▸ flow.refl p, fun _ _ _ => trivial⟩

end Picture

open Picture

namespace World

variable {ε : Type} {crew : Crew} {w w' : World ε} {p q : Picture ε} {P Q : Picture ε → Prop}

structure Shows (crew : Crew) (w : World ε) (p : Picture ε) : Prop where
  staffs : w.cluster.Staffs crew.who p.nodes
  strangers {a : Address} : a ∉ crew.who.members → p.nodes a = crew.strangers a
  view : w.cluster.view = crew.view
  endpoints : w.cluster.endpoints = crew.endpoints
  errands : w.cluster.errands = p.errands
  outside : w.outside = p.outside

theorem Shows.unique (hp : w.Shows crew p) (hq : w.Shows crew q) : p = q := by
  obtain ⟨nodes, errands, outside⟩ := p
  obtain ⟨nodes', errands', outside'⟩ := q
  have same : nodes = nodes' := by
    funext a
    by_cases mem : a ∈ crew.who.members
    · exact Option.some.inj ((hp.staffs.node mem).symm.trans (hq.staffs.node mem))
    · exact (hp.strangers mem).trans (hq.strangers mem).symm
  subst same
  obtain rfl : errands = errands' := hp.errands.symm.trans hq.errands
  obtain rfl : outside = outside' := hp.outside.symm.trans hq.outside
  rfl

def Has (crew : Crew) (P : Picture ε → Prop) (w : World ε) : Prop := ∃ p, w.Shows crew p ∧ P p

def Steps (crew : Crew) (N : Picture ε → Picture ε → Prop) (w w' : World ε) : Prop :=
  ∀ p, w.Shows crew p → ∃ q, w'.Shows crew q ∧ N p q

theorem Has.mono (h : w.Has crew P) (weaker : ∀ p, P p → Q p) : w.Has crew Q := by
  obtain ⟨p, shows_, holds⟩ := h
  exact ⟨p, shows_, weaker p holds⟩

theorem steps_of_shows {N : Picture ε → Picture ε → Prop} (before : w.Shows crew p)
    (after : w'.Shows crew q) (step : N p q) : Steps crew N w w' :=
  fun _ shows_ => ⟨q, after, shows_.unique before ▸ step⟩

theorem Steps.mono {N M : Picture ε → Picture ε → Prop} (h : Steps crew N w w')
    (more : ∀ p q, N p q → M p q) : Steps crew M w w' := by
  intro p shows_
  obtain ⟨q, shows', step⟩ := h p shows_
  exact ⟨q, shows', more p q step⟩

theorem Has.step {N : Picture ε → Picture ε → Prop} (h : w.Has crew P)
    (step : Steps crew N w w') : w'.Has crew fun q => ∃ p, P p ∧ N p q := by
  obtain ⟨p, shows_, holds⟩ := h
  obtain ⟨q, shows', moved⟩ := step p shows_
  exact ⟨q, shows', p, holds, moved⟩

theorem stable_has {E : Picture ε → Picture ε → Prop} (stable : ∀ p q, E p q → P p → P q) :
    Stable (Steps crew E) (Has crew P) := by
  intro w w' step h
  refine (h.step step).mono ?_
  rintro q ⟨p, holds, moved⟩
  exact stable p q moved holds

theorem drift_steps (crew : Crew) {N : Picture ε → Picture ε → Prop} (flow : Flow N) :
    Paced.Drift (Steps crew N) where
  refl _ p shows_ := ⟨p, shows_, flow.refl p⟩
  trans first second p shows_ := by
    obtain ⟨q, shows', step⟩ := first p shows_
    obtain ⟨r, shows'', step'⟩ := second q shows'
    exact ⟨r, shows'', flow.trans step step'⟩
  credit _ _ p shows_ := ⟨p, ⟨shows_.staffs, shows_.strangers, shows_.view, shows_.endpoints,
    shows_.errands, shows_.outside⟩, flow.refl p⟩

theorem Shows.congr (h : w.Shows crew p) {f : Cluster → Cluster}
    (apart : ((f w.cluster).view, (f w.cluster).endpoints, (f w.cluster).nodes,
      (f w.cluster).errands) =
      (w.cluster.view, w.cluster.endpoints, w.cluster.nodes, w.cluster.errands)) :
    World.Shows crew { w with cluster := f w.cluster } p := by
  simp only [Prod.mk.injEq] at apart
  obtain ⟨view, endpoints, nodes, errands⟩ := apart
  have members : (f w.cluster).members = w.cluster.members := by
    rw [Cluster.members, view, Cluster.members]
  exact ⟨⟨members.trans h.staffs.members_eq, h.staffs.nodup,
    fun ha => by rw [view, endpoints]; exact h.staffs.endpoint ha,
    fun ha => by rw [nodes]; exact h.staffs.named ha,
    fun ha => by rw [nodes]; exact h.staffs.node ha, h.staffs.address⟩, h.strangers,
    view.trans h.view, endpoints.trans h.endpoints, errands.trans h.errands, h.outside⟩

theorem shows_crew {c : Cluster} {who : Census} {nodes : Address → Node}
    (staffs : c.Staffs who nodes) (outside : ε) :
    World.Shows (c.crew who nodes) { cluster := c, outside } ⟨nodes, c.errands, outside⟩ :=
  ⟨staffs, fun _ => rfl, rfl, rfl, rfl, rfl⟩

theorem Shows.withNode (h : w.Shows crew p) {a : Address} (mem : a ∈ crew.who.members)
    {f : Node → Node} (address : (f (p.nodes a)).address = (p.nodes a).address) :
    World.Shows crew { w with cluster := w.cluster.updateNode (crew.who.serial a) f }
      (p.withNode a (f (p.nodes a))) := by
  refine ⟨h.staffs.updateNode mem (address.trans (h.staffs.address mem)), ?_, h.view,
    h.endpoints, h.errands, h.outside⟩
  intro b other
  have : b ≠ a := fun same => other (same ▸ mem)
  exact (Function.update_of_ne this _ _).trans (h.strangers other)

theorem Shows.noting (h : w.Shows crew p) (outside : ε) :
    World.Shows crew { w with outside } { p with outside } :=
  ⟨h.staffs, h.strangers, h.view, h.endpoints, h.errands, rfl⟩

end World

open World

/-- A procedure beside which nobody does anything ends as it promises. -/
theorem Procedure.Abides.run_alone {ε α : Type} {crew : Crew}
    {N : Picture ε → Picture ε → Prop} {p : Procedure (World ε) α} {now : Nat} {w : World ε}
    {Q : World ε → α → Prop} (h : p.Abides (Steps crew Eq) (Steps crew N) now w Q) (start : Nat) :
    Q ((p now w).run start).2.1 ((p now w).run start).2.2 :=
  Task.Abides.run (drift_steps _ flow_eq).credit h start

/-! ## Steps of a procedure -/

section

variable {ε : Type} {around : Surroundings ε} {crew : Crew} {w : World ε} {now : Nat}
variable {E N : Picture ε → Picture ε → Prop} {I P Q : Picture ε → Prop}
variable {sender target : Address} {targets : List Address} {command : Command}
  {timeout : Duration}

theorem World.abides_modify_other (mine : Flow N) {f : Cluster → Cluster} (h : w.Has crew P)
    (apart : ∀ c, ((f c).view, (f c).endpoints, (f c).nodes, (f c).errands) =
      (c.view, c.endpoints, c.nodes, c.errands)) :
    (World.modify f : Procedure (World ε) Unit).Abides (Steps crew E) (Steps crew N) now w
      fun w' _ => w'.Has crew P := by
  obtain ⟨p, shows_, holds⟩ := h
  have after := shows_.congr (f := f) (apart w.cluster)
  exact (Procedure.ends_modify
    ⟨steps_of_shows shows_ after (mine.refl p), p, after, holds⟩).abides

theorem World.abides_modifyNode {a : Address} {f : Node → Node} (mem : a ∈ crew.who.members)
    (h : w.Has crew P) (address : ∀ n : Node, (f n).address = n.address)
    (step : ∀ p, P p → N p (p.withNode a (f (p.nodes a))) ∧ Q (p.withNode a (f (p.nodes a)))) :
    (modifyNode (crew.who.serial a) f : Procedure (World ε) Unit).Abides (Steps crew E)
      (Steps crew N) now w fun w' _ => w'.Has crew Q := by
  obtain ⟨p, shows_, holds⟩ := h
  obtain ⟨moved, holds'⟩ := step p holds
  have after := shows_.withNode mem (f := f) (address _)
  exact (Procedure.ends_modify ⟨steps_of_shows shows_ after moved, _, after, holds'⟩).abides

theorem World.abides_readNode {α : Type} {a : Address} {f : Node → α} (mine : Flow N)
    (mem : a ∈ crew.who.members) (h : w.Has crew P) :
    (readNode (crew.who.serial a) f : Procedure (World ε) (Option α)).Abides (Steps crew E)
      (Steps crew N) now w fun w' r =>
        ∃ v, r = some v ∧ w'.Has crew fun p => P p ∧ v = f (p.nodes a) := by
  obtain ⟨p, shows_, holds⟩ := h
  exact (Procedure.ends_read ⟨(drift_steps _ mine).refl w, f (p.nodes a),
    congrArg (Option.map f) (shows_.staffs.node mem), p, shows_, holds, rfl⟩).abides

theorem underway_abides (fits : Fits E N) {e : Serial} {time : Duration} :
    (underway e time : Procedure (World ε) Unit).Abides (Steps crew E) (Steps crew N) now w
      fun w' _ => Steps crew E w w' := by
  have mine := drift_steps crew fits.mine
  have theirs := drift_steps crew fits.theirs
  have seen {w w' : World ε} (h : ∀ p, w.Shows crew p → w'.Shows crew p)
      {M : Picture ε → Picture ε → Prop} (flow : Flow M) : Steps crew M w w' :=
    fun p shows_ => ⟨p, h p shows_, flow.refl p⟩
  have apart (f : List Serial → List Serial) (w : World ε) (p : Picture ε)
      (shows_ : w.Shows crew p) :
      World.Shows crew { w with cluster.approached := f w.cluster.approached } p :=
    shows_.congr (f := fun c => { c with approached := f c.approached }) rfl
  refine (Procedure.Ends.abides (Q := fun w' _ => Steps crew E w w')
    (Procedure.ends_modify ⟨seen (apart _ w) fits.mine, seen (apart _ w) fits.theirs⟩)).bind mine ?_
  intro now' w' _ begun
  refine Procedure.Abides.ensuring mine (fun w => seen (apart (·.erase e) w) fits.mine) ?_
  refine (Procedure.abides_sleep theirs mine _).mono fun w'' _ waited => ?_
  exact theirs.trans begun (theirs.trans waited (seen (apart (·.erase e) w'') fits.theirs))

theorem deliver_abides {T : Picture ε → Reply → Prop} (h : w.Has crew I)
    (mem : target ∈ crew.who.members) {e : Serial}
    (listed : crew.view.lookup target = some e)
    (handled : ∀ p, I p → N p (p.answered around now sender command target) ∧
      T (p.answered around now sender command target) ((p.nodes target).handle command).2) :
    (deliver around sender command target e).Abides (Steps crew E) (Steps crew N) now w
      fun w' reply => w'.Has crew (T · reply) := by
  obtain ⟨p, shows_, holds⟩ := h
  have answer := shows_.staffs.answer_eq mem (shows_.view ▸ listed) command
  obtain ⟨moved, said⟩ := handled p holds
  have run : deliver around sender command target e now w = .done
      { w with
        cluster := w.cluster.updateNode (crew.who.serial target) fun _ =>
          ((p.nodes target).handle command).1
        outside := around.noteAnswer now
          { target, sender, kind := command.kind, reply := ((p.nodes target).handle command).2 }
          p.outside }
      ((p.nodes target).handle command).2 := by
    simp only [deliver, answer, shows_.outside]
  have after := (shows_.withNode mem (f := fun _ => ((p.nodes target).handle command).1)
    (Node.handle_address _ _)).noting (around.noteAnswer now
      { target, sender, kind := command.kind, reply := ((p.nodes target).handle command).2 }
      p.outside)
  exact Procedure.Ends.abides ⟨_, _, run, steps_of_shows shows_ after moved, _, after, said⟩

/-- What is known before a procedure waits is known afterwards, if what others do
preserves it. -/
theorem World.Has.along (h : w.Has crew I) (stable : ∀ p q, E p q → I p → I q) {w' : World ε}
    (since : Steps crew E w w') : w'.Has crew I :=
  stable_has stable _ _ since h

/-- A command arrives or does not; what an answer says is true. -/
theorem transmit_abides (fits : Fits E N) {T : Picture ε → Reply → Prop} (h : w.Has crew I)
    (stable : ∀ p q, E p q → I p → I q)
    (handled : target ∈ crew.who.members → ∀ now p, I p →
      N p (p.answered around now sender command target) ∧
        T (p.answered around now sender command target) ((p.nodes target).handle command).2) :
    (transmit around sender command timeout target).Abides (Steps crew E) (Steps crew N) now w
      fun w' r => ∀ reply, r = .ok reply → w'.Has crew (T · reply) := by
  have mine := drift_steps crew fits.mine
  have theirs := drift_steps crew fits.theirs
  obtain ⟨p, shows_, -⟩ := id h
  refine (Procedure.Ends.abides (Q := fun w' r => w' = w ∧ r = w.cluster.route? target command.kind)
    (Procedure.ends_read ⟨mine.refl w, rfl, rfl⟩)).bind mine ?_
  rintro now' w' r ⟨rfl, rfl⟩
  cases route : w'.cluster.route? target command.kind with
  | none => exact Procedure.abides_pure mine fun _ failed => by cases failed
  | some way =>
    obtain ⟨e, fault⟩ := way
    rw [Cluster.route?, Option.map_eq_some_iff] at route
    obtain ⟨e', reach, same⟩ := route
    obtain rfl : e' = e := congrArg Prod.fst same
    have mem : target ∈ crew.who.members := by
      by_contra absent
      rw [shows_.staffs.lists.unreachable absent] at reach
      cases reach
    have listed : crew.view.lookup target = some e' := by
      rw [Cluster.reach?, Option.filter_eq_some_iff] at reach
      exact shows_.view ▸ reach.1
    have answered (w : World ε) (h : w.Has crew I) (now : Nat) :
        (do return .ok (← deliver around sender command target e') :
          Procedure (World ε) (Except TransportError Reply)).Abides (Steps crew E) (Steps crew N)
            now w fun w' r => ∀ reply, r = .ok reply → w'.Has crew (T · reply) := by
      refine (deliver_abides h mem listed (handled mem now)).bind mine fun now' w' reply said => ?_
      refine Procedure.abides_pure mine fun reply' same => ?_
      obtain rfl : reply = reply' := Except.ok.inj same
      exact said
    show (if _ then _ else _ : Procedure (World ε) (Except TransportError Reply)).Abides _ _ _ _ _
    split
    · refine (underway_abides fits).bind mine fun now' w' _ _ => ?_
      exact Procedure.abides_pure mine fun _ failed => by cases failed
    · cases fault.delay with
      | none => exact answered w' h now'
      | some delay =>
        exact (underway_abides fits).bind mine fun now' w' _ since =>
          answered w' (h.along stable since) now'

end

section

variable {ε : Type} {around : Surroundings ε} {crew : Crew} {w : World ε} {now : Nat}
variable {E₀ N₀ E N : Picture ε → Picture ε → Prop} {I P : Picture ε → Prop}
variable {sender target : Address} {targets : List Address} {command : Command}
  {timeout : Duration}

theorem Procedure.Abides.inside {α : Type} {p : Procedure (World ε) α} {Q : World ε → α → Prop}
    (room : Room E₀ N₀ E N) (h : p.Abides (Steps crew E) (Steps crew N) now w Q) :
    p.Abides (Steps crew E₀) (Steps crew N₀) now w Q :=
  h.relax (fun _ _ step => step.mono room.fewer) fun _ _ step => step.mono room.more

/-- When `sending` is sent, what goes on beside comes from `P` to `I`, and it is
among what a procedure is said to do itself. -/
def Surroundings.Minds (around : Surroundings ε) (crew : Crew)
    (E N : Picture ε → Picture ε → Prop) (sending : Sending) (P I : Picture ε → Prop) : Prop :=
  ∀ now w, w.Has crew P → (around.atSend sending).Abides (Steps crew E) (Steps crew N) now w
    fun w' _ => w'.Has crew I

/-- What has come from a member is from it, and true if it is an answer. -/
def World.Hears (crew : Crew) (T : Address → Picture ε → Reply → Prop) (w : World ε) (a : Address)
    (r : Response) : Prop :=
  r.1 = a ∧ ∀ reply, r.2 = .ok reply → w.Has crew (T a · reply)

/-- A command to several members: every answer that comes back is true, also when
all of them are there. -/
theorem send_abides (room : Room E₀ N₀ E N) {T : Address → Picture ε → Reply → Prop}
    (minds : around.Minds crew E₀ N₀ { sender, targets, command } P I) (h : w.Has crew P)
    (stable : ∀ p q, E p q → I p → I q)
    (handled : ∀ target ∈ targets, target ∈ crew.who.members → ∀ now p, I p →
      N p (p.answered around now sender command target) ∧
        T target (p.answered around now sender command target)
          ((p.nodes target).handle command).2)
    (lasts : ∀ a reply p q, E p q → T a p reply → T a q reply) :
    (send around sender targets command timeout).Abides (Steps crew E₀) (Steps crew N₀) now w
      fun w' rs => w'.Has crew I ∧ List.Forall₂ (World.Hears crew T w') targets rs := by
  have mine := drift_steps crew room.fits.mine
  have theirs := drift_steps crew room.fits.theirs
  have part (w w' : World ε) (step : Steps crew N w w') : Steps crew E w w' :=
    step.mono room.fits.part
  refine (minds now w h).bind (drift_steps _ room.mine) fun now' w' _ h' => ?_
  have lasting (a : Address) (r : Response) :
      Stable (Steps crew E) fun w => World.Hears crew T w a r :=
    fun _ _ step holds =>
      ⟨holds.1, fun reply ok => (holds.2 reply ok).along (lasts a reply) step⟩
  have each : (Procedure.all (targets.map fun target => do
      return (target, ← transmit around sender command timeout target))).Abides
      (Steps crew E) (Steps crew N) now' w' fun w'' rs =>
        List.Forall₂ (World.Hears crew T w'') targets rs := by
    refine Procedure.abides_all theirs mine part lasting targets fun target listed w'' since => ?_
    refine (transmit_abides room.fits (h'.along stable since) stable
      (handled target listed)).bind mine fun now'' w₃ r heard => ?_
    exact Procedure.abides_pure mine ⟨rfl, heard⟩
  refine ((each.along theirs part).mono fun w'' rs all => ?_).inside room
  exact ⟨h'.along stable all.1, all.2⟩

theorem sendTo_abides (room : Room E₀ N₀ E N) {T : Picture ε → Reply → Prop}
    (minds : around.Minds crew E₀ N₀ { sender, targets := [target], command } P I)
    (h : w.Has crew P) (stable : ∀ p q, E p q → I p → I q)
    (handled : target ∈ crew.who.members → ∀ now p, I p →
      N p (p.answered around now sender command target) ∧
        T (p.answered around now sender command target) ((p.nodes target).handle command).2)
    (lasts : ∀ reply p q, E p q → T p reply → T q reply) :
    (sendTo around sender target command timeout).Abides (Steps crew E₀) (Steps crew N₀) now w
      fun w' r => w'.Has crew I ∧ ∀ reply, r = .ok reply → w'.Has crew (T · reply) := by
  have mine := drift_steps crew room.mine
  refine (send_abides room (T := fun _ => T) minds h stable (fun a listed => ?_)
    fun _ => lasts).bind mine fun now' w' rs came => ?_
  · obtain rfl : a = target := List.mem_singleton.mp listed
    exact handled
  · obtain ⟨holds, all⟩ := came
    cases all with
    | cons said rest =>
      cases rest
      exact Procedure.abides_pure mine ⟨holds, said.2⟩

/-- A command to everyone else, whose answers do not matter. -/
theorem broadcast_abides (room : Room E₀ N₀ E N)
    (minds : around.Minds crew E₀ N₀
      { sender, targets := crew.who.members.filter (· != sender), command } P I)
    (h : w.Has crew P) (stable : ∀ p q, E p q → I p → I q)
    (handled : ∀ target ∈ crew.who.members, target ≠ sender → ∀ now p, I p →
      N p (p.answered around now sender command target)) :
    (broadcast around sender command timeout false).Abides (Steps crew E₀) (Steps crew N₀) now w
      fun w' _ => w'.Has crew I := by
  have mine := drift_steps crew room.mine
  obtain ⟨p, shows_, -⟩ := id h
  refine (Procedure.Ends.abides (Q := fun w' r => w' = w ∧
      r = crew.who.members.filter (· != sender))
    (Procedure.ends_read ⟨mine.refl w, rfl,
      congrArg (List.filter (· != sender)) shows_.staffs.members_eq⟩)).bind mine ?_
  rintro now' w' targets ⟨rfl, rfl⟩
  refine (send_abides room (T := fun _ _ _ => True) minds h stable
    (fun a listed mem now p holds => ⟨handled a mem ?_ now p holds, trivial⟩)
    fun _ _ _ _ _ _ => trivial).bind mine fun now'' w'' rs came => ?_
  · simpa using (List.mem_filter.mp listed).2
  · exact Procedure.abides_pure mine came.1

end

end SlotRing
