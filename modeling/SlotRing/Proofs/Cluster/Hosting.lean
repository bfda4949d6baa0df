/-
# Members that can be reached

`c.Hosts who nodes` is the picture of a cluster in which nothing goes wrong:
the members are registered, each of them is answered for by a node of its own,
and no command is lost or held back.  Then a command is a call: the target's
node handles it and answers, no other node changes, and no time passes
(`sendTo_ends`, `broadcast_keeps`).

What goes on beside a procedure comes in through `Leads`: what the surroundings
make of the nodes, and of what they keep for themselves, when a command is sent.
Where they may have to wait, `Allows` says the same and what holds meanwhile.
-/
import Mathlib.Logic.Function.Basic
import SlotRing.Cluster.Sending
import SlotRing.Proofs.Time.Waiting

namespace SlotRing

/-- What a cluster has on its books: who is registered, under which number the
node of each member is known, and which errands rehashes have left, if that is
known. -/
structure Census where
  members : List Address
  serial : Address → Serial
  errands : Option (List Errand)

def Census.leaving (who : Census) (errands : List Errand) : Census :=
  { who with errands := who.errands.map (· ++ errands) }

theorem Census.leaving_nil (who : Census) : who.leaving [] = who := by
  obtain ⟨members, serial, errands⟩ := who
  cases errands with
  | none => rfl
  | some errands => simp [leaving]

theorem Census.leaving_of_uncounted {who : Census} (uncounted : who.errands = none)
    (errands : List Errand) : who.leaving errands = who := by
  rw [Census.leaving, uncounted]
  exact congrArg (fun e => { who with errands := e }) uncounted.symm

theorem Census.leaving_leaving (who : Census) (errands more : List Errand) :
    (who.leaving errands).leaving more = who.leaving (errands ++ more) := by
  simp [leaving, Function.comp_def]

/-- The cluster has exactly these members, and under the name of each of them there is a
node that goes by it. -/
structure Cluster.Lists (c : Cluster) (who : Census) (nodes : Address → Node) : Prop where
  members_eq : c.members = who.members
  nodup : who.members.Nodup
  named {a : Address} : a ∈ who.members → c.nodes.serial? a = some (who.serial a)
  node {a : Address} : a ∈ who.members → c.nodes.get? (who.serial a) = some (nodes a)
  address {a : Address} : a ∈ who.members → (nodes a).address = a

namespace Cluster.Lists

variable {c : Cluster} {who : Census} {nodes : Address → Node}

theorem serial_inj (h : c.Lists who nodes) {a b : Address} (ha : a ∈ who.members)
    (hb : b ∈ who.members) (same : who.serial a = who.serial b) : a = b := by
  have := h.node hb
  rw [← same, h.node ha] at this
  rw [← h.address ha, Option.some.inj this, h.address hb]

theorem updateNode (h : c.Lists who nodes) {a : Address} (ha : a ∈ who.members)
    {f : Node → Node} (address : (f (nodes a)).address = a) :
    (c.updateNode (who.serial a) f).Lists who (Function.update nodes a (f (nodes a))) where
  members_eq := h.members_eq
  nodup := h.nodup
  named := h.named
  node {b} hb := by
    by_cases same : b = a
    · subst same
      rw [Function.update_self]
      exact (Roster.get?_update_self _ _ _).trans (by rw [h.node hb]; rfl)
    · rw [Function.update_of_ne same]
      exact (Roster.get?_update_of_ne _ (fun eq => same (h.serial_inj ha hb eq).symm) _).trans
        (h.node hb)
  address {b} hb := by
    by_cases same : b = a
    · subst same
      rw [Function.update_self]
      exact address
    · rw [Function.update_of_ne same]
      exact h.address hb

theorem lookup_eq_none (h : c.Lists who nodes) {a : Address} (absent : a ∉ who.members) :
    c.view.lookup a = none := by
  rw [List.lookup_eq_none_iff]
  intro entry he
  have : entry.1 ∈ who.members := h.members_eq ▸ List.mem_map_of_mem he
  simpa using fun same : a = entry.1 => absent (same ▸ this)

theorem unreachable (h : c.Lists who nodes) {a : Address} (absent : a ∉ who.members) :
    c.reach? a = none := by
  rw [reach?, h.lookup_eq_none absent]
  rfl

theorem find? (h : c.Lists who nodes) {a : Address} (ha : a ∈ who.members) :
    c.nodes.find? a = some (nodes a) := by
  rw [Roster.find?, h.named ha]
  exact h.node ha

end Cluster.Lists

/-- The cluster has exactly these members, each of them is answered for by its
node, and nothing happens to commands on their way. -/
structure Cluster.Hosts (c : Cluster) (who : Census) (nodes : Address → Node) : Prop where
  members_eq : c.members = who.members
  nodup : who.members.Nodup
  faultless (a : Address) (kind : CommandKind) : c.faults.between a kind = {}
  reached {a : Address} : a ∈ who.members →
    ∃ e, c.reach? a = some e ∧ c.endpoints.get? e = some { node := some (who.serial a) }
  named {a : Address} : a ∈ who.members → c.nodes.serial? a = some (who.serial a)
  node {a : Address} : a ∈ who.members → c.nodes.get? (who.serial a) = some (nodes a)
  address {a : Address} : a ∈ who.members → (nodes a).address = a
  errands_eq {errands : List Errand} : who.errands = some errands → c.errands = errands

theorem Node.handle_address (n : Node) (command : Command) :
    (n.handle command).1.address = n.address := by
  cases command <;> simp only [Node.handle, Node.install, Node.invalidate, Node.acceptWrite]
  split <;> rfl

namespace Cluster.Hosts

variable {c : Cluster} {who : Census} {nodes nodes' : Address → Node}

theorem congr (h : c.Hosts who nodes) (same : ∀ a ∈ who.members, nodes' a = nodes a) :
    c.Hosts who nodes' where
  members_eq := h.members_eq
  nodup := h.nodup
  faultless := h.faultless
  reached := h.reached
  named := h.named
  node ha := (same _ ha).symm ▸ h.node ha
  address ha := (same _ ha).symm ▸ h.address ha
  errands_eq := h.errands_eq

theorem counted (h : c.Hosts who nodes) :
    c.Hosts { who with errands := some c.errands } nodes :=
  ⟨h.members_eq, h.nodup, h.faultless, h.reached, h.named, h.node, h.address, Option.some.inj⟩

theorem uncounted (h : c.Hosts who nodes) : c.Hosts { who with errands := none } nodes :=
  ⟨h.members_eq, h.nodup, h.faultless, h.reached, h.named, h.node, h.address, nofun⟩

theorem lists (h : c.Hosts who nodes) : c.Lists who nodes :=
  ⟨h.members_eq, h.nodup, h.named, h.node, h.address⟩

theorem updateNode (h : c.Hosts who nodes) {a : Address} (ha : a ∈ who.members)
    {f : Node → Node} (address : (f (nodes a)).address = a) :
    (c.updateNode (who.serial a) f).Hosts who (Function.update nodes a (f (nodes a))) where
  members_eq := h.members_eq
  nodup := h.nodup
  faultless := h.faultless
  reached := h.reached
  named := h.named
  node := (h.lists.updateNode ha address).node
  address := (h.lists.updateNode ha address).address
  errands_eq := h.errands_eq

theorem find? (h : c.Hosts who nodes) {a : Address} (ha : a ∈ who.members) :
    c.nodes.find? a = some (nodes a) :=
  h.lists.find? ha

end Cluster.Hosts

/-! ## The state that procedures share -/

namespace World

variable {ε : Type}

/-- The cluster hosts the members with nodes which, together with what the
surroundings keep, have a property. -/
def Holds (who : Census) (P : (Address → Node) → ε → Prop) (w : World ε) : Prop :=
  ∃ nodes, w.cluster.Hosts who nodes ∧ P nodes w.outside

section

variable {who : Census} {P Q : (Address → Node) → ε → Prop} {w : World ε} {now : Nat}

theorem Holds.mono (h : w.Holds who P) (weaker : ∀ nodes o, P nodes o → Q nodes o) :
    w.Holds who Q := by
  obtain ⟨nodes, hosts, holds⟩ := h
  exact ⟨nodes, hosts, weaker nodes _ holds⟩

theorem ends_modify_other {f : Cluster → Cluster} (h : w.Holds who P)
    (apart : ∀ c nodes, c.Hosts who nodes → (f c).Hosts who nodes) :
    (World.modify f : Procedure (World ε) Unit).Ends now w fun w' _ => w'.Holds who P := by
  obtain ⟨nodes, hosts, holds⟩ := h
  exact Procedure.ends_modify ⟨nodes, apart _ _ hosts, holds⟩

theorem ends_modifyNode {a : Address} {f : Node → Node} (ha : a ∈ who.members)
    (h : w.Holds who fun nodes o =>
      (f (nodes a)).address = (nodes a).address ∧ P (Function.update nodes a (f (nodes a))) o) :
    (modifyNode (who.serial a) f : Procedure (World ε) Unit).Ends now w
      fun w' _ => w'.Holds who P := by
  obtain ⟨nodes, hosts, address, holds⟩ := h
  exact Procedure.ends_modify
    ⟨_, hosts.updateNode ha (address.trans (hosts.address ha)), holds⟩

theorem ends_readNode {α : Type} {a : Address} {f : Node → α} (ha : a ∈ who.members)
    (h : w.Holds who P) :
    (readNode (who.serial a) f : Procedure (World ε) (Option α)).Ends now w fun w' r =>
      ∃ v, r = some v ∧ w'.Holds who fun nodes o => P nodes o ∧ v = f (nodes a) := by
  obtain ⟨nodes, hosts, holds⟩ := h
  exact Procedure.ends_read
    ⟨f (nodes a), congrArg (Option.map f) (hosts.node ha), nodes, hosts, holds, rfl⟩

end

end World

namespace Surroundings

variable {ε : Type}

/-- Answers leave no mark on what the surroundings keep. -/
def Silent (around : Surroundings ε) : Prop :=
  ∀ now answered outside, around.noteAnswer now answered outside = outside

theorem silent_quiet : (quiet : Surroundings ε).Silent := fun _ _ _ => rfl

/-- When `sending` is sent, what goes on beside leads from `P` to `Q`. -/
def Leads (around : Surroundings ε) (who : Census) (sending : Sending)
    (P Q : (Address → Node) → ε → Prop) : Prop :=
  ∀ now w, w.Holds who P → (around.atSend sending).Ends now w fun w' _ => w'.Holds who Q

theorem leads_quiet {who : Census} {sending : Sending} {P Q : (Address → Node) → ε → Prop}
    (h : ∀ nodes o, P nodes o → Q nodes o) : quiet.Leads who sending P Q :=
  fun _ _ holds => Procedure.ends_pure (holds.mono h)

/-- What is known of the members' addresses can be used. -/
theorem Leads.mono {around : Surroundings ε} {who : Census} {sending : Sending}
    {P Q R : (Address → Node) → ε → Prop} (h : around.Leads who sending P Q)
    (weaker : ∀ nodes o, (∀ a ∈ who.members, (nodes a).address = a) → Q nodes o → R nodes o) :
    around.Leads who sending P R := by
  intro now w holds
  refine (h now w holds).mono ?_
  rintro w' _ ⟨nodes, hosts, q⟩
  exact ⟨nodes, hosts, weaker nodes _ (fun _ => hosts.address) q⟩

/-- When `sending` is sent, what goes on beside comes from `P` to `Q`, and `J`
holds whenever it has to wait. -/
def Allows (around : Surroundings ε) (who : Census) (J : World ε → Prop) (sending : Sending)
    (P Q : (Address → Node) → ε → Prop) : Prop :=
  ∀ now w, w.Holds who P → (around.atSend sending).Keeps J now w fun w' _ => w'.Holds who Q

theorem Leads.allows {around : Surroundings ε} {who : Census} {J : World ε → Prop}
    {sending : Sending} {P Q : (Address → Node) → ε → Prop}
    (h : around.Leads who sending P Q) : around.Allows who J sending P Q :=
  fun now w holds => (h now w holds).keeps

end Surroundings

/-! ## Commands as calls -/

def heeding (command : Command) (targets : List Address) (nodes : Address → Node) :
    Address → Node :=
  fun a => if a ∈ targets then ((nodes a).handle command).1 else nodes a

theorem heeding_singleton (command : Command) (target : Address) (nodes : Address → Node) :
    heeding command [target] nodes =
      Function.update nodes target ((nodes target).handle command).1 := by
  funext a
  by_cases same : a = target
  · subst same
    rw [heeding, if_pos List.mem_cons_self, Function.update_self]
  · rw [heeding, if_neg (by simpa using same), Function.update_of_ne same]

section

variable {ε : Type} {around : Surroundings ε} {who : Census} {w : World ε} {now : Nat}
variable {P : (Address → Node) → ε → Prop} {J : World ε → Prop}
variable {sender target : Address} {targets : List Address} {command : Command}
  {timeout : Duration}

theorem deliver_ends (silent : around.Silent) {nodes : Address → Node}
    (hosts : w.cluster.Hosts who nodes) (mem : target ∈ who.members) {e : Serial}
    (endpoint : w.cluster.endpoints.get? e = some { node := some (who.serial target) }) :
    (deliver around sender command target e).Ends now w fun w' reply =>
      reply = ((nodes target).handle command).2 ∧ w'.outside = w.outside ∧
      w'.cluster.Hosts who
        (Function.update nodes target ((nodes target).handle command).1) := by
  have answer : w.cluster.answer e command =
      (w.cluster.updateNode (who.serial target) fun _ => ((nodes target).handle command).1,
        ((nodes target).handle command).2) := by
    simp only [Cluster.answer, endpoint, Option.getD_some, List.lookup_nil, Option.bind_some,
      hosts.node mem, Option.elim_some]
  have run : deliver around sender command target e now w = .done
      { w with
        cluster := w.cluster.updateNode (who.serial target) fun _ =>
          ((nodes target).handle command).1
        outside := around.noteAnswer now
          { target, sender, kind := command.kind, reply := ((nodes target).handle command).2 }
          w.outside }
      ((nodes target).handle command).2 := by
    simp only [deliver, answer]
  exact ⟨_, _, run, rfl, silent _ _ _,
    hosts.updateNode mem (f := fun _ => _)
      ((Node.handle_address _ _).trans (hosts.address mem))⟩

theorem transmit_ends (silent : around.Silent) (mem : target ∈ who.members)
    {Q : (Address → Node) → ε → Reply → Prop}
    (h : w.Holds who fun nodes o =>
      Q (Function.update nodes target ((nodes target).handle command).1) o
        ((nodes target).handle command).2) :
    (transmit around sender command timeout target).Ends now w fun w' r =>
      ∃ reply, r = .ok reply ∧ w'.Holds who fun nodes o => Q nodes o reply := by
  obtain ⟨nodes, hosts, holds⟩ := h
  obtain ⟨e, reach, endpoint⟩ := hosts.reached mem
  have route : w.cluster.route? target command.kind = some (e, {}) := by
    rw [Cluster.route?, reach, hosts.faultless]
    rfl
  refine (Procedure.ends_read (Q := fun w' r => w' = w ∧ r = some (e, {})) ⟨rfl, route⟩).bind ?_
  rintro w' r ⟨rfl, rfl⟩
  refine (deliver_ends silent hosts mem endpoint).bind ?_
  rintro w'' reply ⟨rfl, outside, hosts'⟩
  exact Procedure.ends_pure ⟨_, rfl, _, hosts', outside.symm ▸ holds⟩

theorem transmit_ends_unreachable (absent : target ∉ who.members) (h : w.Holds who P) :
    (transmit around sender command timeout target).Ends now w fun w' r =>
      r = .error (.unreachable target) ∧ w'.Holds who P := by
  have route : w.cluster.route? target command.kind = none := by
    obtain ⟨nodes, hosts, -⟩ := h
    rw [Cluster.route?, hosts.lists.unreachable absent]
    rfl
  refine (Procedure.ends_read (Q := fun w' r => w' = w ∧ r = none) ⟨rfl, route⟩).bind ?_
  rintro w' r ⟨rfl, rfl⟩
  exact Procedure.ends_pure ⟨rfl, h⟩

theorem heeding_cons (absent : target ∉ targets) (nodes : Address → Node) :
    heeding command (target :: targets) nodes =
      heeding command targets
        (Function.update nodes target ((nodes target).handle command).1) := by
  funext a
  by_cases same : a = target
  · subst same
    rw [heeding, heeding, if_pos List.mem_cons_self, if_neg absent, Function.update_self]
  · rw [heeding, heeding, Function.update_of_ne same]
    simp only [List.mem_cons, same, false_or]

theorem all_transmit_ends (silent : around.Silent) (mem : ∀ a ∈ targets, a ∈ who.members)
    (distinct : targets.Nodup) {Q : (Address → Node) → ε → List Response → Prop}
    (h : w.Holds who fun nodes o =>
      Q (heeding command targets nodes) o
        (targets.map fun a => (a, .ok ((nodes a).handle command).2))) :
    (Procedure.all (targets.map fun target => do
        return (target, ← transmit around sender command timeout target))).Ends now w
      fun w' rs => w'.Holds who fun nodes o => Q nodes o rs := by
  induction targets generalizing w Q with
  | nil => exact Procedure.ends_all_nil h
  | cons target targets ih =>
    obtain ⟨absent, distinct⟩ := List.nodup_cons.mp distinct
    refine Procedure.ends_all_cons (Q := fun w' (r : Response) => w'.Holds who fun nodes o =>
      Q (heeding command targets nodes) o
        (r :: targets.map fun a => (a, .ok ((nodes a).handle command).2))) ?_ ?_
    · refine (transmit_ends silent (mem _ List.mem_cons_self) (Q := fun nodes o reply =>
        Q (heeding command targets nodes) o ((target, .ok reply) ::
          targets.map fun a => (a, .ok ((nodes a).handle command).2))) ?_).bind ?_
      · refine h.mono fun nodes o holds => ?_
        have others : ∀ a ∈ targets,
            Function.update nodes target ((nodes target).handle command).1 a = nodes a :=
          fun a ha => Function.update_of_ne (fun same : a = target => absent (same ▸ ha)) _ _
        rw [heeding_cons absent, List.map_cons] at holds
        rw [List.map_congr_left fun a ha => by rw [others a ha]]
        exact holds
      · rintro w' r ⟨reply, rfl, holds⟩
        exact Procedure.ends_pure holds
    · exact fun w' r holds => ih (fun a ha => mem a (List.mem_cons_of_mem _ ha)) distinct holds

/-- A command to several members: the surroundings act, and then the nodes of
all targets handle the command. -/
theorem send_keeps (silent : around.Silent) (mem : ∀ a ∈ targets, a ∈ who.members)
    (distinct : targets.Nodup) {Q : (Address → Node) → ε → List Response → Prop}
    (acts : (around.atSend { sender, targets, command }).Keeps J now w fun w' _ =>
      w'.Holds who fun nodes o => Q (heeding command targets nodes) o
        (targets.map fun a => (a, .ok ((nodes a).handle command).2))) :
    (send around sender targets command timeout).Keeps J now w
      fun w' rs => w'.Holds who fun nodes o => Q nodes o rs :=
  acts.bind fun _ _ _ holds => (all_transmit_ends silent mem distinct holds).keeps

/-- A command to one member: the surroundings act, and then its node handles
the command and answers. -/
theorem sendTo_keeps (silent : around.Silent) (mem : target ∈ who.members)
    {Q : (Address → Node) → ε → Reply → Prop}
    (acts : (around.atSend { sender, targets := [target], command }).Keeps J now w fun w' _ =>
      w'.Holds who fun nodes o =>
        Q (heeding command [target] nodes) o ((nodes target).handle command).2) :
    (sendTo around sender target command timeout).Keeps J now w fun w' r =>
      ∃ reply, r = .ok reply ∧ w'.Holds who fun nodes o => Q nodes o reply := by
  refine (send_keeps silent (by simpa using mem) (List.pairwise_singleton _ _)
    (Q := fun nodes o rs => ∃ reply, rs = [(target, .ok reply)] ∧ Q nodes o reply)
    (acts.mono fun _ _ holds => holds.mono fun nodes o q => ⟨_, rfl, q⟩)).bind ?_
  rintro now' w' rs ⟨nodes, hosts, reply, rfl, q⟩
  exact Procedure.keeps_pure ⟨reply, rfl, nodes, hosts, q⟩

theorem sendTo_ends (silent : around.Silent) (mem : target ∈ who.members)
    {Q : (Address → Node) → ε → Reply → Prop} (h : w.Holds who P)
    (leads : around.Leads who { sender, targets := [target], command } P fun nodes o =>
      Q (heeding command [target] nodes) o ((nodes target).handle command).2) :
    (sendTo around sender target command timeout).Ends now w fun w' r =>
      ∃ reply, r = .ok reply ∧ w'.Holds who fun nodes o => Q nodes o reply :=
  Procedure.ends_iff_keeps.mpr (sendTo_keeps silent mem (leads now w h).keeps)

theorem sendTo_ends_unreachable (absent : target ∉ who.members)
    {Q : (Address → Node) → ε → Prop} (h : w.Holds who P)
    (leads : around.Leads who { sender, targets := [target], command } P Q) :
    (sendTo around sender target command timeout).Ends now w fun w' r =>
      r = .error (.unreachable target) ∧ w'.Holds who Q := by
  refine ((leads now w h).bind fun w' _ holds => Procedure.ends_all_cons
    (((transmit_ends_unreachable absent holds).bind (T := fun w' (r : Response) =>
      r = (target, .error (.unreachable target)) ∧ w'.Holds who Q) ?_)) (T := fun w' rs =>
      rs = [(target, .error (.unreachable target))] ∧ w'.Holds who Q) ?_).bind ?_
  · rintro w' r ⟨rfl, holds⟩
    exact Procedure.ends_pure ⟨rfl, holds⟩
  · rintro w' r ⟨rfl, holds⟩
    exact Procedure.ends_all_nil ⟨rfl, holds⟩
  · rintro w' rs ⟨rfl, holds⟩
    exact Procedure.ends_pure ⟨rfl, holds⟩

/-- A command to everyone else, whose answers do not matter. -/
theorem broadcast_keeps (silent : around.Silent) {Q : (Address → Node) → ε → Prop}
    (h : w.Holds who P)
    (allows : around.Allows who J
      { sender, targets := who.members.filter (· != sender), command } P fun nodes o =>
      Q (heeding command (who.members.filter (· != sender)) nodes) o) :
    (broadcast around sender command timeout false).Keeps J now w
      fun w' _ => w'.Holds who Q := by
  have members : w.cluster.members = who.members ∧ who.members.Nodup := by
    obtain ⟨nodes, hosts, -⟩ := h
    exact ⟨hosts.members_eq, hosts.nodup⟩
  refine (Procedure.ends_read (Q := fun w' r => w' = w ∧ r = who.members.filter (· != sender))
    ⟨rfl, congrArg (List.filter (· != sender)) members.1⟩).keeps.bind ?_
  rintro now' w' targets ⟨rfl, rfl⟩
  refine (send_keeps silent (fun a ha => (List.mem_filter.mp ha).1) (members.2.filter _)
    (Q := fun nodes o _ => Q nodes o) (allows now' w' h)).bind ?_
  intro now'' w'' rs holds
  exact Procedure.keeps_pure holds

end

end SlotRing
