/-
# A departure that completes

When a member has left, the survivors have their parts one after the other, and what they
leave to be told to former owners is told beside that, at any time.  Commands get lost or
are held back, and members may miss all announcements.  If every part completes all the
same, then all copies are there again (`completed_leave_restores_replication`).

One part is followed step by step on one key (`Legacy.run_hands`), all of them by
induction (`Legacy.runInTurn_hands`), and the errands go on aside
(`Legacy.errandsLeft_aside`); that the two sides get along with each other is
`Procedure.Abides.follow`.
-/
import SlotRing.Proofs.Cluster.Accounts
import SlotRing.Proofs.Rehash.Farewell
import SlotRing.Proofs.Rehash.Hindered
import SlotRing.Proofs.Rehash.Legacy
import SlotRing.Proofs.Rehash.LosslessLeave
import SlotRing.Proofs.Rehash.Relapse
import SlotRing.Proofs.Time.Interleaving

namespace SlotRing

open Picture World

namespace Legacy

/-- The members of the cluster are the survivors. -/
structure Concerns (l : Legacy) (crew : Crew) : Prop where
  members : crew.who.members = l.farewell.members
  serial : crew.who.serial = l.serial

/-- A survivor has handed over what it held of the key. -/
def Moved (l : Legacy) (x : Address) (smooth past : Prop) (p : Picture Diary) : Prop :=
  l.Standing smooth (past ∨ x ∈ l.owners) p ∧ (x ∈ l.owners → l.Begun p)

/-- What a row holds of the key has come to whom the row is for. -/
def Arrived (l : Legacy) (row : Address × List Entry) (p : Picture Diary) : Prop :=
  row.1 ∈ l.heirs → (∃ e ∈ row.2, e.key = l.key) → l.copy p row.1 = l.entry

section

variable {l : Legacy} (sound : l.farewell.Sound) {script : Nat → Sending → List Deed}
  (asks : ∀ i sending target command, .hand target command ∈ script i sending → command.Asks)
  {crew : Crew} {w : World Diary} {now : Nat} {plan : Rehash.Plan} {smooth past : Prop}
  {P : Picture Diary → Prop}

include sound asks in
/-- At any sending, what goes on beside goes on aside. -/
theorem minds {E N : Picture Diary → Picture Diary → Prop} (fits : Fits E N)
    (more : ∀ p q, l.Aside p q → N p q) (stable : ∀ p q, E p q → P p → P q) {sending : Sending}
    (sender : sending.sender ∈ crew.who.members) :
    (traffic script).Minds crew E N sending P P := by
  refine traffic_minds fits.room sender (fun p holds => ?_) stable
    fun i target command listed _ p _ => ?_
  · have step : l.Aside p (p.sending sending) := aside_of_same sound rfl rfl
    exact ⟨more _ _ step, stable _ _ (fits.part _ _ (more _ _ step)) holds⟩
  · exact more _ _
      (aside_of_same sound (Picture.handed_of_asks (asks i sending target command listed) p) rfl)

theorem Moved.aside {x : Address} {p q : Picture Diary} (came : l.Moved x smooth past p)
    (step : l.Aside p q) : l.Moved x smooth past q :=
  ⟨came.1.aside step, step.onward.begun ∘ came.2⟩

theorem room_aside (x : Address) : Room l.Aside (l.Handing x) l.Aside
    (l.Aside : Picture Diary → Picture Diary → Prop) :=
  ⟨flow_aside.fits, flow_handing x, fun _ _ => id, fun _ _ step => step.handing x⟩

theorem room_handing (x : Address) : Room l.Aside (l.Handing x) (l.Handing x)
    (l.Handing x : Picture Diary → Picture Diary → Prop) :=
  ⟨(flow_handing x).fits, flow_handing x, fun _ _ step => step.handing x, fun _ _ => id⟩

section

variable (self : plan.By crew.who)
include sound asks self

theorem announce_aside {mapping : MemberMapping} (lasting : ∀ p q, l.Aside p q → P p → P q)
    (h : w.Has crew P) :
    (Rehash.announce (traffic script) plan mapping).Abides (Steps crew l.Aside)
      (Steps crew (l.Handing plan.node)) now w fun w' _ => w'.Has crew P := by
  refine (Rehash.announce_abides flow_aside.fits.room self (A := P) h (fun p holds => ?_)
    (minds sound asks flow_aside.fits (fun _ _ => id) lasting self.mem) lasting
    fun target _ _ now p _ => ?_).inside (room_aside plan.node)
  · have step : l.Aside p (p.withNode plan.node ((p.nodes plan.node).install mapping)) :=
      aside_update sound rfl rfl (.install _ _)
    exact ⟨step, lasting _ _ step holds⟩
  · exact aside_update sound rfl rfl (.install _ _)

theorem settle_aside {new : MemberRing} (lasting : ∀ p q, l.Aside p q → P p → P q)
    (h : w.Has crew P) :
    (Rehash.settle (traffic script) plan new).Abides (Steps crew l.Aside)
      (Steps crew (l.Handing plan.node)) now w fun w' _ => w'.Has crew P := by
  have flow := flow_handing (l := l) (ε := Diary) plan.node
  unfold Rehash.settle
  exact (Rehash.enter_abides flow _ _ h).bind (drift_steps crew flow) fun now' w' _ h' =>
    announce_aside sound asks self lasting h'

variable (set : plan.settings = l.farewell.settings) (concerns : l.Concerns crew)
include set concerns

theorem push_hands (h : w.Has crew (l.Standing smooth past)) :
    (Rehash.pushState (traffic script) plan l.farewell.old l.farewell.new).Abides
      (Steps crew l.Aside) (Steps crew (l.Handing plan.node)) now w fun w' r =>
        (r = .ok () → w'.Has crew (l.Moved plan.node smooth past)) ∧
        ∀ cause, r = .error cause → w'.Has crew l.Orderly := by
  have mem : plan.node ∈ l.farewell.members := concerns.members ▸ self.mem
  have spec (held : List Entry) := Farewell.rows_gains sound (x := plan.node) rfl set held
  have fits := (flow_handing (l := l) (ε := Diary) plan.node).fits
  refine ((Rehash.pushState_abides fits self (I := l.Holding plan.node smooth past)
    (T := l.Arrived) h (fun p standing => set ▸ standing.holding sound mem)
    (fun held p q step holding => holding.handing step)
    (fun held row _ => minds sound asks fits (fun _ _ step => step.handing _)
      (fun p q step holding => holding.handing step) self.mem)
    (fun held row listed _ now p holding => ?_)
    fun row p q step there heir some => step.1.2 _ heir (there heir some)).inside
    (room_handing plan.node)).mono fun w' r came => ?_
  · have given (e : Entry) (he : e ∈ row.2) (own : e.key = l.key) :
        plan.node ∈ l.owners ∧ row.1 ∈ l.heirs ∧ l.entry = some e := by
      obtain ⟨there, heir, -⟩ := ((spec held).mem listed).mp he
      obtain ⟨owner, entry⟩ := holding.own there own
      rw [own] at heir
      exact ⟨owner, heir, entry⟩
    refine ⟨handing_takingOver sound rfl rfl given, fun heir some => ?_⟩
    show Store.get? (Function.update p.nodes row.1 _ row.1).store l.key = l.entry
    rw [Function.update_self]
    exact get?_takingOver (holding.orderly.tidy (mem_of_heir sound heir)).known
      (fun e he own => (given e he own).2.2) some
  · obtain ⟨held, here⟩ := came
    exact ⟨fun ok => here.mono fun p came => came.1.handed sound (spec held) (came.2 ok),
      fun _ _ => here.mono fun p came => came.1.orderly⟩

/-- State is moved, or the survivor goes back to the old ring. -/
theorem transfer_hands (h : w.Has crew (l.Standing smooth past)) :
    (Rehash.transfer (traffic script) plan l.farewell.old l.farewell.new
      (Rehash.pushState (traffic script) plan l.farewell.old l.farewell.new)).Abides
      (Steps crew l.Aside) (Steps crew (l.Handing plan.node)) now w fun w' r =>
        (r = .ok () → w'.Has crew (l.Moved plan.node smooth past)) ∧
        ∀ cause, r = .error cause → w'.Has crew l.Orderly := by
  have mem : plan.node ∈ l.farewell.members := concerns.members ▸ self.mem
  refine Rehash.transfer_abides (flow_handing plan.node) self (A := l.Standing smooth past)
    (U := l.Standing smooth past) h (fun p standing _ => standing.orderly)
    (fun p standing _ => ?_)
    (fun now w h => announce_aside sound asks self (fun _ _ step standing => standing.aside step) h)
    (fun now w h => push_hands sound asks self set concerns h) (fun p came => ?_)
    (fun now w h => ?_)
  · have step : l.Aside p (p.withNode plan.node
        (Rehash.logging l.farewell.old (p.nodes plan.node))) :=
      aside_update sound rfl rfl (.logging _ _)
    exact ⟨step.handing _, standing.aside step⟩
  · have step : l.Aside p (p.withNode plan.node (p.nodes plan.node).finishTransition) :=
      aside_update sound rfl rfl (.finishTransition _ (came.1.orderly.tidy mem).idle)
    exact ⟨step.handing _, came.1.aside step, step.onward.begun ∘ came.2⟩
  · have step (p : Picture Diary) : l.Aside p (p.withNode plan.node
        (p.nodes plan.node).abortTransition) := aside_update sound rfl rfl (.abortTransition _)
    have flow := flow_handing (l := l) (ε := Diary) plan.node
    unfold Rehash.abort
    refine Procedure.Abides.bind (drift_steps crew flow) (Q := fun w' _ => w'.Has crew l.Orderly)
      ?_ fun now' w' _ h' => announce_aside sound asks self (fun _ _ step => step.1) h'
    rw [self.self]
    exact World.abides_modifyNode self.mem h (fun _ => rfl) fun p orderly =>
      ⟨(step p).handing _, (step p).1 orderly⟩

theorem depart_hands (placed : plan.strategy = l.farewell.strategy)
    (h : w.Has crew (l.Standing smooth past)) :
    (Rehash.depart (traffic script) plan l.farewell.leaver l.farewell.old).Abides
      (Steps crew l.Aside) (Steps crew (l.Handing plan.node)) now w fun w' r => w'.Has crew
        (l.Standing (smooth ∧ ∃ ring, r = .ok ring) (past ∨ plan.node ∈ l.owners)) := by
  have mem : plan.node ∈ l.farewell.members := concerns.members ▸ self.mem
  have flow := flow_handing (l := l) (ε := Diary) plan.node
  have mine := drift_steps crew flow
  have only {new : MemberRing}
      (without : l.farewell.old.without plan.strategy l.farewell.leaver = .ok new) :
      new = l.farewell.new := by
    rw [placed, Farewell.without_eq sound] at without
    exact (Except.ok.inj without).symm
  refine Rehash.depart_abides flow (D := fun new p =>
      new = l.farewell.new ∧ l.Moved plan.node smooth past p)
    (T := fun r => l.Standing (smooth ∧ ∃ ring, r = .ok ring) (past ∨ plan.node ∈ l.owners)) h
    (fun cause p standing => ⟨standing.orderly, fun ⟨_, _, failed⟩ => nomatch failed⟩)
    (fun new _ disabled => ?_) (fun new without now w h => ?_) (fun new now w h => ?_)
  · rw [set, sound.enabled] at disabled
    cases disabled
  · obtain rfl := only without
    refine (transfer_hands sound asks self set concerns h).mono fun w' r came => ⟨fun ok => ?_,
      fun cause failed => (came.2 cause failed).mono fun p orderly => ⟨orderly, ?_⟩⟩
    · exact (came.1 ok).mono fun p here => ⟨rfl, here⟩
    · exact fun ⟨_, _, failed⟩ => nomatch failed
  · obtain ⟨p, shows_, rfl, came⟩ := h
    refine (settle_aside sound asks self (fun _ _ step came => came.aside step)
      ⟨p, shows_, came⟩).bind mine fun now₁ w₁ _ h₁ => ?_
    refine Procedure.Abides.bind mine
      (Q := fun w' _ => w'.Has crew (l.Moved plan.node smooth past)) ?_ fun now₂ w₂ _ h₂ => ?_
    · rw [self.self]
      refine World.abides_modifyNode self.mem h₁ (fun _ => rfl) fun p came => ?_
      have step := aside_dropUnowned sound (came.1.orderly.tidy mem) came.2
      exact ⟨step.handing _, came.aside step⟩
    · refine Rehash.leaveHints_abides flow h₂ fun p came errands left => ?_
      have step : l.Aside p { p with errands := p.errands ++ errands } := by
        refine aside_leaving sound fun e he => ?_
        rw [left, Rehash.hintsLeft] at he
        split at he
        · obtain rfl := List.mem_singleton.mp he
          exact ⟨rfl, plan.node, mem, self.self.trans (congrFun concerns.serial _), came.2⟩
        · cases he
      have standing := came.1.aside step
      exact ⟨step.handing _, standing.orderly, fun fine => standing.complete fine.1⟩

end

include sound asks in
theorem run_hands (concerns : l.Concerns crew) {x : Address} (mem : x ∈ l.farewell.members)
    {rehash : Serial} (h : w.Has crew (l.Standing smooth past)) :
    (Rehash.run (traffic script) rehash (l.serial x)
      (.leave l.farewell.leaver l.farewell.old)).Abides (Steps crew l.Aside)
      (Steps crew (l.Handing x)) now w fun w' r => w'.Has crew
        (l.Standing (smooth ∧ ∃ ring, r = .ok ring) (past ∨ x ∈ l.owners)) := by
  have took (p : Picture Diary) : l.Aside p (p.withNode x (Rehash.taken (p.nodes x))) :=
    aside_update sound rfl rfl (.taken _)
  have gave (p : Picture Diary) : l.Aside p (p.withNode x (Rehash.givenBack (p.nodes x))) :=
    aside_update sound rfl rfl (.givenBack _)
  rw [← concerns.serial]
  refine Rehash.run_abides (Q := l.Standing smooth past)
    (T := fun r => l.Standing (smooth ∧ ∃ ring, r = .ok ring) (past ∨ x ∈ l.owners))
    (concerns.members ▸ mem) (flow_handing x) l.farewell.settings l.farewell.strategy h
    (fun p standing => ⟨(standing.orderly.tidy mem).settings, (standing.orderly.tidy mem).strategy⟩)
    (fun p standing _ => ⟨standing.orderly, fun ⟨_, _, failed⟩ => nomatch failed⟩)
    (fun p standing _ => ⟨(took p).handing x, standing.aside (took p)⟩)
    (fun now w plan self node set placed h => ?_)
    (fun p standing => ⟨standing.orderly, fun ⟨_, _, failed⟩ => nomatch failed⟩)
    (fun p => (gave p).handing x)
    fun r p standing => standing.aside (gave p)
  subst node
  exact Rehash.carryOut_abides (flow_handing _) (depart_hands sound asks self set concerns placed h)

end

end Legacy

/-! ## One survivor after the other -/

namespace Rehash

variable {ε : Type}

def runInTurn (around : Surroundings ε) :
    List Prepared → Procedure (World ε) (List (Except RehashError MemberRing))
  | [] => return []
  | p :: rest => do
    let result ← (run around p.rehash p.node p.change).later
    return result :: (← runInTurn around rest)

/-- A member is taken out of the view, all parts are prepared, and then they are carried
out in turn. -/
def departureInTurn (around : Surroundings ε) (leaver : Address) (order : List Address) :
    Procedure (World ε) (List (Except RehashError MemberRing)) := do
  World.modify (·.unregister leaver)
  runInTurn around (← prepareAll leaver order)

def errandsLeft (around : Surroundings ε) (w : World ε) : List (Procedure (World ε) Unit) :=
  w.cluster.errands.zipIdx.map fun (errand, n) => runErrand around n errand

/-- What has come of such a departure, and of the errands beside it, when a schedule has
been followed. -/
def departureBeside (around : Surroundings ε) (leaver : Address) (order : List Address)
    (now : Nat) (w : World ε) (schedule : List (Nat × Pick)) :
    Ensemble (World ε) (List (Except RehashError MemberRing)) :=
  (Ensemble.of (departureInTurn around leaver order) now w).follow (errandsLeft around) schedule

theorem prepareAll_ends {crew : Crew} {p : Picture ε} {w : World ε} {now : Nat}
    {leaver : Address} {old : MemberRing} {order : List Address} (shows_ : w.Shows crew p)
    (mem : ∀ a ∈ order, a ∈ crew.who.members)
    (complete : ∀ a ∈ order, (p.nodes a).stableRing = old) :
    (prepareAll leaver order).Ends now w fun w' parts =>
      parts.map (fun p => (p.node, p.change)) =
        order.map (fun a => (crew.who.serial a, .leave leaver old)) ∧ w'.Shows crew p := by
  induction order generalizing w with
  | nil => exact Procedure.ends_pure ⟨rfl, shows_⟩
  | cons a order ih =>
    have found : ((w.cluster.nodes.serial? a).bind fun n =>
        (w.cluster.nodes.get? n).map (n, ·)) = some (crew.who.serial a, p.nodes a) := by
      rw [shows_.staffs.named (mem a List.mem_cons_self), Option.bind_some,
        shows_.staffs.node (mem a List.mem_cons_self)]
      rfl
    have first : (prepare (leaving leaver) a).Ends now w fun w' part =>
        part = some ⟨w.cluster.rehashes.next, crew.who.serial a, .leave leaver old⟩ ∧
          w'.Shows crew p := by
      refine Procedure.ends_change ?_
      rw [found, ← complete a List.mem_cons_self]
      exact ⟨rfl, shows_.congr (f := (·.addRehash a _)) rfl⟩
    refine first.bind ?_
    rintro w' _ ⟨rfl, shows'⟩
    refine (ih shows' (fun b hb => mem b (List.mem_cons_of_mem _ hb))
      fun b hb => complete b (List.mem_cons_of_mem _ hb)).bind ?_
    rintro w'' parts ⟨all, shows''⟩
    refine Procedure.ends_pure ⟨?_, shows''⟩
    rw [List.map_cons, List.map_cons, all]

end Rehash

theorem Cluster.Staffs.unregister {c : Cluster} {who : Census} {nodes : Address → Node}
    (h : c.Staffs who nodes) (a : Address) : (c.unregister a).Staffs (who.without a) nodes := by
  have mem {b : Address} (hb : b ∈ (who.without a).members) : b ∈ who.members ∧ b ≠ a := by
    rw [Census.without, List.mem_filter] at hb
    exact ⟨hb.1, by simpa using hb.2⟩
  refine ⟨?_, h.nodup.filter _, fun {b} hb => ?_, fun hb => h.named (mem hb).1,
    fun hb => h.node (mem hb).1, fun hb => h.address (mem hb).1⟩
  · show (c.view.filter _).map _ = _
    rw [Census.without, ← h.members_eq, members, List.filter_map]
    rfl
  · obtain ⟨e, listed, endpoint⟩ := h.endpoint (mem hb).1
    exact ⟨e, (lookup_filter_ne c.view (mem hb).2).trans listed, endpoint⟩

namespace Legacy

variable {l : Legacy} (sound : l.farewell.Sound) {script : Nat → Sending → List Deed}
  (asks : ∀ i sending target command, .hand target command ∈ script i sending → command.Asks)
  {crew : Crew} {w : World Diary} {now : Nat} {smooth past : Prop} (concerns : l.Concerns crew)
include sound asks concerns

theorem runInTurn_hands {todo : List Address} (mem : ∀ a ∈ todo, a ∈ l.farewell.members)
    {parts : List Rehash.Prepared} (listed : parts.map (fun p => (p.node, p.change)) =
      todo.map fun a => (l.serial a, .leave l.farewell.leaver l.farewell.old))
    (h : w.Has crew (l.Standing smooth past)) :
    (Rehash.runInTurn (traffic script) parts).Abides (Steps crew l.Aside)
      (Steps crew l.Onward) now w fun w' rs => w'.Has crew
        (l.Standing (smooth ∧ ∀ r ∈ rs, ∃ ring, r = .ok ring)
          (past ∨ ∃ a ∈ todo, a ∈ l.owners)) := by
  have mine := drift_steps crew (flow_onward (l := l) (ε := Diary))
  have theirs := drift_steps crew (flow_aside (l := l) (ε := Diary))
  induction todo generalizing parts now w smooth past with
  | nil =>
    obtain rfl : parts = [] := List.map_eq_nil_iff.mp listed
    exact Procedure.abides_pure mine (h.mono fun p standing => ⟨standing.orderly, fun fine some =>
      standing.complete fine.1 (some.imp id (·.resolve_right (by simp)))⟩)
  | cons x todo ih =>
    cases parts with
    | nil => cases listed
    | cons part parts =>
      rw [List.map_cons, List.map_cons, List.cons.injEq, Prod.mk.injEq] at listed
      obtain ⟨⟨node, change⟩, listed⟩ := listed
      rw [Rehash.runInTurn, node, change]
      have first : (Rehash.run (traffic script) part.rehash (l.serial x)
          (.leave l.farewell.leaver l.farewell.old)).later.Abides (Steps crew l.Aside)
          (Steps crew l.Onward) now w fun w' r => w'.Has crew
            (l.Standing (smooth ∧ ∃ ring, r = .ok ring) (past ∨ x ∈ l.owners)) := by
        refine Procedure.Abides.later mine fun now' w' since => ?_
        exact (run_hands sound asks concerns (mem x List.mem_cons_self)
          (h.along (fun _ _ step standing => standing.aside step) since)).relax
          (fun _ _ => id) fun _ _ step => step.mono fun _ _ => And.left
      refine first.bind mine fun now' w' r h' => ?_
      refine (ih (fun a ha => mem a (List.mem_cons_of_mem _ ha)) listed h').bind mine
        fun now'' w'' rs h'' => Procedure.abides_pure mine (h''.mono fun p standing =>
          ⟨standing.orderly, fun fine some => standing.complete ?_ ?_⟩)
      · obtain ⟨smooth, all⟩ := fine
        exact ⟨⟨smooth, all r List.mem_cons_self⟩, fun r hr => all r (List.mem_cons_of_mem _ hr)⟩
      · refine some.imp id ?_
        rintro (past | ⟨a, ha, owner⟩)
        · exact .inl (.inl past)
        · rcases List.mem_cons.mp ha with rfl | ha
          · exact .inl (.inr owner)
          · exact .inr ⟨a, ha, owner⟩

/-- An errand goes on aside, whatever survivors do meanwhile. -/
theorem errandsLeft_aside (h : w.Has crew l.Orderly) {p : Procedure (World Diary) Unit}
    (left : p ∈ Rehash.errandsLeft (traffic script) w) :
    p.Abides (Steps crew l.Onward) (Steps crew l.Aside) now w fun _ _ => True := by
  obtain ⟨⟨errand, n⟩, listed, rfl⟩ := List.mem_map.mp left
  obtain ⟨q, shows_, orderly⟩ := h
  have there : errand ∈ q.errands := shows_.errands ▸ List.fst_mem_of_mem_zipIdx listed
  obtain ⟨passage, b, mem, node, handed⟩ := orderly.errand there
  have tidy := orderly.tidy mem
  have mem' : b ∈ crew.who.members := concerns.members ▸ mem
  have fits : Fits (l.Onward : Picture Diary → Picture Diary → Prop) l.Aside :=
    ⟨flow_onward, flow_aside, fun _ _ step => step.onward⟩
  have stable (p q' : Picture Diary) (step : l.Onward p q')
      (known : (l.copy q b).isSome → l.Begun p) : (l.copy q b).isSome → l.Begun q' :=
    step.begun ∘ known
  refine Rehash.runErrand_abides fits n (I := fun q' => (l.copy q b).isSome → l.Begun q') mem'
    (node.trans (congrFun concerns.serial b).symm) shows_
    (orderly.begun_of_live mem handed) stable
    (fun row _ => minds sound asks fits (fun _ _ => id) stable mem')
    (fun row told _ now q' known => ?_)
    fun told q' => aside_of_undisturbed sound (fun _ => .refl _) fun e he => ?_
  · refine aside_invalidate sound rfl rfl fun key => ?_
    rw [passage] at told
    obtain ⟨live, other⟩ := hint_of_key tidy told key
    exact ⟨other, known live⟩
  · obtain ⟨i, at_⟩ := List.mem_iff_getElem?.mp he
    rw [List.getElem?_modify, Option.map_eq_map, Option.map_eq_some_iff] at at_
    obtain ⟨e', there, rfl⟩ := at_
    refine ⟨e', List.mem_of_getElem? there, ?_⟩
    split <;> exact ⟨rfl, rfl⟩

end Legacy

theorem Farewell.Opening.standing {f : Farewell} (sound : f.Sound) {who : Census} {c : Cluster}
    {nodes : Address → Node} {entry : String → Option Entry} {ε : Type} {outside : ε}
    (staffs : c.Staffs who nodes) (census : who.members = f.members)
    (opening : f.Opening entry nodes) (key : String) :
    Legacy.Standing ⟨f, key, entry key, who.serial⟩ True False ⟨nodes, [], outside⟩ := by
  let l : Legacy := ⟨f, key, entry key, who.serial⟩
  have owned {a : Address} (ha : a ∈ f.members) (owner : a ∈ l.owners) :
      (nodes a).store.get? key = entry key :=
    (opening.held key a ha).trans (if_pos owner)
  have dead {a : Address} (ha : a ∈ f.members) (other : a ∉ l.owners) :
      (nodes a).store.get? key = none :=
    (opening.held key a ha).trans (if_neg other)
  have orderly : l.Orderly ⟨nodes, [], outside⟩ := by
    refine ⟨fun {a} ha => ?_, fun ha owner => .inl (owned ha owner), nofun⟩
    have stands := (opening.rest a ha).1
    exact ⟨staffs.address (census ▸ ha), stands.settings, stands.strategy, stands.pending rfl,
      stands.keyed, opening.removed key a ha,
      (em (a ∈ l.owners)).symm.imp (dead ha) (owned ha), fun owner _ => owned ha owner,
      fun other _ => dead ha other⟩
  refine ⟨orderly, fun _ some => ?_⟩
  rcases some with (all | ⟨g, heir, fresh, holds⟩) | none
  · exact fun g heir => owned (Legacy.mem_of_heir (l := l) sound heir) (all g heir)
  · refine orderly.complete_of_none sound (holds.symm.trans ?_)
    exact dead (Legacy.mem_of_heir (l := l) sound heir) fresh
  · exact none.elim

/-- Whatever is lost or held back, and whoever misses an announcement, in whatever order
the survivors have their parts, and whenever they tell each other what to drop: if all
parts complete while nobody writes, every owner of a key under the new ring holds the
entry that the owners under the old one held, unless the leaver was the only one. -/
theorem completed_leave_restores_replication {f : Farewell} (sound : f.Sound) {who : Census}
    {c : Cluster} {nodes : Address → Node} {entry : String → Option Entry}
    {order : List Address} {script : Nat → Sending → List Deed} (now : Nat)
    (schedule : List (Nat × Pick)) (staffs : c.Staffs who nodes)
    (census : (who.without f.leaver).members = f.members) (opening : f.Opening entry nodes)
    (idle : c.errands = []) (perm : order.Perm f.members)
    (asks : ∀ i sending target command, .hand target command ∈ script i sending → command.Asks)
    {w' : World Diary} {results : List (Except RehashError MemberRing)}
    (ended : (Rehash.departureBeside (traffic script) f.leaver order now
      { cluster := c, outside := {} } schedule).main = .done w' results)
    (completed : ∀ r ∈ results, ∃ ring, r = .ok ring) :
    ∀ key, f.Survives key → ∀ a ∈ f.newOwners key,
      ∃ n, (Rehash.departureBeside (traffic script) f.leaver order now
        { cluster := c, outside := {} } schedule).state.cluster.nodes.find? a = some n ∧
        n.store.get? key = entry key := by
  rintro key ⟨b, hb, owner⟩ a heir
  let l : Legacy := ⟨f, key, entry key, who.serial⟩
  have staffs' := staffs.unregister f.leaver
  let crew := (c.unregister f.leaver).crew (who.without f.leaver) nodes
  let begun : Picture Diary := ⟨nodes, [], {}⟩
  have concerns : l.Concerns crew := ⟨census, rfl⟩
  let start : World Diary := { cluster := c, outside := {} }
  let left : World Diary := { cluster := c.unregister f.leaver, outside := {} }
  have shows_ : left.Shows crew begun := by
    have := shows_crew staffs' ({} : Diary)
    rwa [show (c.unregister f.leaver).errands = [] from idle] at this
  have member {a : Address} (ha : a ∈ order) : a ∈ f.members := perm.mem_iff.mp ha
  have prepare : (Rehash.prepareAll f.leaver order).Ends now left _ :=
    Rehash.prepareAll_ends shows_ (fun a ha => concerns.members ▸ member ha) fun a ha =>
      show (nodes a).stableRing = f.old by
        rw [Node.stableRing, (opening.rest a (member ha)).1.mapping]
        rfl
  obtain ⟨w₁, parts, prepared, listed, shows₁⟩ := prepare
  have begins : Ensemble.of (Rehash.departureInTurn (traffic script) f.leaver order) now start =
      Ensemble.of (Rehash.runInTurn (traffic script) parts) now w₁ := by
    have run : Rehash.departureInTurn (traffic script) f.leaver order now start =
        Rehash.runInTurn (traffic script) parts now w₁ := by
      show (Rehash.prepareAll f.leaver order now left).bind now _ = _
      rw [prepared]
      rfl
    rw [Ensemble.of, run]
    rfl
  have standing : w₁.Has crew (l.Standing True False) :=
    ⟨begun, shows₁, opening.standing sound staffs' census key⟩
  have whole : (Rehash.runInTurn (traffic script) parts).Abides _ _ now w₁ _ :=
    Legacy.runInTurn_hands (l := l) sound asks concerns (fun a ha => member ha) listed standing
  rw [Rehash.departureBeside, begins] at ended ⊢
  obtain ⟨p, shows_, here⟩ := whole.follow (drift_steps crew Legacy.flow_aside)
    (drift_steps crew Legacy.flow_onward) (fun _ _ step => step.mono fun _ _ aside => aside.onward)
    (fun rs => stable_has fun _ _ step standing => standing.aside step)
    (J := World.Has crew l.Orderly) (stable_has fun _ _ step => step.1)
    (fun now w orderly _ left => Legacy.errandsLeft_aside sound asks concerns orderly left)
    (standing.mono fun _ standing => standing.orderly) ended
  refine ⟨p.nodes a, shows_.staffs.find? (concerns.members ▸ Farewell.mem_of_newOwner sound heir),
    here.complete ⟨trivial, completed⟩ (.inr (.inr ⟨b, perm.mem_iff.mpr hb, owner⟩)) a heir⟩

/-- Nodes `A` and `n257`, which own `k1556`, and `C` and `n122`.  When `n122` leaves, `n257`
moves to its slot, and `C` takes the place of `n257` among the owners.  `C` does not hear
of any mapping, and state takes a while to get through. -/
def unseated : Cluster :=
  { ((Cluster.founded hasty ["A", "C", "n122", "n257"]).stocked "A" ⟨"k1556", [1], 1⟩).stocked
      "n257" ⟨"k1556", [1], 1⟩ with
    faults := {
      forKind := [(.pushState, { delay := some (.ofMillis 1) })]
      forTarget := [(("C", .installMapping), { lost := true })] } }

/-- As soon as `A` has had its part, it tells others what they may drop. -/
def hintFirst : List (Nat × Pick) :=
  (List.range 6).map (·, .main) ++ [(5, .start 0)] ++ (List.range 20).map (5 + ·, .main)

theorem completed_leave_restores_replication_of_unseated :
    ∃ old new w' results, Ring.ofMembers Strategy.sip24 ["A", "C", "n122", "n257"] = .ok old ∧
      Ring.ofMembers Strategy.sip24 ["A", "C", "n257"] = .ok new ∧
      "n257" ∈ old.locate "k1556" 2 ∧ "n257" ∉ new.locate "k1556" 2 ∧
      (Rehash.departureBeside (traffic fun _ _ => []) "n122" ["A", "n257", "C"] 0
        { cluster := unseated, outside := {} } hintFirst).main = .done w' results ∧
      (∀ r ∈ results, ∃ ring, r = .ok ring) ∧
      ∀ a ∈ new.locate "k1556" 2,
        ∃ n, (Rehash.departureBeside (traffic fun _ _ => []) "n122" ["A", "n257", "C"] 0
          { cluster := unseated, outside := {} } hintFirst).state.cluster.nodes.find? a = some n ∧
          n.store.get? "k1556" = some ⟨"k1556", [1], 1⟩ := by
  obtain ⟨old, before⟩ : ∃ r, Ring.ofMembers Strategy.sip24 ["A", "C", "n122", "n257"] = .ok r :=
    Ring.exists_ofMembers _ (by decide)
  obtain ⟨new, after⟩ : ∃ r, Ring.ofMembers Strategy.sip24 ["A", "C", "n257"] = .ok r :=
    Ring.exists_ofMembers _ (by decide)
  have oldOwners : old.locate "k1556" 2 = ["n257", "A"] :=
    Ring.apply_eq_of_ofMembers before (·.locate "k1556" 2) (by decide +kernel)
  have newOwners : new.locate "k1556" 2 = ["A", "C"] :=
    Ring.apply_eq_of_ofMembers after (·.locate "k1556" 2) (by decide +kernel)
  let f : Farewell := ⟨["A", "C", "n257"], "n122", hasty, .sip24, old, new⟩
  let e : Entry := ⟨"k1556", [1], 1⟩
  let made (a : Address) := Node.made a hasty .sip24 old
  let stocked (a : Address) : Node := { made a with store := Store.empty.insert e }
  let nodes := Function.update (Function.update made "A" (stocked "A")) "n257" (stocked "n257")
  obtain ⟨serial, founded⟩ := Cluster.exists_hosts_hasty (by decide) before
  have hosts := (founded.stocked (show "A" ∈ ["A", "C", "n122", "n257"] by decide) e).stocked
    (show "n257" ∈ ["A", "C", "n122", "n257"] by decide) e
  have quiet : (((Cluster.founded hasty ["A", "C", "n122", "n257"]).stocked "A" e).stocked
      "n257" e).approached = [] := by decide +kernel
  have staffs : unseated.Staffs ⟨["A", "C", "n122", "n257"], serial, some []⟩ nodes :=
    (hosts.staffs quiet).weather _
  have sound : f.Sound :=
    .of_built rfl before after (show "n122" ∈ ["A", "C", "n122", "n257"] by decide) rfl
  have opening : f.Opening (fun key => if key = e.key then some e else none) nodes := by
    refine .of_single fun a ha => ?_
    rw [show f.oldOwners e.key = ["n257", "A"] from oldOwners]
    obtain rfl | rfl | rfl : a = "A" ∨ a = "C" ∨ a = "n257" := by simpa [f] using ha
    · rfl
    · rfl
    · rfl
  -- What the departure comes to is computed, but only this much of it matters.
  have works : (match (Rehash.departureBeside (traffic fun _ _ => []) "n122" ["A", "n257", "C"] 0
      { cluster := unseated, outside := {} } hintFirst).main with
    | .done _ results => results.all fun r => r.toOption.isSome
    | .wait .. => false) = true := by
    decide +kernel
  generalize result : (Rehash.departureBeside (traffic fun _ _ => []) "n122" ["A", "n257", "C"] 0
    { cluster := unseated, outside := {} } hintFirst).main = main at works
  cases main with
  | wait => cases works
  | done w' results =>
    have completed : ∀ r ∈ results, ∃ ring, r = .ok ring := fun r hr => by
      have fine := List.all_eq_true.mp works r hr
      cases r with
      | error => cases fine
      | ok ring => exact ⟨ring, rfl⟩
    refine ⟨old, new, w', results, before, after, oldOwners ▸ by decide, newOwners ▸ by decide,
      rfl, completed, ?_⟩
    exact completed_leave_restores_replication sound 0 hintFirst staffs
      (show ["A", "C", "n122", "n257"].filter (· != "n122") = ["A", "C", "n257"] by decide) opening
      (by decide +kernel) (List.Perm.cons "A" (List.Perm.swap "C" "n257" []))
      (fun _ _ _ _ listed => absurd listed List.not_mem_nil) result completed "k1556"
      ⟨"A", show "A" ∈ ["A", "C", "n257"] by decide,
        show "A" ∈ old.locate "k1556" 2 from oldOwners ▸ by decide⟩

end SlotRing
