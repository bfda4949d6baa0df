/-
# What a sending does, and what it reports

Whoever sends a command does nothing to the cluster but run handlers, and that is
entered as a tally (`Handles`): who was reached, at which endpoint, and with which
reply.  A sending returns one response per target, in their order, and its tally is that
of its responses: one handling for a reply, none for a failure, whatever others do while
commands are on their way (`dispatch_tallies`).  A single command that is cut off has not
been handled (`sendTo_tallies`).  A command to everybody else goes to the members of the
view, each of whom is in it once, and is judged by their responses (`broadcast_tallies`).
-/
import Mathlib.Algebra.Order.Group.Multiset
import SlotRing.Proofs.Time.Tallies
import SlotRing.Rehash.Arrival
import SlotRing.Rehash.Departure

namespace SlotRing

variable {ε : Type}

/-! ## Handlings -/

/-- A handler has run: whose it is, at which endpoint, and what it replied. -/
structure Handling where
  target : Address
  endpoint : Serial
  reply : Reply

/-- From one state to another nothing happens but that handlers run for a command of a
sender, and what `aside` says. -/
inductive Handles (around : Surroundings ε) (aside : World ε → World ε → Prop)
    (sender : Address) (command : Command) : World ε → Multiset Handling → World ε → Prop
  /-- Commands get on their way or off it, and turns go on. -/
  | idle {w : World ε} (approached : List Serial) (credit : Nat) :
    Handles around aside sender command w 0 { w with cluster.approached := approached, credit }
  | aside {w w' : World ε} (acts : aside w w') : Handles around aside sender command w 0 w'
  | handled {w : World ε} {cluster : Cluster} {reply : Reply} (now : Nat) (target : Address)
    (endpoint : Serial) (answer : w.cluster.answer endpoint command = (cluster, reply)) :
    Handles around aside sender command w {⟨target, endpoint, reply⟩}
      { w with
        cluster
        outside := around.noteAnswer now { target, sender, kind := command.kind, reply } w.outside }
  | trans {w w' w'' : World ε} {m m' : Multiset Handling} :
    Handles around aside sender command w m w' → Handles around aside sender command w' m' w'' →
    Handles around aside sender command w (m + m') w''

section

variable {around : Surroundings ε} {aside : World ε → World ε → Prop} {sender : Address}
variable {command : Command}

theorem tally_handles : Paced.Tally (Handles around aside sender command) where
  refl w := .idle w.cluster.approached w.credit
  trans := .trans
  credit n w := .idle w.cluster.approached n

theorem Handles.relax {aside' : World ε → World ε → Prop} {w w' : World ε}
    {m : Multiset Handling} (h : Handles around aside sender command w m w')
    (more : ∀ w w', aside w w' → aside' w w') : Handles around aside' sender command w m w' := by
  induction h with
  | idle approached credit => exact .idle approached credit
  | aside acts => exact .aside (more _ _ acts)
  | handled now target endpoint answer => exact .handled now target endpoint answer
  | trans _ _ first second => exact .trans first second

structure Cluster.SameWays (c c' : Cluster) : Prop where
  view : c'.view = c.view
  endpoints : c'.endpoints = c.endpoints
  faults : c'.faults = c.faults

theorem Cluster.sameWays_answer (c : Cluster) (endpoint : Serial) (command : Command) :
    c.SameWays (c.answer endpoint command).1 := by
  unfold Cluster.answer
  simp only
  split
  · exact ⟨rfl, rfl, rfl⟩
  · split
    · exact ⟨rfl, rfl, rfl⟩
    · cases ((c.endpoints.get? endpoint).getD {}).node <;> exact ⟨rfl, rfl, rfl⟩

theorem Handles.sameWays {w w' : World ε} {m : Multiset Handling}
    (h : Handles around (fun _ _ => False) sender command w m w') :
    w.cluster.SameWays w'.cluster := by
  induction h with
  | idle => exact ⟨rfl, rfl, rfl⟩
  | aside acts => exact acts.elim
  | @handled w cluster reply now target endpoint answer =>
    have same := w.cluster.sameWays_answer endpoint command
    rwa [answer] at same
  | trans _ _ first second =>
    exact ⟨second.view.trans first.view, second.endpoints.trans first.endpoints,
      second.faults.trans first.faults⟩

end

/-! ## Responses -/

/-- The fault keeps a command from being answered within a timeout. -/
def Fault.defeats (fault : Fault) (timeout : Duration) : Bool :=
  fault.lost || fault.delay.any (timeout.wait < ·.wait)

namespace Cluster

variable (c : Cluster)

/-- The handlings that a response reports: the reply of the target's endpoint, or none. -/
def handlings : Response → Multiset Handling
  | (target, .ok reply) => (c.view.lookup target).elim 0 fun endpoint =>
    {⟨target, endpoint, reply⟩}
  | (_, .error _) => 0

/-- What a response to a command tells of the cluster that it was sent in: a reply, that the
target has an endpoint and the fault in force lets the command through in time; a
timeout, that it has one and the fault does not; and otherwise it could not be
reached. -/
def Bears (kind : CommandKind) (timeout : Duration) : Response → Prop
  | (target, .ok _) => (c.view.lookup target).isSome ∧
    (c.faults.between target kind).defeats timeout = false
  | (target, .error cause) =>
    (cause = .timeout target ∧ (c.view.lookup target).isSome ∧
      (c.faults.between target kind).defeats timeout = true) ∨
    (cause = .unreachable target ∧ { c with approached := [] }.reach? target = none)

/-- What comes back from some targets, and what is handled on the way. -/
structure Answers (kind : CommandKind) (timeout : Duration) (targets : List Address)
    (handled : Multiset Handling) (responses : List Response) : Prop where
  targets : responses.map Prod.fst = targets
  bears : ∀ response ∈ responses, c.Bears kind timeout response
  handled : handled = (responses.map c.handlings).sum

end Cluster

/-- One handling for a reply of the target, and none for a failure. -/
def Once (target : Address) (handled : Multiset Handling) : Except TransportError Reply → Prop
  | .ok reply => ∃ endpoint, handled = {⟨target, endpoint, reply⟩}
  | .error cause => handled = 0 ∧ (cause = .timeout target ∨ cause = .unreachable target)

theorem Cluster.Bears.once {c : Cluster} {kind : CommandKind} {timeout : Duration}
    {target : Address} {response : Except TransportError Reply}
    (h : c.Bears kind timeout (target, response)) :
    Once target (c.handlings (target, response)) response := by
  match response with
  | .ok reply =>
    obtain ⟨endpoint, listed⟩ := Option.isSome_iff_exists.mp h.1
    exact ⟨endpoint, by rw [handlings, listed]; rfl⟩
  | .error cause => exact ⟨rfl, h.imp (·.1) (·.1)⟩

theorem Cluster.Bears.countP {c : Cluster} {kind : CommandKind} {timeout : Duration}
    {response : Response} (h : c.Bears kind timeout response) (target : Address) :
    (c.handlings response).countP (·.target = target) =
      if response.1 = target ∧ response.2.isOk then 1 else 0 := by
  obtain ⟨a, r⟩ := response
  match r with
  | .ok reply =>
    obtain ⟨endpoint, same⟩ := h.once
    rw [same, ← Multiset.cons_zero, Multiset.countP_cons, Multiset.countP_zero]
    simp [Except.isOk, Except.toBool]
  | .error cause => simp [handlings, Except.isOk, Except.toBool]

/-- A member has handled the command as often as it is reported to have replied. -/
theorem Cluster.Answers.countP {c : Cluster} {kind : CommandKind} {timeout : Duration}
    {targets : List Address} {handled : Multiset Handling} {responses : List Response}
    (h : c.Answers kind timeout targets handled responses) (target : Address) :
    handled.countP (·.target = target) =
      responses.countP fun response => response.1 = target ∧ response.2.isOk := by
  rw [h.handled]
  have bears := h.bears
  clear h
  induction responses with
  | nil => rfl
  | cons response rest ih =>
    rw [List.map_cons, List.sum_cons, Multiset.countP_add, List.countP_cons,
      (bears response List.mem_cons_self).countP, Nat.add_comm,
      ih fun r mem => bears r (List.mem_cons_of_mem response mem)]
    simp

section

variable {around : Surroundings ε} {aside : World ε → World ε → Prop} {sender target : Address}
variable {command : Command} {timeout : Duration} {now : Nat} {w : World ε}

/-! ## A single command -/

theorem dueBy_clock {σ : Type} [Paced σ] {tick limit : Nat} (early : tick ≤ limit) :
    (Wake.clock tick : Wake σ).DueBy limit := by
  refine ⟨tick, early, rfl, fun now s late => ?_⟩
  rw [Wake.clock_ready_renew]
  exact decide_eq_true late

theorem underway_tallies {limit : Nat} {endpoint : Serial} {time : Duration}
    {m : Multiset Handling} {cut : Multiset Handling → Prop} (early : now + time.wait ≤ limit)
    (cuts : cut m) :
    (underway endpoint time).Tallies (Handles around aside sender command) (Wake.DueBy limit)
      (fun m' _ => m' = m) cut now w m := by
  refine Procedure.Ends.bind_tallies tally_handles (Procedure.ends_modify
    ⟨0, .idle (endpoint :: w.cluster.approached) w.credit, ?_⟩)
  rw [add_zero]
  exact (Procedure.tallies_sleep tally_handles (dueBy_clock early) rfl cuts).ensuring tally_handles
    fun w => .idle (w.cluster.approached.erase endpoint) w.credit

theorem deliver_tallies {due : Wake (World ε) → Prop} {endpoint : Serial}
    {m : Multiset Handling} {cut : Multiset Handling → Prop} :
    (deliver around sender command target endpoint).Tallies
      (Handles around aside sender command) due
      (fun m' reply => m' = m + {⟨target, endpoint, reply⟩}) cut now w m :=
  Procedure.tallies_of_ends ⟨_, _, rfl, .handled now target endpoint rfl, rfl⟩

/-- Who cannot be reached cannot be reached with nothing on the way either. -/
theorem Cluster.SameWays.unreachable {c c' : Cluster} (ways : c.SameWays c')
    (unreachable : c'.reach? target = none) :
    { c with approached := [] }.reach? target = none := by
  rw [Cluster.reach?, Option.filter_eq_none_iff] at unreachable ⊢
  intro endpoint listed
  have absent := unreachable endpoint (ways.view ▸ listed)
  rw [ways.endpoints] at absent
  simp only [Bool.or_eq_true, decide_eq_true_eq, not_or] at absent
  simp [absent.1]

/-- A command is handled once if there is a reply, and not at all otherwise; which of the two
it is can be told from the cluster that it is sent in. -/
theorem transmit_tallies {c : Cluster} (ways : c.SameWays w.cluster) :
    (transmit around sender command timeout target).Tallies
      (Handles around aside sender command) (Wake.DueBy (now + timeout.wait))
      (fun m r => m = c.handlings (target, r) ∧ c.Bears command.kind timeout (target, r))
      (fun m => m = 0) now w 0 := by
  refine Procedure.Ends.bind_tallies tally_handles (Procedure.ends_read ?_)
  refine ⟨0, tally_handles.refl w, ?_⟩
  rw [add_zero]
  beta_reduce
  cases route : w.cluster.route? target command.kind with
  | none =>
    refine Procedure.tallies_pure tally_handles ?_
    exact ⟨rfl, .inr ⟨rfl, ways.unreachable (Option.map_eq_none_iff.mp route)⟩⟩
  | some way =>
    obtain ⟨endpoint, fault⟩ := way
    obtain ⟨e, reach, same⟩ := Option.map_eq_some_iff.mp route
    obtain ⟨rfl, rfl⟩ := Prod.mk.inj same
    have listed : c.view.lookup target = some e :=
      ways.view ▸ (Option.filter_eq_some_iff.mp reach).1
    have reached : (c.view.lookup target).isSome := by rw [listed]; rfl
    have delivered (now : Nat) (w : World ε)
        (heeds : (c.faults.between target command.kind).defeats timeout = false) {limit : Nat} :
        (do return .ok (← deliver around sender command target e) :
          Procedure (World ε) (Except TransportError Reply)).Tallies
          (Handles around aside sender command) (Wake.DueBy limit)
          (fun m r => m = c.handlings (target, r) ∧ c.Bears command.kind timeout (target, r))
          (fun m => m = 0) now w 0 := by
      refine deliver_tallies.bind tally_handles fun now w m reply handled => ?_
      refine Procedure.tallies_pure tally_handles ⟨?_, reached, heeds⟩
      rw [handled, zero_add, Cluster.handlings, listed]
      rfl
    have passing {time : Duration} (early : time.wait ≤ timeout.wait) :
        (underway e time).Tallies (Handles around aside sender command)
          (Wake.DueBy (now + timeout.wait)) (fun m _ => m = 0) (fun m => m = 0) now w 0 :=
      underway_tallies (Nat.add_le_add_left early now) rfl
    dsimp only
    split
    case isTrue defeated =>
      refine (passing (Nat.le_refl _)).bind tally_handles fun now w m _ same => ?_
      refine Procedure.tallies_pure tally_handles ?_
      exact ⟨same, .inl ⟨rfl, reached, ways.faults ▸ defeated⟩⟩
    case isFalse passes =>
      have heeds : (c.faults.between target command.kind).defeats timeout = false := by
        rw [← ways.faults]
        exact Bool.eq_false_iff.mpr passes
      split
      case h_1 delay held =>
        have early : delay.wait ≤ timeout.wait := by
          rw [Fault.defeats, ← ways.faults, held] at heeds
          simpa using (Bool.or_eq_false_iff.mp heeds).2
        refine (passing early).bind tally_handles fun now w m _ same => ?_
        rw [same]
        exact delivered now w heeds
      case h_2 => exact delivered now w heeds

/-! ## A command to several members -/

def dispatch (around : Surroundings ε) (sender : Address) (targets : List Address)
    (command : Command) (timeout : Duration) : Procedure (World ε) (List Response) :=
  .all (targets.map fun target => return (target, ← transmit around sender command timeout target))

/-- Whatever others do while commands are on their way, there is one response per target
in the order of the targets, each is right about the cluster at the start, and the
handlings are those that the responses report. -/
theorem dispatch_tallies (targets : List Address) :
    (dispatch around sender targets command timeout).Tallies
      (Handles around (fun _ _ => False) sender command) (Wake.DueBy (now + timeout.wait))
      (fun handled responses =>
        w.cluster.Answers command.kind timeout targets handled responses)
      (fun _ => True) now w 0 := by
  refine (Procedure.tallies_all tally_handles (fun _ _ => Wake.DueBy.either)
    (v := w.cluster.handlings) (P := fun target response => response.1 = target ∧
      w.cluster.Bears command.kind timeout response) targets ?_).mono (fun _ due => due) ?_
    fun _ _ => trivial
  · intro target _ w' d moved
    refine ((transmit_tallies moved.sameWays).mono (fun _ due => due) (fun _ _ holds => holds)
      fun _ _ => trivial).bind tally_handles fun now w m r holds => ?_
    exact Procedure.tallies_pure tally_handles ⟨holds.1, rfl, holds.2⟩
  · rintro handled responses ⟨rfl, each⟩
    have sound : responses.map Prod.fst = targets ∧
        ∀ response ∈ responses, w.cluster.Bears command.kind timeout response := by
      induction each with
      | nil => exact ⟨rfl, fun _ none_ => nomatch none_⟩
      | cons holds _ ih =>
        refine ⟨by rw [List.map_cons, holds.1, ih.1], fun response mem => ?_⟩
        rcases List.mem_cons.mp mem with rfl | mem
        · exact holds.2
        · exact ih.2 response mem
    exact ⟨sound.1, sound.2, rfl⟩

end

theorem sendTo_eq (around : Surroundings ε) (sender target : Address) (command : Command)
    (timeout : Duration) :
    sendTo around sender target command timeout = (do
      around.atSend { sender, targets := [target], command }
      transmit around sender command timeout target) := by
  simp only [sendTo, send, List.map_cons, List.map_nil, Procedure.all_singleton, bind_assoc,
    pure_bind, bind_pure]

/-! ## What the surroundings do -/

/-- A stretch of what the surroundings do at some sending leads from one state to another. -/
def Surroundings.Acts (around : Surroundings ε) (w w' : World ε) : Prop :=
  ∃ sending now, w' = (around.atSend sending now w).state ∨
    ∃ start, (around.atSend sending now start).Stretch w w'

theorem Surroundings.eq_of_acts {around : Surroundings ε}
    (still : ∀ sending now w, around.atSend sending now w = .done w ()) {w w' : World ε}
    (acts : around.Acts w w') : w' = w := by
  obtain ⟨sending, now, here | ⟨start, later⟩⟩ := acts
  · rw [here, still]
    rfl
  · rw [still] at later
    cases later

/-- Surroundings that do nothing but keep a book of the answers. -/
def Surroundings.bookkeeping : Surroundings (List Answered) where
  atSend _ := pure ()
  noteAnswer _ answered book := book ++ [answered]

theorem Handles.booked {sender : Address} {command : Command} {w w' : World (List Answered)}
    {handled : Multiset Handling}
    (h : Handles .bookkeeping Surroundings.bookkeeping.Acts sender command w handled w') :
    ∃ book : List Answered, w'.outside = w.outside ++ book ∧
      (∀ a ∈ book, a.sender = sender ∧ a.kind = command.kind) ∧
      handled.map (fun h => (h.target, h.reply)) = (book.map fun a => (a.target, a.reply)) := by
  induction h with
  | @idle w => exact ⟨[], (List.append_nil _).symm, nofun, rfl⟩
  | @aside w w' acts =>
    rw [Surroundings.eq_of_acts (fun _ _ _ => rfl) acts]
    exact ⟨[], (List.append_nil _).symm, nofun, rfl⟩
  | handled => exact ⟨[_], rfl, by simp, rfl⟩
  | trans _ _ first second =>
    obtain ⟨book, written, own, same⟩ := first
    obtain ⟨book', written', own', same'⟩ := second
    refine ⟨book ++ book', by rw [written', written, List.append_assoc], ?_, ?_⟩
    · exact fun a mem => (List.mem_append.mp mem).elim (own a) (own' a)
    · rw [Multiset.map_add, same, same', List.map_append, Multiset.coe_add]

section

variable {around : Surroundings ε} {sender target : Address} {command : Command}
variable {timeout : Duration} {now : Nat} {w : World ε}

theorem atSend_tallies (sending : Sending) :
    (around.atSend sending).Tallies (Handles around around.Acts sender command) (fun _ => True)
      (fun m _ => m = 0) (fun m => m = 0) now w 0 := by
  refine ⟨0, .aside ⟨sending, now, .inl rfl⟩, ?_⟩
  rw [add_zero]
  exact Task.tallies_of_stretch (fun _ _ rest => .aside ⟨sending, now, .inr ⟨w, rest⟩⟩) 0

/-- A command to a single target is handled once if there is a reply, and not at all if
there is none or if it is cut off. -/
theorem sendTo_tallies :
    (sendTo around sender target command timeout).Tallies
      (Handles around around.Acts sender command) (fun _ => True) (Once target) (fun m => m = 0)
      now w 0 := by
  rw [sendTo_eq]
  refine (atSend_tallies _).bind tally_handles fun now w m _ none_ => ?_
  subst none_
  refine (transmit_tallies (c := w.cluster) ⟨rfl, rfl, rfl⟩).mono (fun _ _ => trivial) ?_
    fun _ none_ => none_
  rintro m r ⟨rfl, bears⟩
  exact bears.once

end

/-! ## A command to everybody else -/

def acknowledged? : Response → Option (Address × Reply)
  | (_, .ok (.unsuccessful _)) => none
  | (target, .ok reply) => some (target, reply)
  | (_, .error _) => none

/-- The target of a response that is a failure or reports one. -/
def missing? : Response → Option Address
  | (target, .ok (.unsuccessful _)) => some target
  | (_, .ok _) => none
  | (target, .error _) => some target

theorem collect_eq (responses : List Response) :
    collect responses = (responses.filterMap acknowledged?, responses.filterMap missing?) := by
  induction responses with
  | nil => rfl
  | cons response rest ih =>
    obtain ⟨target, response⟩ := response
    rw [collect, ih]
    match response with
    | .error cause => rfl
    | .ok reply => cases reply <;> rfl

/-- What a command to everybody else comes to: without all acknowledgements that are needed it
fails with exactly the members that have given none, and otherwise it returns the
replies. -/
def verdict (allNeeded : Bool) (responses : List Response) :
    Except TransportError (List (Address × Reply)) :=
  let missing := responses.filterMap missing?
  if allNeeded && !missing.isEmpty then .error (.missingAcks missing)
  else .ok (responses.filterMap acknowledged?)

namespace Cluster

/-- Registers a member with an endpoint, or takes one out of the view. -/
def enlist (c : Cluster) : Address × Option Serial → Cluster
  | (a, some endpoint) => c.register a endpoint
  | (a, none) => c.unregister a

theorem members_register (c : Cluster) (a : Address) (endpoint : Serial) :
    (c.register a endpoint).members = if a ∈ c.members then c.members else c.members ++ [a] := by
  rw [register]
  simp only [List.contains_iff_mem]
  split
  · rw [members, members, List.map_map]
    refine List.map_congr_left fun entry _ => ?_
    simp only [Function.comp_apply]
    split
    case isTrue same => exact same.symm
    case isFalse => rfl
  · exact List.map_append

theorem members_unregister (c : Cluster) (a : Address) :
    (c.unregister a).members = c.members.filter (· != a) := by
  rw [members, members, unregister, List.filter_map]
  rfl

theorem nodup_members_enlist {c : Cluster} (distinct : c.members.Nodup)
    (change : Address × Option Serial) : (c.enlist change).members.Nodup := by
  obtain ⟨a, endpoint | endpoint⟩ := change
  · show (c.unregister a).members.Nodup
    rw [members_unregister]
    exact distinct.filter _
  · show (c.register a endpoint).members.Nodup
    rw [members_register]
    split
    · exact distinct
    · exact distinct.append (List.nodup_singleton a) (by simpa)

theorem nodup_members_foldl_enlist (changes : List (Address × Option Serial)) {c : Cluster}
    (distinct : c.members.Nodup) : (changes.foldl enlist c).members.Nodup := by
  induction changes generalizing c with
  | nil => exact distinct
  | cons change changes ih => exact ih (nodup_members_enlist distinct change)

end Cluster

section

variable {around : Surroundings ε} {sender : Address} {command : Command}
variable {timeout : Duration} {now : Nat} {w : World ε}

/-- A command to everybody else is sent to the members of the view other than the sender, in
the order of the view, and is judged by their responses. -/
theorem broadcast_tallies (allNeeded : Bool) :
    (broadcast around sender command timeout allNeeded).Tallies
      (Handles around around.Acts sender command) (fun _ => True)
      (fun handled r => ∃ (c : Cluster) (responses : List Response),
        c.Answers command.kind timeout (w.cluster.members.filter (· != sender)) handled responses ∧
        r = verdict allNeeded responses)
      (fun _ => True) now w 0 := by
  refine Procedure.Ends.bind_tallies tally_handles (Procedure.ends_read ?_)
  refine ⟨0, tally_handles.refl w, ?_⟩
  rw [add_zero]
  beta_reduce
  generalize w.cluster.members.filter (· != sender) = targets
  have sent : (send around sender targets command timeout).Tallies
      (Handles around around.Acts sender command) (fun _ => True)
      (fun handled responses => ∃ c : Cluster,
        c.Answers command.kind timeout targets handled responses) (fun _ => True) now w 0 := by
    refine ((atSend_tallies _).mono (fun _ due => due) (fun _ _ none_ => none_)
      fun _ _ => trivial).bind tally_handles fun now w m _ none_ => ?_
    subst none_
    exact ((dispatch_tallies targets).mono (fun _ _ => trivial)
      (fun handled responses answers => ⟨w.cluster, answers⟩) fun _ _ => trivial).relax
        fun _ _ _ handles => handles.relax fun _ _ => False.elim
  refine sent.bind tally_handles fun now w m responses answers => ?_
  obtain ⟨c, answers⟩ := answers
  rw [collect_eq]
  have judged : (if allNeeded && !(responses.filterMap missing?).isEmpty then
        pure (.error (.missingAcks (responses.filterMap missing?)))
      else pure (.ok (responses.filterMap acknowledged?)) :
        Procedure (World ε) (Except TransportError (List (Address × Reply)))) =
      pure (verdict allNeeded responses) := by
    rw [verdict]
    split <;> rfl
  dsimp only
  rw [judged]
  exact Procedure.tallies_pure tally_handles ⟨c, responses, answers, rfl⟩

end

end SlotRing
