/-
# Steps that are tried again, and what they do

Handing state over and asking for it are commands to a single member, tried until one try
gets what it wants.  A try that gets a reply has been handled once, and one that times
out, cannot be reached or is cut off has not been handled at all; so the handlings of the
whole step are those of its tries (`retryUntil_tallies`).  That, and what a sending and an
announcement do, is put together in `transport_leaves_no_doubt`.
-/
import SlotRing.Proofs.Cluster.Deliveries
import SlotRing.Proofs.Cluster.Races

namespace SlotRing

/-! ## Tries with a tally -/

/-- What a step comes to whose last try came to this, if it was not cut off. -/
def comesTo {α : Type} (phase : Phase) : Option (Except RehashError α) → Except RehashError α
  | some (.ok value) => .ok value
  | _ => .error (.timeout phase)

/-- The tries of a step, each with its own tally and what it came to, if it was not cut off,
and the result: a try that fails makes way for another one, one that is cut off is the
last, and whatever the last try has not brought is a timeout. -/
structure Tried {M α : Type} (A : M → Option (Except RehashError α) → Prop) (phase : Phase)
    (tries : List (M × Option (Except RehashError α))) (result : Except RehashError α) : Prop where
  each : ∀ t ∈ tries, A t.1 t.2
  again : ∀ t ∈ tries.dropLast, ∃ cause, t.2 = some (.error cause)
  result : result = comesTo phase (tries.getLast?.bind Prod.snd)

section

variable {σ M α : Type} {A : M → Option (Except RehashError α) → Prop} {phase : Phase}

theorem Tried.once {d : M} {tried : Option (Except RehashError α)} {result : Except RehashError α}
    (holds : A d tried) (comes : result = comesTo phase tried) :
    Tried A phase [(d, tried)] result where
  each := by simpa using holds
  again := by simp
  result := comes

theorem Tried.cons {d : M} {cause : RehashError} {tries : List (M × Option (Except RehashError α))}
    {result : Except RehashError α} (holds : A d (some (.error cause)))
    (h : Tried A phase tries result) :
    Tried A phase ((d, some (.error cause)) :: tries) result where
  each := by
    rintro t (_ | ⟨_, mem⟩)
    · exact holds
    · exact h.each t mem
  again := by
    cases tries with
    | nil => simp
    | cons t ts =>
      rw [List.dropLast_cons_cons]
      rintro u (_ | ⟨_, mem⟩)
      · exact ⟨cause, rfl⟩
      · exact h.again u mem
  result := by
    cases tries with
    | nil => exact h.result
    | cons t ts => rw [h.result, List.getLast?_cons_cons]

variable [Paced σ] [AddCommMonoid M] {step : σ → M → σ → Prop}
variable {attempt : Procedure σ (Except RehashError α)}

/-- However many tries are left, each adds its own tally to what is there. -/
theorem retryFor_tallies (tally : Paced.Tally step)
    (once : ∀ now s, attempt.Tallies step (fun _ => True) (fun d r => A d (some r))
      (fun d => A d none) now s 0) (deadline backoff n now : Nat) (s : σ) (m : M) :
    (retryFor phase deadline backoff attempt n).Tallies step (fun _ => True)
      (fun m' r => ∃ tries, m' = m + (tries.map Prod.fst).sum ∧ Tried A phase tries r)
      (fun _ => True) now s m := by
  induction n generalizing now s m with
  | zero =>
    refine Procedure.tallies_pure tally ⟨[], (add_zero m).symm, ?_, ?_, rfl⟩ <;> simp
  | succ n ih =>
    rw [retryFor]
    have first : (attempt.within (deadlineTick deadline)).Tallies step (fun _ => True)
        (fun m' tried => ∃ d, m' = m + d ∧ A d tried) (fun _ => True) now s m := by
      have tried := (((once now s).within tally (fun _ cut => cut) (deadlineTick deadline)).beyond
        m).mono (fun _ _ => trivial) (fun _ _ holds => holds) fun _ _ => trivial
      rwa [add_zero] at tried
    refine first.bind tally fun now s m' tried holds => ?_
    obtain ⟨d, rfl, holds⟩ := holds
    have settled {r : Except RehashError α} (comes : r = comesTo phase tried) :
        (pure r : Procedure σ (Except RehashError α)).Tallies step (fun _ => True)
          (fun m' r => ∃ tries, m' = m + (tries.map Prod.fst).sum ∧ Tried A phase tries r)
          (fun _ => True) now s (m + d) :=
      Procedure.tallies_pure tally ⟨[(d, tried)], by simp, .once holds comes⟩
    rcases tried with _ | cause | value
    · exact settled rfl
    · refine Procedure.Ends.bind_tallies tally (Procedure.ends_now ?_)
      refine ⟨0, tally.refl s, ?_⟩
      rw [add_zero]
      split
      · exact settled rfl
      · have slept : (Procedure.sleep backoff : Procedure σ Unit).Tallies step (fun _ => True)
            (fun m' _ => m' = m + d) (fun _ => True) now s (m + d) :=
          Procedure.tallies_sleep tally trivial rfl trivial
        refine slept.bind tally fun now s m' _ same => ?_
        subst same
        refine (ih now s (m + d)).mono (fun _ due => due) ?_ fun _ holds => holds
        rintro m' r ⟨tries, rfl, tried⟩
        refine ⟨(d, some (.error cause)) :: tries, ?_, .cons holds tried⟩
        rw [List.map_cons, List.sum_cons, add_assoc]
    · exact settled rfl

theorem retryUntil_tallies (tally : Paced.Tally step)
    (once : ∀ now s, attempt.Tallies step (fun _ => True) (fun d r => A d (some r))
      (fun d => A d none) now s 0) (deadline backoff now : Nat) (s : σ) :
    (retryUntil phase deadline backoff attempt).Tallies step (fun _ => True)
      (fun m r => ∃ tries, m = (tries.map Prod.fst).sum ∧ Tried A phase tries r) (fun _ => True)
      now s 0 := by
  have all (n : Nat) : (retryFor phase deadline backoff attempt n).Tallies step (fun _ => True)
      (fun m r => ∃ tries, m = (tries.map Prod.fst).sum ∧ Tried A phase tries r) (fun _ => True)
      now s 0 := by
    refine (retryFor_tallies tally once deadline backoff n now s 0).mono (fun _ due => due) ?_
      fun _ holds => holds
    rintro m r ⟨tries, rfl, tried⟩
    exact ⟨tries, zero_add _, tried⟩
  rw [Procedure.Tallies, retryUntil]
  exact all _

end

/-! ## Handing state over and asking for it -/

namespace Rehash

/-- What a try to hand state over comes to, by the response to it. -/
def handed (target : Address) : Except TransportError Reply → Except RehashError Unit
  | .ok .ack => .ok ()
  | .ok reply => .error (.transport (.rejected target reply.text))
  | .error cause => .error (.transport cause)

/-- What a try to ask for state comes to, by the response to it. -/
def given : Except TransportError Reply → Except RehashError (List Entry)
  | .ok (.stateChunk entries) => .ok entries
  | .ok _ => .ok []
  | .error cause => .error (.transport cause)

variable {ε : Type} (around : Surroundings ε) (plan : Plan)

theorem handTo_eq (target : Address) (entries : List Entry) :
    handTo around plan target entries = (do
      return handed target (← sendTo around plan.node target (.pushState entries)
        plan.settings.rpcTimeout)) := by
  rw [handTo]
  congr 1
  funext response
  match response with
  | .error cause => rfl
  | .ok reply => cases reply <;> rfl

theorem askForState_eq (new : MemberRing) (source : Address) :
    askForState around plan new source = (do
      return given (← sendTo around plan.node source (.pullState plan.node new)
        plan.settings.rpcTimeout)) := by
  rw [askForState]
  congr 1
  funext response
  match response with
  | .error cause => rfl
  | .ok reply => cases reply <;> rfl

/-- A try of a command to one member: it is handled once if there is a reply, and not at all
if there is none or the try is cut off; what it comes to is judged by the response. -/
def TriedTo {α : Type} (target : Address)
    (judge : Except TransportError Reply → Except RehashError α) (handled : Multiset Handling) :
    Option (Except RehashError α) → Prop
  | none => handled = 0
  | some result => ∃ response, Once target handled response ∧ result = judge response

variable {around} {plan}

theorem retry_sendTo_tallies {α : Type} {sender target : Address} {command : Command}
    {timeout : Duration} {phase : Phase}
    {judge : Except TransportError Reply → Except RehashError α} (now : Nat) (w : World ε) :
    (retry plan phase (do
        return judge (← sendTo around sender target command timeout))).Tallies
      (Handles around around.Acts sender command) (fun _ => True)
      (fun handled r => ∃ tries, handled = (tries.map Prod.fst).sum ∧
        Tried (TriedTo target judge) phase tries r) (fun _ => True) now w 0 := by
  refine retryUntil_tallies tally_handles (fun now w => ?_) _ _ now w
  refine sendTo_tallies.bind tally_handles fun now w handled response once => ?_
  exact Procedure.tallies_pure tally_handles ⟨response, once, rfl⟩

/-- Where nothing goes on beside, a step that is a command to one member is tried again until
the deadline. -/
theorem retry_sendTo_meets_deadline {α : Type} {sender target : Address} {command : Command}
    {timeout : Duration} {phase : Phase}
    {judge : Except TransportError Reply → Except RehashError α}
    (pause : 0 < plan.settings.backoff) {now : Nat} {w : World ε} (credit : 0 < w.credit) :
    let attempt : Procedure (World ε) (Except RehashError α) := do
      return judge (← sendTo .quiet sender target command timeout)
    let ran := (retry plan phase attempt now w).run now
    ∃ tries,
      Retried attempt phase plan.deadline plan.settings.backoff now w tries ran.1 ran.2.2 := by
  have courses (now : Nat) (w : World ε) (credit : 0 < w.credit) : ∃ course,
      ((do return judge (← sendTo .quiet sender target command timeout) :
        Procedure (World ε) (Except RehashError α)) now w).Course now course := by
    rw [sendTo_eq]
    have sent : ∃ course,
        (transmit .quiet sender command timeout target now w).Course now course :=
      transmit_course credit timeout
    obtain ⟨course, runs⟩ := sent
    cases course with
    | none => exact ⟨_, runs.bind_never now⟩
    | some e => exact ⟨_, runs.bind .done now rfl⟩
  exact retryFor_retried courses phase plan.deadline pause _ (courses now w credit)
    (lt_tries now plan.deadline)

end Rehash

/-! ## All together -/

/-- What can be relied on about commands and their senders. -/
structure Surroundings.Reliable {ε : Type} (around : Surroundings ε) : Prop where
  /-- A sending lets the surroundings act, and then takes the command to every target. -/
  sends : ∀ sender targets command timeout, send around sender targets command timeout = (do
    around.atSend { sender, targets, command }
    dispatch around sender targets command timeout)
  /-- Whatever others do meanwhile, there is one response per target in their order, and the
  handlings are those that the responses report; the clock alone is waited for. -/
  answers : ∀ sender targets command timeout now w,
    (dispatch around sender targets command timeout).Tallies
      (Handles around (fun _ _ => False) sender command) (Wake.DueBy (now + timeout.wait))
      (fun handled responses => w.cluster.Answers command.kind timeout targets handled responses)
      (fun _ => True) now w 0
  /-- A member has handled the command as often as it is reported to have replied. -/
  exactly : ∀ (c : Cluster) kind timeout targets handled responses,
    c.Answers kind timeout targets handled responses → ∀ target,
      handled.countP (·.target = target) =
        responses.countP fun response => response.1 = target ∧ response.2.isOk
  /-- The tallies are no fiction: where a book is kept of the answers, they are read off it. -/
  booked : ∀ sender command (w w' : World (List Answered)) handled,
    Handles .bookkeeping Surroundings.bookkeeping.Acts sender command w handled w' →
    ∃ book : List Answered, w'.outside = w.outside ++ book ∧
      (∀ a ∈ book, a.sender = sender ∧ a.kind = command.kind) ∧
      handled.map (fun h => (h.target, h.reply)) = (book.map fun a => (a.target, a.reply))
  /-- On its own, a sending returns within the timeout. -/
  returns : ∀ sender targets command timeout now w,
    let ran := (dispatch around sender targets command timeout now w).run now
    ran.1 ≤ now + timeout.wait ∧ ∃ handled,
      Handles around (fun _ _ => False) sender command w handled ran.2.1 ∧
      w.cluster.Answers command.kind timeout targets handled ran.2.2
  /-- On its own, a command ends as the race between its delivery and its timeout does. -/
  races : ∀ sender command timeout target now w, ∃ credit,
    let raced := (race around sender command timeout target now w).run now
    (transmit around sender command timeout target now w).run now =
      (raced.1, { raced.2.1 with credit }, raced.2.2)
  /-- A command to a single target that is cut off has not been handled. -/
  cutOff : ∀ sender target command timeout deadline now w,
    ((sendTo around sender target command timeout).within deadline).Tallies
      (Handles around around.Acts sender command) (fun _ => True)
      (fun handled tried => match tried with
        | none => handled = 0
        | some response => Once target handled response) (fun handled => handled = 0) now w 0
  /-- State is handed over once by the try that gets a reply, and by no other. -/
  handsOver : ∀ (plan : Rehash.Plan) target entries now w,
    (Rehash.retry plan .pullState (Rehash.handTo around plan target entries)).Tallies
      (Handles around around.Acts plan.node (.pushState entries)) (fun _ => True)
      (fun handled r => ∃ tries, handled = (tries.map Prod.fst).sum ∧
        Tried (Rehash.TriedTo target (Rehash.handed target)) .pullState tries r)
      (fun _ => True) now w 0
  /-- State is asked for once by the try that gets a reply, and by no other. -/
  asks : ∀ (plan : Rehash.Plan) new source now w,
    (Rehash.retry plan .pullState (Rehash.askForState around plan new source)).Tallies
      (Handles around around.Acts plan.node (.pullState plan.node new)) (fun _ => True)
      (fun handled r => ∃ tries, handled = (tries.map Prod.fst).sum ∧
        Tried (Rehash.TriedTo source Rehash.given) .pullState tries r) (fun _ => True) now w 0
  /-- A command to everybody else is sent to the members of the view other than the sender, and
  is judged by their responses. -/
  broadcasts : ∀ sender command timeout allNeeded now w,
    (broadcast around sender command timeout allNeeded).Tallies
      (Handles around around.Acts sender command) (fun _ => True)
      (fun handled r => ∃ (c : Cluster) (responses : List Response),
        c.Answers command.kind timeout (w.cluster.members.filter (· != sender)) handled responses ∧
        r = verdict allNeeded responses) (fun _ => True) now w 0
  /-- However members have come and gone, each of them is in the view once. -/
  distinct : ∀ changes : List (Address × Option Serial),
    (changes.foldl Cluster.enlist {}).members.Nodup

/-- A sender is never left in doubt whether its command has been handled. -/
theorem transport_leaves_no_doubt {ε : Type} (around : Surroundings ε) : around.Reliable where
  sends _ _ _ _ := rfl
  answers _ targets _ _ _ _ := dispatch_tallies targets
  exactly _ _ _ _ _ _ answers target := answers.countP target
  booked _ _ _ _ _ := Handles.booked
  returns sender targets command timeout now w := by
    have sent : (dispatch around sender targets command timeout).Tallies
        (Handles around (fun _ _ => False) sender command) (Wake.DueBy (now + timeout.wait))
        (fun handled responses => w.cluster.Answers command.kind timeout targets handled responses)
        (fun _ => True) now w 0 := dispatch_tallies targets
    obtain ⟨handled, moved, answers⟩ := sent.run tally_handles
    rw [zero_add] at answers
    exact ⟨sent.run_le (Nat.le_add_right _ _), handled, moved, answers⟩
  races _ _ timeout _ _ _ := transmit_races timeout
  cutOff _ _ _ _ deadline _ _ := sendTo_tallies.within tally_handles (fun _ none_ => none_) deadline
  handsOver plan target entries now w := by
    rw [Rehash.handTo_eq]
    exact Rehash.retry_sendTo_tallies now w
  asks plan new source now w := by
    rw [Rehash.askForState_eq]
    exact Rehash.retry_sendTo_tallies now w
  broadcasts _ _ _ allNeeded _ _ := broadcast_tallies allNeeded
  distinct changes := Cluster.nodup_members_foldl_enlist changes List.nodup_nil

end SlotRing
