/-
# Trying again until the deadline

What becomes of a try that nobody cuts off is its course (`Task.Course`): it ends
at some tick, or never.  With the courses of its tries, what `retryUntil` comes to
is determined (`Retried`): a try that ends when the clock has not passed the
deadline counts, and so does one that does not wait at all; after an error the next
one starts a pause later, and only before the deadline; whatever else happens is a
timeout.

The clock ticks in whole milliseconds.  A deadline between two ticks has not
passed for it before the second of them (`lt_deadlineTick_iff`), and a try that
ends there still counts.
-/
import Mathlib.Data.List.Chain
import SlotRing.Proofs.Time.Alone
import SlotRing.Rehash.Basic

namespace SlotRing

/-- The tick of a deadline is the first that is not before it. -/
theorem lt_deadlineTick_iff (tick deadline : Nat) :
    tick < deadlineTick deadline ↔ tick * Duration.perTick < deadline := by
  simp only [deadlineTick, Duration.ticks, Duration.perTick]
  omega

/-- There are tries for every tick that is left, and more. -/
theorem lt_tries (now deadline : Nat) :
    deadlineTick deadline - now < (deadlineTick deadline - now + 1) * triesPerTick :=
  Nat.lt_of_lt_of_le (Nat.lt_succ_self _) (Nat.le_mul_of_pos_right _ (by decide))

theorem Paced.credit_spend_renew_pos {σ : Type} [Paced σ] (s : σ) :
    0 < credit (spend (renew s)) := by
  simp [spend, renew, credit_setCredit, perTurn]

/-! ## The course of a task -/

theorem Wake.either_clock_alarm {σ : Type} [Paced σ] (wake : Wake σ) (limit : Nat) :
    (wake.either (.clock limit)).alarm = some ((wake.alarm.map (min · limit)).getD limit) := by
  simp only [Wake.either, Wake.clock]
  cases wake.alarm <;> rfl

/-- What a task that ends leaves behind, and when. -/
structure Ending (σ α : Type) where
  tick : Nat
  state : σ
  result : α

/-- Of something that starts at `start`: it ends at a tick up to `limit`, or
without any time passing. -/
def Ending.InTime {σ α : Type} (e : Ending σ α) (start limit : Nat) : Prop :=
  e.tick ≤ limit ∨ e.tick = start

namespace Task

variable {σ α β : Type} [Paced σ]

/-- The course of a task that is on its own and not cut off: whenever it stops, it
waits for a later tick, or for what never comes about. -/
inductive Course : Nat → Task σ α → Option (Ending σ α) → Prop
  | done {now s a} : Course now (.done s a) (some ⟨now, s, a⟩)
  | wait {now tick s wake resume abandon course} (later : now < tick)
      (alarm : wake.alarm = some tick)
      (ready : ∀ t, wake.ready t (Paced.renew s) = decide (tick ≤ t))
      (rest : Course tick (resume tick (Paced.renew s)) course) :
      Course now (.wait s wake resume abandon) course
  | never {now s wake resume abandon} (alarm : wake.alarm = none)
      (ready : ∀ t, wake.ready t (Paced.renew s) = false) :
      Course now (.wait s wake resume abandon) none

theorem Course.start_le {now : Nat} {t : Task σ α} {e : Ending σ α}
    (h : t.Course now (some e)) : now ≤ e.tick := by
  generalize hc : some e = course at h
  induction h with
  | done =>
    cases hc
    exact Nat.le_refl _
  | wait later alarm ready rest ih => exact Nat.le_trans (Nat.le_of_lt later) (ih hc)
  | never alarm ready => cases hc

theorem Course.bind {now : Nat} {t : Task σ α} {e : Ending σ α} {next : α → Procedure σ β}
    {course : Option (Ending σ β)} (h : t.Course now (some e))
    (then_ : (next e.result e.tick e.state).Course e.tick course) (start : Nat)
    (begun : start = now) : (t.bind start next).Course now course := by
  generalize hc : some e = first at h
  induction h generalizing start with
  | done =>
    cases hc
    cases begun
    exact then_
  | wait later alarm ready rest ih => exact .wait later alarm ready (ih _ rfl hc)
  | never alarm ready => cases hc

theorem Course.bind_never {now : Nat} {t : Task σ α} {next : α → Procedure σ β}
    (h : t.Course now none) (start : Nat) : (t.bind start next).Course now none := by
  generalize hc : none = first at h
  induction h generalizing start with
  | done => cases hc
  | wait later alarm ready rest ih => exact .wait later alarm ready (ih _ hc)
  | never alarm ready => exact .never alarm ready

theorem Course.run_eq {now : Nat} {t : Task σ α} {e : Ending σ α} (h : t.Course now (some e)) :
    t.run now = (e.tick, e.state, e.result) := by
  generalize hc : some e = course at h
  induction h with
  | done =>
    cases hc
    rfl
  | @wait now tick s wake resume abandon course later alarm ready rest ih =>
    have goes : max now (wake.alarm.getD now) = tick := by
      rw [alarm, Option.getD_some]
      omega
    rw [Task.run, goes]
    exact ih hc
  | never alarm ready => cases hc

/-! ### Cut off at a tick -/

/-- A task that ends in time ends under a limit as it does without. -/
theorem Course.run_within {now : Nat} {t : Task σ α} {e : Ending σ α} {limit : Nat}
    (h : t.Course now (some e)) (inTime : e.InTime now limit) (credit : Nat) :
    (t.within limit now credit).run now = (e.tick, e.state, some e.result) := by
  generalize hc : some e = course at h
  induction h generalizing credit with
  | done =>
    cases hc
    rfl
  | @wait now tick s wake resume abandon course later alarm ready rest ih =>
    cases hc
    have after : tick ≤ e.tick := rest.start_le
    have early : tick ≤ limit := by
      rcases inTime with h | h <;> omega
    have goes : max now ((wake.either (.clock limit)).alarm.getD now) = tick := by
      simp only [Wake.either_clock_alarm, alarm, Option.map_some, Option.getD_some]
      omega
    rw [within, if_neg (by omega), run]
    simp only [goes]
    rw [if_pos (by simp [ready])]
    refine ih ?_ _ rfl
    rcases inTime with h | h
    · exact .inl h
    · omega
  | never alarm ready => cases hc

/-- A task that does not end in time is cut off at the limit, or at once if that is
past. -/
theorem Course.run_within_late {now : Nat} {t : Task σ α} {course : Option (Ending σ α)}
    (h : t.Course now course) (limit : Nat) (late : ∀ e ∈ course, ¬ e.InTime now limit)
    (credit : Nat) :
    ∃ s, (t.within limit now credit).run now = (max now limit, s, none) := by
  induction h generalizing credit with
  | done => exact (late _ rfl (.inr rfl)).elim
  | @wait now tick s wake resume abandon course later alarm ready rest ih =>
    rw [within]
    split
    case isTrue past => exact ⟨_, by rw [run, Nat.max_eq_left past.1]⟩
    rw [run]
    by_cases early : tick ≤ limit
    · -- the task goes on, and what is left of it is late, too
      have goes : max now ((wake.either (.clock limit)).alarm.getD now) = tick := by
        simp only [Wake.either_clock_alarm, alarm, Option.map_some, Option.getD_some]
        omega
      have late' : ∀ e ∈ course, ¬ e.InTime tick limit := by
        rintro e he (h | h)
        · exact late e he (.inl h)
        · exact late e he (.inl (h ▸ early))
      obtain ⟨s', cut⟩ := ih late' (Paced.credit (Paced.renew s))
      refine ⟨s', ?_⟩
      simp only [goes]
      rw [if_pos (by simp [ready]), cut, Nat.max_eq_right early,
        Nat.max_eq_right (by omega)]
    · have goes : max now ((wake.either (.clock limit)).alarm.getD now) = max now limit := by
        simp only [Wake.either_clock_alarm, alarm, Option.map_some, Option.getD_some]
        omega
      simp only [goes]
      rw [if_neg (by simp only [ready, decide_eq_true_eq]; omega)]
      exact ⟨_, rfl⟩
  | @never now s wake resume abandon alarm ready =>
    rw [within]
    split
    case isTrue past => exact ⟨_, by rw [run, Nat.max_eq_left past.1]⟩
    have goes : max now ((wake.either (.clock limit)).alarm.getD now) = max now limit := by
      rw [Wake.either_clock_alarm, alarm]
      rfl
    rw [run]
    simp only [goes]
    rw [if_neg (by simp [ready])]
    exact ⟨_, rfl⟩

end Task

namespace Procedure

variable {σ : Type} [Paced σ]

theorem sleep_course {ticks : Nat} (some_ : 0 < ticks) (now : Nat) (s : σ) :
    ((sleep ticks : Procedure σ Unit) now s).Course now
      (some ⟨now + ticks, Paced.spend (Paced.renew s), ()⟩) := by
  have stops : (Wake.clock (σ := σ) (now + ticks)).ready now s = false := by
    simp only [Wake.clock, Bool.and_eq_false_iff, decide_eq_false_iff_not]
    omega
  show (await (.clock (now + ticks)) now s).Course now _
  rw [await, stops]
  exact .wait (Nat.lt_add_of_pos_right some_) rfl (Wake.clock_ready_renew _ · s) .done

theorem await_never_course (now : Nat) (s : σ) :
    ((await ⟨none, fun _ _ => false⟩ : Procedure σ Unit) now s).Course now none :=
  .never rfl fun _ => rfl

end Procedure

/-! ## One try after the other -/

/-- A try of a step: when and in what state it starts, and what its course is. -/
structure Try (σ α : Type) where
  start : Nat
  state : σ
  course : Option (Ending σ (Except RehashError α))

namespace Try

variable {σ α : Type}

def Counts (t : Try σ α) (deadline : Nat) (e : Ending σ (Except RehashError α)) : Prop :=
  t.course = some e ∧ e.InTime t.start (deadlineTick deadline)

/-- A try follows on another one, which has failed in time: it starts a pause later
and before the deadline, in the state that the other one has left. -/
def Follows [Paced σ] (deadline backoff : Nat) (t u : Try σ α) : Prop :=
  ∃ e cause, t.Counts deadline e ∧ e.result = .error cause ∧
    u.start = e.tick + backoff ∧ u.start * Duration.perTick < deadline ∧
    u.state = Paced.spend (Paced.renew e.state)

/-- What the last try comes to, and when that is known. -/
inductive Concludes (phase : Phase) (deadline backoff : Nat) (t : Try σ α) :
    Nat → Except RehashError α → Prop
  | success {e value} (counts : t.Counts deadline e) (succeeds : e.result = .ok value) :
      Concludes phase deadline backoff t e.tick (.ok value)
  /-- There is no time for another try. -/
  | gaveUp {e cause} (counts : t.Counts deadline e) (fails : e.result = .error cause)
      (tooLate : deadline ≤ (e.tick + backoff) * Duration.perTick) :
      Concludes phase deadline backoff t e.tick (.error (.timeout phase))
  | cutOff (late : ∀ e, ¬ t.Counts deadline e) :
      Concludes phase deadline backoff t (max t.start (deadlineTick deadline))
        (.error (.timeout phase))

end Try

/-- A step is tried from a tick and a state on, again and again: the tries that are
made, one after the other, and what the last of them comes to. -/
structure Retried {σ α : Type} [Paced σ] (attempt : Procedure σ (Except RehashError α))
    (phase : Phase) (deadline backoff now : Nat) (s : σ) (tries : List (Try σ α))
    (finish : Nat) (result : Except RehashError α) : Prop where
  courses : ∀ t ∈ tries, (attempt t.start t.state).Course t.start t.course
  first : tries.head?.map (fun t => (t.start, t.state)) = some (now, s)
  next : tries.IsChain (Try.Follows deadline backoff)
  last : ∃ t, tries.getLast? = some t ∧ t.Concludes phase deadline backoff finish result

namespace Retried

variable {σ α : Type} [Paced σ] {attempt : Procedure σ (Except RehashError α)} {phase : Phase}
variable {deadline backoff now : Nat} {s : σ} {finish : Nat} {result : Except RehashError α}

theorem once {t : Try σ α} (course : (attempt t.start t.state).Course t.start t.course)
    (concludes : t.Concludes phase deadline backoff finish result) :
    Retried attempt phase deadline backoff t.start t.state [t] finish result where
  courses := by simpa using course
  first := rfl
  next := .singleton t
  last := ⟨t, rfl, concludes⟩

theorem cons {t : Try σ α} {tries : List (Try σ α)}
    (course : (attempt t.start t.state).Course t.start t.course)
    (follows : ∀ u : Try σ α, u.start = now → u.state = s → t.Follows deadline backoff u)
    (h : Retried attempt phase deadline backoff now s tries finish result) :
    Retried attempt phase deadline backoff t.start t.state (t :: tries) finish result := by
  have first := h.first
  obtain ⟨u, us, rfl⟩ : ∃ u us, tries = u :: us := by
    cases tries with
    | nil => simp at first
    | cons u us => exact ⟨u, us, rfl⟩
  have begins : u.start = now ∧ u.state = s := by simpa using first
  refine ⟨?_, rfl, ?_, ?_⟩
  · rintro v (_ | ⟨_, hv⟩)
    · exact course
    · exact h.courses v hv
  · exact .cons_cons (follows u begins.1 begins.2) h.next
  · obtain ⟨v, hv, concludes⟩ := h.last
    exact ⟨v, by simpa using hv, concludes⟩

end Retried

section

variable {σ α : Type} [Paced σ] {attempt : Procedure σ (Except RehashError α)}

/-- What a try comes to under the deadline decides how it goes on. -/
theorem retryFor_run {phase : Phase} {deadline backoff : Nat} (pause : 0 < backoff) (n : Nat)
    {now finish : Nat} {s s' : σ} {tried : Option (Except RehashError α)} :
    (attempt.within (deadlineTick deadline) now s).run now = (finish, s', tried) →
    (retryFor phase deadline backoff attempt (n + 1) now s).run now =
      match tried with
      | none => (finish, s', .error (.timeout phase))
      | some (.ok value) => (finish, s', .ok value)
      | some (.error _) =>
        if deadline ≤ (finish + backoff) * Duration.perTick then
          (finish, s', .error (.timeout phase))
        else
          (retryFor phase deadline backoff attempt n (finish + backoff)
            (Paced.spend (Paced.renew s'))).run (finish + backoff) := by
  intro once
  rw [retryFor]
  refine (Procedure.run_bind (attempt.within (deadlineTick deadline)) _ now s).trans ?_
  simp only [once]
  rcases tried with _ | cause | value
  · rfl
  · show Task.run finish ((if _ then _ else _ : Procedure σ (Except RehashError α)) finish s') = _
    split
    · rfl
    · rw [Procedure.run_bind, (Procedure.sleep_course pause finish s').run_eq]
  · rfl

/-- As many tries as there are ticks left are enough, since there is a pause after
each. -/
theorem retryFor_retried
    (courses : ∀ now s, 0 < Paced.credit s → ∃ course, (attempt now s).Course now course)
    (phase : Phase) (deadline : Nat) {backoff : Nat} (pause : 0 < backoff) (n : Nat) {now : Nat}
    {s : σ} (first : ∃ course, (attempt now s).Course now course)
    (enough : deadlineTick deadline - now < n) :
    ∃ tries, Retried attempt phase deadline backoff now s tries
      ((retryFor phase deadline backoff attempt n now s).run now).1
      ((retryFor phase deadline backoff attempt n now s).run now).2.2 := by
  induction n generalizing now s with
  | zero => omega
  | succ n ih =>
    obtain ⟨course, runs⟩ := first
    let t : Try σ α := ⟨now, s, course⟩
    by_cases late : ∀ e, ¬ t.Counts deadline e
    · obtain ⟨s', cut⟩ := runs.run_within_late (deadlineTick deadline)
        (fun e he inTime => late e ⟨he, inTime⟩) (Paced.credit s)
      rw [retryFor_run pause n cut]
      exact ⟨[t], .once (t := t) runs (.cutOff late)⟩
    · obtain ⟨e, counts⟩ : ∃ e, t.Counts deadline e := by simpa using late
      obtain rfl : course = some e := counts.1
      have once := runs.run_within counts.2 (Paced.credit s)
      rw [retryFor_run pause n once]
      match result : e.result with
      | .ok value => exact ⟨[t], .once (t := t) runs (.success counts result)⟩
      | .error cause =>
        simp only
        split
        case isTrue tooLate => exact ⟨[t], .once (t := t) runs (.gaveUp counts result tooLate)⟩
        case isFalse inTime =>
          have before : (e.tick + backoff) * Duration.perTick < deadline := Nat.lt_of_not_le inTime
          have left := (lt_deadlineTick_iff (e.tick + backoff) deadline).mpr before
          have since : now ≤ e.tick := runs.start_le
          have again := courses (e.tick + backoff) (Paced.spend (Paced.renew e.state))
            (Paced.credit_spend_renew_pos e.state)
          obtain ⟨tries, retried⟩ := ih again (by omega)
          refine ⟨t :: tries, .cons (t := t) runs (fun u start state => ?_) retried⟩
          exact ⟨e, cause, counts, result, start, start ▸ before, state⟩

/-- A step is tried again until the deadline, whatever its tries take and come to:
the first try starts at once and every other one a pause after the failure before
it, strictly before the deadline; the value of the first try that succeeds in time
is the result, and otherwise a timeout of the phase; no try goes on when the clock
has passed the deadline. -/
theorem retryUntil_meets_deadline
    (courses : ∀ now s, 0 < Paced.credit s → ∃ course, (attempt now s).Course now course)
    (phase : Phase) (deadline : Nat) {backoff : Nat} (pause : 0 < backoff) {now : Nat} {s : σ}
    (first : ∃ course, (attempt now s).Course now course) :
    ∃ tries, Retried attempt phase deadline backoff now s tries
      ((retryUntil phase deadline backoff attempt now s).run now).1
      ((retryUntil phase deadline backoff attempt now s).run now).2.2 :=
  retryFor_retried courses phase deadline pause _ first (lt_tries now deadline)

end

/-! ## Tries by a script -/

def lasting {σ α : Type} [Paced σ] :
    Option (Nat × Except RehashError α) → Procedure σ (Except RehashError α)
  | none => do
    Procedure.await ⟨none, fun _ _ => false⟩
    return .error .alreadyInProgress
  | some (0, result) => return result
  | some (ticks + 1, result) => do
    Procedure.sleep (ticks + 1)
    return result

theorem lasting_course {σ α : Type} [Paced σ] (now : Nat) (s : σ) :
    (script : Option (Nat × Except RehashError α)) →
      ∃ course, (lasting script now s).Course now course
  | none => ⟨_, (Procedure.await_never_course now s).bind_never now⟩
  | some (0, _) => ⟨_, .done⟩
  | some (ticks + 1, _) => ⟨_, (Procedure.sleep_course ticks.succ_pos now s).bind .done now rfl⟩

/-- A step whose tries go by a script; the surroundings count them. -/
def scripted {α : Type} (script : Nat → Option (Nat × Except RehashError α)) :
    Procedure (World Nat) (Except RehashError α) := fun now w =>
  lasting (script w.outside) now { w with outside := w.outside + 1 }

/-- One try fails after five ticks, and the next one starts after a pause of twenty and
succeeds after three. -/
theorem retryUntil_meets_deadline_of_script :
    let attempt := scripted fun n => if n = 0 then some (5, .error .alreadyInProgress)
      else some (3, .ok n)
    let start : World Nat := { cluster := {}, outside := 0 }
    let ran := (retryUntil .fetchOldMapping 50000000 20 attempt 0 start).run 0
    ran.1 = 28 ∧ ran.2.2 = .ok 1 ∧
      ∃ tries, Retried attempt .fetchOldMapping 50000000 20 0 start tries ran.1 ran.2.2 :=
  ⟨rfl, rfl, retryUntil_meets_deadline (fun _ _ _ => lasting_course _ _ _) .fetchOldMapping
    50000000 (by decide) (lasting_course _ _ _)⟩

/-- With a deadline between two ticks, a try that ends at the second of them still
counts, although the deadline has passed. -/
theorem try_counts_past_deadline :
    let attempt := scripted fun _ => some (51, .ok ())
    let start : World Nat := { cluster := {}, outside := 0 }
    let ran := (retryUntil .fetchOldMapping 50500000 20 attempt 0 start).run 0
    ran.1 = 51 ∧ ran.2.2 = .ok () ∧ 50500000 < ran.1 * Duration.perTick := by
  refine ⟨rfl, rfl, ?_⟩
  show 50500000 < 51 * Duration.perTick
  decide

end SlotRing
