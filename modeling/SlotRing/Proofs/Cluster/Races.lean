/-
# The race between a delivery and its timeout

A command that is held back arrives after the delay, unless the sender's patience is over
before: that is a race on one clock (`race`), in which the delivery has the last word at
the timeout itself.  `transmit` knows its end beforehand, and on their own both come
to the same, at the same tick (`transmit_races`).
-/
import SlotRing.Cluster.Sending
import SlotRing.Proofs.Rehash.Deadlines

namespace SlotRing

variable {ε : Type} (around : Surroundings ε)

/-- Has a command answered, after the time that it is held back for. -/
def deliverAfter (sender : Address) (command : Command) (target : Address) (endpoint : Serial) :
    Option Duration → Procedure (World ε) Reply
  | none => deliver around sender command target endpoint
  | some delay => do
    underway endpoint delay
    deliver around sender command target endpoint

/-- Lets a delivery race with a timeout. -/
def against (timeout : Duration) (target : Address) (delivery : Procedure (World ε) Reply) :
    Procedure (World ε) (Except TransportError Reply) := do
  let now ← Procedure.now
  match ← delivery.within (now + timeout.wait) with
  | some reply => return .ok reply
  | none => return .error (.timeout target)

/-- Takes a command to one target, past the fault that is set for it, while the timeout
runs. -/
def race (sender : Address) (command : Command) (timeout : Duration) (target : Address) :
    Procedure (World ε) (Except TransportError Reply) := do
  match ← World.read (·.route? target command.kind) with
  | none => return .error (.unreachable target)
  | some (endpoint, fault) =>
    if fault.lost then
      underway endpoint timeout
      return .error (.timeout target)
    else
      against timeout target (deliverAfter around sender command target endpoint fault.delay)

/-- Who wins the race is who ends it. -/
theorem against_run {timeout : Duration} {target : Address} {delivery : Procedure (World ε) Reply}
    {now tick : Nat} {w w' : World ε} {r : Option Reply}
    (raced : (delivery.within (now + timeout.wait) now w).run now = (tick, w', r)) :
    (against timeout target delivery now w).run now =
      (tick, w', r.elim (.error (.timeout target)) .ok) := by
  refine (Procedure.run_bind (delivery.within (now + timeout.wait)) _ now w).trans ?_
  rw [raced]
  cases r <;> rfl

/-! ## A wait for the clock under a limit -/

namespace Task

variable {σ α : Type} [Paced σ] {now tick limit credit : Nat} {s : σ}
variable {resume : Nat → σ → Task σ α} {abandon : σ → σ}

/-- The clock comes first, and the task goes on. -/
theorem run_within_clock_of_le (later : now ≤ tick) (inTime : tick ≤ limit)
    (stays : ¬ (limit ≤ now ∧ 0 < credit)) :
    ((Task.wait s (.clock tick) resume abandon).within limit now credit).run now =
      ((resume tick (Paced.renew s)).within limit tick (Paced.credit (Paced.renew s))).run
        tick := by
  have goes : max now (((Wake.clock tick).either (.clock limit) : Wake σ).alarm.getD now) =
      tick := by
    rw [Wake.either_clock_alarm]
    simp only [Wake.clock, Option.map_some, Option.getD_some]
    omega
  rw [within, if_neg stays, run]
  simp only [goes]
  rw [if_pos (by simp [Wake.clock_ready_renew])]

/-- The limit comes first, and the task is cut off, at once or in a new turn. -/
theorem run_within_clock_of_lt {P : Nat × σ × Option α → Prop} (early : now ≤ limit)
    (late : limit < tick)
    (cut : ∀ s', s' = s ∨ s' = Paced.renew s → P (limit, Paced.spend (abandon s'), none)) :
    P (((Task.wait s (.clock tick) resume abandon).within limit now credit).run now) := by
  have goes : max now (((Wake.clock tick).either (.clock limit) : Wake σ).alarm.getD now) =
      limit := by
    rw [Wake.either_clock_alarm]
    simp only [Wake.clock, Option.map_some, Option.getD_some]
    omega
  rw [within]
  split
  case isTrue past =>
    rw [run, Nat.le_antisymm early past.1]
    exact cut s (.inl rfl)
  case isFalse =>
    rw [run]
    simp only [goes]
    rw [if_neg (by simpa [Wake.clock_ready_renew] using late)]
    exact cut _ (.inr rfl)

end Task

/-! ## On the way -/

namespace World

def sent (endpoint : Serial) (w : World ε) : World ε :=
  { w with cluster.approached := endpoint :: w.cluster.approached }

def arrived (endpoint : Serial) (w : World ε) : World ε :=
  { w with cluster.approached := w.cluster.approached.erase endpoint }

variable (w : World ε) (endpoint : Serial)

theorem arrived_sent (credit : Nat) :
    arrived endpoint { w.sent endpoint with credit } = { w with credit } := by
  rw [arrived, sent, List.erase_cons_head]

end World

variable {around} {sender target : Address} {command : Command} {now : Nat} {w : World ε}

/-- A command gets on its way without a stop, or it stops once for the clock; in the first case
there is no time to wait, in the second there is or the turn is over. -/
theorem underway_cases (now : Nat) (w : World ε) (endpoint : Serial) (time : Duration) :
    (time.wait = 0 ∧ underway endpoint time now w = .done { w with credit := w.credit - 1 } ()) ∨
    ((time.wait = 0 → w.credit = 0) ∧
      underway endpoint time now w = .wait (w.sent endpoint) (.clock (now + time.wait))
        (fun _ w => .done ((Paced.spend w).arrived endpoint) ()) (World.arrived endpoint)) := by
  show _ ∧ (Procedure.await (.clock (now + time.wait)) now (w.sent endpoint)).ensuring _ = _ ∨
    _ ∧ (Procedure.await (.clock (now + time.wait)) now (w.sent endpoint)).ensuring _ = _
  rw [Procedure.await]
  by_cases here : (Wake.clock (now + time.wait)).ready now (w.sent endpoint) = true
  · rw [if_pos here]
    simp only [Wake.clock, Bool.and_eq_true, decide_eq_true_eq] at here
    refine .inl ⟨by omega, ?_⟩
    exact congrArg (Task.done · ()) (w.arrived_sent endpoint (w.credit - 1))
  · rw [if_neg here]
    simp only [Wake.clock, Bool.and_eq_true, decide_eq_true_eq, not_and, Nat.not_lt] at here
    exact .inr ⟨fun none_ => Nat.le_zero.mp (here (by omega)), rfl⟩

theorem underway_run (now : Nat) (w : World ε) (endpoint : Serial) (time : Duration) :
    ∃ credit, (underway endpoint time now w).run now =
      (now + time.wait, { w with credit }, ()) := by
  rcases underway_cases now w endpoint time with ⟨none_, goes⟩ | ⟨-, goes⟩
  · exact ⟨_, by rw [goes, none_]; rfl⟩
  · refine ⟨Paced.perTurn - 1, ?_⟩
    rw [goes, ← w.arrived_sent endpoint]
    show (max now (now + time.wait), _, ()) = _
    rw [Nat.max_eq_right (Nat.le_add_right now _)]
    rfl

/-! ## The race -/

section

variable (around) (sender target : Address) (command : Command) (now : Nat) (w : World ε)
variable (endpoint : Serial) {delay timeout : Duration}

theorem deliverAfter_run_of_le (early : delay.wait ≤ timeout.wait) :
    ∃ credit, ((deliverAfter around sender command target endpoint (some delay)).within
        (now + timeout.wait) now w).run now =
      (((deliver around sender command target endpoint) (now + delay.wait) { w with credit }).within
        (now + timeout.wait) (now + delay.wait) credit).run (now + delay.wait) := by
  show ∃ credit, Task.run now (((underway endpoint delay now w).bind now fun _ =>
    deliver around sender command target endpoint).within (now + timeout.wait) now w.credit) = _
  rcases underway_cases now w endpoint delay with ⟨none_, goes⟩ | ⟨stops, goes⟩
  · rw [goes, none_]
    exact ⟨w.credit - 1, rfl⟩
  · refine ⟨Paced.perTurn - 1, ?_⟩
    rw [goes, Task.bind, Task.run_within_clock_of_le (by omega) (by omega) (by omega),
      ← w.arrived_sent endpoint]
    rfl

theorem deliverAfter_run_of_lt (late : timeout.wait < delay.wait) :
    ∃ credit, ((deliverAfter around sender command target endpoint (some delay)).within
        (now + timeout.wait) now w).run now = (now + timeout.wait, { w with credit }, none) := by
  show ∃ credit, Task.run now (((underway endpoint delay now w).bind now fun _ =>
    deliver around sender command target endpoint).within (now + timeout.wait) now w.credit) = _
  rcases underway_cases now w endpoint delay with ⟨none_, -⟩ | ⟨-, goes⟩
  · omega
  · rw [goes, Task.bind]
    refine Task.run_within_clock_of_lt (P := fun r => ∃ credit, r = (_, { w with credit }, none))
      (Nat.le_add_right now timeout.wait) (Nat.add_lt_add_left late now) ?_
    rintro w' (rfl | rfl)
    · exact ⟨w.credit - 1, by rw [← w.arrived_sent endpoint]; rfl⟩
    · exact ⟨Paced.perTurn - 1, by rw [← w.arrived_sent endpoint]; rfl⟩

end

theorem World.read_bind {α β : Type} (f : Cluster → α) (next : α → Procedure (World ε) β)
    (now : Nat) (w : World ε) : (World.read f >>= next) now w = next (f w.cluster) now w := rfl

/-- On their own, a command that is taken to its target and the race between its delivery and
its timeout come to the same at the same tick. -/
theorem transmit_races (timeout : Duration) :
    ∃ credit, (transmit around sender command timeout target now w).run now =
      (((race around sender command timeout target now w).run now).1,
        { ((race around sender command timeout target now w).run now).2.1 with credit },
        ((race around sender command timeout target now w).run now).2.2) := by
  rw [transmit, race, World.read_bind, World.read_bind]
  cases w.cluster.route? target command.kind with
  | none => exact ⟨w.credit, rfl⟩
  | some way =>
    obtain ⟨endpoint, lost, delay⟩ := way
    cases lost with
    | true => exact ⟨_, rfl⟩
    | false =>
      cases delay with
      | none => exact ⟨_, rfl⟩
      | some delay =>
        simp only [Bool.false_or, Option.any_some, decide_eq_true_eq, Bool.false_eq_true, if_false]
        by_cases late : timeout.wait < delay.wait
        · obtain ⟨credit, passed⟩ := underway_run now w endpoint timeout
          obtain ⟨credit', raced⟩ :=
            deliverAfter_run_of_lt around sender target command now w endpoint late
          rw [if_pos late, Procedure.run_bind, passed, against_run raced]
          exact ⟨credit, rfl⟩
        · obtain ⟨credit, passed⟩ := underway_run now w endpoint delay
          obtain ⟨credit', raced⟩ := deliverAfter_run_of_le around sender target command now w
            endpoint (Nat.le_of_not_lt late)
          rw [if_neg late, Procedure.run_bind, passed, against_run raced]
          exact ⟨credit, rfl⟩

/-! ## Courses -/

/-- In a turn that is not over, what follows at once on being on the way has a course. -/
theorem underway_bind_course {α : Type} (credit : 0 < w.credit) (endpoint : Serial)
    (time : Duration) {next : Unit → Procedure (World ε) α}
    (ends : ∀ now w, ∃ w' a, next () now w = .done w' a) :
    ∃ course, ((underway endpoint time >>= next) now w).Course now course := by
  show ∃ course, ((underway endpoint time now w).bind now next).Course now course
  rcases underway_cases now w endpoint time with ⟨-, goes⟩ | ⟨stops, goes⟩
  · obtain ⟨w', a, done⟩ := ends now { w with credit := w.credit - 1 }
    rw [goes, Task.bind, done]
    exact ⟨_, .done⟩
  · obtain ⟨w', a, done⟩ := ends (now + time.wait)
      ((Paced.spend (Paced.renew (w.sent endpoint))).arrived endpoint)
    have some_ : 0 < time.wait := Nat.pos_of_ne_zero fun none_ => by
      rw [stops none_] at credit
      exact absurd credit (Nat.lt_irrefl 0)
    refine ⟨some ⟨now + time.wait, w', a⟩, ?_⟩
    rw [goes]
    refine .wait (Nat.lt_add_of_pos_right some_) rfl (Wake.clock_ready_renew _ · _) ?_
    show (next () _ _).Course _ _
    rw [done]
    exact .done

theorem transmit_course (credit : 0 < w.credit) (timeout : Duration) :
    ∃ course, (transmit around sender command timeout target now w).Course now course := by
  rw [transmit, World.read_bind]
  cases w.cluster.route? target command.kind with
  | none => exact ⟨_, .done⟩
  | some way =>
    obtain ⟨endpoint, fault⟩ := way
    dsimp only
    split
    · exact underway_bind_course credit endpoint timeout fun now w => ⟨_, _, rfl⟩
    · cases fault.delay with
      | none => exact ⟨_, .done⟩
      | some delay => exact underway_bind_course credit endpoint delay fun now w => ⟨_, _, rfl⟩

end SlotRing
