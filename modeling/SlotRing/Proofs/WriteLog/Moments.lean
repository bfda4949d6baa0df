/-
# A log at any moment

Between two moments of its use a log does one thing: it is opened, it takes a transaction
or refuses it, it is dropped, or some drain goes on by one step.  `LogAct` lists these
things, and a `LogMoment` is the log with what has become of the transactions that it has
accepted, which are numbered in the order in which they came.

Nothing is said here of who acts.  Drains may overlap, be part of a call that another one
has made, or go on while the log is dropped and opened again; all that is asked for is that
a drain hands over what it has taken out.  `WriteLog.drain` goes through such moments,
whatever its callback does, as long as the callback does so too (`exists_drained`); that of
a node that ends its transition only carries transactions out.

What is taken out is older than what is pending, at every moment (`Kept`).
-/
import Mathlib.Logic.Relation
import SlotRing.Cluster.Node
import SlotRing.Proofs.Store.Values

namespace SlotRing

/-- A log at one moment, with what has become of the transactions that it accepted. -/
structure LogMoment where
  log : WriteLog
  /-- How many transactions have been accepted. -/
  count : Nat
  /-- Those accepted that have been neither handed over nor dropped, by their numbers. -/
  waiting : List (Transaction × Nat)
  /-- What drains have taken out of the log and not handed over yet. -/
  out : List (Transaction × Nat)
  /-- The writes of what was handed over that are not carried out yet. -/
  due : List Write
  /-- The writes that were carried out on the store. -/
  done : List Write
  /-- All writes that were acknowledged. -/
  acked : List Write

/-- What is done with a log at once. -/
inductive LogAct where
  | enable
  /-- A transaction is offered.  Whoever finds that the log refuses it carries it out. -/
  | offer (tx : Transaction)
  | abort
  /-- A drain begins. -/
  | start
  /-- A drain takes out what is pending. -/
  | take
  /-- A drain hands over one transaction of those that are out. -/
  | hand (e : Transaction × Nat)
  /-- One of the writes that are due is carried out. -/
  | carry (w : Write)
  /-- A drain that finds nothing pending closes the log. -/
  | close

namespace LogMoment

def fresh : LogMoment := ⟨.closed, 0, [], [], [], [], []⟩

variable (m : LogMoment)

/-- What is pending, by number: nothing that came later has been taken out. -/
def pending : List (Transaction × Nat) :=
  m.log.pending.zipIdx (m.count - m.log.pending.length)

/-! ## What can be done -/

def logged (log : WriteLog) (tx : Transaction) : LogMoment :=
  { m with
    log
    count := m.count + 1
    waiting := m.waiting ++ [(tx, m.count)]
    acked := m.acked ++ tx.writes }

def carriedOut (tx : Transaction) : LogMoment :=
  { m with done := m.done ++ tx.writes, acked := m.acked ++ tx.writes }

def dropped : LogMoment := { m with log := m.log.abort, waiting := [] }

def started : LogMoment := { m with log := { m.log with state := .draining } }

def taken : LogMoment :=
  { m with log := { m.log with pending := [] }, out := m.out ++ m.pending }

def handed (e : Transaction × Nat) : LogMoment :=
  { m with
    waiting := m.waiting.filter (· ≠ e)
    out := m.out.erase e
    due := m.due ++ e.1.writes }

def carried (w : Write) : LogMoment :=
  { m with due := m.due.erase w, done := m.done ++ [w] }

def settled : LogMoment := { m with log := m.log.settle }

end LogMoment

open LogMoment in
/-- What one thing that is done leads to. -/
inductive LogAct.Step : LogAct → LogMoment → LogMoment → Prop
  | enable {m : LogMoment} {log : WriteLog} :
      m.log.enable? = some log → Step .enable m { m with log }
  | logged {m : LogMoment} {log : WriteLog} {tx : Transaction} :
      m.log.append? tx = some log → Step (.offer tx) m (m.logged log tx)
  | refused {m : LogMoment} {tx : Transaction} :
      m.log.append? tx = none → Step (.offer tx) m (m.carriedOut tx)
  | abort (m : LogMoment) : Step .abort m m.dropped
  | start {m : LogMoment} : m.log.isActive = true → Step .start m m.started
  | take (m : LogMoment) : Step .take m m.taken
  | hand {m : LogMoment} {e : Transaction × Nat} : e ∈ m.out → Step (.hand e) m (m.handed e)
  | carry {m : LogMoment} {w : Write} : w ∈ m.due → Step (.carry w) m (m.carried w)
  | close (m : LogMoment) : Step .close m m.settled

namespace LogMoment

/-- From the one moment to the other, by acts that are allowed. -/
def Onward (allowed : LogAct → LogMoment → Prop) : LogMoment → LogMoment → Prop :=
  Relation.ReflTransGen fun m m' => ∃ act, allowed act m ∧ act.Step m m'

instance (allowed : LogAct → LogMoment → Prop) :
    Trans (Onward allowed) (Onward allowed) (Onward allowed) where
  trans := Relation.ReflTransGen.trans

/-- Any moment in the use of a log. -/
def Reached (m : LogMoment) : Prop := Onward (fun _ _ => True) fresh m

theorem Onward.step {allowed : LogAct → LogMoment → Prop} {m m' : LogMoment} {act : LogAct}
    (ok : allowed act m) (step : act.Step m m') : Onward allowed m m' :=
  .single ⟨act, ok, step⟩

/-! ## What is out is older than what is pending -/

/-- What holds of a log at every moment: the transactions that wait are those that are out,
and behind them those that are pending. -/
structure Kept (m : LogMoment) : Prop where
  empty : m.log.state = .disabled → m.log.pending = []
  enough : m.log.pending.length ≤ m.count
  older : ∀ e ∈ m.out, e.2 < m.count - m.log.pending.length
  waiting : ∃ before, m.waiting = before ++ m.pending ∧ ∀ e ∈ before, e ∈ m.out

variable {m m' : LogMoment}

theorem not_mem_pending (kept : m.Kept) {e : Transaction × Nat} (out : e ∈ m.out) :
    e ∉ m.pending := by
  intro mem
  have young := (List.mem_zipIdx mem).1
  have old := kept.older e out
  omega

theorem kept_fresh : Kept fresh where
  empty _ := rfl
  enough := Nat.le_refl 0
  older _ mem := absurd mem List.not_mem_nil
  waiting := ⟨[], rfl, fun _ mem => absurd mem List.not_mem_nil⟩

theorem Kept.congr (kept : m.Kept) (pending : m'.log.pending = m.log.pending)
    (state : m'.log.state = .disabled → m.log.pending = []) (count : m'.count = m.count)
    (waiting : m'.waiting = m.waiting) (out : m'.out = m.out) : m'.Kept where
  empty closed := pending.trans (state closed)
  enough := by rw [pending, count]; exact kept.enough
  older := by rw [pending, count, out]; exact kept.older
  waiting := by rw [LogMoment.pending, pending, count, waiting, out]; exact kept.waiting

theorem Kept.logged (kept : m.Kept) {log : WriteLog} {tx : Transaction}
    (taken : m.log.append? tx = some log) : (m.logged log tx).Kept := by
  obtain ⟨before, waiting, out⟩ := kept.waiting
  have enough := kept.enough
  have active : m.log.isActive = true := by
    by_contra closed
    rw [WriteLog.append?, if_neg closed] at taken
    cases taken
  rw [WriteLog.append?, if_pos active] at taken
  cases taken
  have first : m.count + 1 - (m.log.pending ++ [tx]).length = m.count - m.log.pending.length := by
    rw [List.length_append, List.length_singleton]
    omega
  refine ⟨?_, ?_, ?_, before, ?_, out⟩
  · intro closed
    rw [WriteLog.isActive, decide_eq_true_iff] at active
    exact absurd closed active
  · show (m.log.pending ++ [tx]).length ≤ m.count + 1
    rw [List.length_append, List.length_singleton]
    omega
  · show ∀ e ∈ m.out, e.2 < m.count + 1 - (m.log.pending ++ [tx]).length
    rw [first]
    exact kept.older
  · show m.waiting ++ [(tx, m.count)] = before ++ (m.log.pending ++ [tx]).zipIdx
      (m.count + 1 - (m.log.pending ++ [tx]).length)
    rw [first, List.zipIdx_append, Nat.sub_add_cancel enough, waiting, List.append_assoc]
    rfl

theorem Kept.dropped (kept : m.Kept) : m.dropped.Kept where
  empty _ := rfl
  enough := Nat.zero_le _
  older e mem := Nat.lt_of_lt_of_le (kept.older e mem) (Nat.sub_le_sub_left (Nat.zero_le _) _)
  waiting := ⟨[], rfl, fun _ mem => absurd mem List.not_mem_nil⟩

theorem Kept.taken (kept : m.Kept) : m.taken.Kept where
  empty _ := rfl
  enough := Nat.zero_le _
  older e mem := by
    have enough := kept.enough
    show e.2 < m.count
    rcases List.mem_append.mp mem with old | young
    · exact Nat.lt_of_lt_of_le (kept.older e old) (Nat.sub_le _ _)
    · have last := (List.mem_zipIdx young).2.1
      omega
  waiting := by
    obtain ⟨before, waiting, out⟩ := kept.waiting
    refine ⟨m.waiting, (List.append_nil _).symm, fun e mem => ?_⟩
    rw [waiting] at mem
    rcases List.mem_append.mp mem with old | young
    · exact List.mem_append_left _ (out e old)
    · exact List.mem_append_right _ young

theorem Kept.handed (kept : m.Kept) {e : Transaction × Nat} (mem : e ∈ m.out) :
    (m.handed e).Kept where
  empty := kept.empty
  enough := kept.enough
  older e' mem' := kept.older e' (List.mem_of_mem_erase mem')
  waiting := by
    obtain ⟨before, waiting, out⟩ := kept.waiting
    refine ⟨before.filter (· ≠ e), ?_, fun e' mem' => ?_⟩
    · show m.waiting.filter (· ≠ e) = _ ++ m.pending
      have young : m.pending.filter (· ≠ e) = m.pending := by
        rw [List.filter_eq_self]
        intro e' mem'
        rw [decide_eq_true_iff]
        rintro rfl
        exact not_mem_pending kept mem mem'
      rw [waiting, List.filter_append, young]
    · obtain ⟨mem', other⟩ := List.mem_filter.mp mem'
      exact (List.mem_erase_of_ne (by simpa using other)).mpr (out e' mem')

theorem Kept.settled (kept : m.Kept) : m.settled.Kept := by
  have pending : m.log.settle.pending = m.log.pending := by
    rw [WriteLog.settle]
    split <;> rfl
  refine kept.congr pending (fun closed => ?_) rfl rfl rfl
  rw [LogMoment.settled, WriteLog.settle] at closed
  split at closed
  · next empty => exact List.isEmpty_iff.mp empty
  · exact kept.empty closed

theorem Kept.step (kept : m.Kept) {act : LogAct} (step : act.Step m m') : m'.Kept := by
  cases step with
  | enable opened =>
    rw [WriteLog.enable?] at opened
    split at opened
    · next closed =>
      cases opened
      exact kept.congr rfl (fun _ => kept.empty closed) rfl rfl rfl
    · cases opened
  | logged taken => exact kept.logged taken
  | refused _ => exact kept.congr rfl kept.empty rfl rfl rfl
  | abort => exact kept.dropped
  | start _ => exact kept.congr rfl (fun closed => by cases closed) rfl rfl rfl
  | take => exact kept.taken
  | hand mem => exact kept.handed mem
  | carry _ => exact kept.congr rfl kept.empty rfl rfl rfl
  | close => exact kept.settled

theorem Kept.onward {allowed : LogAct → LogMoment → Prop} (kept : m.Kept)
    (onward : Onward allowed m m') : m'.Kept := by
  induction onward with
  | refl => exact kept
  | tail _ step ih =>
    obtain ⟨act, -, step⟩ := step
    exact ih.step step

theorem Reached.kept (reached : m.Reached) : m.Kept := kept_fresh.onward reached

/-! ## The moments of a drain -/

/-- A batch is handed over, one transaction after the other; in between anything may
happen. -/
inductive Replays : List (Transaction × Nat) → LogMoment → LogMoment → Prop
  | nil (m : LogMoment) : Replays [] m m
  | cons {e : Transaction × Nat} {rest : List (Transaction × Nat)} {m m' m'' : LogMoment} :
      e ∈ m.out → Onward (fun _ _ => True) (m.handed e) m' → Replays rest m' m'' →
      Replays (e :: rest) m m''

/-- Batch after batch is taken out and handed over, and the log is closed if nothing is
pending then. -/
inductive Drained : LogMoment → LogMoment → Prop
  | close (m : LogMoment) : Drained m m.settled
  | batch {m m' m'' : LogMoment} : Replays m.pending m.taken m' → Drained m' m'' → Drained m m''

theorem Replays.onward {batch : List (Transaction × Nat)} (replays : Replays batch m m') :
    Onward (fun _ _ => True) m m' := by
  induction replays with
  | nil => exact .refl
  | cons mem meanwhile _ ih => exact ((Onward.step trivial (.hand mem)).trans meanwhile).trans ih

/-- So all that is said of any moment is said of those within a drain. -/
theorem Drained.onward (drained : Drained m m') : Onward (fun _ _ => True) m m' := by
  induction drained with
  | close m => exact .step trivial (.close m)
  | batch replays _ ih => exact ((Onward.step trivial (.take _)).trans replays.onward).trans ih

section

variable {σ : Type} {apply : Nat → Transaction → WriteLog × σ → WriteLog × σ}

/-- What a callback does to the log is what can be done to a log, and it leaves alone what
else has been taken out. -/
def Acts (apply : Nat → Transaction → WriteLog × σ → WriteLog × σ) : Prop :=
  ∀ (i : Nat) (e : Transaction × Nat) (s : σ) (m : LogMoment), m.Kept → e ∈ m.out →
    ∃ m', Onward (fun _ _ => True) (m.handed e) m' ∧
      m'.log = (apply i e.1 (m.log, s)).1 ∧ ∀ e' ∈ m.out, e' ≠ e → e' ∈ m'.out

theorem acts_of_carrying (carry : Transaction → σ → σ) :
    Acts fun _ tx (s : WriteLog × σ) => (s.1, carry tx s.2) :=
  fun _ e _ m _ _ => ⟨m.handed e, .refl, rfl, fun _ mem other =>
    (List.mem_erase_of_ne other).mpr mem⟩

theorem exists_replays (acts : Acts apply) {batch : List (Transaction × Nat)}
    (distinct : batch.Nodup) (i : Nat) (s : σ) (kept : m.Kept) (out : ∀ e ∈ batch, e ∈ m.out) :
    ∃ m', Replays batch m m' ∧
      m'.log = (WriteLog.replay apply i (batch.map Prod.fst) (m.log, s)).1 ∧
      ∀ e ∈ m.out, e ∉ batch → e ∈ m'.out := by
  induction batch generalizing i m s with
  | nil => exact ⟨m, .nil m, rfl, fun _ mem _ => mem⟩
  | cons e rest ih =>
    rw [List.nodup_cons] at distinct
    have first := out e List.mem_cons_self
    obtain ⟨m', meanwhile, log, left⟩ := acts i e s m kept first
    obtain ⟨m'', replays, last, left'⟩ := ih distinct.2 (i + 1) (apply i e.1 (m.log, s)).2
      ((kept.handed first).onward meanwhile)
      fun e' mem => left e' (out e' (List.mem_cons_of_mem _ mem))
        fun same => distinct.1 (same ▸ mem)
    refine ⟨m'', .cons first meanwhile replays, ?_, fun e' mem other => ?_⟩
    · rw [last, log]
      rfl
    · rw [List.mem_cons, not_or] at other
      exact left' e' (left e' mem other.1) other.2

theorem map_fst_pending (m : LogMoment) : m.pending.map Prod.fst = m.log.pending :=
  List.zipIdx_map_fst _ _

theorem nodup_pending (m : LogMoment) : m.pending.Nodup := by
  have numbers : (m.pending.map Prod.snd).Nodup := by
    rw [pending, List.zipIdx_map_snd]
    exact List.nodup_range'
  exact numbers.of_map _

theorem exists_drained_from (acts : Acts apply) (rounds done : Nat) (s : σ) (kept : m.Kept) :
    ∃ m', Drained m m' ∧ m'.log = (WriteLog.drainFrom apply rounds done (m.log, s)).2.1 ∧
      ∀ e ∈ m.out, e ∈ m'.out := by
  induction rounds generalizing m done s with
  | zero => exact ⟨_, .close m, rfl, fun _ mem => mem⟩
  | succ rounds ih =>
    by_cases empty : m.log.pending.isEmpty = true
    · refine ⟨_, .close m, ?_, fun _ mem => mem⟩
      rw [WriteLog.drainFrom, if_pos empty]
      rfl
    · obtain ⟨m', replays, log, left⟩ := exists_replays acts m.nodup_pending done s kept.taken
        fun e mem => List.mem_append_right _ mem
      rw [map_fst_pending] at log
      obtain ⟨m'', drained, last, left'⟩ := ih (m := m') (done + m.log.pending.length)
        (WriteLog.replay apply done m.log.pending (m.taken.log, s)).2
        (kept.taken.onward replays.onward)
      refine ⟨m'', .batch replays drained, ?_, fun e mem => left' e (left e ?_ ?_)⟩
      · rw [WriteLog.drainFrom, if_neg empty, last, log]
        rfl
      · exact List.mem_append_left _ mem
      · exact not_mem_pending kept mem

/-- A drain goes from one such moment to the next one, whatever its callback does. -/
theorem exists_drained (acts : Acts apply) (rounds : Nat) (s : σ) (kept : m.Kept)
    (active : m.log.isActive = true) :
    ∃ m', Drained m.started m' ∧ m'.log = (m.log.drain apply rounds s).2.1 ∧
      ∀ e ∈ m.out, e ∈ m'.out := by
  rw [WriteLog.drain, if_pos active]
  exact exists_drained_from acts rounds 0 s (kept.step (.start active))

theorem exists_drained_finishTransition {n : Node} (reached : m.Reached) (log : m.log = n.log)
    (active : n.log.isActive = true) :
    ∃ m', m'.Reached ∧ Drained m.started m' ∧ m'.log = n.finishTransition.log := by
  have on : m.log.isActive = true := log ▸ active
  obtain ⟨m', drained, last, -⟩ := exists_drained
    (acts_of_carrying fun tx (store : Store) => store.writeAll tx.writes) 1 n.store
    reached.kept on
  have onward : Onward (fun _ _ => True) m m' :=
    (Onward.step trivial (.start on)).trans drained.onward
  refine ⟨m', reached.trans onward, drained, ?_⟩
  rw [last, log]
  rfl

end

end LogMoment

end SlotRing
