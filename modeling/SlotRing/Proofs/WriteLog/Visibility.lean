/-
# What a reader sees of the transactions that wait

A log answers for what is pending in it.  A drain takes everything that is pending out at
once, and hands it over one by one; whatever it still has to hand over is neither in the log
nor in the store.  So the log shows all that waits of a key exactly as long as no drain has
something of the key left to hand over (`waiting_visible_iff`).

The same is to be said of the value of a key.  A reader asks the log first and the store
later, and what it finds is never older than what had been acknowledged when it began, unless
something of the key was on its way from the log to the store at that moment.
-/
import SlotRing.Proofs.Cluster.Reads
import SlotRing.Proofs.WriteLog.Moments
import SlotRing.WriteLog.Script

namespace SlotRing

namespace LogMoment

/-- The log answers for a key as if every transaction that waits were pending. -/
structure Visible (m : LogMoment) (key : String) : Prop where
  asked : (∃ e ∈ m.waiting, e.1.touches key = true) →
    m.log.isUncertain key = true ∧ m.log.hasPending key = true
  listed : m.log.pendingWrites key = (m.waiting.flatMap (·.1.writes)).filter (·.key == key)

variable {m m' : LogMoment} {key : String}

/-! ## Seen by asking the log -/

theorem touches_iff {tx : Transaction} : tx.touches key = true ↔ ∃ w ∈ tx.writes, w.key = key := by
  rw [Transaction.touches, List.any_eq_true]
  exact exists_congr fun w => and_congr_right fun _ => beq_iff_eq

theorem filter_writes_eq_nil_iff {es : List (Transaction × Nat)} :
    (es.flatMap (·.1.writes)).filter (·.key == key) = [] ↔
      ∀ e ∈ es, ¬ e.1.touches key = true := by
  simp only [List.filter_eq_nil_iff, List.mem_flatMap, touches_iff, beq_iff_eq]
  exact ⟨fun none e mem ⟨w, hw, same⟩ => none w ⟨e, mem, hw⟩ same,
    fun none w ⟨e, mem, hw⟩ same => none e mem ⟨w, hw, same⟩⟩

theorem pendingWrites_eq (m : LogMoment) (key : String) :
    m.log.pendingWrites key = (m.pending.flatMap (·.1.writes)).filter (·.key == key) := by
  rw [WriteLog.pendingWrites, ← map_fst_pending, List.flatMap_map]

theorem Kept.asked (kept : m.Kept) {e : Transaction × Nat} (mem : e ∈ m.pending)
    (touches : e.1.touches key = true) :
    m.log.isUncertain key = true ∧ m.log.hasPending key = true := by
  have listed : e.1 ∈ m.log.pending := map_fst_pending m ▸ List.mem_map_of_mem mem
  have pending : m.log.hasPending key = true := List.any_eq_true.mpr ⟨e.1, listed, touches⟩
  have active : m.log.isActive = true := by
    rw [WriteLog.isActive, decide_eq_true_iff]
    intro closed
    rw [kept.empty closed] at listed
    cases listed
  exact ⟨by rw [WriteLog.isUncertain, active, pending]; rfl, pending⟩

theorem Kept.visible_iff (kept : m.Kept) (key : String) :
    m.Visible key ↔ ∀ e ∈ m.waiting, e.1.touches key = true → e ∉ m.out := by
  obtain ⟨before, waiting, out⟩ := kept.waiting
  constructor
  · intro visible e mem touches isOut
    -- the log lists the writes of what is pending only
    have listed := visible.listed
    rw [pendingWrites_eq, waiting, List.flatMap_append, List.filter_append] at listed
    have none := filter_writes_eq_nil_iff.mp (List.self_eq_append_left.mp listed)
    rw [waiting] at mem
    rcases List.mem_append.mp mem with old | young
    · exact none e old touches
    · exact not_mem_pending kept isOut young
  · intro inside
    have pending {e : Transaction × Nat} (mem : e ∈ m.waiting) (touches : e.1.touches key = true) :
        e ∈ m.pending := by
      have settled := inside e mem touches
      rw [waiting] at mem
      exact (List.mem_append.mp mem).resolve_left fun old => settled (out e old)
    refine ⟨fun ⟨e, mem, touches⟩ => kept.asked (pending mem touches) touches, ?_⟩
    have none : ∀ e ∈ before, ¬ e.1.touches key = true := fun e old touches =>
      inside e (waiting ▸ List.mem_append_left _ old) touches (out e old)
    rw [pendingWrites_eq, waiting, List.flatMap_append, List.filter_append,
      filter_writes_eq_nil_iff.mpr none, List.nil_append]

/-! ## Seen by reading a value -/

/-- The log is not dropped, and there is one drain at a time, which takes the next batch and
closes the log when the last one has been carried out, hands over in order, and carries each
transaction out before it hands over the next one. -/
def InTurn : LogAct → LogMoment → Prop
  | .abort, _ => False
  | .take, m | .close, m => m.out = [] ∧ m.due = []
  | .hand e, m => m.due = [] ∧ m.out.head? = some e
  | .carry w, m => m.due.head? = some w
  | _, _ => True

/-- What is acknowledged has been carried out, is on its way, or is pending, in this order. -/
structure InLine (m : LogMoment) : Prop extends Kept m where
  acked : m.acked = m.done ++ m.due ++ m.out.flatMap (·.1.writes) ++
    m.log.pending.flatMap (·.writes)
  settled : m.log.state = .disabled → m.out = [] ∧ m.due = []

theorem inLine_fresh : InLine fresh := ⟨kept_fresh, rfl, fun _ => ⟨rfl, rfl⟩⟩

theorem flatMap_pending (m : LogMoment) :
    m.pending.flatMap (·.1.writes) = m.log.pending.flatMap (·.writes) := by
  rw [← map_fst_pending m, List.flatMap_map]

theorem InLine.step (line : m.InLine) {act : LogAct} (turn : InTurn act m)
    (step : act.Step m m') : m'.InLine := by
  have kept := line.toKept.step step
  have acked := line.acked
  cases step with
  | enable opened =>
    rw [WriteLog.enable?] at opened
    split at opened
    · cases opened
      exact ⟨kept, acked, fun closed => by cases closed⟩
    · cases opened
  | @logged _ log tx taken =>
    rw [WriteLog.append?] at taken
    split at taken
    · next active =>
      cases taken
      refine ⟨kept, ?_, fun closed => ?_⟩
      · show m.acked ++ tx.writes = _
        rw [acked]
        simp [LogMoment.logged]
      · rw [WriteLog.isActive, decide_eq_true_iff] at active
        exact absurd closed active
    · cases taken
  | @refused _ tx refused =>
    have closed := (WriteLog.append?_eq_none_iff _ _).mp refused
    obtain ⟨out, due⟩ := line.settled closed
    refine ⟨kept, ?_, fun _ => ⟨out, due⟩⟩
    show m.acked ++ tx.writes = _
    rw [acked]
    simp [LogMoment.carriedOut, out, due, line.empty closed]
  | abort => exact turn.elim
  | start active => exact ⟨kept, acked, fun closed => by cases closed⟩
  | take =>
    obtain ⟨out, due⟩ := turn
    refine ⟨kept, ?_, fun closed => ?_⟩
    · show m.acked = _
      rw [acked]
      simp [LogMoment.taken, out, due, flatMap_pending]
    · have none : m.pending = [] := by
        rw [pending, line.empty closed]
        rfl
      exact ⟨by simp [LogMoment.taken, out, none], due⟩
  | @hand _ e mem =>
    obtain ⟨due, first⟩ := turn
    obtain ⟨rest, out⟩ := List.head?_eq_some_iff.mp first
    refine ⟨kept, ?_, fun closed => ?_⟩
    · show m.acked = _
      rw [acked]
      simp [LogMoment.handed, out, due]
    · rw [(line.settled closed).1] at mem
      cases mem
  | @carry _ w mem =>
    obtain ⟨rest, due⟩ := List.head?_eq_some_iff.mp turn
    refine ⟨kept, ?_, fun closed => ?_⟩
    · show m.acked = _
      rw [acked]
      simp [LogMoment.carried, due]
    · rw [(line.settled closed).2] at mem
      cases mem
  | close =>
    refine ⟨kept, ?_, fun _ => turn⟩
    have pending : m.log.settle.pending = m.log.pending := by
      rw [WriteLog.settle]
      split <;> rfl
    show m.acked = _ ++ m.log.settle.pending.flatMap (·.writes)
    rw [pending]
    exact acked

theorem InLine.onward (line : m.InLine) (onward : Onward InTurn m m') : m'.InLine := by
  induction onward with
  | refl => exact line
  | tail _ step ih =>
    obtain ⟨act, turn, step⟩ := step
    exact ih.step turn step

theorem Onward.grows {allowed : LogAct → LogMoment → Prop} (onward : Onward allowed m m') :
    m.acked <+: m'.acked ∧ m.done <+: m'.done := by
  have one {act : LogAct} {m m' : LogMoment} (step : act.Step m m') :
      m.acked <+: m'.acked ∧ m.done <+: m'.done := by
    cases step with
    | logged => exact ⟨List.prefix_append _ _, List.prefix_rfl⟩
    | refused => exact ⟨List.prefix_append _ _, List.prefix_append _ _⟩
    | carry => exact ⟨List.prefix_rfl, List.prefix_append _ _⟩
    | _ => exact ⟨List.prefix_rfl, List.prefix_rfl⟩
  induction onward with
  | refl => exact ⟨List.prefix_rfl, List.prefix_rfl⟩
  | tail _ step ih =>
    obtain ⟨act, -, step⟩ := step
    exact ⟨ih.1.trans (one step).1, ih.2.trans (one step).2⟩

def Undelayed (m : LogMoment) (key : String) : Prop :=
  (∀ w ∈ m.due, w.key ≠ key) ∧ ∀ e ∈ m.out, ¬ e.1.touches key = true

/-- What a reader finds that asks the log at one moment and the store at another one. -/
def valueRead (initial : Store) (key : String) (asked read : LogMoment) : Option (List UInt8) :=
  (((asked.log.pendingWrites key).foldl Node.overlay
    ((initial.writeAll read.done).get? key))).map Entry.value

theorem valueRead_eq (initial : Store) (key : String) (m m' : LogMoment) :
    valueRead initial key m m' = valueAfter (m.log.pending.flatMap (·.writes)) key
      (valueAfter m'.done key (initial.value? key)) := by
  rw [← Store.value?_writeAll]
  exact map_value_foldl_overlay_filter key _ _

/-- A reader finds what was acknowledged up to some moment that is not before it asked the
log. -/
theorem InLine.exists_acked (line : m.InLine) (onward : Onward InTurn m m') (initial : Store)
    (undelayed : m.Undelayed key) :
    ∃ ws, m.acked <+: ws ∧ ws <+: m'.acked ∧
      valueRead initial key m m' = valueAfter ws key (initial.value? key) := by
  obtain ⟨acked, done⟩ := onward.grows
  have onTheWay : ∀ w ∈ m.due ++ m.out.flatMap (·.1.writes), w.key ≠ key := by
    intro w mem
    rcases List.mem_append.mp mem with due | out
    · exact undelayed.1 w due
    · obtain ⟨e, out, hw⟩ := List.mem_flatMap.mp out
      exact fun same => undelayed.2 e out (touches_iff.mpr ⟨w, hw, same⟩)
  rw [valueRead_eq]
  by_cases touched : ∃ w ∈ m.log.pending.flatMap (·.writes), w.key = key
  · -- the last write of the key that is pending was the last one acknowledged
    refine ⟨m.acked, List.prefix_rfl, acked, ?_⟩
    rw [line.acked, valueAfter_append]
    exact valueAfter_of_touched touched _
  · have untouched : ∀ w ∈ m.log.pending.flatMap (·.writes), w.key ≠ key :=
      fun w mem same => touched ⟨w, mem, same⟩
    have last : m'.done <+: m'.acked := by
      rw [(line.onward onward).acked, List.append_assoc, List.append_assoc]
      exact List.prefix_append _ _
    rw [valueAfter_of_untouched untouched]
    rcases List.prefix_or_prefix_of_prefix acked last with newer | older
    · exact ⟨m'.done, newer, last, rfl⟩
    · -- what has been acknowledged and not carried out is not of this key
      refine ⟨m.acked, List.prefix_rfl, acked, ?_⟩
      obtain ⟨more, carried⟩ := done
      obtain ⟨others, split⟩ := older
      have rest : more ++ others = m.due ++ m.out.flatMap (·.1.writes) ++
          m.log.pending.flatMap (·.writes) := by
        refine (List.append_right_inj m.done).mp ?_
        rw [← List.append_assoc, carried, split, line.acked]
        simp only [List.append_assoc]
      have none : ∀ w ∈ others, w.key ≠ key := by
        intro w mem
        have mem := rest ▸ List.mem_append_right more mem
        rcases List.mem_append.mp mem with way | pending
        · exact onTheWay w way
        · exact untouched w pending
      rw [← split, valueAfter_append, valueAfter_of_untouched none]

/-! ## All moments -/

/-- At every moment of a log's use, the moments within a drain included: the log shows all
transactions that wait for a key just if none of them is out with a drain.  If moreover the
log is not dropped and drained in turn, then a reader that asks the log while nothing of the
key is on its way finds no older value than those acknowledged by then.  What is done by a
drain are moments of this kind, whatever it hands its transactions to. -/
theorem waiting_visible_iff {m : LogMoment} (reached : m.Reached) (key : String) :
    (m.Visible key ↔ ∀ e ∈ m.waiting, e.1.touches key = true → e ∉ m.out) ∧
    (Onward InTurn fresh m → m.Undelayed key → ∀ m', Onward InTurn m m' → ∀ initial,
      ∃ ws, m.acked <+: ws ∧ ws <+: m'.acked ∧
        valueRead initial key m m' = valueAfter ws key (initial.value? key)) ∧
    ∀ (σ : Type) (apply : Nat → Transaction → WriteLog × σ → WriteLog × σ), Acts apply →
      m.log.isActive = true → ∀ rounds s,
        ∃ m', Drained m.started m' ∧ m'.log = (m.log.drain apply rounds s).2.1 := by
  refine ⟨reached.kept.visible_iff key, ?_, ?_⟩
  · intro inTurn undelayed m' onward initial
    exact (inLine_fresh.onward inTurn).exists_acked onward initial undelayed
  · intro σ apply acts active rounds s
    obtain ⟨m', drained, log, -⟩ := exists_drained acts rounds s reached.kept active
    exact ⟨m', drained, log⟩

/-! ## The rest of a batch -/

def putA : Transaction := ⟨none, [.put "a" [49]]⟩

def putB : Transaction := ⟨none, [.put "b" [50]]⟩

/-- Both transactions have been taken out, and the first one has just been handed over. -/
def halfway : LogMoment where
  log := ⟨.draining, []⟩
  count := 2
  waiting := [(putB, 1)]
  out := [(putB, 1)]
  due := putA.writes
  done := []
  acked := putA.writes ++ putB.writes

theorem onward_halfway : Onward InTurn fresh halfway := by
  let opened : LogMoment := { fresh with log := ⟨.enabled, []⟩ }
  let first := opened.logged ⟨.enabled, [putA]⟩ putA
  let second := first.logged ⟨.enabled, [putA, putB]⟩ putB
  calc Onward InTurn fresh opened := .single ⟨.enable, trivial, .enable rfl⟩
    Onward InTurn _ first := .single ⟨.offer putA, trivial, .logged rfl⟩
    Onward InTurn _ second := .single ⟨.offer putB, trivial, .logged rfl⟩
    Onward InTurn _ second.started := .single ⟨.start, trivial, .start rfl⟩
    Onward InTurn _ second.started.taken := .single ⟨.take, ⟨rfl, rfl⟩, .take _⟩
    Onward InTurn _ halfway :=
      .single ⟨.hand (putA, 0), ⟨rfl, rfl⟩, .hand List.mem_cons_self⟩

/-- Halfway through the batch the second transaction has been accepted and is not handed
over, and neither the log nor a reader that asks it knows of it.  A script that asks while
the first transaction is carried out gets just this answer. -/
theorem rest_of_batch_invisible :
    (Onward InTurn fresh halfway ∧ (putB, 1) ∈ halfway.waiting ∧ putB.touches "b" = true ∧
      halfway.log.isUncertain "b" = false ∧ halfway.log.hasPending "b" = false ∧
      halfway.log.pendingWrites "b" = [] ∧ valueRead .empty "b" halfway halfway = none ∧
      valueAfter halfway.acked "b" none = some [50]) ∧
    (LogStep.runAll LogStep.run
        [.enable, .append putA, .append putB, .drain [(0, [.ask "b"])]] .closed).1 =
      [(.opened true, ⟨.enabled, []⟩), (.appended true, ⟨.enabled, [putA]⟩),
        (.appended true, ⟨.enabled, [putA, putB]⟩),
        (.drained 2 [(putA, [(.about false false [], ⟨.draining, []⟩)]), (putB, [])],
          .closed)] := by
  refine ⟨⟨onward_halfway, List.mem_cons_self, rfl, rfl, rfl, rfl, ?_, rfl⟩, rfl⟩
  rw [valueRead_eq]
  rfl

theorem waiting_visible_iff_halfway :
    halfway.Reached ∧ halfway.Visible "a" ∧ ¬ halfway.Visible "b" ∧ ¬ halfway.Undelayed "a" := by
  have reached : halfway.Reached :=
    Relation.ReflTransGen.mono (fun _ _ ⟨act, _, step⟩ => ⟨act, trivial, step⟩) _ _ onward_halfway
  refine ⟨reached, (waiting_visible_iff reached "a").1.mpr ?_, fun shown => ?_,
    fun undelayed => ?_⟩
  · intro e mem touches
    rw [List.mem_singleton.mp mem] at touches
    cases touches
  · exact (waiting_visible_iff reached "b").1.mp shown (putB, 1) List.mem_cons_self rfl
      List.mem_cons_self
  · exact undelayed.1 (.put "a" [49]) List.mem_cons_self rfl

end LogMoment

end SlotRing
