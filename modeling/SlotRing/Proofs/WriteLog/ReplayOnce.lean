/-
# Every accepted transaction is replayed once and in order

`Proceeds` says what a drain does between two of its moments.  It keeps one equation,

    replayed ++ rest of the batch ++ pending  =  batch ++ pending before ++ accepted

which holds of handing a transaction over, of logging one, and of taking the next batch out
of the log, so of any number of them one after the other.  When a drain ends, nothing is
left of its batch and nothing is pending, and the equation says what was replayed.

The number of rounds plays no part in it.  It matters only for whether a drain ends, and a
round that does not end it replays something that was offered.
-/
import Mathlib.Data.List.Infix
import SlotRing.Proofs.WriteLog.Watching

namespace SlotRing

namespace Journal

variable {journal within : Journal} {event : LogEvent} {log : WriteLog}

@[simp] theorem accepted_append :
    accepted (journal ++ within) = journal.accepted ++ accepted within :=
  List.filterMap_append

@[simp] theorem replayed_append :
    replayed (journal ++ within) = journal.replayed ++ replayed within :=
  List.filterMap_append

@[simp] theorem offered_append :
    offered (journal ++ within) = journal.offered ++ offered within :=
  List.filterMap_append

theorem accepted_sublist_offered (journal : Journal) :
    journal.accepted.Sublist journal.offered := by
  induction journal with
  | nil => exact .slnil
  | cons event journal ih =>
    obtain ⟨event, log⟩ := event
    cases event with
    | opened => exact ih
    | busy => exact ih
    | accepted tx => exact ih.cons_cons tx
    | refused tx => exact ih.cons tx
    | replayed tx => exact ih
    | dropped count => exact ih

@[simp] theorem sinceOpened_concat :
    sinceOpened (journal ++ [(event, log)]) = event.gather journal.sinceOpened :=
  List.foldl_concat ..

@[simp] theorem waiting_concat :
    waiting (journal ++ [(event, log)]) = event.leave journal.waiting :=
  List.foldl_concat ..

/-- A transaction is refused only when none that was accepted still waits to be replayed. -/
def Unovertaken (journal : Journal) : Prop :=
  ∀ before tx log, before ++ [(.refused tx, log)] <+: journal → waiting before = []

theorem Unovertaken.concat (unovertaken : journal.Unovertaken)
    (fair : ∀ tx, event = .refused tx → journal.waiting = []) :
    (journal ++ [(event, log)]).Unovertaken := by
  intro before tx other cut
  cases List.prefix_concat_iff.mp cut with
  | inl last =>
    obtain ⟨rfl, same⟩ := List.append_inj' last rfl
    cases same
    exact fair tx rfl
  | inr earlier => exact unovertaken before tx other earlier

theorem Unovertaken.append (unovertaken : journal.Unovertaken)
    (accepting : ∀ event ∈ within, ∀ tx, event.1 ≠ .refused tx) :
    Unovertaken (journal ++ within) := by
  induction within using List.reverseRecOn with
  | nil => rwa [List.append_nil]
  | append_singleton within event ih =>
    have ih := ih fun event mem => accepting event (List.mem_append_left _ mem)
    rw [← List.append_assoc]
    exact ih.concat fun tx refused => absurd refused (accepting event (by simp) tx)

end Journal

namespace WatchedLog

variable {σ : Type} {w w' w'' : WatchedLog} {batch rest rest' : List Transaction}
  {within more : Journal} {tx : Transaction} {callback : Transaction → σ → LogUse σ}

/-- The log goes on from `w` to `w'` within a drain: `batch` was taken out of it and not
handed over before, `rest` is what there is of it afterwards, and `within` is what happened
meanwhile. -/
structure Proceeds (w : WatchedLog) (batch : List Transaction) (within : Journal)
    (w' : WatchedLog) (rest : List Transaction) : Prop where
  journal : w'.journal = w.journal ++ within
  state : w'.log.state = w.log.state
  moments : ∀ event ∈ within, event.2.state = w.log.state
  kinds : ∀ event ∈ within, ∃ tx, event.1 = .accepted tx ∨ event.1 = .replayed tx
  queue : within.replayed ++ rest ++ w'.log.pending = batch ++ w.log.pending ++ within.accepted
  waiting : w.journal.waiting = batch ++ w.log.pending →
    w'.journal.waiting = rest ++ w'.log.pending

namespace Proceeds

theorem refl (w : WatchedLog) (batch : List Transaction) : Proceeds w batch [] w batch where
  journal := (List.append_nil _).symm
  state := rfl
  moments := by simp
  kinds := by simp
  queue := by simp [Journal.replayed, Journal.accepted]
  waiting waits := waits

theorem trans (first : Proceeds w batch within w' rest)
    (second : Proceeds w' rest more w'' rest') :
    Proceeds w batch (within ++ more) w'' rest' where
  journal := by rw [second.journal, first.journal, List.append_assoc]
  state := second.state.trans first.state
  moments event mem := by
    cases List.mem_append.mp mem with
    | inl mem => exact first.moments event mem
    | inr mem => exact (second.moments event mem).trans first.state
  kinds event mem := by
    cases List.mem_append.mp mem with
    | inl mem => exact first.kinds event mem
    | inr mem => exact second.kinds event mem
  queue := by
    calc Journal.replayed (within ++ more) ++ rest' ++ w''.log.pending
        = within.replayed ++ (more.replayed ++ rest' ++ w''.log.pending) := by simp
      _ = within.replayed ++ rest ++ w'.log.pending ++ more.accepted := by
        simp [second.queue]
      _ = batch ++ w.log.pending ++ Journal.accepted (within ++ more) := by
        simp [first.queue]
  waiting waits := second.waiting (first.waiting waits)

theorem sinceOpened_eq (proceeds : Proceeds w batch within w' rest) :
    w'.journal.sinceOpened = w.journal.sinceOpened ++ within.accepted := by
  rw [proceeds.journal]
  have kinds := proceeds.kinds
  clear proceeds
  induction within using List.reverseRecOn with
  | nil => simp [Journal.accepted]
  | append_singleton within event ih =>
    have ih := ih fun event mem => kinds event (List.mem_append_left _ mem)
    obtain ⟨event, log⟩ := event
    obtain ⟨tx, kind⟩ := kinds (event, log) (by simp)
    rw [← List.append_assoc]
    cases kind with
    | inl kind =>
      cases kind
      rw [Journal.sinceOpened_concat, ih, Journal.accepted_append]
      exact List.append_assoc ..
    | inr kind =>
      cases kind
      rw [Journal.sinceOpened_concat, ih, Journal.accepted_append]
      exact congrArg _ (List.append_nil _).symm

end Proceeds

/-! ## What a drain does at once -/

theorem proceeds_offer (active : w.log.state ≠ .disabled) (batch : List Transaction)
    (tx : Transaction) :
    ∃ within, within.replayed = [] ∧ Proceeds w batch within (w.offer tx).2 batch := by
  have taken : w.log.append? tx = some { w.log with pending := w.log.pending ++ [tx] } := by
    simp [WriteLog.append?, WriteLog.isActive, active]
  have offer : w.offer tx = (true, ⟨{ w.log with pending := w.log.pending ++ [tx] },
      w.journal ++ [(.accepted tx, { w.log with pending := w.log.pending ++ [tx] })]⟩) := by
    simp only [WatchedLog.offer, taken]
  rw [offer]
  refine ⟨_, ?_, rfl, rfl, ?_, ?_, ?_, ?_⟩
  · rfl
  · simp
  · simp
  · simp [Journal.replayed, Journal.accepted]
  · intro waits
    simp [waits, LogEvent.leave]

theorem proceeds_replayed (w : WatchedLog) (tx : Transaction) (rest : List Transaction) :
    Proceeds w (tx :: rest) [(.replayed tx, w.log)]
      ⟨w.log, w.journal ++ [(.replayed tx, w.log)]⟩ rest where
  journal := rfl
  state := rfl
  moments := by simp
  kinds := by simp
  queue := by simp [Journal.replayed, Journal.accepted]
  waiting waits := by simp [waits, LogEvent.leave]

theorem proceeds_batch (w : WatchedLog) :
    Proceeds w [] [] ⟨{ w.log with pending := [] }, w.journal⟩ w.log.pending where
  journal := (List.append_nil _).symm
  state := rfl
  moments := by simp
  kinds := by simp
  queue := by simp [Journal.replayed, Journal.accepted]
  waiting waits := by simp [waits]

/-! ## What a drain does in the end -/

theorem proceeds_run (batch : List Transaction) (use : LogUse σ) :
    ∀ w : WatchedLog, w.log.state ≠ .disabled →
      ∃ within, within.replayed = [] ∧ Proceeds w batch within (use.run w).2 batch := by
  induction use with
  | done s =>
    intro w _
    exact ⟨[], rfl, .refl w batch⟩
  | log tx onward ih =>
    intro w active
    obtain ⟨within, none, offer⟩ := proceeds_offer active batch tx
    have still : (w.offer tx).2.log.state ≠ .disabled := by
      rw [offer.state]
      exact active
    obtain ⟨more, noMore, run⟩ := ih (w.offer tx).1 (w.offer tx).2 still
    exact ⟨within ++ more, by simp [none, noMore], offer.trans run⟩

theorem proceeds_replay (callback : Transaction → σ → LogUse σ) (batch : List Transaction) :
    ∀ (i : Nat) (w : WatchedLog) (s : σ), w.log.state ≠ .disabled →
      ∃ within w' s', WriteLog.replay (hand callback) i batch (w.log, s, w.journal) =
          (w'.log, s', w'.journal) ∧
        within.replayed.length = batch.length ∧ Proceeds w batch within w' [] := by
  induction batch with
  | nil =>
    intro i w s _
    exact ⟨[], w, s, rfl, rfl, .refl w []⟩
  | cons tx batch ih =>
    intro i w s active
    have handed := proceeds_replayed w tx batch
    obtain ⟨within, none, run⟩ := proceeds_run batch (callback tx s)
      ⟨w.log, w.journal ++ [(.replayed tx, w.log)]⟩ active
    have still : ((callback tx s).run ⟨w.log, w.journal ++ [(.replayed tx, w.log)]⟩).2.log.state
        ≠ .disabled := by
      rw [run.state]
      exact active
    obtain ⟨more, w', s', replay, length, onward⟩ := ih (i + 1) _
      ((callback tx s).run ⟨w.log, w.journal ++ [(.replayed tx, w.log)]⟩).1 still
    refine ⟨_, w', s', replay, ?_, (handed.trans run).trans onward⟩
    rw [Journal.replayed_append, Journal.replayed_append, none, List.length_append, length]
    simp [Journal.replayed, Nat.add_comm]

/-- After any number of rounds either nothing is pending or every round has replayed
something. -/
theorem proceeds_drainFrom (callback : Transaction → σ → LogUse σ) (rounds : Nat) :
    ∀ (done : Nat) (w : WatchedLog) (s : σ), w.log.state ≠ .disabled →
      ∃ within w' s', WriteLog.drainFrom (hand callback) rounds done (w.log, s, w.journal) =
          (done + within.replayed.length, w'.log.settle, s', w'.journal) ∧
        (w'.log.pending = [] ∨ rounds ≤ within.replayed.length) ∧
        Proceeds w [] within w' [] := by
  induction rounds with
  | zero =>
    intro done w s _
    exact ⟨[], w, s, rfl, .inr (Nat.zero_le _), .refl w []⟩
  | succ rounds ih =>
    intro done w s active
    by_cases empty : w.log.pending = []
    · refine ⟨[], w, s, ?_, .inl empty, .refl w []⟩
      simp [WriteLog.drainFrom, empty, Journal.replayed]
    · obtain ⟨within, w', s', replay, length, onward⟩ := proceeds_replay callback w.log.pending
        done ⟨{ w.log with pending := [] }, w.journal⟩ s active
      have still : w'.log.state ≠ .disabled := by
        rw [onward.state]
        exact active
      obtain ⟨more, w'', s'', drain, ends, last⟩ := ih (done + w.log.pending.length) w' s' still
      refine ⟨within ++ more, w'', s'', ?_, ?_, ((proceeds_batch w).trans onward).trans last⟩
      · simp only at replay
        simp only [WriteLog.drainFrom, List.isEmpty_iff, empty, if_false, replay, drain,
          Journal.replayed_append, List.length_append, length, Nat.add_assoc]
      · cases ends with
        | inl none => exact .inl none
        | inr many =>
          have some : 0 < w.log.pending.length := List.length_pos_iff.mpr empty
          rw [Journal.replayed_append, List.length_append, length]
          exact .inr (by omega)

theorem drainFrom_of_le {apply : Nat → Transaction → WriteLog × σ → WriteLog × σ}
    {rounds further : Nat} (le : rounds ≤ further) :
    ∀ (done : Nat) (log : WriteLog) (s : σ),
      (WriteLog.drainFrom apply rounds done (log, s)).2.1.pending = [] →
        WriteLog.drainFrom apply further done (log, s) =
          WriteLog.drainFrom apply rounds done (log, s) := by
  induction rounds generalizing further with
  | zero =>
    intro done log s settled
    have empty : log.pending = [] := by
      simp only [WriteLog.drainFrom, WriteLog.settle] at settled
      split at settled <;> exact settled
    cases further with
    | zero => rfl
    | succ further => simp [WriteLog.drainFrom, empty]
  | succ rounds ih =>
    intro done log s settled
    obtain ⟨further, rfl⟩ : ∃ n, further = n + 1 := ⟨further - 1, by omega⟩
    by_cases empty : log.pending = []
    · simp [WriteLog.drainFrom, empty]
    · simp only [WriteLog.drainFrom, List.isEmpty_iff, empty, if_false] at settled ⊢
      exact ih (Nat.le_of_succ_le_succ le) _ _ _ settled

/-! ## Draining a log -/

theorem drain_of_disabled (closed : w.log.state = .disabled)
    (callback : Transaction → σ → LogUse σ) (rounds : Nat) (s : σ) :
    w.drain callback rounds s = (0, w, s) := by
  simp [drain, WriteLog.drain, WriteLog.isActive, closed]

theorem drain_of_active (active : w.log.state ≠ .disabled)
    (callback : Transaction → σ → LogUse σ) (rounds : Nat) (s : σ) :
    ∃ within w' s', w.drain callback rounds s =
        (within.replayed.length, ⟨w'.log.settle, w'.journal⟩, s') ∧
      (w'.log.pending = [] ∨ rounds ≤ within.replayed.length) ∧
      Proceeds ⟨{ w.log with state := .draining }, w.journal⟩ [] within w' [] := by
  obtain ⟨within, w', s', drain, ends, proceeds⟩ := proceeds_drainFrom callback rounds 0
    ⟨{ w.log with state := .draining }, w.journal⟩ s (by simp)
  refine ⟨within, w', s', ?_, ends, proceeds⟩
  simp only at drain
  simp [WatchedLog.drain, WriteLog.drain, WriteLog.isActive, active, drain]

theorem drain_of_le {rounds further : Nat} (le : rounds ≤ further) {s : σ}
    (settled : (w.drain callback rounds s).2.1.log.pending = []) :
    w.drain callback further s = w.drain callback rounds s := by
  by_cases closed : w.log.state = .disabled
  · rw [drain_of_disabled closed, drain_of_disabled closed]
  · simp only [drain, WriteLog.drain, WriteLog.isActive, ne_eq, closed, not_false_eq_true,
      decide_true, if_true] at settled ⊢
    rw [drainFrom_of_le le _ _ _ settled]

theorem Drains.of_disabled {s s' : σ} {count : Nat} (drains : Drains callback w s count w' s')
    (closed : w.log.state = .disabled) : count = 0 ∧ w' = w := by
  obtain ⟨enough, final⟩ := drains
  have nothing := drain_of_disabled closed callback enough s
  rw [final enough le_rfl] at nothing
  cases nothing
  exact ⟨rfl, rfl⟩

/-- A drain ends only by closing the log, and then nothing is pending: a drain that went on
would count more in every round. -/
theorem Drains.of_active {s s' : σ} {count : Nat} (drains : Drains callback w s count w' s')
    (active : w.log.state ≠ .disabled) :
    w'.log = .closed ∧ ∃ within last, count = within.replayed.length ∧
      w'.journal = last.journal ∧ last.log.pending = [] ∧
      Proceeds ⟨{ w.log with state := .draining }, w.journal⟩ [] within last [] := by
  obtain ⟨enough, final⟩ := drains
  obtain ⟨within, last, s'', drain, ends, proceeds⟩ :=
    drain_of_active active callback (enough + count + 1) s
  rw [final _ (by omega)] at drain
  cases drain
  have empty : last.log.pending = [] := ends.resolve_right (by omega)
  refine ⟨?_, within, last, rfl, rfl, empty, proceeds⟩
  simp [WriteLog.settle, WriteLog.closed, empty]

/-- A log that does not get more and more while it is drained is drained to the end. -/
theorem exists_drains (s : σ)
    (bounded : ∃ limit, ∀ rounds, (w.drain callback rounds s).2.1.journal.offered.length ≤ limit) :
    ∃ count w' s', Drains callback w s count w' s' := by
  by_cases closed : w.log.state = .disabled
  · exact ⟨0, w, s, 0, fun rounds _ => drain_of_disabled closed callback rounds s⟩
  · obtain ⟨limit, bounded⟩ := bounded
    obtain ⟨within, w', s', drain, ends, proceeds⟩ :=
      drain_of_active closed callback (w.log.pending.length + limit + 1) s
    have offers : within.replayed.length ≤ w.log.pending.length + limit := by
      have bound := bounded (w.log.pending.length + limit + 1)
      have taken := (Journal.accepted_sublist_offered within).length_le
      have queue := congrArg List.length proceeds.queue
      rw [drain, proceeds.journal, Journal.offered_append] at bound
      simp only [List.append_nil, List.nil_append, List.length_append] at bound queue
      omega
    have empty : w'.log.pending = [] := ends.resolve_right (by omega)
    have settled : w'.log.settle = .closed := by
      simp [WriteLog.settle, WriteLog.closed, empty]
    refine ⟨within.replayed.length, ⟨w'.log.settle, w'.journal⟩, s',
      w.log.pending.length + limit + 1, fun rounds enough => ?_⟩
    rw [← drain]
    refine drain_of_le enough ?_
    rw [drain, settled]
    rfl

/-! ## What has become of a log -/

/-- What holds of a log also within a drain, as long as no batch is out. -/
structure Traced (w : WatchedLog) : Prop where
  moments : ∀ event ∈ w.journal, event.2.state = .disabled → event.2.pending = []
  waiting : w.journal.waiting = w.log.pending
  unovertaken : w.journal.Unovertaken

/-- What a drain does to a log that is open can be followed. -/
theorem Traced.proceeds (traced : Traced w) (active : w.log.state ≠ .disabled)
    (proceeds : Proceeds w [] within w' []) : Traced w' where
  moments event mem closed := by
    rw [proceeds.journal] at mem
    cases List.mem_append.mp mem with
    | inl mem => exact traced.moments event mem closed
    | inr mem => exact absurd (proceeds.moments event mem ▸ closed) active
  waiting := proceeds.waiting traced.waiting
  unovertaken := by
    rw [proceeds.journal]
    refine traced.unovertaken.append fun event mem tx refused => ?_
    obtain ⟨other, kind | kind⟩ := proceeds.kinds event mem
    · rw [refused] at kind
      cases kind
    · rw [refused] at kind
      cases kind

/-- What holds of a log between two uses of it. -/
structure Orderly (w : WatchedLog) : Prop extends Traced w where
  empty : w.log.state = .disabled → w.log.pending = []
  sinceOpened : w.log.state ≠ .disabled → w.journal.sinceOpened = w.log.pending

namespace Orderly

theorem fresh : Orderly fresh where
  moments := by simp [WatchedLog.fresh]
  waiting := rfl
  unovertaken := by simp [WatchedLog.fresh, Journal.Unovertaken]
  empty _ := rfl
  sinceOpened _ := rfl

theorem enable (orderly : Orderly w) : Orderly w.enable := by
  by_cases closed : w.log.state = .disabled
  · have opened : w.enable = ⟨{ w.log with state := .enabled },
        w.journal ++ [(.opened, { w.log with state := .enabled })]⟩ := by
      simp [WatchedLog.enable, WriteLog.enable?, closed]
    rw [opened]
    refine ⟨⟨?_, ?_, orderly.unovertaken.concat (by simp)⟩, ?_, ?_⟩
    · simpa [or_imp, forall_and] using orderly.moments
    · simpa [LogEvent.leave] using orderly.waiting
    · simp
    · simpa [LogEvent.gather] using orderly.empty closed
  · have busy : w.enable = ⟨w.log, w.journal ++ [(.busy, w.log)]⟩ := by
      simp [WatchedLog.enable, WriteLog.enable?, closed]
    rw [busy]
    refine ⟨⟨?_, ?_, orderly.unovertaken.concat (by simp)⟩, orderly.empty, ?_⟩
    · simpa [closed, or_imp, forall_and] using orderly.moments
    · simpa [LogEvent.leave] using orderly.waiting
    · simpa [LogEvent.gather] using orderly.sinceOpened

theorem offer (orderly : Orderly w) (tx : Transaction) : Orderly (w.offer tx).2 := by
  by_cases closed : w.log.state = .disabled
  · have refused : w.offer tx = (false, ⟨w.log, w.journal ++ [(.refused tx, w.log)]⟩) := by
      simp [WatchedLog.offer, WriteLog.append?, WriteLog.isActive, closed]
    rw [refused]
    have none := orderly.empty closed
    refine ⟨⟨?_, ?_, ?_⟩, orderly.empty, absurd closed⟩
    · simpa [none, or_imp, forall_and] using orderly.moments
    · simpa [LogEvent.leave] using orderly.waiting
    · exact orderly.unovertaken.concat fun _ _ => orderly.waiting.trans none
  · obtain ⟨within, none, proceeds⟩ := proceeds_offer closed [] tx
    have still : (w.offer tx).2.log.state ≠ .disabled := by
      rw [proceeds.state]
      exact closed
    refine ⟨orderly.toTraced.proceeds closed proceeds, fun shut => absurd shut still, ?_⟩
    intro _
    rw [proceeds.sinceOpened_eq, orderly.sinceOpened closed]
    simpa [none] using proceeds.queue.symm

theorem abort (orderly : Orderly w) : Orderly w.abort where
  moments := by
    simpa [WatchedLog.abort, WriteLog.abort, WriteLog.closed, or_imp, forall_and]
      using orderly.moments
  waiting := by simp [WatchedLog.abort, LogEvent.leave, WriteLog.abort, WriteLog.closed]
  unovertaken := orderly.unovertaken.concat (by simp)
  empty _ := rfl
  sinceOpened opened := absurd rfl opened

theorem drain {s s' : σ} {count : Nat} (orderly : Orderly w)
    (drains : Drains callback w s count w' s') : Orderly w' := by
  by_cases closed : w.log.state = .disabled
  · obtain ⟨-, rfl⟩ := drains.of_disabled closed
    exact orderly
  · obtain ⟨shut, within, last, -, journal, none, proceeds⟩ := drains.of_active closed
    have start : Traced ⟨{ w.log with state := .draining }, w.journal⟩ :=
      ⟨orderly.moments, orderly.waiting, orderly.unovertaken⟩
    have traced := start.proceeds (by simp) proceeds
    refine ⟨⟨?_, ?_, ?_⟩, ?_, ?_⟩
    · rw [journal]
      exact traced.moments
    · rw [journal, traced.waiting, shut, none]
      rfl
    · rw [journal]
      exact traced.unovertaken
    · rw [shut]
      exact fun _ => rfl
    · rw [shut]
      exact absurd rfl

end Orderly

theorem Session.orderly (session : Session w) : Orderly w := by
  induction session with
  | fresh => exact .fresh
  | enable _ ih => exact ih.enable
  | log tx _ ih => exact ih.offer tx
  | abort _ ih => exact ih.abort
  | drain _ drains ih => exact ih.drain drains

/-- However a log has been used, it held nothing whenever it was closed, and it never refused
a transaction while one that it had accepted was still to be replayed.  If it is drained now
and that ends, it is closed and empty, and what was replayed is all that was accepted since
it was opened, also during the drain, each transaction once, whole and in order; a closed
log replays nothing.  A drain ends unless there is no limit to what is logged during it. -/
theorem replayed_once_in_order (session : Session w) :
    ((∀ event ∈ w.journal, event.2.state = .disabled → event.2.pending = []) ∧
        (w.log.state = .disabled → w.log.pending = [])) ∧
      (∀ before tx log, before ++ [(.refused tx, log)] <+: w.journal →
        Journal.waiting before = []) ∧
      ∀ (σ : Type) (callback : Transaction → σ → LogUse σ) (s : σ),
        (∀ count w' s', Drains callback w s count w' s' →
          w'.log = .closed ∧ ∃ within, w'.journal = w.journal ++ within ∧
            within.replayed = (if w.log.isActive then w'.journal.sinceOpened else []) ∧
            count = within.replayed.length) ∧
        ((∃ limit, ∀ rounds,
            (w.drain callback rounds s).2.1.journal.offered.length ≤ limit) →
          ∃ count w' s', Drains callback w s count w' s') := by
  have orderly := session.orderly
  refine ⟨⟨orderly.moments, orderly.empty⟩, orderly.unovertaken, ?_⟩
  intro σ callback s
  refine ⟨?_, exists_drains s⟩
  intro count w' s' drains
  by_cases closed : w.log.state = .disabled
  · obtain ⟨rfl, rfl⟩ := drains.of_disabled closed
    refine ⟨?_, [], (List.append_nil _).symm, ?_, rfl⟩
    · calc w'.log = ⟨w'.log.state, w'.log.pending⟩ := rfl
        _ = .closed := by rw [orderly.empty closed, closed, WriteLog.closed]
    · simp [WriteLog.isActive, closed, Journal.replayed]
  · obtain ⟨shut, within, last, count, journal, none, proceeds⟩ := drains.of_active closed
    refine ⟨shut, within, ?_, ?_, count⟩
    · rw [journal, proceeds.journal]
    · have queue := proceeds.queue
      simp only [none, List.append_nil, List.nil_append] at queue
      rw [journal, proceeds.sinceOpened_eq, orderly.sinceOpened closed]
      simp [WriteLog.isActive, closed, queue]

/-- A log that has one transaction in it, the seventh of its sender. -/
def holdingSeventh : WatchedLog := (fresh.enable.offer ⟨some 7, [.put "a" [49]]⟩).2

/-- While the seventh transaction is carried out another one is logged. -/
def followSeventh (tx : Transaction) (_ : Unit) : LogUse Unit :=
  match tx.id with
  | some 7 => .log ⟨some 8, [.put "b" [50]]⟩ fun _ => .done ()
  | _ => .done ()

/-- The transaction that comes during the drain is replayed by the same drain, after the one
that was there before. -/
theorem replayed_once_in_order_of_follower :
    holdingSeventh.Session ∧ Drains followSeventh holdingSeventh () 2
      (holdingSeventh.drain followSeventh 2 ()).2.1 () ∧
    (holdingSeventh.drain followSeventh 2 ()).2.1.log = .closed ∧
      ∃ within, (holdingSeventh.drain followSeventh 2 ()).2.1.journal =
          holdingSeventh.journal ++ within ∧
        within.replayed = [⟨some 7, [.put "a" [49]]⟩, ⟨some 8, [.put "b" [50]]⟩] ∧
        2 = within.replayed.length := by
  have session : holdingSeventh.Session := .log _ (.enable .fresh)
  have drains : Drains followSeventh holdingSeventh () 2
      (holdingSeventh.drain followSeventh 2 ()).2.1 () := by
    refine ⟨2, fun rounds enough => ?_⟩
    obtain ⟨n, rfl⟩ : ∃ n, rounds = n + 2 := ⟨rounds - 2, by omega⟩
    cases n with
    | zero => rfl
    | succ n => rfl
  obtain ⟨closed, within, journal, replayed, count⟩ :=
    ((replayed_once_in_order session).2.2 Unit followSeventh ()).1 _ _ _ drains
  exact ⟨session, drains, closed, within, journal, replayed, count⟩

end WatchedLog

end SlotRing
