/-
# Every rehash ends clean

A rehash can end in many places: it may turn out to be none, its settled ring or the
state may not be had in time, no ring may be left to build, and all the while there is
a crowd around it.  Two things carry through all of them.  What a rehash publishes
goes up in the order of the phases (`Upto`), step by step, and at every moment the
log of the node is either closed and empty with nothing to come from, or open with
the ring that the rehash comes from (`busy`, `moving`); every exit leads back to the
former.

The crowd cannot get at either (`crowd_spares_watched`), so that both are known again
after everything that waits for others.  To begin with the node is only taken to be in
order, as every node is in a cluster that anything has led to
(`Cluster.Reached.inOrder`).
-/
import SlotRing.Proofs.Rehash.Reached
import SlotRing.Proofs.Rehash.Relapse

namespace SlotRing

namespace Rehash

variable {ε : Type} {around : Surroundings ε} {w : World ε} {now : Nat} {home rehash : Serial}
  {st : Stance} {earlier : List Phase} {k : Nat}

/-! ## Phases that go up -/

def Rising (published : List Phase) : Prop := (published.map Phase.rank).Pairwise (· < ·)

/-- What has been published since the beginning goes up to below a place in the order
of the phases, and the node stands as given. -/
def Upto (home rehash : Serial) (earlier : List Phase) (k : Nat) (st : Stance)
    (w : World ε) : Prop :=
  ∃ published, Watched home rehash st (published.reverse ++ earlier) w ∧ Rising published ∧
    ∀ p ∈ published, p.rank < k

theorem Upto.mono (h : Upto home rehash earlier k st w) {k' : Nat} (le : k ≤ k') :
    Upto home rehash earlier k' st w := by
  obtain ⟨published, watched, rising, below⟩ := h
  exact ⟨published, watched, rising, fun p hp => Nat.lt_of_lt_of_le (below p hp) le⟩

theorem Rising.concat {published : List Phase} (rising : Rising published) {phase : Phase}
    (above : ∀ p ∈ published, p.rank < phase.rank) : Rising (published ++ [phase]) := by
  rw [Rising, List.map_append, List.pairwise_append]
  refine ⟨rising, List.pairwise_singleton _ _, ?_⟩
  simpa using above

theorem enter_watched {trail : List Phase} (h : Watched home rehash st trail w) (phase : Phase) :
    (enter rehash phase : Procedure (World ε) Unit).Returns now w fun w' _ =>
      Watched home rehash st (phase :: trail) w' :=
  h.updateRehash fun _ same => congrArg (phase :: ·) same

theorem enter_returns (h : Upto home rehash earlier k st w) {phase : Phase}
    (le : k ≤ phase.rank) :
    (enter rehash phase : Procedure (World ε) Unit).Returns now w fun w' _ =>
      Upto home rehash earlier (phase.rank + 1) st w' := by
  obtain ⟨published, watched, rising, below⟩ := h
  have above : ∀ p ∈ published, p.rank < phase.rank :=
    fun p hp => Nat.lt_of_lt_of_le (below p hp) le
  refine (enter_watched watched phase).mono fun w' _ watched' =>
    ⟨published ++ [phase], ?_, rising.concat above, ?_⟩
  · rw [List.reverse_append]
    exact watched'
  · intro p hp
    rcases List.mem_append.mp hp with hp | hp
    · exact Nat.lt_succ_of_lt (above p hp)
    · rw [List.mem_singleton.mp hp]
      exact Nat.lt_succ_self _

/-- What maintains all that is watched takes the rehash no further. -/
theorem Upto.along {α : Type} {p : Procedure (World ε) α} (h : Upto home rehash earlier k st w)
    (maintained : ∀ trail, p.Maintains (Watched home rehash st trail)) :
    p.Returns now w fun w' _ => Upto home rehash earlier k st w' := by
  obtain ⟨published, watched, rising, below⟩ := h
  exact ((maintained _).returns standing_watched.steady watched).mono fun w' _ watched' =>
    ⟨published, watched', rising, below⟩

theorem Upto.restance (st' : Stance) (h : Upto home rehash earlier k st w) {f : Node → Node}
    (changed : ∀ n, n.stance = st → (f n).stance = st') :
    (World.modifyNode home f : Procedure (World ε) Unit).Returns now w fun w' _ =>
      Upto home rehash earlier k st' w' := by
  obtain ⟨published, watched, rising, below⟩ := h
  exact ⟨published, watched.restance _ changed, rising, below⟩

theorem Upto.record (h : Upto home rehash earlier k st w) {f : Rehash → Rehash}
    (kept : ∀ r, (f r).trail = r.trail) :
    Upto home rehash earlier k st { w with cluster := w.cluster.updateRehash rehash f } := by
  obtain ⟨published, watched, rising, below⟩ := h
  exact ⟨published, watched.updateRehash fun r same => (kept r).trans same, rising, below⟩

/-! ## The two ways in which the node stands -/

def busy : Stance := ⟨true, none, some .closed⟩

/-- The node is taken and comes from a ring, and its log is on. -/
def moving (old : MemberRing) : Stance := ⟨true, some old, none⟩

/-- Nobody gets at the node while it is taken. -/
def Guarded (around : Surroundings ε) (home rehash : Serial) : Prop :=
  ∀ st, st.rehashing = true → ∀ trail, around.Spares (Watched home rehash st trail)

variable {plan : Plan}

theorem maintains_announce_watched (guarded : Guarded around plan.self plan.rehash)
    (taken : st.rehashing = true) (mapping : MemberMapping) (trail : List Phase) :
    (announce around plan mapping).Maintains (Watched plan.self plan.rehash st trail) :=
  maintains_announce lasting_watched (guarded st taken trail)
    (standing_watched.modifyNode fun _ => rfl)

section

variable (guarded : Guarded around plan.self plan.rehash)
include guarded

theorem settle_returns {new : MemberRing}
    (h : Upto plan.self plan.rehash earlier Phase.broadcastFinal.rank busy w) :
    (settle around plan new).Returns now w fun w' _ =>
      Upto plan.self plan.rehash earlier Phase.invalidateStale.rank busy w' :=
  (enter_returns h (Nat.le_refl _)).bind fun _ _ _ h =>
    h.along fun trail => maintains_announce_watched guarded rfl _ trail

theorem abort_returns {old ring : MemberRing}
    (h : Upto plan.self plan.rehash earlier k (moving old) w) :
    (abort around plan ring).Returns now w fun w' _ =>
      Upto plan.self plan.rehash earlier k busy w' := by
  refine (h.restance busy fun n stands => ?_).bind fun _ _ _ h =>
    h.along fun trail => maintains_announce_watched guarded rfl _ trail
  have held : n.rehashing = true := congrArg Stance.rehashing stands
  rw [busy, ← held]
  rfl

omit guarded in
theorem openLog_returns (old : MemberRing)
    (h : Upto plan.self plan.rehash earlier k busy w) :
    (openLog plan old : Procedure (World ε) (Except RehashError Unit)).Returns now w fun w' r =>
      r = .ok () ∧ Upto plan.self plan.rehash earlier k (moving old) w' := by
  obtain ⟨published, watched, rising, below⟩ := h
  obtain ⟨n, there, stands⟩ := Option.map_eq_some_iff.mp watched.stance
  have closed : n.log = .closed := Node.log_of_stance (congrArg Stance.shut stands)
  have opened : (w.cluster.nodes.get? plan.self).bind (·.beginTransition? old) =
      some (logging old n) := by
    rw [there]
    exact beginTransition?_of_closed (by rw [closed]; rfl) old
  have run : openLog plan old now w = .done
      { w with cluster := w.cluster.updateNode plan.self fun _ => logging old n } (.ok ()) := by
    simp only [openLog, Procedure.change, opened]
  rw [Procedure.Returns, run]
  refine ⟨rfl, published, watched.restance _ fun _ _ => ?_, rising, below⟩
  have held : n.rehashing = true := congrArg Stance.rehashing stands
  rw [moving, ← held]
  rfl

theorem transfer_returns {old new : MemberRing}
    {moveState : Procedure (World ε) (Except RehashError Unit)}
    (h : Upto plan.self plan.rehash earlier Phase.broadcastUnion.rank busy w)
    (moved : ∀ now w, Upto plan.self plan.rehash earlier Phase.applyState.rank (moving old) w →
      moveState.Returns now w fun w' _ =>
        Upto plan.self plan.rehash earlier Phase.drainLog.rank (moving old) w') :
    (transfer around plan old new moveState).Returns now w fun w' _ =>
      Upto plan.self plan.rehash earlier Phase.broadcastFinal.rank busy w' := by
  refine Procedure.Returns.bind
    (Q := fun w' _ => Upto plan.self plan.rehash earlier Phase.broadcastUnion.rank busy w')
    (h.record fun _ => rfl) fun now w _ h => ?_
  refine (openLog_returns old h).bind ?_
  rintro now w _ ⟨rfl, h⟩
  refine (enter_returns h (Nat.le_refl _)).bind fun now w _ h => ?_
  refine (h.along fun trail => maintains_announce_watched guarded rfl _ trail).bind
    fun now w _ h => ?_
  refine (enter_returns h (Nat.le_refl _)).bind fun now w _ h => ?_
  refine (moved now w h).bind fun now w r h => ?_
  rcases r with cause | ⟨⟩
  · exact (abort_returns guarded h).bind fun now w _ h =>
      Procedure.returns_pure (h.mono (Nat.le_succ _))
  · refine (enter_returns h (Nat.le_refl _)).bind fun now w _ h => ?_
    refine (h.restance busy fun n stands => ?_).bind fun now w _ h =>
      Procedure.returns_pure h
    have held : n.rehashing = true := congrArg Stance.rehashing stands
    rw [finishTransition_eq (Node.state_ne_of_stance (congrArg Stance.shut stands)), busy, ← held]
    rfl

omit guarded in
theorem leaveHints_returns {old new : MemberRing}
    (h : Upto plan.self plan.rehash earlier Phase.invalidateStale.rank st w) :
    (leaveHints plan old new : Procedure (World ε) Unit).Returns now w fun w' _ =>
      Upto plan.self plan.rehash earlier Phase.done.rank st w' := by
  unfold leaveHints
  split
  · refine (enter_returns h (Nat.le_refl _)).bind fun now w _ h => ?_
    obtain ⟨published, watched, rising, below⟩ := h
    have left := watched.updateRehash
      (f := ({ · with errand := some w.cluster.errands.length })) fun _ same => same
    exact ⟨published, ⟨left.stance, left.trail⟩, rising, below⟩
  · exact Procedure.returns_pure (h.mono (Nat.le_succ _))

/-! ## The whole run -/

theorem pullState_returns {old new : MemberRing}
    (h : Upto plan.self plan.rehash earlier Phase.applyState.rank (moving old) w) :
    (pullState around plan new).Returns now w fun w' _ =>
      Upto plan.self plan.rehash earlier Phase.drainLog.rank (moving old) w' := by
  refine (h.along fun trail => maintains_pull lasting_watched (guarded _ rfl trail) new).bind
    fun now w r h => ?_
  rcases r with cause | chunks
  · exact Procedure.returns_pure (h.mono (Nat.le_succ _))
  · refine (enter_returns h (Nat.le_refl _)).bind fun now w _ h => ?_
    refine (h.along fun trail => standing_watched.modifyNode fun _ => ?_).bind fun now w _ h =>
      Procedure.returns_pure h
    rfl

theorem pushState_returns {old ring new : MemberRing}
    (h : Upto plan.self plan.rehash earlier Phase.applyState.rank (moving old) w) :
    (pushState around plan ring new).Returns now w fun w' _ =>
      Upto plan.self plan.rehash earlier Phase.drainLog.rank (moving old) w' := by
  unfold pushState
  refine (h.along fun trail => maintains_world_read _).bind fun now w held h => ?_
  refine (h.along fun trail => Procedure.maintains_all ?_).bind fun now w results h => ?_
  · simp only [List.mem_map, forall_exists_index, and_imp]
    rintro _ row - rfl
    refine maintains_retry lasting_watched ?_
    refine (maintains_sendTo lasting_watched (guarded _ rfl trail) _ _ _ _).bind fun reply => ?_
    split <;> exact Procedure.maintains_pure _
  · split
    · exact Procedure.returns_pure (h.mono (Nat.le_succ _))
    · exact (enter_returns h (Nat.le_refl _)).bind fun now w _ h => Procedure.returns_pure h

theorem arrive_returns (h : Upto plan.self plan.rehash earlier 0 busy w) :
    (arrive around plan).Returns now w fun w' _ =>
      Upto plan.self plan.rehash earlier Phase.done.rank busy w' := by
  unfold arrive
  refine (enter_returns h (Nat.zero_le _)).bind fun now w _ h => ?_
  refine (h.along fun trail => maintains_fetchRing lasting_watched (guarded _ rfl trail)).bind
    fun now w r h => ?_
  rcases r with cause | old
  · exact Procedure.returns_pure (h.mono (by decide))
  refine (enter_returns h (by decide)).bind fun now w _ h => ?_
  split
  · exact Procedure.returns_pure (h.mono (by decide))
  split
  · exact (settle_returns guarded (h.mono (by decide))).bind fun now w _ h =>
      Procedure.returns_pure (h.mono (by decide))
  refine (transfer_returns guarded h fun now w h => pullState_returns guarded h).bind
    fun now w r h => ?_
  rcases r with cause | ⟨⟩
  · exact Procedure.returns_pure (h.mono (by decide))
  refine (settle_returns guarded h).bind fun now w _ h => ?_
  refine (h.along fun trail => maintains_reportArrival lasting_watched (guarded _ rfl trail)).bind
    fun now w _ h => ?_
  exact (leaveHints_returns h).bind fun now w _ h => Procedure.returns_pure h

theorem depart_returns {leaver : Address} {old : MemberRing}
    (h : Upto plan.self plan.rehash earlier 0 busy w) :
    (depart around plan leaver old).Returns now w fun w' _ =>
      Upto plan.self plan.rehash earlier Phase.done.rank busy w' := by
  unfold depart
  refine (enter_returns h (Nat.zero_le _)).bind fun now w _ h => ?_
  split
  · exact Procedure.returns_pure (h.mono (by decide))
  split
  · exact Procedure.returns_pure (h.mono (by decide))
  refine (enter_returns h (by decide)).bind fun now w _ h => ?_
  split
  · exact Procedure.returns_pure (h.mono (by decide))
  split
  · exact (settle_returns guarded (h.mono (by decide))).bind fun now w _ h =>
      Procedure.returns_pure (h.mono (by decide))
  refine (transfer_returns guarded h fun now w h => pushState_returns guarded h).bind
    fun now w r h => ?_
  rcases r with cause | ⟨⟩
  · exact Procedure.returns_pure (h.mono (by decide))
  refine (settle_returns guarded h).bind fun now w _ h => ?_
  refine (h.along fun trail =>
    standing_watched.modifyNode (f := (·.dropUnowned _)) fun _ => rfl).bind fun now w _ h => ?_
  exact (leaveHints_returns h).bind fun now w _ h => Procedure.returns_pure h

def lastPhase : Except RehashError MemberRing → Phase
  | .ok _ => .done
  | .error _ => .failed

/-- The rehash has ended with a result, and what it has published goes up to the last
phase. -/
def Ended (home rehash : Serial) (earlier : List Phase) (st : Stance) (w : World ε)
    (result : Except RehashError MemberRing) : Prop :=
  ∃ published, Watched home rehash st (lastPhase result :: published.reverse ++ earlier) w ∧
    Rising (published ++ [lastPhase result])

omit guarded in
theorem enter_ended (result : Except RehashError MemberRing)
    (h : Upto plan.self plan.rehash earlier Phase.done.rank busy w) :
    (enter plan.rehash (lastPhase result) : Procedure (World ε) Unit).Returns now w fun w' _ =>
      Ended plan.self plan.rehash earlier busy w' result := by
  obtain ⟨published, watched, rising, below⟩ := h
  have late : Phase.done.rank ≤ (lastPhase result).rank := by
    cases result <;> simp only [lastPhase] <;> decide
  exact (enter_watched watched _).mono fun w' _ watched => ⟨published, watched,
    rising.concat fun p hp => Nat.lt_of_lt_of_le (below p hp) late⟩

theorem carryOut_returns {change : Change}
    (h : Upto plan.self plan.rehash earlier 0 busy w) :
    (carryOut around plan change).Returns now w fun w' result =>
      Ended plan.self plan.rehash earlier busy w' result := by
  have ended : ∀ now (w : World ε) (result : Except RehashError MemberRing),
      Upto plan.self plan.rehash earlier Phase.done.rank busy w →
      (enter plan.rehash (lastPhase result) >>= fun _ => pure result).Returns now w
        (Ended plan.self plan.rehash earlier busy) :=
    fun _ _ result h => (enter_ended result h).bind fun _ _ _ done =>
      Procedure.returns_pure done
  unfold carryOut
  cases change with
  | join =>
    refine (arrive_returns guarded h).bind fun now w result h => ?_
    cases result with
    | ok new => exact ended now w (.ok new) h
    | error cause => exact ended now w (.error cause) h
  | leave leaver old =>
    refine (depart_returns guarded h).bind fun now w result h => ?_
    cases result with
    | ok new => exact ended now w (.ok new) h
    | error cause => exact ended now w (.error cause) h

end

theorem crowd_guarded (script : Nat → Sending → List Act) (depth : Nat) :
    Guarded (crowd home script depth) home rehash :=
  fun _ taken _ => crowd_spares_watched taken script depth

/-- A run takes the node, and gives it back as it was: free, with a closed and empty log,
and coming from nowhere. -/
theorem run_returns (guarded : Guarded around home rehash) {change : Change} {r : Rehash}
    {n : Node} (known : w.cluster.rehashes.get? rehash = some r)
    (there : w.cluster.nodes.get? home = some n) (free : n.rehashing = false)
    (counted : n.settings.deadline.CountedFrom now)
    (closed : n.log = .closed) (still : n.movingFrom = none) :
    (run around rehash home change).Returns now w fun w' result =>
      Ended home rehash r.trail ⟨false, none, some .closed⟩ w' result := by
  have begun : Upto home rehash r.trail 0 busy
      { w with cluster := w.cluster.updateNode home taken } := by
    have idle : n.stance = ⟨false, none, some .closed⟩ := by
      simp [Node.stance, free, still, closed, WriteLog.closed, WriteLog.isActive]
    have before : Watched home rehash ⟨false, none, some .closed⟩ r.trail w :=
      ⟨(congrArg (·.map Node.stance) there).trans (congrArg some idle),
        congrArg (·.map Rehash.trail) known⟩
    refine ⟨[], before.restance busy fun m same => ?_, .nil, List.forall_mem_nil _⟩
    have held : (taken m).stance = { m.stance with rehashing := true } := rfl
    rw [held, same]
    rfl
  have carried : (carryOut around (planned rehash home n now) change).Returns now _
      fun w' result => Ended home rehash r.trail busy w' result :=
    carryOut_returns guarded begun
  have given : ((carryOut around (planned rehash home n now) change).ensuring
      (release home)).Returns now { w with cluster := w.cluster.updateNode home taken }
      (Ended home rehash r.trail ⟨false, none, some .closed⟩) := by
    refine Procedure.Returns.ensuring (carried.mono ?_)
    rintro w' result ⟨published, watched, rising⟩
    refine ⟨published, watched.restance _ fun m stands => ?_, rising⟩
    have released : ({ m with rehashing := false } : Node).stance =
        { m.stance with rehashing := false } := rfl
    rw [released, stands]
    rfl
  rw [Procedure.Returns, run_eq there free counted]
  exact given

/-- Whatever a crowd does at the sendings of a rehash, and whatever the faults and the
settings are: when the run returns, either another one had taken the node and nothing
has happened at all, or the phases that it has published go up, the last one is `done`
or `failed` as the result says, and the node is free, its log is closed and empty, and
it comes from nowhere.  A run that is stopped by its deadline does not return, and
nothing has happened then either. -/
theorem run_ends_clean (script : Nat → Sending → List Act) (depth : Nat) {c : Cluster}
    {change : Change} {r : Rehash} {n : Node} {o : Nat}
    (known : c.rehashes.get? rehash = some r) (there : c.nodes.get? home = some n)
    (inOrder : n.InOrder) (shut : n.log.state = .disabled)
    {tick : Nat} {w' : World Nat} {result : Except RehashError MemberRing}
    (ran : (run (crowd home script depth) rehash home change now
      { cluster := c, outside := o }).run now = (tick, w', result)) :
    (n.rehashing = true ∧ result = .error .alreadyInProgress ∧ tick = now ∧
      w' = { cluster := c, outside := o }) ∨
    (n.rehashing = false ∧ ¬ n.settings.deadline.CountedFrom now ∧ result = .error .overflow ∧
      tick = now ∧ w' = { cluster := c, outside := o }) ∨
    (n.rehashing = false ∧ n.settings.deadline.CountedFrom now ∧
      ∃ (published : List Phase) (r' : Rehash) (n' : Node),
      w'.cluster.rehashes.get? rehash = some r' ∧ w'.cluster.nodes.get? home = some n' ∧
      r'.trail = published.reverse ++ r.trail ∧
      (published.map Phase.rank).Pairwise (· < ·) ∧
      (published.getLast? = some .done ↔ ∃ new, result = .ok new) ∧
      (published.getLast? = some .failed ↔ ∃ cause, result = .error cause) ∧
      n'.log = .closed ∧ n'.movingFrom = none ∧ n'.rehashing = false) := by
  cases held : n.rehashing with
  | true =>
    rw [run_refused (w := { cluster := c, outside := o }) there held] at ran
    cases ran
    exact .inl ⟨rfl, rfl, rfl, rfl⟩
  | false =>
    by_cases counted : n.settings.deadline.CountedFrom now
    case neg =>
      rw [run_overflows (w := { cluster := c, outside := o }) there held counted] at ran
      cases ran
      exact .inr (.inl ⟨rfl, counted, rfl, rfl, rfl⟩)
    obtain ⟨closed, still⟩ := inOrder shut
    have returned : (run (crowd home script depth) rehash home change).Returns now
        { cluster := c, outside := o }
        (Ended home rehash r.trail ⟨false, none, some .closed⟩) :=
      run_returns (crowd_guarded script depth) known there held counted closed still
    rw [Procedure.Returns, ran] at returned
    obtain ⟨published, watched, rising⟩ := returned
    obtain ⟨r', known', trail⟩ := Option.map_eq_some_iff.mp watched.trail
    obtain ⟨n', there', stands⟩ := Option.map_eq_some_iff.mp watched.stance
    refine .inr (.inr ⟨rfl, counted, published ++ [lastPhase result], r', n', known', there',
      ?_, rising, ?_, ?_, Node.log_of_stance (congrArg Stance.shut stands),
      congrArg Stance.movingFrom stands, congrArg Stance.rehashing stands⟩)
    · rw [trail, List.reverse_append]
      rfl
    · cases result <;> simp [lastPhase]
    · cases result <;> simp [lastPhase]

/-- Node `A`, and `C` that is to join. -/
def awaiting : Cluster :=
  ((Cluster.founded hasty ["A"]).start "C" hasty ["C"]).addRehash "join"
    { node := 1, address := "C", change := .join }

/-- While `C` asks for the ring, its join is run once more, and while it announces the
union, a client writes through `A`. -/
def interfering : Nat → Sending → List Act
  | 0, _ => [.attempt 0 .join]
  | 1, _ => [.pass 1, .write "A" (.single (.put "k" [1]))]
  | _, _ => []

theorem reached_awaiting : awaiting.Reached :=
  ((Cluster.Reached.empty.start "A" hasty ["A"]).start "C" hasty ["C"]).prepare "join" _

/-- `C` is free and its log is closed, and nothing has been published of its join. -/
theorem exists_awaiting :
    ∃ (r : Rehash) (n : Node), awaiting.rehashes.get? 0 = some r ∧ r.trail = [] ∧
      awaiting.nodes.get? 1 = some n ∧ n.log.state = .disabled ∧ n.rehashing = false := by
  have record : (awaiting.rehashes.get? 0).map Rehash.trail = some [] := by decide +kernel
  have node : (awaiting.nodes.get? 1).map (fun n => (n.log.state, n.rehashing)) =
      some (.disabled, false) := by decide +kernel
  obtain ⟨r, known, fresh⟩ := Option.map_eq_some_iff.mp record
  obtain ⟨n, there, stands⟩ := Option.map_eq_some_iff.mp node
  exact ⟨r, n, known, fresh, there, congrArg Prod.fst stands, congrArg Prod.snd stands⟩

theorem exists_run_interfering :
    ∃ tick w' new, (run (crowd 1 interfering 1) 0 1 .join 0
      { cluster := awaiting, outside := 0 }).run 0 = (tick, w', .ok new) := by
  -- What the run comes to is computed, but only this much of it matters.
  have joined : ((run (crowd 1 interfering 1) 0 1 .join 0
      { cluster := awaiting, outside := 0 }).run 0).2.2.toOption.isSome = true := by
    decide +kernel
  generalize (run (crowd 1 interfering 1) 0 1 .join 0
    { cluster := awaiting, outside := 0 }).run 0 = ran at joined
  obtain ⟨tick, w', cause | new⟩ := ran
  · cases joined
  · exact ⟨tick, w', new, rfl⟩

theorem run_ends_clean_amid_interference :
    ∃ (n : Node) (tick : Nat) (w' : World Nat) (new : MemberRing) (published : List Phase)
      (r' : Rehash) (n' : Node),
      awaiting.nodes.get? 1 = some n ∧ n.log.state = .disabled ∧ n.rehashing = false ∧
      (run (crowd 1 interfering 1) 0 1 .join 0 { cluster := awaiting, outside := 0 }).run 0 =
        (tick, w', .ok new) ∧
      w'.cluster.rehashes.get? 0 = some r' ∧ w'.cluster.nodes.get? 1 = some n' ∧
      r'.trail = published.reverse ++ [] ∧ (published.map Phase.rank).Pairwise (· < ·) ∧
      published.getLast? = some .done ∧
      n'.log = .closed ∧ n'.movingFrom = none ∧ n'.rehashing = false := by
  obtain ⟨r, n, known, fresh, there, shut, free⟩ := exists_awaiting
  obtain ⟨tick, w', new, ran⟩ := exists_run_interfering
  have inOrder : n.InOrder := reached_awaiting.inOrder there
  rcases run_ends_clean interfering 1 known there inOrder shut ran with refused | stopped | clean
  · exact absurd (free.symm.trans refused.1) (by decide)
  · cases stopped.2.2.1
  · obtain ⟨-, -, published, r', n', known', there', trail, rising, done, -, clean⟩ := clean
    exact ⟨n, tick, w', new, published, r', n', there, shut, free, ran, known', there',
      fresh ▸ trail, rising, done.mpr ⟨new, rfl⟩, clean⟩

end Rehash

end SlotRing
