/-
# The steps of a rehash, however hard the others are to reach

One rule for each step, as in `SlotRing.Proofs.Rehash.Steps`, but for members that
may not answer, late or never.  A step that is tried again comes to nothing or to
what one of its tries came to (`retryUntil_abides`), an announcement reaches those
it reaches, and state is moved or it is not.  What the surroundings do meanwhile,
and what others do, comes in through the relations of
`SlotRing.Proofs.Cluster.Staffing`.
-/
import SlotRing.Proofs.Cluster.Staffing
import SlotRing.Proofs.Rehash.Arrival
import SlotRing.Proofs.Rehash.Departure

namespace SlotRing.Rehash

open Picture World

/-! ## Trying -/

/-- Trying again changes nothing about what one try comes to, if every try can
begin in whatever the others have made of the state. -/
theorem retryUntil_abides {σ α : Type} [Paced σ] {others own : σ → σ → Prop}
    (theirs : Paced.Drift others) (mine : Paced.Drift own) (part : ∀ s s', own s s' → others s s')
    {phase : Phase} {deadline backoff : Nat} {attempt : Procedure σ (Except RehashError α)}
    {T : σ → α → Prop} {now : Nat} {s : σ}
    (try_ : ∀ now s', others s s' →
      attempt.Abides others own now s' fun s'' r => ∀ v, r = .ok v → T s'' v) :
    (retryUntil phase deadline backoff attempt).Abides others own now s fun s' r =>
      ∀ v, r = .ok v → T s' v := by
  have tries : ∀ n now s', others s s' → (retryFor phase deadline backoff attempt n).Abides
      others own now s' fun s'' r => ∀ v, r = .ok v → T s'' v := by
    intro n
    induction n with
    | zero => exact fun now s' _ => Procedure.abides_pure mine fun _ failed => by cases failed
    | succ n ih =>
      intro now s' since
      rw [retryFor]
      have once : (attempt.within (deadlineTick deadline)).Abides others own now s' fun s'' r =>
          ∀ v, r = some (.ok v) → T s'' v := by
        refine ((try_ now s' since).mono fun s'' r holds => ?_).within theirs mine part
          (fun _ _ _ cut => by cases cut) _
        exact fun v same => holds v (Option.some.inj same)
      refine (once.along theirs part).bind mine fun now' s'' r came => ?_
      obtain ⟨step, holds⟩ := came
      have since' := theirs.trans since step
      rcases r with _ | ⟨cause⟩ | ⟨v⟩
      · exact Procedure.abides_pure mine fun _ cut => by cases cut
      · refine (Procedure.Ends.abides (Q := fun t _ => others s t)
          (Procedure.ends_now ⟨mine.refl s'', since'⟩)).bind mine fun now'' t tick since'' => ?_
        by_cases late : deadline ≤ (tick + backoff) * Duration.perTick
        · simp only [late, if_true]
          exact Procedure.abides_pure mine fun _ failed => by cases failed
        · simp only [late, if_false]
          exact (Procedure.abides_sleep theirs mine backoff).bind mine fun now₃ u _ slept =>
            ih now₃ u (theirs.trans since'' slept)
      · refine Procedure.abides_pure mine fun v' same => ?_
        obtain rfl : v = v' := Except.ok.inj same
        exact holds v rfl
  rw [Procedure.Abides, retryUntil]
  exact tries _ now s (theirs.refl s)

variable {ε : Type} {around : Surroundings ε} {crew : Crew} {w : World ε} {now : Nat}
variable {E₀ N₀ E N : Picture ε → Picture ε → Prop} {A I P Q U V F G : Picture ε → Prop}
variable {plan : Plan} {coordinator : Address} {old new : MemberRing}

theorem retry_abides {α : Type} {phase : Phase} (fits : Fits E N)
    {attempt : Procedure (World ε) (Except RehashError α)} {T : Picture ε → α → Prop}
    (h : w.Has crew I) (stable : ∀ p q, E p q → I p → I q)
    (try_ : ∀ now w, w.Has crew I → attempt.Abides (Steps crew E) (Steps crew N) now w
      fun w' r => ∀ v, r = .ok v → w'.Has crew (T · v)) :
    (retry plan phase attempt).Abides (Steps crew E) (Steps crew N) now w fun w' r =>
      w'.Has crew I ∧ ∀ v, r = .ok v → w'.Has crew (T · v) := by
  have theirs := drift_steps crew fits.theirs
  have mine := drift_steps crew fits.mine
  have part (w w' : World ε) (step : Steps crew N w w') : Steps crew E w w' :=
    step.mono fits.part
  refine ((retryUntil_abides theirs mine part fun now' w' since =>
    try_ now' w' (h.along stable since)).along theirs part).mono fun w' r came => ?_
  exact ⟨h.along stable came.1, came.2⟩

/-! ## Publishing and announcing -/

theorem enter_abides (mine : Flow N₀) (rehash : Serial) (phase : Phase) (h : w.Has crew P) :
    (enter rehash phase : Procedure (World ε) Unit).Abides (Steps crew E₀) (Steps crew N₀) now w
      fun w' _ => w'.Has crew P :=
  World.abides_modify_other mine h fun _ => rfl

theorem leaveHints_abides (mine : Flow N₀) (h : w.Has crew P)
    (left : ∀ p, P p → ∀ errands, errands = hintsLeft plan.settings plan.self old new →
      N₀ p { p with errands := p.errands ++ errands } ∧
        Q { p with errands := p.errands ++ errands }) :
    (leaveHints plan old new : Procedure (World ε) Unit).Abides (Steps crew E₀) (Steps crew N₀)
      now w fun w' _ => w'.Has crew Q := by
  unfold leaveHints
  unfold hintsLeft at left
  split
  · next asked =>
    refine (enter_abides mine _ _ h).bind (drift_steps _ mine) fun now' w' _ h' => ?_
    obtain ⟨p, shows_, holds⟩ := h'
    obtain ⟨step, holds'⟩ := left p holds _ (if_pos asked).symm
    have after : World.Shows crew
        { w' with
          cluster :=
            w'.cluster.leaveErrand plan.rehash { node := plan.self, passage := ⟨old, new⟩ } }
        { p with errands := p.errands ++ [{ node := plan.self, passage := ⟨old, new⟩ }] } :=
      ⟨⟨shows_.staffs.members_eq, shows_.staffs.nodup, shows_.staffs.endpoint,
        shows_.staffs.named, shows_.staffs.node, shows_.staffs.address⟩, shows_.strangers,
        shows_.view, shows_.endpoints, congrArg (· ++ _) shows_.errands, shows_.outside⟩
    exact (Procedure.ends_modify ⟨steps_of_shows shows_ after step, _, after, holds'⟩).abides
  · next refused =>
    refine Procedure.abides_pure (drift_steps _ mine) (h.mono fun p holds => ?_)
    have kept := (left p holds _ (if_neg refused).symm).2
    rw [List.append_nil] at kept
    exact kept

theorem announce_abides (room : Room E₀ N₀ E N) (self : plan.By crew.who)
    {mapping : MemberMapping} (h : w.Has crew P)
    (installed : ∀ p, P p →
      N₀ p (p.withNode plan.node ((p.nodes plan.node).install mapping)) ∧
        A (p.withNode plan.node ((p.nodes plan.node).install mapping)))
    (minds : around.Minds crew E₀ N₀
      { sender := plan.node, targets := crew.who.members.filter (· != plan.node),
        command := .installMapping mapping } A I)
    (stable : ∀ p q, E p q → I p → I q)
    (handled : ∀ target ∈ crew.who.members, target ≠ plan.node → ∀ now p, I p →
      N p (p.answered around now plan.node (.installMapping mapping) target)) :
    (announce around plan mapping).Abides (Steps crew E₀) (Steps crew N₀) now w
      fun w' _ => w'.Has crew I := by
  have mine := drift_steps crew room.mine
  unfold announce
  rw [self.self]
  refine (World.abides_modifyNode self.mem h (f := (·.install mapping)) (fun _ => rfl)
    installed).bind mine fun now' w' _ h' => ?_
  exact (broadcast_abides room minds h' stable handled).discard mine

/-! ## Fetching the ring -/

theorem fetchRing_abides (fits : Fits E N) (head : crew.who.members.head? = some coordinator)
    (minds : around.Minds crew E N
      { sender := plan.node, targets := [coordinator],
        command := .getCurrentMapping plan.node } I I)
    (h : w.Has crew I) (stable : ∀ p q, E p q → I p → I q)
    (settled : ∀ p, I p → (p.nodes coordinator).mapping = .settled old)
    (handled : ∀ now p, I p →
      N p (p.answered around now plan.node (.getCurrentMapping plan.node) coordinator)) :
    (fetchRing around plan).Abides (Steps crew E) (Steps crew N) now w fun w' r =>
      w'.Has crew I ∧ ∀ ring, r = .ok ring → ring = old := by
  have mine := drift_steps crew fits.mine
  obtain ⟨p, shows_, -⟩ := id h
  have found : w.cluster.coordinator? = some coordinator := by
    rw [Cluster.coordinator?, shows_.staffs.members_eq, head]
  unfold fetchRing
  refine (Procedure.Ends.abides (Q := fun w' c => w' = w ∧ c = some coordinator)
    (Procedure.ends_read ⟨mine.refl w, rfl, found⟩)).bind mine ?_
  rintro now' w' c ⟨rfl, rfl⟩
  refine (retry_abides fits (T := fun _ ring => ring = old) h stable fun now'' w'' h'' => ?_).mono
    fun w'' r came => ⟨came.1, fun ring ok => (came.2 ring ok).choose_spec.2⟩
  refine (sendTo_abides fits.room (T := fun _ reply => reply = .currentMapping (some old)) minds
    h'' stable (fun _ now p holds => ⟨handled now p holds, ?_⟩) fun _ _ _ _ same => same).bind
    mine fun now₃ w₃ r came => ?_
  · exact congrArg (Reply.currentMapping ∘ Mapping.settled?) (settled p holds)
  · rcases r with cause | reply
    · exact Procedure.abides_pure mine fun _ failed => by cases failed
    · obtain ⟨p, shows', rfl⟩ := came.2 reply rfl
      refine Procedure.abides_pure mine fun ring same => ?_
      obtain rfl : old = ring := Except.ok.inj same
      exact ⟨p, shows', rfl⟩

/-! ## Moving state -/

theorem openLog_abides (flow : Flow N₀) (self : plan.By crew.who) (h : w.Has crew P)
    (busy : ∀ p, P p → (p.nodes plan.node).log.state ≠ .disabled → G p)
    (opened : ∀ p, P p → (p.nodes plan.node).log.state = .disabled →
      N₀ p (p.withNode plan.node (logging old (p.nodes plan.node))) ∧
        Q (p.withNode plan.node (logging old (p.nodes plan.node)))) :
    (openLog plan old : Procedure (World ε) (Except RehashError Unit)).Abides (Steps crew E₀)
      (Steps crew N₀) now w fun w' r =>
        (r = .ok () → w'.Has crew Q) ∧ ∀ cause, r = .error cause → w'.Has crew G := by
  obtain ⟨p, shows_, holds⟩ := h
  have node : w.cluster.nodes.get? plan.self = some (p.nodes plan.node) := by
    rw [self.self]
    exact shows_.staffs.node self.mem
  by_cases closed : (p.nodes plan.node).log.state = .disabled
  · obtain ⟨step, holds'⟩ := opened p holds closed
    have run : openLog plan old now w = .done
        { w with
          cluster := w.cluster.updateNode plan.self fun _ => logging old (p.nodes plan.node) }
        (.ok ()) := by
      simp only [openLog, Procedure.change, node, Option.bind_some,
        beginTransition?_of_closed closed]
    have after := shows_.withNode self.mem (f := fun _ => logging old (p.nodes plan.node)) rfl
    rw [← self.self] at after
    exact Procedure.Ends.abides ⟨_, _, run, steps_of_shows shows_ after step,
      fun _ => ⟨_, after, holds'⟩, fun _ failed => by cases failed⟩
  · have run : openLog plan old now w = .done w (.error .alreadyInProgress) := by
      simp only [openLog, Procedure.change, node, Option.bind_some, Node.beginTransition?,
        WriteLog.enable?, if_neg closed, Option.map_none]
    exact Procedure.Ends.abides ⟨_, _, run, (drift_steps crew flow).refl w,
      (fun ok => by cases ok), fun _ _ => ⟨p, shows_, busy p holds closed⟩⟩

theorem abort_abides (room : Room E₀ N₀ E N) (self : plan.By crew.who) (h : w.Has crew P)
    (dropped : ∀ p, P p → N₀ p (p.withNode plan.node (p.nodes plan.node).abortTransition) ∧
      Q (p.withNode plan.node (p.nodes plan.node).abortTransition))
    (installed : ∀ p, Q p →
      N₀ p (p.withNode plan.node ((p.nodes plan.node).install (.settled old))) ∧
        A (p.withNode plan.node ((p.nodes plan.node).install (.settled old))))
    (minds : around.Minds crew E₀ N₀
      { sender := plan.node, targets := crew.who.members.filter (· != plan.node),
        command := .installMapping (.settled old) } A I)
    (stable : ∀ p q, E p q → I p → I q)
    (handled : ∀ target ∈ crew.who.members, target ≠ plan.node → ∀ now p, I p →
      N p (p.answered around now plan.node (.installMapping (.settled old)) target)) :
    (abort around plan old).Abides (Steps crew E₀) (Steps crew N₀) now w
      fun w' _ => w'.Has crew I := by
  have mine := drift_steps crew room.mine
  have first : (World.modifyNode plan.self (·.abortTransition) :
      Procedure (World ε) Unit).Abides (Steps crew E₀) (Steps crew N₀) now w
      fun w' _ => w'.Has crew Q := by
    rw [self.self]
    exact World.abides_modifyNode self.mem h (fun _ => rfl) dropped
  exact first.bind mine fun now' w' _ h' =>
    announce_abides room self h' installed minds stable handled

/-- State is moved, or everything goes back to the old ring. -/
theorem transfer_abides (flow : Flow N₀) (self : plan.By crew.who)
    {moveState : Procedure (World ε) (Except RehashError Unit)} (h : w.Has crew P)
    (busy : ∀ p, P p → (p.nodes plan.node).log.state ≠ .disabled → G p)
    (opened : ∀ p, P p → (p.nodes plan.node).log.state = .disabled →
      N₀ p (p.withNode plan.node (logging old (p.nodes plan.node))) ∧
        A (p.withNode plan.node (logging old (p.nodes plan.node))))
    (union : ∀ now w, w.Has crew A → (announce around plan (.moving old new)).Abides
      (Steps crew E₀) (Steps crew N₀) now w fun w' _ => w'.Has crew U)
    (moved : ∀ now w, w.Has crew U → moveState.Abides (Steps crew E₀) (Steps crew N₀) now w
      fun w' r => (r = .ok () → w'.Has crew V) ∧ ∀ cause, r = .error cause → w'.Has crew F)
    (finished : ∀ p, V p → N₀ p (p.withNode plan.node (p.nodes plan.node).finishTransition) ∧
      Q (p.withNode plan.node (p.nodes plan.node).finishTransition))
    (aborted : ∀ now w, w.Has crew F → (abort around plan old).Abides (Steps crew E₀)
      (Steps crew N₀) now w fun w' _ => w'.Has crew G) :
    (transfer around plan old new moveState).Abides (Steps crew E₀) (Steps crew N₀) now w
      fun w' r => (r = .ok () → w'.Has crew Q) ∧ ∀ cause, r = .error cause → w'.Has crew G := by
  have mine := drift_steps crew flow
  unfold transfer
  refine (World.abides_modify_other flow h
    (f := (·.updateRehash plan.rehash ({ · with passage := some ⟨old, new⟩ })))
    fun _ => rfl).bind mine fun now₁ w₁ _ h₁ => ?_
  refine (openLog_abides flow self h₁ busy opened).bind mine fun now₂ w₂ r opening => ?_
  rcases r with cause | ⟨⟩
  · exact Procedure.abides_pure mine ⟨nofun, fun _ _ => opening.2 cause rfl⟩
  refine (enter_abides flow _ _ (opening.1 rfl)).bind mine fun now₃ w₃ _ h₃ => ?_
  refine (union now₃ w₃ h₃).bind mine fun now₄ w₄ _ h₄ => ?_
  refine (enter_abides flow _ _ h₄).bind mine fun now₅ w₅ _ h₅ => ?_
  refine (moved now₅ w₅ h₅).bind mine fun now₆ w₆ r came => ?_
  rcases r with cause | ⟨⟩
  · refine (aborted now₆ w₆ (came.2 cause rfl)).bind mine fun now₇ w₇ _ h₇ => ?_
    exact Procedure.abides_pure mine ⟨nofun, fun _ _ => h₇⟩
  · refine (enter_abides flow _ _ (came.1 rfl)).bind mine fun now₇ w₇ _ h₇ => ?_
    rw [self.self]
    exact (World.abides_modifyNode self.mem h₇ (f := Node.finishTransition) (fun _ => rfl)
      finished).bind mine
      fun now₈ w₈ _ h₈ => Procedure.abides_pure mine ⟨fun _ => h₈, nofun⟩

/-! ## Pulling and pushing -/

theorem eq_map_of_allOk {α : Type} {rs : List (Except RehashError α)} {as : List α}
    (h : allOk rs = .ok as) : rs = as.map .ok := by
  induction rs generalizing as with
  | nil =>
    obtain rfl : [] = as := Except.ok.inj h
    rfl
  | cons r rs ih =>
    cases r with
    | error cause => cases h
    | ok a =>
      cases rest : allOk rs with
      | error cause => rw [allOk, rest] at h; cases h
      | ok more =>
        rw [allOk, rest] at h
        obtain rfl : a :: more = as := Except.ok.inj h
        rw [ih rest, List.map_cons]

/-- What has come from a source, if anything has, is as it is to be. -/
def CameFrom (T : Address → List Entry → Prop) (source : Address)
    (r : Except RehashError (Address × List Entry)) : Prop :=
  ∀ chunk, r = .ok chunk → chunk.1 = source ∧ T source chunk.2

theorem chunks_of_forall₂ {T : Address → List Entry → Prop} {sources : List Address}
    {chunks : List (Address × List Entry)}
    (h : List.Forall₂ (CameFrom T) sources (chunks.map .ok)) :
    chunks.map Prod.fst = sources ∧ ∀ chunk ∈ chunks, T chunk.1 chunk.2 := by
  induction chunks generalizing sources with
  | nil =>
    cases h
    exact ⟨rfl, fun chunk hc => absurd hc List.not_mem_nil⟩
  | cons chunk chunks ih =>
    cases h with
    | cons first rest =>
      obtain ⟨rfl, right⟩ := first chunk rfl
      obtain ⟨rfl, all⟩ := ih rest
      exact ⟨rfl, List.forall_mem_cons.mpr ⟨right, all⟩⟩

theorem askForState_abides (fits : Fits E N) {source : Address} {T : List Entry → Prop}
    (minds : around.Minds crew E N
      { sender := plan.node, targets := [source], command := .pullState plan.node new } I I)
    (h : w.Has crew I) (stable : ∀ p q, E p q → I p → I q)
    (handled : source ∈ crew.who.members → ∀ now p, I p →
      N p (p.answered around now plan.node (.pullState plan.node new) source) ∧
        T ((p.nodes source).stateFor plan.node new)) :
    (askForState around plan new source).Abides (Steps crew E) (Steps crew N) now w
      fun w' r => ∀ entries, r = .ok entries → w'.Has crew fun _ => T entries := by
  have inner := drift_steps crew fits.mine
  refine (sendTo_abides fits.room
    (T := fun _ reply => ∃ chunk, reply = .stateChunk chunk ∧ T chunk) minds h stable
    (fun mem now p holds => ?_) fun _ _ _ _ same => same).bind inner fun now' w' r said => ?_
  · obtain ⟨step, right⟩ := handled mem now p holds
    exact ⟨step, _, rfl, right⟩
  · rcases r with cause | reply
    · exact Procedure.abides_pure inner nofun
    · obtain ⟨p, shows_, chunk, rfl, right⟩ := said.2 reply rfl
      refine Procedure.abides_pure inner fun chunk' same => ?_
      obtain rfl : chunk = chunk' := Except.ok.inj same
      exact ⟨p, shows_, right⟩

theorem pull_abides (fits : Fits E N) {T : Address → List Entry → Prop}
    (minds : ∀ source ∈ new.providers plan.node plan.settings.owners, around.Minds crew E N
      { sender := plan.node, targets := [source], command := .pullState plan.node new } I I)
    (h : w.Has crew I) (stable : ∀ p q, E p q → I p → I q)
    (handled : ∀ source ∈ new.providers plan.node plan.settings.owners,
      source ∈ crew.who.members → ∀ now p, I p →
        N p (p.answered around now plan.node (.pullState plan.node new) source) ∧
          T source ((p.nodes source).stateFor plan.node new)) :
    (pull around plan new).Abides (Steps crew E) (Steps crew N) now w fun w' r =>
      w'.Has crew I ∧ ∀ ordered, r = .ok ordered → ∃ chunks : List (Address × List Entry),
        ordered = inOrder chunks ∧
        chunks.map Prod.fst = new.providers plan.node plan.settings.owners ∧
        ∀ chunk ∈ chunks, T chunk.1 chunk.2 := by
  have theirs := drift_steps crew fits.theirs
  have inner := drift_steps crew fits.mine
  have part (w w' : World ε) (step : Steps crew N w w') : Steps crew E w w' :=
    step.mono fits.part
  unfold pull
  refine Procedure.Abides.bind inner (Q := fun w' rs => w'.Has crew I ∧
    List.Forall₂ (CameFrom T) (new.providers plan.node plan.settings.owners) rs) ?_
    fun now' w' rs came => ?_
  · refine ((Procedure.abides_all theirs inner part
      (Q := fun source (_ : World ε) r => CameFrom T source r) (fun _ _ _ _ _ said => said) _
      fun source asked w' since => ?_).along theirs part).mono
      fun w' rs came => ⟨h.along stable came.1, came.2⟩
    refine (retry_abides fits (T := fun _ chunk => T source chunk) (h.along stable since)
      stable fun now' w'' h'' => askForState_abides fits (minds source asked) h'' stable
        (handled source asked)).bind inner fun now' w'' r said => ?_
    refine Procedure.abides_pure inner fun chunk ok => ?_
    rcases r with cause | entries
    · cases ok
    · obtain rfl : (source, entries) = chunk := Except.ok.inj ok
      exact ⟨rfl, (said.2 entries rfl).choose_spec.2⟩
  · refine Procedure.abides_pure inner ⟨came.1, fun ordered ok => ?_⟩
    cases all : allOk rs with
    | error cause => rw [all] at ok; cases ok
    | ok chunks =>
      rw [all] at ok
      have listed := came.2
      rw [eq_map_of_allOk all] at listed
      exact ⟨chunks, (Except.ok.inj ok).symm, chunks_of_forall₂ listed⟩

/-- State is pulled from all providers at once; if all of it comes, it is merged in
the end. -/
theorem pullState_abides (room : Room E₀ N₀ E N) (self : plan.By crew.who)
    {T : Address → List Entry → Prop}
    (minds : ∀ source ∈ new.providers plan.node plan.settings.owners, around.Minds crew E N
      { sender := plan.node, targets := [source], command := .pullState plan.node new } I I)
    (h : w.Has crew I) (stable : ∀ p q, E p q → I p → I q)
    (handled : ∀ source ∈ new.providers plan.node plan.settings.owners,
      source ∈ crew.who.members → ∀ now p, I p →
        N p (p.answered around now plan.node (.pullState plan.node new) source) ∧
          T source ((p.nodes source).stateFor plan.node new))
    (merged : ∀ chunks : List (Address × List Entry),
      chunks.map Prod.fst = new.providers plan.node plan.settings.owners →
      (∀ chunk ∈ chunks, T chunk.1 chunk.2) → ∀ p, I p →
        N₀ p (p.withNode plan.node
          (merging new plan.node plan.settings.owners chunks (p.nodes plan.node))) ∧
        Q (p.withNode plan.node
          (merging new plan.node plan.settings.owners chunks (p.nodes plan.node)))) :
    (pullState around plan new).Abides (Steps crew E₀) (Steps crew N₀) now w fun w' r =>
      (r = .ok () → w'.Has crew Q) ∧ ∀ cause, r = .error cause → w'.Has crew I := by
  have mine := drift_steps crew room.mine
  unfold pullState
  refine ((pull_abides room.fits minds h stable handled).inside room).bind mine
    fun now' w' r came => ?_
  obtain ⟨holds, pulled⟩ := came
  rcases r with cause | ordered
  · exact Procedure.abides_pure mine ⟨nofun, fun _ _ => holds⟩
  · obtain ⟨chunks, rfl, all, right⟩ := pulled ordered rfl
    refine (enter_abides room.mine _ _ holds).bind mine fun now₁ w₁ _ h₁ => ?_
    rw [self.self]
    exact (World.abides_modifyNode self.mem h₁
      (f := merging new plan.node plan.settings.owners chunks) (fun _ => rfl)
      (merged chunks all right)).bind mine
      fun now₂ w₂ _ h₂ => Procedure.abides_pure mine ⟨fun _ => h₂, nofun⟩

theorem exists_mem_of_forall₂ {α β : Type} {R : α → β → Prop} {as : List α} {bs : List β}
    (h : List.Forall₂ R as bs) {a : α} (ha : a ∈ as) : ∃ b ∈ bs, R a b := by
  induction h with
  | nil => cases ha
  | cons first rest ih =>
    rcases List.mem_cons.mp ha with rfl | ha
    · exact ⟨_, List.mem_cons_self, first⟩
    · obtain ⟨b, hb, holds⟩ := ih ha
      exact ⟨b, List.mem_cons_of_mem _ hb, holds⟩

theorem handAll_abides (fits : Fits E N) {rows : List (Address × List Entry)}
    {T : Address × List Entry → Picture ε → Prop} (h : w.Has crew I)
    (stable : ∀ p q, E p q → I p → I q)
    (minds : ∀ row ∈ rows, around.Minds crew E N
      { sender := plan.node, targets := [row.1], command := .pushState row.2 } I I)
    (handled : ∀ row ∈ rows, row.1 ∈ crew.who.members → ∀ now p, I p →
      N p (p.answered around now plan.node (.pushState row.2) row.1) ∧
        T row (p.answered around now plan.node (.pushState row.2) row.1))
    (lasts : ∀ row p q, E p q → T row p → T row q) :
    (Procedure.all (rows.map fun row =>
      retry plan .pullState (handTo around plan row.1 row.2))).Abides (Steps crew E)
      (Steps crew N) now w fun w' rs => w'.Has crew I ∧ List.Forall₂
        (fun row (r : Except RehashError Unit) => ∀ u, r = .ok u → w'.Has crew (T row))
        rows rs := by
  have mine := drift_steps crew fits.mine
  have theirs := drift_steps crew fits.theirs
  have part (w w' : World ε) (step : Steps crew N w w') : Steps crew E w w' :=
    step.mono fits.part
  have lasting (row : Address × List Entry) (r : Except RehashError Unit) :
      Stable (Steps crew E) fun w => ∀ u, r = .ok u → w.Has crew (T row) :=
    fun _ _ step said u ok => (said u ok).along (lasts row) step
  refine ((Procedure.abides_all theirs mine part lasting _ fun row listed w' since =>
    ?_).along theirs part).mono fun w' rs came => ⟨h.along stable came.1, came.2⟩
  refine (retry_abides fits (T := fun p _ => T row p) (h.along stable since) stable
    fun now' w'' h'' => ?_).mono fun w'' r said => said.2
  refine (sendTo_abides fits.room (T := fun p _ => T row p) (minds row listed) h'' stable
    (handled row listed) fun _ => lasts row).bind mine fun now₃ w₃ r said => ?_
  rcases r with cause | reply
  · exact Procedure.abides_pure mine nofun
  · have heard := said.2 reply rfl
    cases reply <;> exact Procedure.abides_pure mine fun _ _ => heard

theorem pushState_abides (fits : Fits E N) (self : plan.By crew.who)
    {I : List Entry → Picture ε → Prop} {T : Address × List Entry → Picture ε → Prop}
    (h : w.Has crew P)
    (begun : ∀ p, P p → I ((p.nodes plan.node).store.select fun key =>
      old.isOwner plan.node key plan.settings.owners) p)
    (stable : ∀ held p q, E p q → I held p → I held q)
    (minds : ∀ held, ∀ row ∈ gains plan old new held, around.Minds crew E N
      { sender := plan.node, targets := [row.1], command := .pushState row.2 } (I held) (I held))
    (handled : ∀ held, ∀ row ∈ gains plan old new held, row.1 ∈ crew.who.members →
      ∀ now p, I held p →
        N p (p.answered around now plan.node (.pushState row.2) row.1) ∧
          T row (p.answered around now plan.node (.pushState row.2) row.1))
    (lasts : ∀ row p q, E p q → T row p → T row q) :
    (pushState around plan old new).Abides (Steps crew E) (Steps crew N) now w fun w' r =>
      ∃ held, w'.Has crew fun p =>
        I held p ∧ (r = .ok () → ∀ row ∈ gains plan old new held, T row p) := by
  have mine := drift_steps crew fits.mine
  unfold pushState
  rw [self.self]
  refine (World.abides_readNode fits.mine self.mem h).bind mine ?_
  rintro now₁ w₁ r ⟨held, rfl, h₁⟩
  have h₁ : w₁.Has crew (I held) := h₁.mono fun p came => came.2 ▸ begun p came.1
  refine (handAll_abides fits h₁ (stable held) (minds held) (handled held) lasts).bind mine
    fun now₂ w₂ rs came => ?_
  obtain ⟨h₂, all⟩ := came
  split
  · next cause found => exact Procedure.abides_pure mine ⟨held, h₂.mono fun p i => ⟨i, nofun⟩⟩
  · next ok =>
    have handed : w₂.Has crew fun p => I held p ∧
        (Except.ok (ε := RehashError) () = .ok () → ∀ row ∈ gains plan old new held, T row p) := by
      obtain ⟨p, shows_, i⟩ := h₂
      refine ⟨p, shows_, i, fun _ row listed => ?_⟩
      obtain ⟨r, hr, said⟩ := exists_mem_of_forall₂ all listed
      have fine := List.findSome?_eq_none_iff.mp ok r hr
      rcases r with cause | u
      · cases fine
      · obtain ⟨q, shows', handed⟩ := said u rfl
        exact shows_.unique shows' ▸ handed
    refine (enter_abides fits.mine _ _ handed).bind mine fun now₃ w₃ _ h₃ => ?_
    exact Procedure.abides_pure mine ⟨held, h₃⟩

theorem reportArrival_abides (room : Room E₀ N₀ E N)
    (head : crew.who.members.head? = some coordinator)
    (minds : around.Minds crew E₀ N₀
      { sender := plan.node, targets := [coordinator], command := .joinComplete plan.node } I I)
    (h : w.Has crew I) (stable : ∀ p q, E p q → I p → I q)
    (handled : ∀ now p, I p →
      N p (p.answered around now plan.node (.joinComplete plan.node) coordinator)) :
    (reportArrival around plan).Abides (Steps crew E₀) (Steps crew N₀) now w
      fun w' _ => w'.Has crew I := by
  have mine := drift_steps crew room.mine
  obtain ⟨p, shows_, -⟩ := id h
  have found : w.cluster.coordinator? = some coordinator := by
    rw [Cluster.coordinator?, shows_.staffs.members_eq, head]
  unfold reportArrival
  refine (Procedure.Ends.abides (Q := fun w' c => w' = w ∧ c = some coordinator)
    (Procedure.ends_read ⟨mine.refl w, rfl, found⟩)).bind mine ?_
  rintro now' w' c ⟨rfl, rfl⟩
  by_cases same : coordinator = plan.node
  · simp only [same, ne_eq, not_true, if_false]
    exact Procedure.abides_pure mine h
  · simp only [same, ne_eq, not_false_eq_true, if_true]
    refine Procedure.Abides.discard mine ?_
    exact (sendTo_abides room (T := fun _ _ => True) minds h stable
      (fun _ now p i => ⟨handled now p i, trivial⟩) fun _ _ _ _ _ => trivial).mono
      fun w'' r came => came.1

/-! ## Errands -/

theorem tell_abides (fits : Fits E N) {sender : Address} {timeout : Duration}
    {rows : List (Address × List String)} (h : w.Has crew I) (stable : ∀ p q, E p q → I p → I q)
    (minds : ∀ row ∈ rows, around.Minds crew E N
      { sender, targets := [row.1], command := .invalidateHint row.2 } I I)
    (handled : ∀ row ∈ rows, row.1 ∈ crew.who.members → ∀ now p, I p →
      N p (p.answered around now sender (.invalidateHint row.2) row.1)) :
    (tell around sender timeout rows).Abides (Steps crew E) (Steps crew N) now w
      fun w' _ => w'.Has crew I := by
  have mine := drift_steps crew fits.mine
  induction rows generalizing now w with
  | nil => exact Procedure.abides_pure mine h
  | cons row rows ih =>
    have rest (now : Nat) (w : World ε) (h : w.Has crew I) := @ih w now h
      (fun row listed => minds row (List.mem_cons_of_mem _ listed))
      fun row listed => handled row (List.mem_cons_of_mem _ listed)
    rw [tell]
    refine (sendTo_abides fits.room (T := fun _ _ => True) (minds row List.mem_cons_self) h stable
      (fun mem now p holds => ⟨handled row List.mem_cons_self mem now p holds, trivial⟩)
      fun _ _ _ _ _ => trivial).bind mine fun now' w' r came => ?_
    rcases r with cause | reply
    · exact rest now' w' came.1
    · refine (rest now' w' came.1).bind mine (T := fun w' _ => w'.Has crew I) ?_
      exact fun now'' w'' _ h'' => Procedure.abides_pure mine h''

/-- An errand is run on the node that has left it, as that node is when the errand
begins. -/
theorem runErrand_abides (fits : Fits E N) (n : Nat) {errand : Errand} {a : Address}
    {p : Picture ε} (mem : a ∈ crew.who.members) (left : errand.node = crew.who.serial a)
    (shows_ : w.Shows crew p) (begun : I p) (stable : ∀ p q, E p q → I p → I q)
    (minds : ∀ row ∈ hints (p.nodes a) errand.passage, around.Minds crew E N
      { sender := a, targets := [row.1], command := .invalidateHint row.2 } I I)
    (handled : ∀ row ∈ hints (p.nodes a) errand.passage, row.1 ∈ crew.who.members →
      ∀ now q, I q → N q (q.answered around now a (.invalidateHint row.2) row.1))
    (finished : ∀ told q, N q { q with errands := q.errands.modify n ({ · with told }) }) :
    (runErrand around n errand).Abides (Steps crew E) (Steps crew N) now w fun _ _ => True := by
  have mine := drift_steps crew fits.mine
  have address : (p.nodes a).address = a := shows_.staffs.address mem
  unfold runErrand
  rw [left]
  refine (World.abides_readNode (P := (p = ·)) fits.mine mem ⟨p, shows_, rfl⟩).bind mine ?_
  rintro now' w' r ⟨node, rfl, _, shows', rfl, rfl⟩
  have told : (tell around (p.nodes a).address (p.nodes a).settings.rpcTimeout
      (hints (p.nodes a) errand.passage)).Abides (Steps crew E) (Steps crew N) now' w'
      fun w'' _ => w''.Has crew I := by
    rw [address]
    exact tell_abides fits ⟨p, shows', begun⟩ stable minds handled
  refine told.bind mine fun now'' w'' told _ => ?_
  refine (Procedure.ends_modify ⟨fun q seen => ⟨_, ?_, finished (some told) q⟩, trivial⟩).abides
  exact ⟨⟨seen.staffs.members_eq, seen.staffs.nodup, seen.staffs.endpoint, seen.staffs.named,
    seen.staffs.node, seen.staffs.address⟩, seen.strangers, seen.view, seen.endpoints,
    congrArg (fun es : List Errand => es.modify n ({ · with told := some told })) seen.errands,
    seen.outside⟩

/-! ## The whole change -/

/-- A join, put together from its parts: `Z` holds when the ring has been fetched or
could not be, and `D` when state has been moved. -/
theorem arrive_abides (flow : Flow N₀) (old : MemberRing) {Z : Picture ε → Prop}
    {D : MemberRing → Picture ε → Prop} {T : Except RehashError MemberRing → Picture ε → Prop}
    (h : w.Has crew P)
    (fetched : ∀ now w, w.Has crew P → (fetchRing around plan).Abides (Steps crew E₀)
      (Steps crew N₀) now w fun w' r => w'.Has crew Z ∧ ∀ ring, r = .ok ring → ring = old)
    (failed : ∀ cause p, Z p → T (.error cause) p)
    (still : ∀ new, old.extend plan.strategy [plan.node] = .ok new →
      (new == old || !plan.settings.rehashEnabled) = true → ∀ now w, w.Has crew Z →
      (settle around plan new).Abides (Steps crew E₀) (Steps crew N₀) now w
        fun w' _ => w'.Has crew (T (.ok new)))
    (moved : ∀ new, old.extend plan.strategy [plan.node] = .ok new →
      (new == old || !plan.settings.rehashEnabled) = false → ∀ now w, w.Has crew Z →
      (transfer around plan old new (pullState around plan new)).Abides (Steps crew E₀)
        (Steps crew N₀) now w fun w' r => (r = .ok () → w'.Has crew (D new)) ∧
          ∀ cause, r = .error cause → w'.Has crew (T (.error cause)))
    (closing : ∀ new now w, w.Has crew (D new) → Procedure.Abides (do
        settle around plan new
        reportArrival around plan
        leaveHints plan old new) (Steps crew E₀) (Steps crew N₀) now w
      fun w' _ => w'.Has crew (T (.ok new))) :
    (arrive around plan).Abides (Steps crew E₀) (Steps crew N₀) now w
      fun w' r => w'.Has crew (T r) := by
  have mine := drift_steps crew flow
  unfold arrive
  refine (enter_abides flow _ _ h).bind mine fun now₁ w₁ _ h₁ => ?_
  refine (fetched now₁ w₁ h₁).bind mine fun now₂ w₂ r came => ?_
  obtain ⟨h₂, same⟩ := came
  rcases r with cause | ring
  · exact Procedure.abides_pure mine (h₂.mono (failed cause))
  obtain rfl : ring = old := same ring rfl
  refine (enter_abides flow _ _ h₂).bind mine fun now₃ w₃ _ h₃ => ?_
  cases extended : ring.extend plan.strategy [plan.node] with
  | error full => exact Procedure.abides_pure mine (h₃.mono (failed _))
  | ok new =>
    by_cases stays : (new == ring || !plan.settings.rehashEnabled) = true
    · simp only [stays, if_true]
      exact (still new extended stays now₃ w₃ h₃).bind mine fun now₄ w₄ _ h₄ =>
        Procedure.abides_pure mine h₄
    · simp only [stays]
      refine (moved new extended (Bool.eq_false_iff.mpr stays) now₃ w₃ h₃).bind mine
        fun now₄ w₄ r came => ?_
      rcases r with cause | ⟨⟩
      · exact Procedure.abides_pure mine (came.2 cause rfl)
      · have rest := (closing new now₄ w₄ (came.1 rfl)).bind mine
          (T := fun w' r => w'.Has crew (T r)) fun now₅ w₅ _ h₅ =>
            show (pure (Except.ok new) : Procedure (World ε) _).Abides _ _ _ _ _ from
              Procedure.abides_pure mine h₅
        simpa only [bind_assoc] using rest

/-- A departure, put together from its parts: `D` holds when state has been moved. -/
theorem depart_abides (flow : Flow N₀) {leaver : Address} {D : MemberRing → Picture ε → Prop}
    {T : Except RehashError MemberRing → Picture ε → Prop} (h : w.Has crew P)
    (failed : ∀ cause p, P p → T (.error cause) p)
    (still : ∀ new, old.without plan.strategy leaver = .ok new →
      plan.settings.rehashEnabled = false → ∀ now w, w.Has crew P →
      (settle around plan new).Abides (Steps crew E₀) (Steps crew N₀) now w
        fun w' _ => w'.Has crew (T (.ok new)))
    (moved : ∀ new, old.without plan.strategy leaver = .ok new → ∀ now w, w.Has crew P →
      (transfer around plan old new (pushState around plan old new)).Abides (Steps crew E₀)
        (Steps crew N₀) now w fun w' r => (r = .ok () → w'.Has crew (D new)) ∧
          ∀ cause, r = .error cause → w'.Has crew (T (.error cause)))
    (closing : ∀ new now w, w.Has crew (D new) → Procedure.Abides (do
        settle around plan new
        World.modifyNode plan.self (·.dropUnowned new)
        leaveHints plan old new) (Steps crew E₀) (Steps crew N₀) now w
      fun w' _ => w'.Has crew (T (.ok new))) :
    (depart around plan leaver old).Abides (Steps crew E₀) (Steps crew N₀) now w
      fun w' r => w'.Has crew (T r) := by
  have mine := drift_steps crew flow
  unfold depart
  refine (enter_abides flow _ _ h).bind mine fun now₁ w₁ _ h₁ => ?_
  split
  · exact Procedure.abides_pure mine (h₁.mono (failed _))
  split
  · exact Procedure.abides_pure mine (h₁.mono (failed _))
  refine (enter_abides flow _ _ h₁).bind mine fun now₂ w₂ _ h₂ => ?_
  cases without : old.without plan.strategy leaver with
  | error full => exact Procedure.abides_pure mine (h₂.mono (failed _))
  | ok new =>
    by_cases disabled : (!plan.settings.rehashEnabled) = true
    · simp only [disabled, if_true]
      exact (still new without (Bool.not_eq_true' _ |>.mp disabled) now₂ w₂ h₂).bind mine
        fun now₃ w₃ _ h₃ => Procedure.abides_pure mine h₃
    · simp only [disabled]
      refine (moved new without now₂ w₂ h₂).bind mine fun now₃ w₃ r came => ?_
      rcases r with cause | ⟨⟩
      · exact Procedure.abides_pure mine (came.2 cause rfl)
      · have rest := (closing new now₃ w₃ (came.1 rfl)).bind mine
          (T := fun w' r => w'.Has crew (T r)) fun now₄ w₄ _ h₄ =>
            show (pure (Except.ok new) : Procedure (World ε) _).Abides _ _ _ _ _ from
              Procedure.abides_pure mine h₄
        simpa only [bind_assoc] using rest

/-! ## The whole run -/

theorem carryOut_abides {change : Change} {T : Except RehashError MemberRing → Picture ε → Prop}
    (flow : Flow N₀)
    (h : Procedure.Abides
      (match change with
        | .join => arrive around plan
        | .leave leaver old => depart around plan leaver old)
      (Steps crew E₀) (Steps crew N₀) now w fun w' r => w'.Has crew (T r)) :
    (carryOut around plan change).Abides (Steps crew E₀) (Steps crew N₀) now w
      fun w' r => w'.Has crew (T r) := by
  have mine := drift_steps crew flow
  have closing (phase : Phase) (now : Nat) (w : World ε) (r : Except RehashError MemberRing)
      (h : w.Has crew (T r)) :
      (do enter plan.rehash phase; return r : Procedure (World ε) _).Abides (Steps crew E₀)
        (Steps crew N₀) now w fun w' r => w'.Has crew (T r) :=
    (enter_abides flow _ _ h).bind mine fun now' w' _ h' => Procedure.abides_pure mine h'
  unfold carryOut
  cases change <;>
    exact h.bind mine fun now' w' r came => by cases r <;> exact closing _ now' w' _ came

/-- A run takes the node, carries out the change and gives the node back; if the
node is taken already, or the clock does not count to the deadline, nothing happens. -/
theorem run_abides {rehash : Serial} {a : Address} {change : Change}
    (mem : a ∈ crew.who.members) (flow : Flow N₀) (settings : Settings) (strategy : Strategy)
    {T T' : Except RehashError MemberRing → Picture ε → Prop} (h : w.Has crew P)
    (known : ∀ p, P p → (p.nodes a).settings = settings ∧ (p.nodes a).strategy = strategy)
    (busy : ∀ p, P p → (p.nodes a).rehashing = true → T' (.error .alreadyInProgress) p)
    (begun : ∀ p, P p → (p.nodes a).rehashing = false →
      N₀ p (p.withNode a (taken (p.nodes a))) ∧ Q (p.withNode a (taken (p.nodes a))))
    (carried : ∀ now (w : World ε) (plan : Plan), plan.By crew.who → plan.node = a →
      plan.settings = settings → plan.strategy = strategy → w.Has crew Q →
      (carryOut around plan change).Abides (Steps crew E₀) (Steps crew N₀) now w
        fun w' r => w'.Has crew (T r))
    (stopped : ∀ p, Q p → T (.error .overflow) p)
    (released : ∀ p, N₀ p (p.withNode a (givenBack (p.nodes a))))
    (ended : ∀ r p, T r p → T' r (p.withNode a (givenBack (p.nodes a)))) :
    (run around rehash (crew.who.serial a) change).Abides (Steps crew E₀) (Steps crew N₀) now w
      fun w' r => w'.Has crew (T' r) := by
  have mine := drift_steps crew flow
  obtain ⟨p, shows_, holds⟩ := h
  have node : w.cluster.nodes.get? (crew.who.serial a) = some (p.nodes a) :=
    shows_.staffs.node mem
  have address : (p.nodes a).address = a := shows_.staffs.address mem
  by_cases taken_ : (p.nodes a).rehashing = true
  · have refused : acquire (crew.who.serial a) now w = .done w none := by
      simp only [acquire, Procedure.change, node, taken_, if_true]
    have first : (acquire (crew.who.serial a) : Procedure (World ε) _).Abides (Steps crew E₀)
        (Steps crew N₀) now w fun w' r => w' = w ∧ r = none :=
      Procedure.Ends.abides ⟨_, _, refused, mine.refl w, rfl, rfl⟩
    unfold run
    refine first.bind mine ?_
    rintro now' w' r ⟨rfl, rfl⟩
    exact Procedure.abides_pure mine ⟨p, shows_, busy p holds taken_⟩
  · obtain ⟨step, holds'⟩ := begun p holds (Bool.eq_false_iff.mpr taken_)
    have acquired : acquire (crew.who.serial a) now w = .done
        { w with cluster := w.cluster.updateNode (crew.who.serial a) taken }
        (some (p.nodes a)) := by
      simp only [acquire, Procedure.change, node, taken_]
      rfl
    have after := shows_.withNode mem (f := taken) rfl
    have first : (acquire (crew.who.serial a) : Procedure (World ε) _).Abides (Steps crew E₀)
        (Steps crew N₀) now w fun w' r => w'.Has crew Q ∧ r = some (p.nodes a) :=
      Procedure.Ends.abides
        ⟨_, _, acquired, steps_of_shows shows_ after step, ⟨_, after, holds'⟩, rfl⟩
    unfold run
    refine first.bind mine ?_
    rintro now' w' r ⟨h', rfl⟩
    refine (Procedure.Ends.abides (Q := fun w'' _ => w''.Has crew Q)
      (Procedure.ends_now ⟨mine.refl w', h'⟩)).bind mine fun now'' w'' tick h'' => ?_
    have back (w : World ε) (p : Picture ε) (shows_ : w.Shows crew p) :
        World.Shows crew (release (crew.who.serial a) w)
          (p.withNode a (givenBack (p.nodes a))) :=
      shows_.withNode mem rfl
    refine Procedure.Abides.ensuring mine
      (fun w p shows_ => ⟨_, back w p shows_, released p⟩) ?_
    split
    case isTrue =>
      refine (carried now'' w'' _ ⟨?_, ?_⟩ address (known p holds).1 (known p holds).2 h'').mono ?_
      · rw [address]
        exact mem
      · rw [address]
      · rintro w₃ r ⟨q, shows', result⟩
        exact ⟨_, back w₃ q shows', ended r q result⟩
    case isFalse =>
      obtain ⟨q, shows', begun⟩ := h''
      exact Procedure.abides_pure mine ⟨_, back w'' q shows', ended _ q (stopped q begun)⟩

end SlotRing.Rehash
