/-
# The steps of a rehash, where nothing goes wrong

Each step of a rehash has one rule here: what it makes of the nodes, with room
for what the surroundings do when it sends a command.  A step that would be
tried again succeeds at once, and a rehash never waits.
-/
import SlotRing.Proofs.Cluster.Hosting
import SlotRing.Rehash.Run

namespace SlotRing.Rehash

variable {ε : Type} {around : Surroundings ε} {who : Census} {w : World ε} {now : Nat}
variable {P Q : (Address → Node) → ε → Prop} {J : World ε → Prop}

/-! ## Trying -/

theorem retryUntil_ends {σ α : Type} [Paced σ] {phase : Phase} {deadline backoff : Nat}
    {attempt : Procedure σ (Except RehashError α)} {s : σ} {T : σ → α → Prop}
    (h : attempt.Ends now s fun s' r => ∃ v, r = .ok v ∧ T s' v) :
    (retryUntil phase deadline backoff attempt).Ends now s fun s' r =>
      ∃ v, r = .ok v ∧ T s' v := by
  obtain ⟨tries, enough⟩ : ∃ tries, (deadlineTick deadline - now + 1) * triesPerTick = tries + 1 :=
    Nat.exists_eq_succ_of_ne_zero
      (Nat.mul_ne_zero (Nat.succ_ne_zero _) (by rw [triesPerTick, UInt32.size]; omega))
  have run : retryUntil phase deadline backoff attempt now s =
      retryFor phase deadline backoff attempt (tries + 1) now s := by
    rw [retryUntil, enough]
  rw [Procedure.Ends, run]
  show (retryFor phase deadline backoff attempt (tries + 1)).Ends now s _
  rw [retryFor]
  refine (Procedure.Ends.within (T := fun s' r => ∃ v, r = some (.ok v) ∧ T s' v)
    (h.mono ?_)).bind ?_
  · rintro s' r ⟨v, rfl, holds⟩
    exact ⟨v, rfl, holds⟩
  · rintro s' r ⟨v, rfl, holds⟩
    exact Procedure.ends_pure ⟨v, rfl, holds⟩

/-- Trying again changes nothing about what one try comes to, if every try can
begin wherever the invariant holds: a result is that of a try. -/
theorem retryUntil_keeps {σ α : Type} [Paced σ] {J : σ → Prop} (steady : Paced.Steady J)
    {phase : Phase} {deadline backoff : Nat} {attempt : Procedure σ (Except RehashError α)}
    {T : α → Prop} {s : σ} (h : J s)
    (try_ : ∀ now s, J s → attempt.Keeps J now s fun s' r => J s' ∧ ∀ v, r = .ok v → T v) :
    (retryUntil phase deadline backoff attempt).Keeps J now s fun s' r =>
      J s' ∧ ∀ v, r = .ok v → T v := by
  have tries : ∀ n now s, J s → (retryFor phase deadline backoff attempt n).Keeps J now s
      fun s' r => J s' ∧ ∀ v, r = .ok v → T v := by
    intro n
    induction n with
    | zero => exact fun now s hs => Procedure.keeps_pure ⟨hs, nofun⟩
    | succ n ih =>
      intro now s hs
      rw [retryFor]
      have once : (attempt.within (deadlineTick deadline)).Keeps J now s fun s' r =>
          J s' ∧ ∀ v, r = some (.ok v) → T v := by
        refine ((try_ now s hs).mono fun s' r holds => ?_).within steady
          (fun s' hs' => ⟨hs', nofun⟩) _
        exact ⟨holds.1, fun v same => holds.2 v (Option.some.inj same)⟩
      refine once.bind fun now s' r holds => ?_
      obtain ⟨hs', valid⟩ := holds
      rcases r with _ | ⟨cause⟩ | ⟨v⟩
      · exact Procedure.keeps_pure ⟨hs', nofun⟩
      · refine (Procedure.ends_now (Q := fun s' _ => J s') hs').keeps.bind fun now s' tick hs' => ?_
        by_cases late : deadline ≤ (tick + backoff) * Duration.perTick
        · simp only [late, if_true]
          exact Procedure.keeps_pure ⟨hs', nofun⟩
        · simp only [late, if_false]
          exact (Procedure.keeps_sleep steady backoff hs').bind fun now s' _ hs' => ih now s' hs'
      · exact Procedure.keeps_pure ⟨hs', fun v' same => valid v' (by rw [same])⟩
  rw [Procedure.Keeps, retryUntil]
  exact tries _ now s h

/-! ## Publishing and announcing -/

theorem hosts_updateRehash {c : Cluster} {nodes : Address → Node} (h : c.Hosts who nodes)
    (n : Serial) (f : Rehash → Rehash) : (c.updateRehash n f).Hosts who nodes :=
  ⟨h.members_eq, h.nodup, h.faultless, h.reached, h.named, h.node, h.address, h.errands_eq⟩

theorem hosts_leaveErrand {c : Cluster} {nodes : Address → Node} (h : c.Hosts who nodes)
    (n : Serial) (errand : Errand) : (c.leaveErrand n errand).Hosts (who.leaving [errand]) nodes :=
  ⟨h.members_eq, h.nodup, h.faultless, h.reached, h.named, h.node, h.address, fun known => by
    obtain ⟨errands, before, rfl⟩ := Option.map_eq_some_iff.mp known
    exact congrArg (· ++ [errand]) (h.errands_eq before)⟩

theorem enter_ends (rehash : Serial) (phase : Phase) (h : w.Holds who P) :
    (enter rehash phase : Procedure (World ε) Unit).Ends now w fun w' _ => w'.Holds who P :=
  World.ends_modify_other h fun _ _ hosts => hosts_updateRehash hosts _ _

/-- A rehash that the member `plan.node` carries out. -/
structure Plan.By (plan : Plan) (who : Census) : Prop where
  mem : plan.node ∈ who.members
  self : plan.self = who.serial plan.node

variable {plan : Plan}

def hintsLeft (settings : Settings) (self : Serial) (old new : MemberRing) : List Errand :=
  if settings.invalidateStale then [{ node := self, passage := ⟨old, new⟩ }] else []

theorem leaveHints_ends (old new : MemberRing) (h : w.Holds who P) :
    (leaveHints plan old new : Procedure (World ε) Unit).Ends now w fun w' _ =>
      w'.Holds (who.leaving (hintsLeft plan.settings plan.self old new)) P := by
  unfold leaveHints hintsLeft
  split
  · refine (enter_ends _ _ h).bind ?_
    rintro w' _ ⟨nodes, hosts, p⟩
    exact Procedure.ends_modify ⟨nodes, hosts_leaveErrand hosts _ _, p⟩
  · obtain ⟨nodes, hosts, p⟩ := h
    refine Procedure.ends_pure ⟨nodes, ?_, p⟩
    rw [Census.leaving_nil]
    exact hosts

/-- A mapping is announced: the member goes over to it first, then the
surroundings act, and then all others go over to it. -/
theorem announce_keeps (silent : around.Silent) (self : plan.By who) {mapping : MemberMapping}
    {A : (Address → Node) → ε → Prop}
    (h : w.Holds who fun nodes o =>
      A (Function.update nodes plan.node ((nodes plan.node).install mapping)) o)
    (allows : around.Allows who J
      { sender := plan.node, targets := who.members.filter (· != plan.node),
        command := .installMapping mapping } A fun nodes o =>
      Q (fun a => if a = plan.node then nodes a else (nodes a).install mapping) o) :
    (announce around plan mapping).Keeps J now w fun w' _ => w'.Holds who Q := by
  unfold announce
  rw [self.self]
  refine (World.ends_modifyNode self.mem (h.mono fun nodes o holds => ⟨rfl, holds⟩)).keeps.bind ?_
  intro now' w' _ holds
  refine Procedure.Keeps.discard (T := fun (w' : World ε) _ => w'.Holds who Q) ?_
  refine (broadcast_keeps silent
    (Q := fun nodes o => ∃ nodes', (∀ a ∈ who.members, nodes a = nodes' a) ∧ Q nodes' o)
    holds ?_).mono ?_
  · intro now' w'' holds'
    refine (allows now' w'' holds').mono fun w3 _ h3 => h3.mono fun nodes o q => ⟨_, ?_, q⟩
    intro a ha
    by_cases same : a = plan.node
    · simp [heeding, same]
    · simp [heeding, same, ha, Node.handle]
  · rintro w'' - ⟨nodes, hosts, nodes', same, q⟩
    exact ⟨nodes', hosts.congr fun a ha => (same a ha).symm, q⟩

theorem announce_ends (silent : around.Silent) (self : plan.By who) {mapping : MemberMapping}
    {A : (Address → Node) → ε → Prop}
    (h : w.Holds who fun nodes o =>
      A (Function.update nodes plan.node ((nodes plan.node).install mapping)) o)
    (leads : around.Leads who
      { sender := plan.node, targets := who.members.filter (· != plan.node),
        command := .installMapping mapping } A fun nodes o =>
      Q (fun a => if a = plan.node then nodes a else (nodes a).install mapping) o) :
    (announce around plan mapping).Ends now w fun w' _ => w'.Holds who Q :=
  Procedure.ends_iff_keeps.mpr (announce_keeps silent self h leads.allows)

theorem settle_ends (silent : around.Silent) (self : plan.By who) {new : MemberRing}
    {A : (Address → Node) → ε → Prop}
    (h : w.Holds who fun nodes o =>
      A (Function.update nodes plan.node ((nodes plan.node).install (.settled new))) o)
    (leads : around.Leads who
      { sender := plan.node, targets := who.members.filter (· != plan.node),
        command := .installMapping (.settled new) } A fun nodes o =>
      Q (fun a => if a = plan.node then nodes a else (nodes a).install (.settled new)) o) :
    (settle around plan new).Ends now w fun w' _ => w'.Holds who Q :=
  (enter_ends _ _ h).bind fun _ _ holds => announce_ends silent self holds leads

/-! ## Moving state -/

/-- The node with its log open, for a rehash that comes from `old`. -/
def logging (old : MemberRing) (n : Node) : Node :=
  { n with log := { n.log with state := .enabled }, movingFrom := some old }

theorem beginTransition?_of_closed {n : Node} (closed : n.log.state = .disabled)
    (old : MemberRing) : n.beginTransition? old = some (logging old n) := by
  rw [Node.beginTransition?, WriteLog.enable?, if_pos closed]
  rfl

theorem openLog_ends (self : plan.By who) {old : MemberRing}
    (h : w.Holds who fun nodes o => (nodes plan.node).log.state = .disabled ∧
      P (Function.update nodes plan.node (logging old (nodes plan.node))) o) :
    (openLog plan old : Procedure (World ε) (Except RehashError Unit)).Ends now w
      fun w' r => r = .ok () ∧ w'.Holds who P := by
  obtain ⟨nodes, hosts, closed, holds⟩ := h
  have opened : (w.cluster.nodes.get? plan.self).bind (·.beginTransition? old) =
      some (logging old (nodes plan.node)) := by
    rw [self.self, hosts.node self.mem]
    exact beginTransition?_of_closed closed old
  have run : openLog plan old now w = .done
      { w with cluster := w.cluster.updateNode plan.self fun _ => logging old (nodes plan.node) }
      (.ok ()) := by
    simp only [openLog, Procedure.change, opened]
  refine ⟨_, _, run, rfl, _, ?_, holds⟩
  show (w.cluster.updateNode plan.self _).Hosts who _
  rw [self.self]
  exact hosts.updateNode self.mem (f := fun _ => _) (hosts.address self.mem)

/-- State is moved: the log is opened, the union announced, the state moved
while the union is in force, and the log replayed. -/
theorem transfer_ends (silent : around.Silent) (self : plan.By who) {old new : MemberRing}
    {moveState : Procedure (World ε) (Except RehashError Unit)}
    {A U V : (Address → Node) → ε → Prop} (h : w.Holds who P)
    (opened : ∀ nodes o, P nodes o → (nodes plan.node).log.state = .disabled ∧
      A (Function.update nodes plan.node
        ((logging old (nodes plan.node)).install (.moving old new))) o)
    (union : around.Leads who
      { sender := plan.node, targets := who.members.filter (· != plan.node),
        command := .installMapping (.moving old new) } A fun nodes o =>
      U (fun a => if a = plan.node then nodes a else (nodes a).install (.moving old new)) o)
    (moved : ∀ w : World ε, w.Holds who U →
      moveState.Ends now w fun w' r => r = .ok () ∧ w'.Holds who V)
    (finished : ∀ nodes o, V nodes o →
      Q (Function.update nodes plan.node (nodes plan.node).finishTransition) o) :
    (transfer around plan old new moveState).Ends now w
      fun w' r => r = .ok () ∧ w'.Holds who Q := by
  unfold transfer
  refine (World.ends_modify_other h fun _ _ hosts => hosts_updateRehash hosts _ _).bind ?_
  intro w₁ _ h₁
  refine (openLog_ends self (P := fun nodes o => A (Function.update nodes plan.node
    ((nodes plan.node).install (.moving old new))) o) (h₁.mono fun nodes o p => ?_)).bind ?_
  · rw [Function.update_self, Function.update_idem]
    exact opened nodes o p
  rintro w₂ r ⟨rfl, h₂⟩
  refine (enter_ends _ _ h₂).bind fun w₃ _ h₃ => ?_
  refine (announce_ends silent self h₃ union).bind fun w₄ _ h₄ => ?_
  refine (enter_ends _ _ h₄).bind fun w₅ _ h₅ => ?_
  refine (moved w₅ h₅).bind ?_
  rintro w₆ r ⟨rfl, h₆⟩
  refine (enter_ends _ _ h₆).bind fun w₇ _ h₇ => ?_
  rw [self.self]
  exact (World.ends_modifyNode self.mem (P := Q)
    (h₇.mono fun nodes o v => ⟨rfl, finished nodes o v⟩)).bind
    fun w₈ _ h₈ => Procedure.ends_pure ⟨rfl, h₈⟩

theorem replay_eq (txs : List Transaction) (i : Nat) (log : WriteLog) (store : Store) :
    WriteLog.replay (fun _ tx (s : WriteLog × Store) => (s.1, s.2.writeAll tx.writes)) i txs
      (log, store) = (log, store.writeAll (txs.flatMap (·.writes))) := by
  induction txs generalizing i store with
  | nil => rfl
  | cons tx txs ih =>
    rw [WriteLog.replay, ih, List.flatMap_cons, Store.writeAll, Store.writeAll, Store.writeAll,
      List.foldl_append]

theorem finishTransition_eq {n : Node} (opened : n.log.state ≠ .disabled) :
    n.finishTransition =
      { n with
        log := .closed
        store := n.store.writeAll (n.log.pending.flatMap (·.writes))
        movingFrom := none } := by
  have active : n.log.isActive = true := by simpa [WriteLog.isActive] using opened
  rw [Node.finishTransition, WriteLog.drain, if_pos active, WriteLog.drainFrom]
  cases pending : n.log.pending with
  | nil => rfl
  | cons tx txs =>
    exact congrArg (fun r : WriteLog × Store =>
      { n with log := r.1.settle, store := r.2, movingFrom := none })
      (replay_eq (tx :: txs) 0 ⟨.draining, []⟩ n.store)

/-! ## The whole run -/

def taken (n : Node) : Node := { n with rehashing := true }

def givenBack (n : Node) : Node := { n with rehashing := false }

/-- What a run that begins now goes by. -/
def planned (rehash self : Serial) (n : Node) (now : Nat) : Plan where
  rehash := rehash
  self := self
  node := n.address
  settings := n.settings
  strategy := n.strategy
  deadline := now * Duration.perTick + n.settings.deadline.nanoseconds

section

variable {rehash self : Serial} {change : Change} {n : Node}
  (there : w.cluster.nodes.get? self = some n)
include there

theorem run_refused (held : n.rehashing = true) :
    run around rehash self change now w = .done w (.error .alreadyInProgress) := by
  simp only [run, bind, Procedure.bind, acquire, Procedure.change, there, held, if_true,
    Task.bind, pure, Procedure.pure]

theorem acquire_eq (free : n.rehashing = false) :
    acquire self now w =
      .done { w with cluster := w.cluster.updateNode self taken } (some n) := by
  simp only [acquire, Procedure.change, there, free]
  rfl

/-- If the clock counts to the deadline, the change is carried out on the node, which is
given back in the end. -/
theorem run_eq (free : n.rehashing = false) (counted : n.settings.deadline.CountedFrom now) :
    run around rehash self change now w =
      ((carryOut around (planned rehash self n now) change).ensuring (release self)) now
        { w with cluster := w.cluster.updateNode self taken } := by
  simp only [run, bind, Procedure.bind, acquire_eq there free, Task.bind, Procedure.now,
    if_pos counted]
  rfl

/-- A deadline that the clock does not count to stops the run, and all is as it was. -/
theorem run_overflows (free : n.rehashing = false)
    (uncounted : ¬ n.settings.deadline.CountedFrom now) :
    run around rehash self change now w = .done w (.error .overflow) := by
  have nodes : (w.cluster.nodes.update self taken).update self givenBack = w.cluster.nodes := by
    rw [Roster.update_update]
    refine Roster.update_eq_self _ fun m known => ?_
    obtain rfl := Option.some.inj (there.symm.trans known)
    simp only [Function.comp, givenBack, taken, ← free]
  have back : release self { w with cluster := w.cluster.updateNode self taken } = w :=
    congrArg (fun r => { w with cluster := { w.cluster with nodes := r } }) nodes
  simp only [run, bind, Procedure.bind, acquire_eq there free, Task.bind, Procedure.now,
    if_neg uncounted, Procedure.ensuring, pure, Procedure.pure, Task.ensuring, back]

end

theorem carryOut_ends {change : Change} {new : MemberRing}
    (h : Procedure.Ends
      (match change with
        | .join => arrive around plan
        | .leave leaver old => depart around plan leaver old)
      now w fun w' r => r = .ok new ∧ w'.Holds who Q) :
    (carryOut around plan change).Ends now w fun w' r => r = .ok new ∧ w'.Holds who Q := by
  unfold carryOut
  cases change with
  | join =>
    refine h.bind ?_
    rintro w' r ⟨rfl, holds⟩
    exact (enter_ends _ _ holds).bind fun w'' _ holds' => Procedure.ends_pure ⟨rfl, holds'⟩
  | leave leaver old =>
    refine h.bind ?_
    rintro w' r ⟨rfl, holds⟩
    exact (enter_ends _ _ holds).bind fun w'' _ holds' => Procedure.ends_pure ⟨rfl, holds'⟩

/-- A run takes the node, carries out the change and gives the node back, if the clock
counts to its deadline. -/
theorem run_ends {rehash : Serial} {a : Address} {change : Change} (mem : a ∈ who.members)
    (errands : List Errand)
    {T : (Address → Node) → ε → Except RehashError MemberRing → Prop} (h : w.Holds who P)
    (idle : ∀ nodes o, P nodes o → (nodes a).rehashing = false)
    (counted : ∀ nodes o, P nodes o → (nodes a).settings.deadline.CountedFrom now)
    (carried : ∀ (w' : World ε) (plan : Plan), plan.By who → plan.node = a →
      w'.Holds who (fun nodes o => (nodes a).settings = plan.settings ∧
        (nodes a).strategy = plan.strategy ∧
        ∃ nodes', P nodes' o ∧ nodes = Function.update nodes' a (taken (nodes' a))) →
      (carryOut around plan change).Ends now w' fun w'' r =>
        w''.Holds (who.leaving errands) fun nodes o =>
          T (Function.update nodes a (givenBack (nodes a))) o r) :
    (run around rehash (who.serial a) change).Ends now w
      fun w' r => w'.Holds (who.leaving errands) fun nodes o => T nodes o r := by
  obtain ⟨nodes, hosts, holds⟩ := h
  rw [Procedure.Ends, run_eq (hosts.node mem) (idle nodes _ holds) (counted nodes _ holds)]
  refine Procedure.Ends.ensuring ((carried _ _ ⟨?_, ?_⟩ (hosts.address mem) ?_).mono ?_)
  · exact show (nodes a).address ∈ who.members from (hosts.address mem).symm ▸ mem
  · exact congrArg who.serial (hosts.address mem).symm
  · refine ⟨_, hosts.updateNode mem (hosts.address mem), ?_, ?_, nodes, holds, rfl⟩
    · rw [Function.update_self]
      rfl
    · rw [Function.update_self]
      rfl
  · rintro w'' r ⟨nodes'', hosts'', holds''⟩
    exact ⟨_, hosts''.updateNode (a := a) mem (f := givenBack) (hosts''.address mem), holds''⟩

end SlotRing.Rehash
