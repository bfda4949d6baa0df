/-
# What members go by while one of them joins

Which ring the members go by in the end is a matter of announcements only: stores,
logs and the progress of a rehash have no part in it.  So the rules of this module
watch nothing of a node but the mapping it goes by (`Routed`), for a cluster in which
nothing goes wrong and surroundings that may have to wait.  A join may fail, and then
something else is promised than where it ends with a ring (`Outcome`).
-/
import SlotRing.Proofs.Rehash.Arrival
import SlotRing.Proofs.Ring.Newcomer

namespace SlotRing

theorem mem_members_extend {strategy : Strategy} {old new : MemberRing} {a m : Address}
    (extended : old.extend strategy [a] = .ok new) : m ∈ new.members ↔ m ∈ old.members ∨ m = a := by
  rw [Ring.mem_members_ofMembers extended, List.mem_append, List.mem_singleton]

variable {ε α : Type}

/-- A property of what the members go by, together with what the surroundings keep. -/
abbrev Routing (ε : Type) := (Address → MemberMapping) → ε → Prop

/-- A property of nodes that is one of what they go by. -/
def Routed (P : Routing ε) : (Address → Node) → ε → Prop :=
  fun nodes o => P (fun a => (nodes a).mapping) o

/-- What is promised of each result: `E` if it is an error. -/
def Outcome (Q : α → Routing ε) (E : Routing ε) : Except RehashError α → Routing ε
  | .ok value => Q value
  | .error _ => E

theorem mapping_update (nodes : Address → Node) (a : Address) (n : Node) :
    (fun b => (Function.update nodes a n b).mapping) =
      Function.update (fun b => (nodes b).mapping) a n.mapping := by
  funext b
  by_cases same : b = a
  · rw [same, Function.update_self, Function.update_self]
  · rw [Function.update_of_ne same, Function.update_of_ne same]

variable {who : Census} {w : World ε} {now : Nat}

theorem World.Holds.still {P : Routing ε} {a : Address} (mem : a ∈ who.members) {f : Node → Node}
    (same : ∀ n, w.cluster.nodes.get? (who.serial a) = some n →
      (f n).address = n.address ∧ (f n).mapping = n.mapping)
    (h : w.Holds who (Routed P)) :
    World.Holds who (Routed P) { w with cluster := w.cluster.updateNode (who.serial a) f } := by
  obtain ⟨nodes, hosts, holds⟩ := h
  obtain ⟨address, mapping⟩ := same _ (hosts.node mem)
  refine ⟨_, hosts.updateNode mem (address.trans (hosts.address mem)), ?_⟩
  rw [Routed, mapping_update, mapping, Function.update_eq_self]
  exact holds

namespace Rehash

variable {around : Surroundings ε} {plan : Plan} {J : World ε → Prop}

/-! ## The steps -/

theorem goOver_ends (self : plan.By who) {P : Routing ε} {f : Node → Node}
    (same : ∀ n, (f n).address = n.address ∧ (f n).mapping = n.mapping)
    (h : w.Holds who (Routed P)) :
    (World.modifyNode plan.self f : Procedure (World ε) Unit).Ends now w
      fun w' _ => w'.Holds who (Routed P) := by
  rw [self.self]
  exact Procedure.ends_modify (h.still self.mem fun n _ => same n)

theorem openLog_still (self : plan.By who) {P : Routing ε} {old : MemberRing}
    (h : w.Holds who (Routed P)) :
    (openLog plan old : Procedure (World ε) (Except RehashError Unit)).Ends now w
      fun w' _ => w'.Holds who (Routed P) := by
  unfold openLog
  refine Procedure.ends_change ?_
  split
  · exact h
  · next n opened =>
    obtain ⟨before, known, opened⟩ := Option.bind_eq_some_iff.mp opened
    obtain ⟨log, -, rfl⟩ := Option.map_eq_some_iff.mp opened
    rw [self.self] at known ⊢
    refine h.still self.mem fun n found => ?_
    obtain rfl := Option.some.inj (known.symm.trans found)
    exact ⟨rfl, rfl⟩

theorem announce_routed (silent : around.Silent) (self : plan.By who) {mapping : MemberMapping}
    {P A Q : Routing ε} (h : w.Holds who (Routed P))
    (goes : ∀ ms o, P ms o → A (Function.update ms plan.node mapping) o)
    (allows : around.Allows who J
      { sender := plan.node, targets := who.members.filter (· != plan.node),
        command := .installMapping mapping } (Routed A)
      (Routed fun ms o => Q (fun a => if a = plan.node then ms a else mapping) o)) :
    (announce around plan mapping).Keeps J now w fun w' _ => w'.Holds who (Routed Q) := by
  refine announce_keeps silent self (A := Routed A) (h.mono fun nodes o holds => ?_)
    fun now' w' holds => (allows now' w' holds).mono fun w'' _ h'' => h''.mono fun nodes o q => ?_
  · rw [Routed, mapping_update]
    exact goes _ o holds
  · have heard : (fun a => (if a = plan.node then nodes a
        else (nodes a).install mapping).mapping) =
        fun a => if a = plan.node then (nodes a).mapping else mapping := by
      funext a
      split <;> rfl
    rw [Routed, heard]
    exact q

/-! ## Moving state -/

theorem transfer_routed (silent : around.Silent) (self : plan.By who) {old new : MemberRing}
    {moveState : Procedure (World ε) (Except RehashError Unit)} {F A U V X E : Routing ε}
    (h : w.Holds who (Routed F)) (refused : ∀ ms o, F ms o → E ms o)
    (opened : ∀ ms o, F ms o → A (Function.update ms plan.node (.moving old new)) o)
    (union : around.Allows who J
      { sender := plan.node, targets := who.members.filter (· != plan.node),
        command := .installMapping (.moving old new) } (Routed A)
      (Routed fun ms o => U (fun a => if a = plan.node then ms a else .moving old new) o))
    (moved : ∀ now (w : World ε), w.Holds who (Routed U) → moveState.Keeps J now w
      fun w' r => w'.Holds who (Routed (Outcome (fun _ => V) X r)))
    (relapse : around.Allows who J
      { sender := plan.node, targets := who.members.filter (· != plan.node),
        command := .installMapping (.settled old) }
      (Routed fun ms o => ∃ ms', X ms' o ∧ ms = Function.update ms' plan.node (.settled old))
      (Routed fun ms o => E (fun a => if a = plan.node then ms a else .settled old) o)) :
    (transfer around plan old new moveState).Keeps J now w
      fun w' r => w'.Holds who (Routed (Outcome (fun _ => V) E r)) := by
  unfold transfer
  refine (World.ends_modify_other h fun _ _ hosts => hosts_updateRehash hosts _ _).keeps.bind ?_
  intro now₁ w₁ _ h₁
  refine (openLog_still self h₁).keeps.bind fun now₂ w₂ r h₂ => ?_
  rcases r with cause | ⟨⟩
  · exact Procedure.keeps_pure (h₂.mono fun nodes o => refused _ o)
  refine (enter_ends _ _ h₂).keeps.bind fun now₃ w₃ _ h₃ => ?_
  refine (announce_routed silent self h₃ opened union).bind fun now₄ w₄ _ h₄ => ?_
  refine (enter_ends _ _ h₄).keeps.bind fun now₅ w₅ _ h₅ => ?_
  refine (moved now₅ w₅ h₅).bind fun now₆ w₆ r h₆ => ?_
  rcases r with cause | ⟨⟩
  · refine Procedure.Keeps.bind (Q := fun w' _ => w'.Holds who (Routed E)) ?_
      fun _ _ _ gone => Procedure.keeps_pure gone
    unfold abort
    refine (goOver_ends self (f := (·.abortTransition)) (fun _ => ⟨rfl, rfl⟩) h₆).keeps.bind ?_
    intro now₇ w₇ _ h₇
    exact announce_routed silent self h₇ (fun ms o left => ⟨ms, left, rfl⟩) relapse
  · refine (enter_ends _ _ h₆).keeps.bind fun now₇ w₇ _ h₇ => ?_
    refine (goOver_ends self (f := (·.finishTransition)) (fun _ => ⟨rfl, rfl⟩) h₇).keeps.bind ?_
    exact fun _ _ _ done => Procedure.keeps_pure done

theorem mem_of_provider (self : plan.By who) {old new : MemberRing}
    (listed : ∀ m ∈ old.members, m ∈ who.members)
    (extended : old.extend plan.strategy [plan.node] = .ok new) {source : Address}
    (asked : source ∈ new.providers plan.node plan.settings.owners) : source ∈ who.members := by
  have placed := (Ring.mem_providers (Ring.sound_ofMembers extended).nodup_members asked).1
  rcases (mem_members_extend extended).mp placed with mine | rfl
  · exact listed source mine
  · exact self.mem

/-- Where every provider is a member and nobody interferes, state is pulled without a
stop. -/
theorem pullState_routed (silent : around.Silent) (self : plan.By who) {new : MemberRing}
    (mem : ∀ source ∈ new.providers plan.node plan.settings.owners, source ∈ who.members)
    {U X : Routing ε} (h : w.Holds who (Routed U))
    (pulls : ∀ source, around.Leads who
      { sender := plan.node, targets := [source], command := .pullState plan.node new }
      (Routed U) (Routed U)) :
    (pullState around plan new).Keeps J now w
      fun w' r => w'.Holds who (Routed (Outcome (fun _ => U) X r)) := by
  refine Procedure.Ends.keeps ((pullState_ends silent self mem (I := fun _ => Routed U)
    (Q := Routed U) h (fun source _ _ => pulls source) ?_).mono ?_)
  · intro chunks nodes o holds _
    rw [Routed, mapping_update]
    show U (Function.update (fun a => (nodes a).mapping) plan.node (nodes plan.node).mapping) o
    rw [Function.update_eq_self]
    exact holds
  · rintro w' r ⟨rfl, holds⟩
    exact holds

/-- What every request for state leaves as it is, is as it was when state has been pulled,
however long that takes. -/
theorem pullState_waits (silent : around.Silent) (self : plan.By who) {new : MemberRing}
    (mem : ∀ source ∈ new.providers plan.node plan.settings.owners, source ∈ who.members)
    {U : Routing ε} (h : w.Holds who (Routed U))
    (pulls : ∀ source, around.Allows who (World.Holds who (Routed U))
      { sender := plan.node, targets := [source], command := .pullState plan.node new }
      (Routed U) (Routed U)) :
    (pullState around plan new).Keeps (World.Holds who (Routed U)) now w
      fun w' r => w'.Holds who (Routed (Outcome (fun _ => U) U r)) := by
  have steady : Paced.Steady (World.Holds who (Routed U)) := fun _ _ holds => holds
  unfold pullState
  refine Procedure.Keeps.bind (Q := fun w' _ => w'.Holds who (Routed U)) ?_
    fun now₁ w₁ r h₁ => ?_
  · unfold pull
    refine (Procedure.keeps_all (fun p listed now w holds => ?_) h).bind
      fun _ _ _ pulled => Procedure.keeps_pure pulled
    obtain ⟨source, asked, rfl⟩ := List.mem_map.mp listed
    refine (retryUntil_keeps steady (T := fun _ => True) holds fun now w holds => ?_).bind
      fun _ _ _ pulled => Procedure.keeps_pure pulled.1
    refine (sendTo_keeps silent (mem source asked) (Q := fun nodes o _ => Routed U nodes o)
      ((pulls source now w holds).mono fun w' _ after =>
        after.mono fun nodes o kept => ?_)).bind ?_
    · rw [heeding_eq_self (fun _ => rfl)]
      exact kept
    · rintro now' w' r ⟨reply, rfl, kept⟩
      split <;> exact Procedure.keeps_pure ⟨kept, fun _ _ => trivial⟩
  · rcases r with cause | chunks
    · exact Procedure.keeps_pure h₁
    refine (enter_ends _ _ h₁).keeps.bind fun now₂ w₂ _ h₂ => ?_
    refine (goOver_ends self (fun _ => ?_) h₂).keeps.bind fun now₃ w₃ _ h₃ => ?_
    · exact ⟨rfl, rfl⟩
    · exact Procedure.keeps_pure h₃

/-! ## The whole join -/

section

variable {coordinator : Address}

/-- A join, with what is promised at each of its sendings: `F` when the ring has been
fetched, `A` and `U` before and after the union has been announced, `V` when state has
come and `X` when it has not, `D` and `B` before and after the new ring has been
announced. -/
theorem arrive_routed (silent : around.Silent) (self : plan.By who)
    (uncounted : who.errands = none) (head : who.members.head? = some coordinator)
    {P E : Routing ε} {F X D B Q : MemberRing → Routing ε}
    {A U V : MemberRing → MemberRing → Routing ε} (h : w.Holds who (Routed P))
    (fetch : around.Leads who
      { sender := plan.node, targets := [coordinator],
        command := .getCurrentMapping plan.node } (Routed P)
      (Routed fun ms o => ∃ old, ms coordinator = .settled old ∧ F old ms o))
    (refused : ∀ old ms o, F old ms o → E ms o)
    (opened : ∀ old new ms o, F old ms o →
      A old new (Function.update ms plan.node (.moving old new)) o)
    (union : ∀ old new, around.Allows who J
      { sender := plan.node, targets := who.members.filter (· != plan.node),
        command := .installMapping (.moving old new) } (Routed (A old new))
      (Routed fun ms o => U old new (fun a => if a = plan.node then ms a else .moving old new) o))
    (moved : ∀ old new, old.extend plan.strategy [plan.node] = .ok new →
      ∀ now (w : World ε), w.Holds who (Routed (U old new)) →
      (pullState around plan new).Keeps J now w
        fun w' r => w'.Holds who (Routed (Outcome (fun _ => V old new) (X old) r)))
    (relapse : ∀ old, around.Allows who J
      { sender := plan.node, targets := who.members.filter (· != plan.node),
        command := .installMapping (.settled old) }
      (Routed fun ms o => ∃ ms', X old ms' o ∧ ms = Function.update ms' plan.node (.settled old))
      (Routed fun ms o => E (fun a => if a = plan.node then ms a else .settled old) o))
    (finished : ∀ old new, old.extend plan.strategy [plan.node] = .ok new → ∀ ms o,
      F old ms o ∨ V old new ms o → D new (Function.update ms plan.node (.settled new)) o)
    (final : ∀ new, around.Allows who J
      { sender := plan.node, targets := who.members.filter (· != plan.node),
        command := .installMapping (.settled new) } (Routed (D new))
      (Routed fun ms o => B new (fun a => if a = plan.node then ms a else .settled new) o))
    (report : ∀ new, around.Allows who J
      { sender := plan.node, targets := [coordinator], command := .joinComplete plan.node }
      (Routed (B new)) (Routed (Q new)))
    (alone : ∀ new ms o, B new ms o → Q new ms o) :
    (arrive around plan).Keeps J now w fun w' r => w'.Holds who (Routed (Outcome Q E r)) := by
  unfold arrive
  refine (enter_ends _ _ h).keeps.bind fun now₁ w₁ _ h₁ => ?_
  refine (fetchRing_ends silent head (F := fun old => Routed (F old)) h₁ fetch).keeps.bind ?_
  rintro now₂ w₂ _ ⟨old, rfl, h₂⟩
  refine (enter_ends _ _ h₂).keeps.bind fun now₃ w₃ _ h₃ => ?_
  cases extended : old.extend plan.strategy [plan.node] with
  | error full => exact Procedure.keeps_pure (h₃.mono fun nodes o => refused old _ o)
  | ok new =>
    have settles {now} {w : World ε} {G : Routing ε} (holds : w.Holds who (Routed G))
        (comes : ∀ ms o, G ms o → F old ms o ∨ V old new ms o) :
        (settle around plan new).Keeps J now w fun w' _ => w'.Holds who (Routed (B new)) := by
      unfold settle
      exact (enter_ends _ _ holds).keeps.bind fun _ _ _ holds' => announce_routed silent self holds'
        (fun ms o g => finished old new extended ms o (comes ms o g)) (final new)
    dsimp only
    split
    · refine (settles h₃ fun _ _ => .inl).bind fun now₄ w₄ _ h₄ => ?_
      exact Procedure.keeps_pure (h₄.mono fun nodes o => alone new _ o)
    refine (transfer_routed silent self h₃ (refused old) (opened old new) (union old new)
      (moved old new extended) (relapse old)).bind fun now₄ w₄ r h₄ => ?_
    rcases r with cause | ⟨⟩
    · exact Procedure.keeps_pure h₄
    refine (settles h₄ fun _ _ => .inr).bind fun now₅ w₅ _ h₅ => ?_
    refine (reportArrival_keeps silent head h₅ (report new)
      fun _ nodes o => alone new _ o).bind ?_
    intro now₆ w₆ _ h₆
    refine (leaveHints_ends old new h₆).keeps.bind fun now₇ w₇ _ h₇ => ?_
    rw [Census.leaving_of_uncounted uncounted] at h₇
    exact Procedure.keeps_pure h₇

end

theorem run_routed {rehash : Serial} {a : Address} (mem : a ∈ who.members) {P : Routing ε}
    {E : Routing ε} {Q : MemberRing → Routing ε} (h : w.Holds who (Routed P))
    (busy : ∀ ms o, P ms o → E ms o)
    (released : ∀ w : World ε, J w → J (release (who.serial a) w))
    (arrived : ∀ now (w : World ε) (plan : Plan), plan.By who → plan.node = a →
      w.Holds who (Routed P) →
      (arrive around plan).Keeps J now w fun w' r => w'.Holds who (Routed (Outcome Q E r))) :
    (run around rehash (who.serial a) .join).Keeps J now w
      fun w' r => w'.Holds who (Routed (Outcome Q E r)) := by
  obtain ⟨nodes, hosts, holds⟩ := h
  have known := hosts.node mem
  unfold run
  refine Procedure.Keeps.bind (Q := fun w' found => w'.Holds who (Routed P) ∧
    (found = none ∨ found = some (nodes a))) (Procedure.Ends.keeps ?_) ?_
  · unfold acquire
    refine Procedure.ends_change ?_
    rw [known]
    dsimp only
    split
    · exact ⟨⟨nodes, hosts, holds⟩, .inl rfl⟩
    · exact ⟨World.Holds.still mem (fun _ _ => ⟨rfl, rfl⟩) ⟨nodes, hosts, holds⟩, .inr rfl⟩
  rintro now₁ w₁ _ ⟨h₁, rfl | rfl⟩
  · exact Procedure.keeps_pure (h₁.mono fun nodes o => busy _ o)
  refine (Procedure.ends_now (Q := fun w' _ => w'.Holds who (Routed P)) h₁).keeps.bind ?_
  intro now₂ w₂ tick h₂
  refine Procedure.Keeps.ensuring (Q := fun w' r => w'.Holds who (Routed (Outcome Q E r))) ?_
    released
  split
  case isFalse =>
    exact Procedure.keeps_pure ((h₂.mono fun nodes o => busy _ o).still mem fun _ _ => ⟨rfl, rfl⟩)
  have address := hosts.address mem
  unfold carryOut
  refine (arrived now₂ w₂ _ ⟨address.symm ▸ mem, congrArg who.serial address.symm⟩ address
    h₂).bind fun now₃ w₃ r h₃ => ?_
  have entered (phase : Phase) : Procedure.Keeps (do
        enter rehash phase
        return r) J now₃ w₃ fun w' r => World.Holds who (Routed (Outcome Q E r))
          (release (who.serial a) w') :=
    (enter_ends _ _ h₃).keeps.bind fun _ _ _ h₄ =>
      Procedure.keeps_pure (h₄.still mem fun _ _ => ⟨rfl, rfl⟩)
  rcases r with cause | new
  · exact entered .failed
  · exact entered .done

/-! ## Two extremes -/

/-- A member that joins while nobody interferes is done without a stop: everybody goes by
the ring that the coordinator had and the newcomer, or there is no room for it, or it is
busy otherwise. -/
theorem join_unhindered {rehash : Serial} {a coordinator : Address} (mem : a ∈ who.members)
    (uncounted : who.errands = none) (head : who.members.head? = some coordinator)
    {old : MemberRing} (listed : ∀ m ∈ old.members, m ∈ who.members)
    {K : ε → Prop} (h : w.Holds who (Routed fun ms o => ms coordinator = .settled old ∧ K o)) :
    (run .quiet rehash (who.serial a) .join).Ends now w fun w' r => w'.Holds who (Routed
      (Outcome (fun new ms o => (∃ strategy, old.extend strategy [a] = .ok new) ∧
          (∀ m, ms m = .settled new) ∧ K o)
        (fun ms o => ms coordinator = .settled old ∧ K o) r)) := by
  refine Procedure.ends_iff_keeps.mpr (run_routed mem h (fun _ _ => id) (fun _ => id) ?_)
  rintro now w plan self rfl h
  have quiet {sending : Sending} {P Q : Routing ε} (leads : ∀ ms o, P ms o → Q ms o) :
      Surroundings.quiet.Leads who sending (Routed P) (Routed Q) :=
    Surroundings.leads_quiet fun nodes o => leads _ o
  refine arrive_routed Surroundings.silent_quiet self uncounted head
    (F := fun from_ ms o => from_ = old ∧ ms coordinator = .settled old ∧ K o)
    (A := fun from_ _ _ o => from_ = old ∧ K o) (U := fun from_ _ _ o => from_ = old ∧ K o)
    (V := fun from_ _ _ o => from_ = old ∧ K o) (X := fun _ _ _ => False)
    (D := fun new ms o => (∃ strategy, old.extend strategy [plan.node] = .ok new) ∧
      ms plan.node = .settled new ∧ K o)
    (B := fun new ms o => (∃ strategy, old.extend strategy [plan.node] = .ok new) ∧
      (∀ m, ms m = .settled new) ∧ K o) h
    (quiet fun ms o going => ⟨old, going.1, rfl, going⟩) ?refused ?opened ?union ?moved ?relapse
    ?finished ?final ?report ?alone
  case refused => exact fun from_ ms o fetched => fetched.2
  case opened => exact fun from_ new ms o fetched => ⟨fetched.1, fetched.2.2⟩
  case union => exact fun from_ new => (quiet fun ms o holds => holds).allows
  case moved =>
    intro from_ new extended now w holds
    obtain ⟨_, _, rfl, _⟩ := id holds
    refine pullState_routed Surroundings.silent_quiet self (fun source asked => ?_) holds
      fun source => quiet fun ms o holds => holds
    exact mem_of_provider self listed extended asked
  case relapse =>
    exact fun from_ => (quiet fun ms o gone => gone.elim fun _ never => never.1.elim).allows
  case finished =>
    rintro from_ new extended ms o (⟨rfl, -, kept⟩ | ⟨rfl, kept⟩)
    · exact ⟨⟨_, extended⟩, Function.update_self .., kept⟩
    · exact ⟨⟨_, extended⟩, Function.update_self .., kept⟩
  case final =>
    refine fun new => (quiet fun ms o holds => ⟨holds.1, fun m => ?_, holds.2.2⟩).allows
    dsimp only
    split
    · next same => exact same ▸ holds.2.1
    · rfl
  case report => exact fun new => (quiet fun ms o holds => holds).allows
  case alone => exact fun new ms o holds => holds

/-- As long as the coordinator goes by a union, nobody gets to join. -/
theorem join_blocked {rehash : Serial} {a coordinator : Address} (mem : a ∈ who.members)
    (head : who.members.head? = some coordinator) {U : Routing ε}
    (unsettled : ∀ ms o, U ms o → ∀ ring, ms coordinator ≠ .settled ring)
    (h : w.Holds who (Routed U)) :
    (run .quiet rehash (who.serial a) .join).Keeps (World.Holds who (Routed U)) now w
      fun w' r => w'.Holds who (Routed (Outcome (fun _ _ _ => False) U r)) := by
  refine run_routed mem h (fun _ _ => id)
    (fun w holds => holds.still mem fun _ _ => ⟨rfl, rfl⟩) ?_
  rintro now w plan self rfl h
  have steady : Paced.Steady (World.Holds who (Routed U)) := fun _ _ holds => holds
  unfold arrive
  refine (enter_ends _ _ h).keeps.bind fun now₁ w₁ _ h₁ => ?_
  refine Procedure.Keeps.bind (Q := fun w' r => w'.Holds who (Routed U) ∧
    ∀ ring, r = .ok ring → False) ?_ fun now₂ w₂ r fetched => ?_
  · have found : w₁.cluster.coordinator? = some coordinator := by
      obtain ⟨nodes, hosts, -⟩ := h₁
      rw [Cluster.coordinator?, hosts.members_eq, head]
    unfold fetchRing
    refine (Procedure.ends_read (Q := fun w' c => w' = w₁ ∧ c = some coordinator)
      ⟨rfl, found⟩).keeps.bind ?_
    rintro now' w' c ⟨rfl, rfl⟩
    refine retryUntil_keeps steady (T := fun _ => False) h₁ fun now w holds => ?_
    refine (sendTo_ends Surroundings.silent_quiet (List.mem_of_mem_head? head) holds
      (Q := fun nodes o reply => reply = .currentMapping none ∧ Routed U nodes o)
      (Surroundings.leads_quiet fun nodes o going => ?_)).keeps.bind ?_
    · rw [heeding_eq_self (fun _ => rfl)]
      refine ⟨congrArg Reply.currentMapping ?_, going⟩
      cases mapping : (nodes coordinator).mapping with
      | settled ring => exact absurd mapping (unsettled _ o going ring)
      | moving old new => rfl
    · rintro now' w' r ⟨reply, rfl, nodes, hosts, rfl, going⟩
      refine Procedure.keeps_pure ⟨⟨nodes, hosts, going⟩, fun ring same => ?_⟩
      cases same
  · obtain ⟨h₂, failed⟩ := fetched
    rcases r with cause | ring
    · exact Procedure.keeps_pure h₂
    · exact (failed ring rfl).elim

end Rehash

end SlotRing
