/-
# Whom a newcomer takes for the cluster

A newcomer goes by what the coordinator tells it, and the coordinator is whoever was
registered first.  Where nothing goes wrong and nobody interferes, the ring that a
join ends with is the coordinator's with the newcomer, and all registered members go
by it (`join_follows_coordinator`), even if some members of that ring cannot be
reached.  When the newcomer itself is the first one, it asks itself, and what the
others go by is overwritten with its own ring.
-/
import SlotRing.Proofs.Rehash.Routing
import SlotRing.Proofs.Rehash.Relapse
import SlotRing.Scenario.Run

namespace SlotRing

namespace Rehash

variable {ε : Type} {who : Census} {w : World ε} {now : Nat} {plan : Plan} {U : Routing ε}

/-- Asking one member for state changes nothing in what the members go by, whether it
can be reached or not. -/
theorem askForState_routed {new : MemberRing} {source : Address} (h : w.Holds who (Routed U)) :
    (askForState .quiet plan new source).Ends now w fun w' _ => w'.Holds who (Routed U) := by
  unfold askForState
  by_cases reachable : source ∈ who.members
  · refine (sendTo_ends Surroundings.silent_quiet reachable h (Q := fun nodes o _ =>
      Routed U nodes o) (Surroundings.leads_quiet fun nodes o kept => ?_)).bind ?_
    · rw [heeding_eq_self (fun _ => rfl)]
      exact kept
    · rintro w' r ⟨reply, rfl, kept⟩
      split <;> exact Procedure.ends_pure kept
  · refine (sendTo_ends_unreachable reachable h (Q := Routed U)
      (Surroundings.leads_quiet fun _ _ kept => kept)).bind ?_
    rintro w' r ⟨rfl, kept⟩
    exact Procedure.ends_pure kept

theorem pullState_quiet (self : plan.By who) {new : MemberRing} (h : w.Holds who (Routed U)) :
    (pullState .quiet plan new).Keeps (World.Holds who (Routed U)) now w
      fun w' _ => w'.Holds who (Routed U) := by
  have steady : Paced.Steady (World.Holds who (Routed U)) := fun _ _ holds => holds
  have pulled : (pull .quiet plan new).Keeps (World.Holds who (Routed U)) now w
      fun w' _ => w'.Holds who (Routed U) := by
    unfold pull
    refine (Procedure.keeps_all (fun p listed now w holds => ?_) h).bind
      fun _ _ _ holds => Procedure.keeps_pure holds
    obtain ⟨source, -, rfl⟩ := List.mem_map.mp listed
    refine (retryUntil_keeps steady (T := fun _ => True) holds fun now w holds => ?_).bind
      fun _ _ _ tried => Procedure.keeps_pure tried.1
    exact (askForState_routed holds).keeps.mono fun _ _ holds => ⟨holds, fun _ _ => trivial⟩
  unfold pullState
  refine pulled.bind fun now₁ w₁ r h₁ => ?_
  rcases r with cause | chunks
  · exact Procedure.keeps_pure h₁
  refine (enter_ends _ _ h₁).keeps.bind fun now₂ w₂ _ h₂ => ?_
  refine (goOver_ends self (fun _ => ?_) h₂).keeps.bind fun now₃ w₃ _ h₃ => ?_
  · exact ⟨rfl, rfl⟩
  · exact Procedure.keeps_pure h₃

/-- A member that joins while nobody interferes and nothing goes wrong may have to wait for
members that cannot be reached; when it ends with a ring, it is that of the coordinator and
the newcomer, and all go by it. -/
theorem join_follows_coordinator {rehash : Serial} {x coordinator : Address}
    (mem : x ∈ who.members) (uncounted : who.errands = none)
    (head : who.members.head? = some coordinator) {old : MemberRing}
    (h : w.Holds who (Routed fun ms _ => ms coordinator = .settled old)) :
    (run .quiet rehash (who.serial x) .join).Keeps (World.Holds who (Routed fun _ _ => True)) now w
      fun w' r => w'.Holds who (Routed (Outcome (fun new ms _ =>
        (∃ strategy, old.extend strategy [x] = .ok new) ∧ ∀ m, ms m = .settled new)
          (fun _ _ => True) r)) := by
  refine run_routed mem h (fun _ _ _ => trivial)
    (fun w holds => holds.still mem fun _ _ => ⟨rfl, rfl⟩) ?_
  rintro now w plan self rfl h
  have quiet {sending : Sending} {P Q : Routing ε} (leads : ∀ ms o, P ms o → Q ms o) :
      Surroundings.quiet.Leads who sending (Routed P) (Routed Q) :=
    Surroundings.leads_quiet fun nodes o => leads _ o
  refine arrive_routed Surroundings.silent_quiet self uncounted head
    (F := fun from_ _ _ => from_ = old) (A := fun from_ _ _ _ => from_ = old)
    (U := fun from_ _ _ _ => from_ = old) (V := fun from_ _ _ _ => from_ = old)
    (X := fun _ _ _ => True)
    (D := fun new ms _ => (∃ strategy, old.extend strategy [plan.node] = .ok new) ∧
      ms plan.node = .settled new)
    (B := fun new ms _ => (∃ strategy, old.extend strategy [plan.node] = .ok new) ∧
      ∀ m, ms m = .settled new) h
    (quiet fun ms o going => ⟨old, going, rfl⟩) ?refused ?opened ?union ?moved ?relapse ?finished
    ?final ?report ?alone
  case refused => exact fun _ _ _ _ => trivial
  case opened => exact fun from_ new ms o fetched => fetched
  case union => exact fun from_ new => (quiet fun ms o same => same).allows
  case moved =>
    intro from_ new extended now w holds
    obtain ⟨nodes, hosts, rfl⟩ := holds
    refine (pullState_quiet (U := fun _ _ => True) self ⟨nodes, hosts, trivial⟩).mono
      fun w' r holds => ?_
    rcases r with cause | ⟨⟩
    · exact holds
    · exact holds.mono fun _ _ _ => rfl
  case relapse => exact fun from_ => (quiet fun _ _ _ => trivial).allows
  case finished =>
    rintro from_ new extended ms o (rfl | rfl) <;>
      exact ⟨⟨_, extended⟩, Function.update_self ..⟩
  case final =>
    refine fun new => (quiet fun ms o holds => ⟨holds.1, fun m => ?_⟩).allows
    dsimp only
    split
    · next same => exact same ▸ holds.2
    · rfl
  case report => exact fun new => (quiet fun ms o holds => holds).allows
  case alone => exact fun new ms o holds => holds

end Rehash

/-- All registered members but `x` go by the ring `Q`, and `x` joins, where nothing goes
wrong and nobody interferes.  When it ends with a ring, the ring has the members of the
coordinator's and `x`, and all registered members go by it.  So these are the members of
`Q` and `x` if and only if the coordinator is another one, or what `x` itself went by and
`x` are just as much. -/
theorem join_adds_newcomer_iff {who : Census} {c : Cluster} {nodes : Address → Node}
    {ε : Type} {o : ε} (rehash : Serial) (now : Nat) (hosts : c.Hosts who nodes)
    {x coordinator : Address} (mem : x ∈ who.members)
    (head : who.members.head? = some coordinator) {Q : MemberRing}
    (settled : ∀ m ∈ who.members, m ≠ x → (nodes m).mapping = .settled Q)
    {tick : Nat} {w' : World ε} {new : MemberRing}
    (ran : (Rehash.run .quiet rehash (who.serial x) .join now
      { cluster := c, outside := o }).run now = (tick, w', .ok new)) :
    ∃ old, (nodes coordinator).mapping = .settled old ∧
      (∀ m, m ∈ new.members ↔ m ∈ old.members ∨ m = x) ∧
      (∀ m ∈ who.members, ∃ n, w'.cluster.nodes.find? m = some n ∧ n.mapping = .settled new) ∧
      ((∀ m, m ∈ new.members ↔ m ∈ Q.members ∨ m = x) ↔
        coordinator ≠ x ∨ ∀ m, m ∈ old.members ∨ m = x ↔ m ∈ Q.members ∨ m = x) := by
  let who' : Census := { who with errands := none }
  have uncounted : c.Hosts who' nodes := hosts.uncounted
  have mem' : x ∈ who'.members := mem
  cases mapping : (nodes coordinator).mapping with
  | moving left entered =>
    have start : World.Holds who' (Routed fun ms _ => ms coordinator = .moving left entered)
        { cluster := c, outside := o } := ⟨nodes, uncounted, mapping⟩
    have keeps : (Rehash.run .quiet rehash (who'.serial x) .join).Keeps
        (World.Holds who' (Routed fun ms _ => ms coordinator = .moving left entered)) now
        { cluster := c, outside := o } fun w' r => w'.Holds who' (Routed
          (Outcome (fun _ _ _ => False) (fun ms _ => ms coordinator = .moving left entered) r)) :=
      Rehash.join_blocked mem' head (fun ms o going ring same => nomatch going.symm.trans same)
        start
    have ended := Task.Keeps.run (fun _ _ holds => holds) keeps now
    rw [ran] at ended
    obtain ⟨_, _, never⟩ := ended
    exact never.elim
  | settled old =>
    have start : World.Holds who' (Routed fun ms _ => ms coordinator = .settled old)
        { cluster := c, outside := o } := ⟨nodes, uncounted, mapping⟩
    have keeps : (Rehash.run .quiet rehash (who'.serial x) .join).Keeps
        (World.Holds who' (Routed fun _ _ => True)) now { cluster := c, outside := o }
        fun w' r => w'.Holds who' (Routed (Outcome (fun new ms _ =>
          (∃ strategy, old.extend strategy [x] = .ok new) ∧ ∀ m, ms m = .settled new)
            (fun _ _ => True) r)) :=
      Rehash.join_follows_coordinator mem' rfl head start
    have ended := Task.Keeps.run (fun _ _ holds => holds) keeps now
    rw [ran] at ended
    obtain ⟨nodes', hosts', ⟨strategy, extended⟩, going⟩ := ended
    have members (m : Address) : m ∈ new.members ↔ m ∈ old.members ∨ m = x :=
      mem_members_extend extended
    refine ⟨old, rfl, members, fun m hm => ⟨_, hosts'.find? hm, going m⟩, ?_⟩
    simp only [members]
    refine ⟨.inr, ?_⟩
    rintro (other | same)
    · have agreed := settled coordinator (List.mem_of_mem_head? head) other
      rw [mapping] at agreed
      cases agreed
      exact fun _ => Iff.rfl
    · exact same

/-- Nodes `A` and `D`, and `C` that is to join; `C` was registered last. -/
def paired : Cluster := (Cluster.founded hasty ["A", "D"]).start "C" hasty ["C"]

theorem join_adds_newcomer_iff_of_paired :
    ∃ self tick w' new, paired.nodes.serial? "C" = some self ∧
      (Rehash.run .quiet 0 self .join 0 { cluster := paired, outside := () }).run 0 =
        (tick, w', .ok new) ∧
      (∀ m, m ∈ new.members ↔ m ∈ ["A", "D"] ∨ m = "C") ∧
      ∀ m ∈ ["A", "D", "C"], ∃ n, w'.cluster.nodes.find? m = some n ∧
        n.mapping = .settled new := by
  obtain ⟨ring, placed⟩ : ∃ r, Ring.ofMembers Strategy.sip24 ["A", "D"] = .ok r :=
    Ring.exists_ofMembers _ (by decide)
  obtain ⟨alone, apart⟩ : ∃ r, Ring.ofMembers Strategy.sip24 ["C"] = .ok r :=
    Ring.exists_ofMembers _ (by decide)
  obtain ⟨serial, founded⟩ := Cluster.exists_hosts_hasty (show ["A", "D"].Nodup by decide) placed
  have hosts : paired.Hosts _ _ :=
    founded.start (show "C" ∉ ["A", "D"] by decide) (Node.create_hasty apart "C")
  have self := hosts.named (show "C" ∈ ["A", "D", "C"] by decide)
  have two : paired.nodes.serial? "C" = some 2 := by decide +kernel
  rw [two, Option.some.injEq] at self
  have joined : ((Rehash.run .quiet 0 2 .join 0
      { cluster := paired, outside := () }).run 0).2.2.toOption.isSome = true := by
    decide +kernel
  generalize result : (Rehash.run .quiet 0 2 .join 0
    { cluster := paired, outside := () }).run 0 = run at joined
  obtain ⟨tick, w', cause | new⟩ := run
  · cases joined
  have result' := result
  rw [self] at result'
  have settled : ∀ m ∈ ["A", "D", "C"], m ≠ "C" → (Function.update
      (fun a => Node.made a hasty .sip24 ring) "C" (Node.made "C" hasty .sip24 alone) m).mapping =
        .settled ring := by
    intro m _ other
    rw [Function.update_of_ne other]
    rfl
  obtain ⟨old, -, members, going, exactly⟩ := join_adds_newcomer_iff 0 0 hosts
    (show "C" ∈ ["A", "D", "C"] by decide) (show ["A", "D", "C"].head? = some "A" from rfl)
    settled result'
  refine ⟨2, tick, w', new, two, result, fun m => ?_, going⟩
  rw [exactly.mpr (.inl (by decide)) m, Ring.mem_members_ofMembers placed]

/-- `C` was registered before `A` and `D` were, which go by their own ring. -/
def premature : List Scenario.Step :=
  [.node "C" ["C"] {} true, .node "A" ["A", "D"] {} true, .node "D" ["A", "D"] {} true,
    .join "C" "of C", .run "of C", .dump []]

/-- The join ends with the ring of the newcomer alone, and `A` and `D` go by it. -/
theorem members_dropped_by_coordinator :
    (Scenario.run premature).filterMap (fun answer => match answer.outcome with
      | .ran result _ _ => some (result.toOption.map (·.members))
      | _ => none) = [some ["C"]] ∧
    (Scenario.run premature).flatMap (fun answer => match answer.outcome with
      | .nodes ns => ns.map fun n => (n.address, n.mapping.settled?.map (·.members))
      | _ => []) = [("A", some ["C"]), ("C", some ["C"]), ("D", some ["C"])] := by
  decide +kernel

end SlotRing
