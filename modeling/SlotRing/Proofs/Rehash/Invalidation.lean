/-
# After a join and its invalidation

A newcomer joins a settled cluster in which nothing else goes on, and whoever started
the join waits for the errand that it leaves.  The errand is started when there is
nothing left but to wait for it (`awaitInvalidation_stops`), and it is over in one turn.
Then every member, the newcomer included, has the entries that it owns under the new ring
and no others, and the number that is waited for is that of the copies that members have
lost (`exact_copies_after_invalidation`).
-/
import SlotRing.Proofs.Rehash.Bequest
import SlotRing.Proofs.Rehash.CleanEnd
import SlotRing.Proofs.Rehash.QuietJoin
import SlotRing.Proofs.Time.Beside
import SlotRing.Scenario.Run

namespace SlotRing

namespace Rehash

variable {ε : Type} {w : World ε} {now n : Nat} {rehash : Serial} {errands : List Errand}

/-- Who waits for an errand that is not done takes it off the record and stops until it
is. -/
theorem awaitInvalidation_stops (left : Filed rehash (some n) errands w)
    (undone : w.cluster.told? n = none) :
    (awaitInvalidation rehash).Stops now w (.when fun w => (w.cluster.told? n).isSome)
      (fun w' => w'.outside = w.outside ∧ w'.cluster.errands = errands ∧
        ∀ who nodes, w.cluster.Hosts who nodes → w'.cluster.Hosts who nodes)
      fun w' w'' told => w'' = Paced.spend w' ∧ told = (w'.cluster.told? n).getD 0 := by
  unfold awaitInvalidation
  have found : (w.cluster.rehashes.get? rehash).bind (·.errand) = some n := by
    obtain ⟨r, known, same⟩ := Option.map_eq_some_iff.mp left.record
    rw [known]
    exact same
  refine (Procedure.ends_read (Q := fun w' found => w' = w ∧ found = some n)
    ⟨rfl, found⟩).bind_stops ?_
  rintro w _ ⟨rfl, rfl⟩
  refine (Procedure.ends_modify (Q := fun w' _ => w' =
    { w with cluster := w.cluster.updateRehash rehash ({ · with errand := none }) })
    rfl).bind_stops ?_
  rintro _ _ rfl
  refine (Procedure.await_stops ?_ ⟨rfl, left.errands_eq,
    fun who nodes hosts => hosts_updateRehash hosts _ _⟩).bind fun _ t _ _ spent => ?_
  · show ((w.cluster.told? n).isSome && _) = false
    rw [undone]
    rfl
  · subst spent
    exact Procedure.ends_read ⟨rfl, rfl⟩

section

variable {settings : Settings} {strategy : Strategy} {members : List Address} {x : Address}
  {old new : MemberRing} {entry : String → Option Entry} {nodes : Address → Node} {who : Census}

/-- A join that nothing disturbs has left its errand on record, and all copies where
they were. -/
theorem quiet_join_ends {r : Rehash} {base : Address → Node} (inhabited : members ≠ [])
    (grows : Ring.Grows strategy members x old new) (census : who.members = members ++ [x])
    (named : settings.strategy = .ok strategy)
    (enabled : settings.rehashEnabled = true) (tells : settings.invalidateStale = true)
    (settled : ∀ a ∈ members, (base a).Follows settings (.settled old))
    (copies : ∀ key, ∀ a ∈ members, (base a).store.get? key =
      if a ∈ old.locate key settings.owners then entry key else none)
    (fresh : Node.create x settings [x] = .ok (base x))
    (deadline : settings.deadline.CountedFrom now)
    (known : w.cluster.rehashes.get? rehash = some r) (counted : who.errands = some errands)
    (hosts : w.cluster.Hosts who base) :
    (run .quiet rehash (who.serial x) .join).Ends now w fun w' result =>
      result = .ok new ∧ w'.outside = w.outside ∧
      (w'.cluster.rehashes.get? rehash).map Rehash.phase = some .done ∧
      Filed rehash (some errands.length)
        (errands ++ [{ node := who.serial x, passage := ⟨old, new⟩ }]) w' ∧
      ∃ nodes, w'.cluster.Hosts
        (who.leaving [{ node := who.serial x, passage := ⟨old, new⟩ }]) nodes ∧
        Shedding settings members x old new entry [] nodes := by
  obtain ⟨-, strategy', alone, named', -, made⟩ := Node.create_eq_ok_iff.mp fresh
  obtain rfl : strategy' = strategy := Except.ok.inj (named'.symm.trans named)
  have newcomer : x ∈ who.members := census ▸ List.mem_append_right _ List.mem_cons_self
  have ended : (run .quiet rehash (who.serial x) .join).Ends now w _ :=
    quiet_run_ends inhabited grows census enabled (fun a ha => (settled a ha).mapping)
      (by rw [made]; rfl) (by rw [made]; rfl) (by rw [made]; rfl) (by rw [made]; rfl) deadline hosts
  have filed : Filed rehash r.errand errands w :=
    ⟨congrArg (Option.map Rehash.errand) known, hosts.errands_eq counted⟩
  have clean : (run .quiet rehash (who.serial x) .join).Returns now w _ :=
    run_returns (fun _ _ _ => Surroundings.spares_quiet) known (hosts.node newcomer)
      (by rw [made]; rfl) (by rw [made]; exact deadline) (by rw [made]; rfl) (by rw [made]; rfl)
  refine ((ended.and_returns (run_bequeaths Surroundings.spares_quiet filed)).and_returns
    clean).mono ?_
  rintro w' _ ⟨⟨⟨nodes, hosts', rfl, outside, undisturbed⟩, left⟩, published, watched, -⟩
  rw [hintsLeft, if_pos tells] at hosts'
  have listed : w'.cluster.errands =
      errands ++ [{ node := who.serial x, passage := ⟨old, new⟩ }] :=
    hosts'.errands_eq (congrArg (Option.map (· ++ _)) counted)
  refine ⟨rfl, outside, ?_, ?_, nodes, hosts', ?_⟩
  · obtain ⟨r', known', trail⟩ := Option.map_eq_some_iff.mp watched.trail
    rw [known', Option.map_some, Rehash.phase, trail]
    rfl
  · rcases left with none | ⟨hint, filed'⟩
    · have short := listed.symm.trans none.errands_eq
      simp at short
    · exact ⟨filed'.record, listed⟩
  · exact undisturbed.shedding inhabited grows settled (fun a ha => hosts.address
      (census ▸ List.mem_append_left _ ha)) copies (by rw [made]; rfl) (by rw [made]; rfl)
      (by rw [made]; rfl)

/-- The newcomer tells the former owners, and this is how many keys it has told them of
then. -/
theorem quiet_errand_ends (errand : Errand) {n : Nat}
    (grows : Ring.Grows strategy members x old new) (census : who.members = members ++ [x])
    (node : errand.node = who.serial x) (passage : errand.passage = ⟨old, new⟩)
    (counted : who.errands = some errands) (listed : n < errands.length)
    (hosts : w.cluster.Hosts who nodes)
    (shedding : Shedding settings members x old new entry [] nodes) :
    (runErrand .quiet n errand).Ends now w fun w' _ =>
      w'.outside = w.outside ∧ w'.cluster.errands.length = errands.length ∧
      (∃ told : Nat, w'.cluster.told? n = some told ∧
        (lostCopies members old new settings.owners entry).encard = told) ∧
      ∀ a ∈ members ++ [x], ∃ n, w'.cluster.nodes.find? a = some n ∧ ∀ key,
        n.store.get? key = if a ∈ new.locate key settings.owners then entry key else none := by
  have newcomer : x ∈ members ++ [x] := List.mem_append_right _ List.mem_cons_self
  have address : (nodes x).address = x := hosts.address (census ▸ newcomer)
  have configured := shedding.configured x newcomer
  have mine := shedding.newcomer grows
  have telling : (tell .quiet (nodes x).address (nodes x).settings.rpcTimeout
      (hints (nodes x) errand.passage)).Ends now w fun w' told =>
        told = toldTo who.members (hints (nodes x) ⟨old, new⟩) ∧
          w'.Holds who fun nodes' o => o = w.outside ∧
            Shedding settings members x old new entry (hints (nodes x) ⟨old, new⟩) nodes' := by
    rw [passage]
    refine tell_ends Surroundings.silent_quiet (I := fun done nodes' o => o = w.outside ∧
      Shedding settings members x old new entry done nodes') ⟨nodes, hosts, rfl, shedding⟩ ?_ ?_
    · intro done row rest _ mem
      refine (Surroundings.leads_quiet fun _ _ h => h).mono fun nodes' _ address h => ?_
      exact ⟨h.1, h.2.step (census ▸ mem) (address _ mem)⟩
    · exact fun done row rest _ absent => Surroundings.leads_quiet fun _ _ h =>
        ⟨h.1, h.2.skip fun mem => absent (census.symm ▸ mem)⟩
  have known : w.cluster.nodes.get? errand.node = some (nodes x) :=
    node ▸ hosts.node (census ▸ newcomer)
  refine (runErrand_counts known counted listed telling).mono ?_
  rintro w' _ ⟨told, length, _, nodes', hosts', outside, shed⟩
  refine ⟨outside, length, ⟨_, told, ?_⟩, fun a ha => ⟨nodes' a, hosts'.find? (census ▸ ha),
    fun key => shed.exact grows address configured mine key ha⟩⟩
  rw [census]
  exact encard_lostCopies grows address configured mine

end

end Rehash

/-- The join of `x` is over, and its errand, the `n`-th one, is the next to be started. -/
structure Awaiting (settings : Settings) (members : List Address) (x : Address)
    (serial : Address → Serial) (old new : MemberRing) (entry : String → Option Entry) (n : Nat)
    (w : World Scenario.Session) : Prop where
  begun : w.outside.begun = n
  left : ∃ before, before.length = n ∧ w.cluster.errands =
    before ++ [{ node := serial x, passage := ⟨old, new⟩ }]
  shedding : ∃ nodes, w.cluster.Hosts ⟨members ++ [x], serial, none⟩ nodes ∧
    Shedding settings members x old new entry [] nodes

/-- The errand is over, and it is noted how many copies have been lost. -/
structure Pruned (settings : Settings) (members : List Address) (x : Address)
    (old new : MemberRing) (entry : String → Option Entry) (n : Nat)
    (w : World Scenario.Session) : Prop where
  told : ∃ told : Nat, w.cluster.told? n = some told ∧
    (lostCopies members old new settings.owners entry).encard = told
  held : ∀ a ∈ members ++ [x], ∃ node, w.cluster.nodes.find? a = some node ∧ ∀ key,
    node.store.get? key = if a ∈ new.locate key settings.owners then entry key else none

section

variable {members : List Address} {x : Address} {serial : Address → Serial}
  {errands : Option (List Errand)} {settings : Settings} {strategy : Strategy}
  {old new : MemberRing} {entry : String → Option Entry}

/-- Whoever has started the join waits for its errand when the join is over. -/
theorem Scenario.runRehash_stops {c : Cluster} {nodes : Address → Node} {r : Rehash}
    {session : Scenario.Session} {rehash : Serial} {now : Nat}
    (inhabited : members ≠ []) (hosts : c.Hosts ⟨members ++ [x], serial, errands⟩ nodes)
    (named : settings.strategy = .ok strategy) (enabled : settings.rehashEnabled = true)
    (tells : settings.invalidateStale = true) (grows : Ring.Grows strategy members x old new)
    (settled : ∀ a ∈ members, (nodes a).Follows settings (.settled old))
    (copies : ∀ key, ∀ a ∈ members, (nodes a).store.get? key =
      if a ∈ old.locate key settings.owners then entry key else none)
    (fresh : Node.create x settings [x] = .ok (nodes x))
    (deadline : settings.deadline.CountedFrom now)
    (known : c.rehashes.get? rehash = some r) (own : r.node = serial x) (joins : r.change = .join)
    (begun : session.begun = c.errands.length) :
    (runRehash .quiet rehash r).Stops now { cluster := c, outside := session }
      (.when fun w => (w.cluster.told? c.errands.length).isSome)
      (Awaiting settings members x serial old new entry c.errands.length)
      fun w w' outcome => w'.cluster = w.cluster ∧
        outcome = .ran (.ok new) .done ((w.cluster.told? c.errands.length).getD 0) := by
  unfold runRehash
  rw [own, joins]
  let start : World Session :=
    { cluster := c
      outside := { session with running := (r.address, rehash) :: session.running } }
  refine (Procedure.ends_modify (Q := fun w _ => w = start) rfl).bind_stops ?_
  rintro _ _ rfl
  refine (Rehash.quiet_join_ends inhabited grows rfl named enabled tells settled copies fresh
    deadline known rfl (show start.cluster.Hosts _ nodes from hosts.counted)).bind_stops ?_
  rintro w _ ⟨rfl, outside, phase, filed, nodes', hosts', shedding⟩
  refine (Procedure.ends_read (Q := fun w' p => w' = w ∧ p = Phase.done)
    ⟨rfl, congrArg (·.getD .idle) phase⟩).bind_stops ?_
  rintro w _ ⟨rfl, rfl⟩
  have undone : w.cluster.told? c.errands.length = none := by
    rw [Cluster.told?, filed.errands_eq, List.getElem?_concat_length]
    rfl
  refine ((Rehash.awaitInvalidation_stops filed undone).mono ?_).bind ?_
  · rintro w' ⟨outside', listed, keeps⟩
    refine ⟨?_, ⟨_, rfl, listed⟩, nodes', keeps _ _ hosts'.uncounted, shedding⟩
    rw [outside', outside]
    exact begun
  · rintro _ w' _ told ⟨rfl, rfl⟩
    exact (Procedure.ends_modify (Q := fun w'' _ => w''.cluster = w'.cluster) rfl).bind
      fun _ _ same => Procedure.ends_pure ⟨same, rfl⟩

theorem Pruned.ready {n now : Nat} {w : World Scenario.Session}
    (h : Pruned settings members x old new entry n w) :
    (Wake.when fun w : World Scenario.Session => (w.cluster.told? n).isSome).ready now
      (Paced.renew w) = true := by
  obtain ⟨told, noted, -⟩ := h.told
  show ((w.cluster.told? n).isSome && _) = true
  rw [noted]
  rfl

/-- The errand is started, and when it is over nothing is left to be started. -/
theorem Awaiting.errand_ends {n : Nat} {w : World Scenario.Session} {now : Nat}
    (h : Awaiting settings members x serial old new entry n w)
    (grows : Ring.Grows strategy members x old new) :
    ∃ w₁ errand, Scenario.beginErrands .quiet w = (w₁, [errand]) ∧
      errand.Ends now (Paced.renew w₁) fun w₂ _ => ∃ w₃,
        Scenario.beginErrands .quiet w₂ = (w₃, []) ∧
          Pruned settings members x old new entry n w₃ := by
  obtain ⟨before, rfl, listed⟩ := h.left
  obtain ⟨nodes, hosts, shedding⟩ := h.shedding
  let hint : Errand := { node := serial x, passage := ⟨old, new⟩ }
  let w₁ : World Scenario.Session :=
    { w with outside.begun := (before ++ [hint]).length }
  have next : (before ++ [hint]).zipIdx.drop before.length = [(hint, before.length)] := by
    simp [List.zipIdx_append]
  have starts : Scenario.beginErrands .quiet w =
      (w₁, [Rehash.runErrand .quiet before.length hint]) := by
    rw [Scenario.beginErrands, h.begun, listed, next]
    rfl
  refine ⟨w₁, _, starts, (Rehash.quiet_errand_ends hint grows rfl rfl rfl
    (show _ = some (before ++ [hint]) from congrArg some listed) (by simp)
    (show (Paced.renew w₁).cluster.Hosts _ nodes from hosts.counted) shedding).mono ?_⟩
  rintro w₂ _ ⟨outside, length, told, held⟩
  refine ⟨{ w₂ with outside.begun := w₂.cluster.errands.length }, ?_, told, held⟩
  have all : w₂.outside.begun = w₂.cluster.errands.zipIdx.length := by
    rw [List.length_zipIdx, length, outside]
    rfl
  rw [Scenario.beginErrands, all, List.drop_length]
  rfl

end

/-- A newcomer joins a settled cluster in which nobody moves for it, nothing is lost and
nobody writes, and then the invalidation that the join has started is waited for.  With a
deadline that the clock counts to (a run with any other does not return), both come to an
end.  Then every member, the newcomer included, holds the stored entries that it owns under
the new ring, as they were, and no others; and the number that comes back is that of the
stored keys of which a member has lost its copy, counted for each member. -/
theorem exact_copies_after_invalidation {members : List Address} {x : Address}
    {serial : Address → Serial} {errands : Option (List Errand)} {settings : Settings}
    {strategy : Strategy} {old new : MemberRing} {entry : String → Option Entry} {c : Cluster}
    {nodes : Address → Node} {r : Rehash} {session : Scenario.Session}
    (rehash : Serial) (now rounds : Nat)
    (inhabited : members ≠ []) (hosts : c.Hosts ⟨members ++ [x], serial, errands⟩ nodes)
    (named : settings.strategy = .ok strategy) (enabled : settings.rehashEnabled = true)
    (tells : settings.invalidateStale = true) (grows : Ring.Grows strategy members x old new)
    (settled : ∀ a ∈ members, (nodes a).Follows settings (.settled old))
    (copies : ∀ key, ∀ a ∈ members, (nodes a).store.get? key =
      if a ∈ old.locate key settings.owners then entry key else none)
    (fresh : Node.create x settings [x] = .ok (nodes x))
    (deadline : settings.deadline.CountedFrom now)
    (known : c.rehashes.get? rehash = some r) (own : r.node = serial x) (joins : r.change = .join)
    (begun : session.begun = c.errands.length) :
    ∃ finish told,
      (Scenario.runRehash .quiet rehash r now { cluster := c, outside := session }).runBeside
        (Scenario.beginErrands .quiet) (rounds + 2) now [] [] = some finish ∧
      finish.result = .ran (.ok new) .done told ∧
      (∀ a ∈ members ++ [x], ∃ n, finish.state.cluster.nodes.find? a = some n ∧ ∀ key,
        n.store.get? key = if a ∈ new.locate key settings.owners then entry key else none) ∧
      (lostCopies members old new settings.owners entry).encard = told := by
  obtain ⟨w₃, w', _, run, ⟨⟨told, noted, count⟩, held⟩, same, rfl⟩ :=
    (Scenario.runRehash_stops inhabited hosts named enabled tells grows settled copies fresh
      deadline known own joins begun).beside (fun w awaiting => awaiting.errand_ends grows)
      (fun w pruned => pruned.ready) rounds
  refine ⟨_, told, run, ?_, fun a ha => ?_, count⟩
  · show Scenario.Outcome.ran _ _ ((w₃.cluster.told? _).getD 0) = _
    rw [noted]
    rfl
  · show ∃ n, w'.cluster.nodes.find? a = some n ∧ _
    rw [same]
    exact held a ha

/-- Nodes `A` and `B`, which both hold `k0`, and `C` that is to join. -/
def pairAndNewcomer : Cluster :=
  (((Cluster.founded hasty ["A", "B"]).stocked "A" ⟨"k0", [1], 1⟩).stocked "B"
    ⟨"k0", [1], 1⟩).start "C" hasty ["C"]

namespace Pair

def shared : Entry := ⟨"k0", [1], 1⟩

/-- A node on the ring of the two that holds it. -/
def holder (old : MemberRing) (a : Address) : Node :=
  { Node.made a hasty .sip24 old with store := Store.empty.insert shared }

def nodes (old alone : MemberRing) : Address → Node :=
  Function.update (Function.update (Function.update (fun a => Node.made a hasty .sip24 old)
    "A" (holder old "A")) "B" (holder old "B")) "C" (Node.made "C" hasty .sip24 alone)

def entries (key : String) : Option Entry := if key = "k0" then some shared else none

def join : Rehash := { node := 2, address := "C", change := .join }

variable {old new alone : MemberRing} {a : Address} {key : String}

theorem exists_hosts :
    ∃ (serial : Address → Serial) (old new alone : MemberRing), serial "C" = 2 ∧
      (pairAndNewcomer.addRehash "join" join).Hosts ⟨["A", "B"] ++ ["C"], serial, some []⟩
        (nodes old alone) ∧
      Ring.Grows Strategy.sip24 ["A", "B"] "C" old new ∧
      Node.create "C" hasty ["C"] = .ok (nodes old alone "C") := by
  obtain ⟨old, new, grows⟩ : ∃ old new, Ring.Grows Strategy.sip24 ["A", "B"] "C" old new :=
    Ring.exists_grows (by decide) (by decide) (by decide +kernel)
  obtain ⟨alone, apart⟩ : ∃ r, Ring.ofMembers Strategy.sip24 ["C"] = .ok r :=
    Ring.exists_ofMembers _ (by decide)
  have fresh := Node.create_hasty apart "C"
  obtain ⟨serial, founded⟩ :=
    Cluster.exists_hosts_hasty (show ["A", "B"].Nodup by decide) grows.before
  have started : pairAndNewcomer.Hosts _ (nodes old alone) :=
    ((founded.stocked (show "A" ∈ ["A", "B"] by decide) shared).stocked
      (show "B" ∈ ["A", "B"] by decide) shared).start (show "C" ∉ ["A", "B"] by decide) fresh
  have two : pairAndNewcomer.nodes.serial? "C" = some 2 := by decide +kernel
  have self := started.named (show "C" ∈ ["A", "B"] ++ ["C"] by decide)
  rw [two, Option.some.injEq] at self
  exact ⟨_, old, new, alone, self.symm, started.addRehash "join" join, grows, fresh⟩

theorem nodes_eq_holder (ha : a ∈ ["A", "B"]) : nodes old alone a = holder old a := by
  obtain rfl | rfl : a = "A" ∨ a = "B" := by simpa using ha
  · rfl
  · rfl

section

variable (grows : Ring.Grows Strategy.sip24 ["A", "B"] "C" old new)
include grows

theorem mem_locate (ha : a ∈ ["A", "B"]) : a ∈ old.locate key hasty.owners := by
  have size : old.size = 2 :=
    Ring.apply_eq_of_ofMembers grows.before (·.size) (by decide +kernel)
  exact ((Ring.sound_ofMembers grows.before).mem_locate_iff_of_size_le (Nat.le_of_eq size)).mpr
    ((Ring.mem_members_ofMembers grows.before).mpr ha)

theorem locate_joined : new.locate "k0" hasty.owners = ["C", "A"] :=
  Ring.apply_eq_of_ofMembers grows.after (·.locate "k0" 2) (by decide +kernel)

theorem get?_nodes (ha : a ∈ ["A", "B"]) : (nodes old alone a).store.get? key =
    if a ∈ old.locate key hasty.owners then entries key else none := by
  rw [if_pos (mem_locate grows ha), nodes_eq_holder ha]
  exact Store.get?_empty_insert shared key

theorem lostCopies_eq : lostCopies ["A", "B"] old new hasty.owners entries = {("B", "k0")} := by
  ext ⟨a, key⟩
  simp only [lostCopies, Set.mem_ofPred_eq, Set.mem_singleton_iff, Prod.mk.injEq]
  constructor
  · rintro ⟨member, stored, -, gone⟩
    obtain rfl : key = "k0" := by
      by_contra other
      simp [entries, other] at stored
    obtain rfl | rfl : a = "A" ∨ a = "B" := by simpa using member
    · exact absurd (by rw [locate_joined grows]; decide) gone
    · exact ⟨rfl, rfl⟩
  · rintro ⟨rfl, rfl⟩
    exact ⟨by decide, rfl, mem_locate grows (by decide), by rw [locate_joined grows]; decide⟩

end

end Pair

/-- `C` comes to own `k0`, and `B`, which loses it, is the only one to be told. -/
theorem exact_copies_after_invalidation_of_pair :
    ∃ finish new, (Scenario.runRehash .quiet 0 { node := 2, address := "C", change := .join } 0
        { cluster := pairAndNewcomer.addRehash "join"
            { node := 2, address := "C", change := .join }
          outside := {} }).runBeside (Scenario.beginErrands .quiet) 2 0 [] [] = some finish ∧
      finish.result = .ran (.ok new) .done 1 ∧
      (∃ n, finish.state.cluster.nodes.find? "B" = some n ∧ n.store.get? "k0" = none) ∧
      ∃ n, finish.state.cluster.nodes.find? "C" = some n ∧
        n.store.get? "k0" = some ⟨"k0", [1], 1⟩ := by
  obtain ⟨serial, old, new, alone, self, hosts, grows, fresh⟩ := Pair.exists_hosts
  have settled : ∀ a ∈ ["A", "B"], (Pair.nodes old alone a).Follows hasty (.settled old) := by
    intro a ha
    rw [Pair.nodes_eq_holder ha]
    exact ⟨rfl, rfl, rfl, Store.keyed_empty.insert Pair.shared⟩
  have first : pairAndNewcomer.rehashes.next = 0 := by decide +kernel
  have known : (pairAndNewcomer.addRehash "join" Pair.join).rehashes.get? 0 = some Pair.join :=
    first ▸ Roster.get?_add_next _ _ _
  have begun : ({} : Scenario.Session).begun =
      (pairAndNewcomer.addRehash "join" Pair.join).errands.length := by decide +kernel
  obtain ⟨finish, told, run, result, held, count⟩ := exact_copies_after_invalidation 0 0 0
    (List.cons_ne_nil _ _) hosts (show hasty.strategy = .ok .sip24 by decide +kernel) rfl rfl grows
    settled (fun key a ha => Pair.get?_nodes grows ha) fresh (by decide) known self.symm rfl begun
  rw [Pair.lostCopies_eq grows, Set.encard_singleton] at count
  obtain rfl : told = 1 := by exact_mod_cast count.symm
  have joined := Pair.locate_joined grows
  refine ⟨finish, new, run, result, ?_, ?_⟩
  · obtain ⟨n, found, holds⟩ := held "B" (by decide)
    exact ⟨n, found, by rw [holds, joined]; rfl⟩
  · obtain ⟨n, found, holds⟩ := held "C" (by decide)
    exact ⟨n, found, by rw [holds, joined]; rfl⟩

end SlotRing
