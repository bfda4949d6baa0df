/-
# A join that fails leaves no trace

Whatever is lost or held back, and whatever the members are asked and told
meanwhile: when a join fails, then either nothing was announced, and every node is
what it was but for the writes it has acknowledged; or the newcomer had opened its
log and has gone back to the old ring, with the store it had when the log was opened.
The members have carried out every write that they have acknowledged.
-/
import SlotRing.Proofs.Cluster.Registration
import SlotRing.Proofs.Rehash.Relapse
import SlotRing.Proofs.Ring.Members

namespace SlotRing

open Picture World

/-! ## Where nothing is to be kept -/

namespace Rehash

section

variable {script : Nat → Sending → List Deed} {crew : Crew} {w : World Diary} {now : Nat}
  {plan : Plan} {old new : MemberRing}

theorem arrived_any (self : plan.By crew.who) {coordinator : Address}
    (head : crew.who.members.head? = some coordinator) (h : w.Has crew fun _ => True) :
    Procedure.Abides (do
        settle (traffic script) plan new
        reportArrival (traffic script) plan
        leaveHints plan old new) (Steps crew Eq) (Steps crew Any) now w
      fun w' _ => w'.Has crew fun _ => True := by
  have mine := drift_steps crew (flow_any (ε := Diary))
  refine (settle_any self h).bind mine fun now₁ w₁ _ h₁ => ?_
  refine (reportArrival_abides flow_any.alone head
    (traffic_minds flow_any.alone self.mem (fun _ _ => ⟨trivial, trivial⟩)
      (fun _ _ _ _ => trivial) fun _ _ _ _ _ _ _ => trivial) h₁ (fun _ _ _ _ => trivial)
    fun _ _ _ => trivial).bind mine fun now₂ w₂ _ h₂ => ?_
  exact leaveHints_abides flow_any h₂ fun _ _ _ _ => ⟨trivial, trivial⟩

end

/-! ## The joins that fail -/

section

variable {script : Nat → Sending → List Deed} {crew : Crew} {w : World Diary} {now : Nat}
  {plan : Plan} {old : MemberRing} {start : Picture Diary}

theorem mapping_of_still {watched : Address → Prop} {a : Address} {p : Picture Diary}
    (h : Still watched start p) (seen : watched a) :
    (p.nodes a).mapping = (start.nodes a).mapping := by
  obtain ⟨more, -, -, each⟩ := h
  rcases (each a seen).goes with ⟨still, -⟩ | ⟨mapping, none, -⟩
  · exact congrArg Accepted.mapping still
  · cases none

theorem arrive_fails (usual : Usual (· ∈ crew.who.members) (fun note => ¬ note.Announces) script)
    (self : plan.By crew.who) {coordinator : Address}
    (head : crew.who.members.head? = some coordinator)
    (settled : (start.nodes coordinator).mapping = .settled old)
    (closed : (start.nodes plan.node).log.state = .disabled)
    (h : w.Has crew (Still (· ∈ crew.who.members) start)) :
    (arrive (traffic script) plan).Abides (Steps crew Eq) (Steps crew Any) now w fun w' r =>
      w'.Has crew (Failed (· ∈ crew.who.members) plan.node (crew.who.beside plan.node)
        (fun new => old.extend plan.strategy [plan.node] = .ok new ∧ (new == old) = false)
        old start r) := by
  have first : coordinator ∈ crew.who.members := List.mem_of_mem_head? head
  refine arrive_abides flow_any old (Z := Still (· ∈ crew.who.members) start)
    (D := fun _ _ => True) h ?_ (fun cause p still cause' _ => .inl still)
    (fun new _ _ now w h => (settle_any self (h.mono fun _ _ => trivial)).mono
      fun w' _ h' => h'.mono fun _ _ => nofun) ?_
    fun new now w h => (arrived_any self head h).mono fun w' _ h' => h'.mono fun _ _ => nofun
  · intro now w h
    have room : Room Eq Any (Still (· ∈ crew.who.members)) (Still (· ∈ crew.who.members)) :=
      Serving.flow.alone
    refine Procedure.Abides.inside room
      (fetchRing_abides Serving.flow.fits head (usual.minds_still self.mem nofun ?_) h ?_ ?_ ?_)
    · exact fun p q step still => Serving.flow.trans still step
    · exact fun p q step still => Serving.flow.trans still step
    · exact fun p still => (mapping_of_still still first).trans settled
    · exact fun now p _ => Serving.answered (fun _ => trivial) (usual.answered _)
  · intro new extended moves now w h
    have other : (new == old) = false := (Bool.or_eq_false_iff.mp moves).1
    refine (transfer_relapses usual self self.mem closed h fun now w during => ?_).mono
      fun w' r came => ⟨came.1, fun cause failed => (came.2 cause failed).mono
        fun p undone _ _ => .inr ⟨new, ⟨extended, other⟩, undone⟩⟩
    have room : Room Eq Any (Since (· ∈ crew.who.members) (.moving old new))
      (Since (· ∈ crew.who.members) (.moving old new)) := Serving.flow.alone
    refine (pullState_abides room self (T := fun _ _ => True) (Q := fun _ => True)
      (fun source _ => usual.minds_still self.mem nofun ?_) during ?_ ?_ ?_).mono
      fun w' r came => ?_
    · exact fun p q step ⟨u, united, since⟩ => ⟨u, united, Serving.flow.trans since step⟩
    · exact fun p q step ⟨u, united, since⟩ => ⟨u, united, Serving.flow.trans since step⟩
    · exact fun source _ _ now p _ =>
        ⟨Serving.answered (fun _ => trivial) (usual.answered _), trivial⟩
    · exact fun _ _ _ _ _ => ⟨trivial, trivial⟩
    · rcases r with cause | ⟨⟩
      · exact (came.2 cause rfl).mono fun p here _ _ => here
      · exact (came.1 rfl).mono fun _ _ => nofun

end

end Rehash

/-! ## What a failed join leaves behind -/

/-- What became of the members of a cluster in which the join of `x` has failed after
the union had been announced. -/
structure JoinUndone (members : List Address) (x : Address) (old new : MemberRing)
    (nodes nodes' : Address → Node) (notes after : List Note) : Prop where
  /-- Who has heard of the old ring again goes by it. -/
  heard (a : Address) : a ∈ members → a ≠ x → (∃ note ∈ after, note.Heard a) →
    (nodes' a).mapping = .settled old
  /-- Who is no newcomer has carried out all it has acknowledged. -/
  carried (a : Address) : a ∈ members → a ≠ x →
    (nodes' a).store = (nodes a).store.writeAll (acks a notes)
  /-- The newcomer was not on the old ring, if that is as the newcomer would place its
  members, and so it was no owner under it. -/
  stranger (ms : List Address) : Ring.ofMembers (nodes x).strategy ms = .ok old →
    x ∉ old.members

theorem not_mem_of_extend {strategy : Strategy} {old new : MemberRing} {x : Address}
    (extended : old.extend strategy [x] = .ok new) (other : (new == old) = false)
    {ms : List Address} (placed : Ring.ofMembers strategy ms = .ok old) : x ∉ old.members := by
  intro mem
  have same : Ring.ofMembers strategy (old.members ++ [x]) = Ring.ofMembers strategy ms := by
    refine Ring.ofMembers_congr _ fun m => ?_
    rw [List.mem_append, List.mem_singleton, Ring.mem_members_ofMembers placed]
    exact ⟨fun h => h.elim id fun same => same ▸ (Ring.mem_members_ofMembers placed).mp mem, .inl⟩
  obtain rfl : old = new := Except.ok.inj (placed.symm.trans (same.symm.trans extended))
  have : (old == old) = true := by
    show (old.members == old.members && old.places == old.places) = true
    simp
  rw [this] at other
  cases other

/-- Whatever is lost or held back, and whatever gets to the members meanwhile: a join
that fails has announced nothing, and then every node is what it was but for the
writes that it has acknowledged; or it has gone back to the old ring, and then the
newcomer's store is what it was when the log was opened, and no write is missing that
an owner under the old ring has acknowledged. -/
theorem failed_join_leaves_no_trace {members : List Address} {x : Address}
    {serial : Address → Serial} {errands : Option (List Errand)} {c : Cluster}
    {nodes : Address → Node} {old : MemberRing} {script : Nat → Sending → List Deed}
    (rehash : Serial) (now : Nat)
    (staffs : c.Staffs ⟨members, serial, errands⟩ nodes) (mem : x ∈ members)
    (settled : ∀ a, members.head? = some a → (nodes a).mapping = .settled old)
    (closed : ∀ a ∈ members, (nodes a).log.state = .disabled)
    (routine : ∀ i sending target command, .hand target command ∈ script i sending →
      target ∈ members → command.Routine)
    {tick : Nat} {w' : World Diary} {cause : RehashError}
    (failed : (Rehash.run (traffic script) rehash (serial x) .join now
      { cluster := c, outside := {} }).run now = (tick, w', .error cause)) :
    ∃ nodes', w'.cluster.Staffs ⟨members, serial, errands⟩ nodes' ∧
      (((∀ note ∈ w'.outside.notes, ¬ note.Announces) ∧ ∀ a ∈ members, nodes' a =
          { nodes a with store := (nodes a).store.writeAll (acks a w'.outside.notes) }) ∨
        ∃ new before during after opened dropped,
          Relapse x (members.filter (· != x)) old new (nodes x) (nodes' x) w'.outside.notes
            before during after opened dropped ∧
          JoinUndone members x old new nodes nodes' w'.outside.notes after) := by
  let who : Census := ⟨members, serial, errands⟩
  have usual : Usual (· ∈ members) (fun note => ¬ note.Announces) script :=
    ⟨fun i sending _ _ listed => routine i sending _ _ listed, fun _ _ _ _ _ _ => id,
      fun _ => id, fun _ ordinary => ordinary⟩
  obtain ⟨coordinator, head⟩ : ∃ a, members.head? = some a :=
    Option.isSome_iff_exists.mp (List.isSome_head?.mpr (List.ne_nil_of_mem mem))
  have going : ((Rehash.begun c nodes x).nodes coordinator).mapping = .settled old :=
    (Rehash.begun_eq coordinator).2.1.trans (settled coordinator head)
  have shut : ((Rehash.begun c nodes x).nodes x).log.state = .disabled :=
    (congrArg WriteLog.state (Rehash.begun_eq x).1).trans (closed x mem)
  obtain ⟨nodes', staffs', quiet | ⟨new, ⟨extended, other⟩, before, during, after, opened, dropped,
      relapse, beside⟩⟩ := Rehash.run_fails (· ∈ members)
    (fun new => old.extend (nodes x).strategy [x] = .ok new ∧ (new == old) = false)
    staffs mem mem (closed x mem) (fun now w plan self node strategy quiet => by
      subst node
      rw [← strategy]
      exact Rehash.carryOut_abides flow_any
        (Rehash.arrive_fails usual self head going shut quiet)) failed
  · exact ⟨nodes', staffs', .inl ⟨quiet.1, fun a ha => quiet.2 a ha (closed a ha)⟩⟩
  · refine ⟨nodes', staffs', .inr ⟨new, before, during, after, opened, dropped, relapse, ?_⟩⟩
    exact ⟨fun a ha different heard => (beside a ha different (closed a ha)).2 heard,
      fun a ha different => (beside a ha different (closed a ha)).1,
      fun ms placed => not_mem_of_extend extended other placed⟩

/-- Node `A`, and `C` that is to join; state cannot be pulled. -/
def stranded : Cluster :=
  { (Cluster.founded hasty ["A"]).start "C" hasty ["C"] with
    faults := { forKind := [(.pullState, { lost := true })] } }

/-- While `C` pulls state for the first time, a write of `k` gets to `A` and to `C`. -/
def meanwhile : Nat → Sending → List Deed
  | 2, _ => [.hand "A" (.write (.single (.put "k" [1]))),
      .hand "C" (.write (.single (.put "k" [1])))]
  | _, _ => []

theorem failed_join_leaves_no_trace_of_stranded :
    ∃ self tick w' cause, stranded.nodes.serial? "C" = some self ∧
      (Rehash.run (traffic meanwhile) 0 self .join 0 { cluster := stranded, outside := {} }).run 0 =
        (tick, w', .error cause) ∧
      ∃ old new first last before during after opened dropped,
        Relapse "C" ["A"] old new first last w'.outside.notes before during after opened dropped ∧
          w'.cluster.nodes.find? "C" = some last := by
  obtain ⟨old, before⟩ : ∃ r, Ring.ofMembers Strategy.sip24 ["A"] = .ok r :=
    Ring.exists_ofMembers _ (by decide)
  obtain ⟨alone, apart⟩ : ∃ r, Ring.ofMembers Strategy.sip24 ["C"] = .ok r :=
    Ring.exists_ofMembers _ (by decide)
  obtain ⟨serial, founded⟩ := Cluster.exists_hosts_hasty (List.nodup_singleton "A") before
  have hosts := founded.start (show "C" ∉ ["A"] by decide) (Node.create_hasty apart "C")
  have idle : ((Cluster.founded hasty ["A"]).start "C" hasty ["C"]).approached = [] := by
    decide +kernel
  have staffs : stranded.Staffs _ _ := (hosts.staffs idle).weather _
  have self := staffs.named (show "C" ∈ ["A"] ++ ["C"] by decide)
  have one : stranded.nodes.serial? "C" = some 1 := by decide +kernel
  rw [one, Option.some.injEq] at self
  -- What the run comes to is computed, but only this much of it matters.
  have errs : ((Rehash.run (traffic meanwhile) 0 1 .join 0
      { cluster := stranded, outside := {} }).run 0).2.2.toOption.isNone = true := by
    decide +kernel
  have announced : ∃ note ∈ ((Rehash.run (traffic meanwhile) 0 1 .join 0
      { cluster := stranded, outside := {} }).run 0).2.1.outside.notes, note.Announces := by
    decide +kernel
  generalize result : (Rehash.run (traffic meanwhile) 0 1 .join 0
    { cluster := stranded, outside := {} }).run 0 = run at errs announced
  obtain ⟨tick, w', cause | ring⟩ := run
  · refine ⟨1, tick, w', cause, one, result, ?_⟩
    have settled : ∀ a, (["A"] ++ ["C"]).head? = some a →
        (Function.update (fun a => Node.made a hasty .sip24 old) "C"
          (Node.made "C" hasty .sip24 alone) a).mapping = .settled old := by
      intro a head
      obtain rfl : "A" = a := Option.some.inj head
      rfl
    have closed : ∀ a ∈ ["A"] ++ ["C"],
        (Function.update (fun a => Node.made a hasty .sip24 old) "C"
          (Node.made "C" hasty .sip24 alone) a).log.state = .disabled := by
      intro a _
      rw [Function.update_apply]
      split <;> rfl
    have routine : ∀ i sending target command, .hand target command ∈ meanwhile i sending →
        target ∈ ["A"] ++ ["C"] → command.Routine := by
      intro i sending target command listed _
      unfold meanwhile at listed
      split at listed
      · refine .inr ⟨.single (.put "k" [1]), ?_⟩
        simp at listed
        tauto
      · cases listed
    obtain ⟨nodes', staffs', quiet | undone⟩ := failed_join_leaves_no_trace 0 0 staffs
      (show "C" ∈ ["A"] ++ ["C"] by decide) settled closed routine (self ▸ result)
    · obtain ⟨note, noted, sent⟩ := announced
      exact absurd sent (quiet.1 note noted)
    · obtain ⟨new, before, during, after, opened, dropped, relapse, -⟩ := undone
      exact ⟨old, new, _, _, before, during, after, opened, dropped, relapse,
        staffs'.find? (show "C" ∈ ["A"] ++ ["C"] by decide)⟩
  · cases errs

end SlotRing
