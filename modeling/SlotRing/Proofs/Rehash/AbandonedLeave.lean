/-
# A departure that fails, on one of the survivors

As a join, a survivor's part in a departure logs the writes that get to it while
state is being moved, and when state cannot be moved the log is dropped.  But a
survivor is an owner under the ring it goes back to: what it has logged it has
acknowledged, and nobody else makes up for it.  Which keys are none the worse for
it is said exactly here (`failed_leave_keeps_writes_iff`).
-/
import SlotRing.Proofs.Cluster.Registration
import SlotRing.Proofs.Rehash.Relapse
import SlotRing.Proofs.Ring.Members
import SlotRing.Proofs.Store.Omissions
import SlotRing.Scenario.Run

namespace SlotRing

open Picture World

namespace Rehash

section

variable {script : Nat → Sending → List Deed} {crew : Crew} {w : World Diary} {now : Nat}
  {plan : Plan} {old new : MemberRing} {start : Picture Diary}

theorem departed_any (self : plan.By crew.who) (h : w.Has crew fun _ => True) :
    Procedure.Abides (do
        settle (traffic script) plan new
        World.modifyNode plan.self (·.dropUnowned new)
        leaveHints plan old new) (Steps crew Eq) (Steps crew Any) now w
      fun w' _ => w'.Has crew fun _ => True := by
  have mine := drift_steps crew (flow_any (ε := Diary))
  refine (settle_any self h).bind mine fun now₁ w₁ _ h₁ => ?_
  refine Procedure.Abides.bind mine (Q := fun w' _ => w'.Has crew fun _ => True) ?_
    fun now₂ w₂ _ h₂ => leaveHints_abides flow_any h₂ fun _ _ _ _ => ⟨trivial, trivial⟩
  rw [self.self]
  exact World.abides_modifyNode self.mem h₁ (fun _ => rfl) fun _ _ => ⟨trivial, trivial⟩

/-- A survivor that fails has announced nothing or relapsed; whatever becomes of the
others, only its own node is watched. -/
theorem depart_fails (usual : Usual (· = plan.node) (fun note => ¬ note.Announces) script)
    (self : plan.By crew.who) {leaver : Address}
    (closed : (start.nodes plan.node).log.state = .disabled)
    (h : w.Has crew (Still (· = plan.node) start)) :
    (depart (traffic script) plan leaver old).Abides (Steps crew Eq) (Steps crew Any) now w
      fun w' r => w'.Has crew (Failed (· = plan.node) plan.node (crew.who.beside plan.node)
        (fun new => old.without plan.strategy leaver = .ok new) old start r) := by
  refine depart_abides flow_any (D := fun _ _ => True) h (fun cause p still _ _ => .inl still)
    (fun new _ _ now w h => (settle_any self (h.mono fun _ _ => trivial)).mono
      fun w' _ h' => h'.mono fun _ _ => nofun)
    ?_ fun new now w h => (departed_any self h).mono fun w' _ h' => h'.mono fun _ _ => nofun
  intro new without now w h
  have sound : new.Sound := Ring.sound_ofMembers without
  refine (transfer_relapses usual self rfl closed h fun now w during => ?_).mono
    fun w' r came => ⟨came.1, fun cause failed => (came.2 cause failed).mono
      fun p undone _ _ => .inr ⟨new, without, undone⟩⟩
  have room : Room Eq Any (Since (· = plan.node) (.moving old new))
    (Since (· = plan.node) (.moving old new)) := Serving.flow.alone
  let D := During (· = plan.node) plan.node (crew.who.beside plan.node) old new start
  have steady : ∀ p q, Since (· = plan.node) (.moving old new) p q → D p → D q :=
    fun p q step ⟨u, united, since⟩ => ⟨u, united, Serving.flow.trans since step⟩
  refine ((pushState_abides (I := fun _ => D) (T := fun _ _ => True) room.fits self during
    (fun _ during => during) (fun _ => steady)
    (fun held row listed => usual.minds_still self.mem nofun steady)
    (fun held row listed mem now p _ => ⟨?_, trivial⟩) fun _ _ _ _ _ => trivial).inside room).mono
    fun w' r came => ?_
  · exact Serving.answered (fun same => absurd same (ne_of_row sound listed)) (usual.answered _)
  · obtain ⟨held, here⟩ := came
    exact here.mono fun p during _ _ => during.1

end

end Rehash

/-! ## What is lost -/

/-- When a survivor's part fails, either nothing has been announced, and its node has
carried out all it has acknowledged; or it has relapsed, and then it has not carried
out what it acknowledged while it logged.  It knows of a key what it would know
otherwise if and only if no put of the key was logged, and a logged remove has been
covered or there was nothing to remove. -/
theorem failed_leave_keeps_writes_iff {members : List Address} {x leaver : Address}
    {serial : Address → Serial} {errands : Option (List Errand)} {c : Cluster}
    {nodes : Address → Node} {old : MemberRing} {script : Nat → Sending → List Deed}
    (rehash : Serial) (now : Nat)
    (staffs : c.Staffs ⟨members, serial, errands⟩ nodes) (mem : x ∈ members)
    (closed : (nodes x).log.state = .disabled)
    (routine : ∀ i sending command, .hand x command ∈ script i sending → command.Routine)
    {tick : Nat} {w' : World Diary} {cause : RehashError}
    (failed : (Rehash.run (traffic script) rehash (serial x) (.leave leaver old) now
      { cluster := c, outside := {} }).run now = (tick, w', .error cause)) :
    ∃ last, w'.cluster.nodes.find? x = some last ∧
      (((∀ note ∈ w'.outside.notes, ¬ note.Announces) ∧ last =
          { nodes x with store := (nodes x).store.writeAll (acks x w'.outside.notes) }) ∨
        ∃ new before during after opened dropped,
          Relapse x (members.filter (· != x)) old new (nodes x) last w'.outside.notes
            before during after opened dropped ∧
          ∀ key,
            (last.store.SameAt (opened.store.writeAll (acks x (during ++ after))) key ↔
              (∀ w ∈ acks x during, w.puts key = false) ∧
                (.remove key ∈ acks x during →
                  (∃ w ∈ acks x after, w.key = key) ∨ opened.store.get? key = none)) ∧
            (last.store.value? key =
                valueAfter (acks x (during ++ after)) key (opened.store.value? key) ↔
              (∃ w ∈ acks x after, w.key = key) ∨
                valueAfter (acks x during) key (opened.store.value? key) =
                  opened.store.value? key)) := by
  have usual : Usual (· = x) (fun note => ¬ note.Announces) script :=
    ⟨fun i sending target command listed watching => routine i sending command (watching ▸ listed),
      fun _ _ _ _ _ _ => id, fun _ => id, fun _ ordinary => ordinary⟩
  have shut : ((Rehash.begun c nodes x).nodes x).log.state = .disabled :=
    (congrArg WriteLog.state (Rehash.begun_eq x).1).trans closed
  obtain ⟨nodes', staffs', quiet | ⟨new, -, before, during, after, opened, dropped, relapse, -⟩⟩ :=
    Rehash.run_fails (· = x) (fun new => old.without (nodes x).strategy leaver = .ok new)
      staffs mem rfl closed (fun now w plan self node strategy quiet => by
        subst node
        rw [← strategy]
        exact Rehash.carryOut_abides flow_any (Rehash.depart_fails usual self shut quiet)) failed
  · exact ⟨nodes' x, staffs'.find? mem, .inl ⟨quiet.1, quiet.2 x rfl closed⟩⟩
  · refine ⟨nodes' x, staffs'.find? mem, .inr ⟨new, before, during, after, opened, dropped,
      relapse, fun key => ?_⟩⟩
    rw [acks_append, relapse.ends, relapse.kept]
    refine ⟨Store.sameAt_omitting_iff _ _, ?_⟩
    rw [Store.value?_writeAll]
    exact Store.valueAfter_omitting_iff _ _

/-- Nodes `A` and `C`, which `D` has left; `C` holds `k0`, and state cannot be pushed. -/
def shorthanded : Cluster :=
  { ((Cluster.founded hasty ["A", "C", "D"]).stocked "C" ⟨"k0", [1], 1⟩).unregister "D" with
    faults := { forKind := [(.pushState, { lost := true })] } }

/-- While `C` pushes state for the first time, a write of `k0` gets to it. -/
def meantime : Nat → Sending → List Deed
  | 1, _ => [.hand "C" (.write (.single (.put "k0" [2])))]
  | _, _ => []

theorem failed_leave_keeps_writes_iff_of_shorthanded :
    ∃ old self tick w' cause last, Ring.ofMembers Strategy.sip24 ["A", "C", "D"] = .ok old ∧
      shorthanded.nodes.serial? "C" = some self ∧
      (Rehash.run (traffic meantime) 0 self (.leave "D" old) 0
        { cluster := shorthanded, outside := {} }).run 0 = (tick, w', .error cause) ∧
      w'.cluster.nodes.find? "C" = some last ∧
      ∃ new first before during after opened dropped,
        Relapse "C" ["A"] old new first last w'.outside.notes before during after opened dropped ∧
          ∀ key,
            (last.store.SameAt (opened.store.writeAll (acks "C" (during ++ after))) key ↔
              (∀ w ∈ acks "C" during, w.puts key = false) ∧
                (.remove key ∈ acks "C" during →
                  (∃ w ∈ acks "C" after, w.key = key) ∨ opened.store.get? key = none)) ∧
            (last.store.value? key =
                valueAfter (acks "C" (during ++ after)) key (opened.store.value? key) ↔
              (∃ w ∈ acks "C" after, w.key = key) ∨
                valueAfter (acks "C" during) key (opened.store.value? key) =
                  opened.store.value? key) := by
  obtain ⟨old, placed⟩ : ∃ r, Ring.ofMembers Strategy.sip24 ["A", "C", "D"] = .ok r :=
    Ring.exists_ofMembers _ (by decide)
  obtain ⟨serial, founded⟩ := Cluster.exists_hosts_hasty (by decide) placed
  have hosts := (founded.stocked (show "C" ∈ ["A", "C", "D"] by decide) ⟨"k0", [1], 1⟩).unregister
    "D"
  have idle : (((Cluster.founded hasty ["A", "C", "D"]).stocked "C" ⟨"k0", [1], 1⟩).unregister
      "D").approached = [] := by decide +kernel
  have staffs : shorthanded.Staffs _ _ := (hosts.staffs idle).weather _
  have one : shorthanded.nodes.serial? "C" = some 1 := by decide +kernel
  have self := staffs.named (show "C" ∈ ["A", "C"] by decide)
  rw [one, Option.some.injEq] at self
  -- What the run comes to is computed, but only this much of it matters.
  have fails : (Ring.ofMembers Strategy.sip24 ["A", "C", "D"]).toOption.map (fun old =>
      ((Rehash.run (traffic meantime) 0 1 (.leave "D" old) 0
        { cluster := shorthanded, outside := {} }).run 0).2.2.toOption.isNone &&
      decide (∃ note ∈ ((Rehash.run (traffic meantime) 0 1 (.leave "D" old) 0
        { cluster := shorthanded, outside := {} }).run 0).2.1.outside.notes, note.Announces)) =
      some true := by decide +kernel
  rw [placed] at fails
  obtain ⟨errs, announced⟩ := Bool.and_eq_true_iff.mp (Option.some.inj fails)
  have announced := of_decide_eq_true announced
  generalize result : (Rehash.run (traffic meantime) 0 1 (.leave "D" old) 0
    { cluster := shorthanded, outside := {} }).run 0 = run at errs announced
  obtain ⟨tick, w', cause | ring⟩ := run
  · have routine : ∀ i sending command, .hand "C" command ∈ meantime i sending →
        command.Routine := by
      intro i sending command listed
      unfold meantime at listed
      split at listed
      · refine .inr ⟨.single (.put "k0" [2]), ?_⟩
        simpa using listed
      · cases listed
    obtain ⟨last, found, quiet | ⟨new, before, during, after, opened, dropped, relapse, lost⟩⟩ :=
      failed_leave_keeps_writes_iff 0 0 staffs (show "C" ∈ ["A", "C"] by decide) rfl routine
        (self ▸ result)
    · obtain ⟨note, noted, sent⟩ := announced
      exact absurd sent (quiet.1 note noted)
    · exact ⟨old, 1, tick, w', cause, last, placed, one, result, found, new, _, before, during,
        after, opened, dropped, relapse, lost⟩
  · cases errs

/-- `D` leaves, `C` cannot push what it holds, and a put that gets to it meanwhile, and
that is acknowledged, is gone when `C` has given up. -/
def vainPush : List Scenario.Step :=
  let members := ["A", "C", "D"]
  [.node "A" members hasty true, .node "C" members hasty true, .node "D" members hasty true,
    .put "A" "k0" [1], .unregister "D", .leave "C" "D" "of C", .lose .pushState true,
    .hook (some "C") (some "A") .pushState 1 [.put "A" "k0" [2]], .run "of C",
    .store "C" (.get "k0")]

theorem write_lost_by_failed_leave :
    (Scenario.run vainPush).filterMap (fun answer => match answer.outcome with
      | .ran result _ _ => some result.toOption.isSome
      | _ => none) = [false] ∧
    (Scenario.run vainPush).flatMap (fun answer => answer.events.filterMap fun event =>
      match event.2 with
      | .hooked (.put _ key value) .ok => some (key, value)
      | _ => none) = [("k0", [2])] ∧
    (Scenario.run vainPush).filterMap (fun answer => match answer.outcome with
      | .store (.entry e) => some (e.map (·.value))
      | _ => none) = [some [1]] := by
  decide +kernel

end SlotRing
