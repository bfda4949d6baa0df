/-
# The steps of a departure, where nothing goes wrong

As in `SlotRing.Proofs.Rehash.Steps`, for what only a survivor of a departure
does: it hands its entries to the members that gain them, one target after the
other (`pushState_ends`), and goes over to the ring that is left
(`depart_ends`).
-/
import SlotRing.Proofs.Mapping.Serving
import SlotRing.Proofs.Rehash.Steps
import SlotRing.Proofs.Tables

namespace SlotRing.Rehash

variable {ε : Type} {around : Surroundings ε} {who : Census} {w : World ε} {now : Nat}
variable {P Q : (Address → Node) → ε → Prop} {plan : Plan}

/-! ## Who gets what -/

section

variable {old new : MemberRing} {held : List Entry}

theorem itemsOf_gains (sound : new.Sound) (target : Address) :
    itemsOf (held.flatMap fun e =>
        ((old.gainedOwners new e.key plan.settings.owners).filter (· != plan.node)).map (·, e))
        target =
      held.filter fun e =>
        ((old.gainedOwners new e.key plan.settings.owners).filter (· != plan.node)).contains
          target :=
  itemsOf_flatMap held _ (fun _ _ => ((sound.nodup_locate _ _).filter _).filter _) target

theorem mem_gained {target : Address} {key : String} :
    target ∈ (old.gainedOwners new key plan.settings.owners).filter (· != plan.node) ↔
      target ≠ plan.node ∧ target ∈ new.locate key plan.settings.owners ∧
        target ∉ old.locate key plan.settings.owners := by
  rw [List.mem_filter, Ring.gainedOwners, mem_lost, bne_iff_ne, and_comm]

theorem mem_row (sound : new.Sound) {row : Address × List Entry}
    (listed : row ∈ gains plan old new held) {e : Entry} :
    e ∈ row.2 ↔ e ∈ held ∧ row.1 ≠ plan.node ∧ row.1 ∈ new.locate e.key plan.settings.owners ∧
      row.1 ∉ old.locate e.key plan.settings.owners := by
  obtain ⟨target, es⟩ := row
  rw [(mem_perMember_iff.mp listed).1, itemsOf_gains sound, List.mem_filter,
    List.contains_iff_mem, mem_gained]

theorem exists_row (sound : new.Sound) {e : Entry} (mem : e ∈ held) {target : Address}
    (other : target ≠ plan.node) (gains_ : target ∈ new.locate e.key plan.settings.owners)
    (fresh : target ∉ old.locate e.key plan.settings.owners) :
    ∃ es, (target, es) ∈ gains plan old new held := by
  refine ⟨_, mem_perMember_iff.mpr ⟨rfl, ?_⟩⟩
  rw [itemsOf_gains sound]
  exact List.ne_nil_of_mem (List.mem_filter.mpr
    ⟨mem, List.contains_iff_mem.mpr (mem_gained.mpr ⟨other, gains_, fresh⟩)⟩)

theorem mem_members_of_row (sound : new.Sound) {row : Address × List Entry}
    (listed : row ∈ gains plan old new held) : row.1 ∈ new.members := by
  obtain ⟨e, he⟩ := List.exists_mem_of_ne_nil _ (mem_perMember_iff.mp listed).2
  exact sound.mem_members_of_mem_locate ((mem_row sound listed).mp he).2.2.1

theorem ne_of_row (sound : new.Sound) {row : Address × List Entry}
    (listed : row ∈ gains plan old new held) : row.1 ≠ plan.node := by
  obtain ⟨e, he⟩ := List.exists_mem_of_ne_nil _ (mem_perMember_iff.mp listed).2
  exact ((mem_row sound listed).mp he).2.1

end

/-! ## Handing over -/

/-- A node that merges what another hands to it. -/
def takingOver (entries : List Entry) (n : Node) : Node :=
  { n with store := (n.store.merge entries).1 }

theorem handTo_ends (silent : around.Silent) {target : Address} (mem : target ∈ who.members)
    {entries : List Entry} (h : w.Holds who P)
    (leads : around.Leads who
      { sender := plan.node, targets := [target], command := .pushState entries } P
      fun nodes o => Q (Function.update nodes target (takingOver entries (nodes target))) o) :
    (handTo around plan target entries).Ends now w fun w' r =>
      ∃ v, r = .ok v ∧ w'.Holds who Q := by
  unfold handTo
  refine (sendTo_ends silent mem h (Q := fun nodes o reply => reply = .ack ∧ Q nodes o) ?_).bind ?_
  · intro now' w' holds
    refine (leads now' w' holds).mono fun w'' _ h'' => h''.mono fun nodes o q => ⟨rfl, ?_⟩
    rw [heeding_singleton]
    exact q
  · rintro w' r ⟨reply, rfl, nodes, hosts, rfl, q⟩
    exact Procedure.ends_pure ⟨(), rfl, nodes, hosts, q⟩

/-- Rows of entries are handed to one target after the other; `I done` is what holds
when the rows `done` have been handed over. -/
theorem handAll_ends (silent : around.Silent) {rows : List (Address × List Entry)}
    (mem : ∀ row ∈ rows, row.1 ∈ who.members)
    {I : List (Address × List Entry) → (Address → Node) → ε → Prop} (h : w.Holds who (I []))
    (step : ∀ done row rest, done ++ row :: rest = rows →
      around.Leads who
        { sender := plan.node, targets := [row.1], command := .pushState row.2 }
        (I done) fun nodes o => I (done ++ [row])
          (Function.update nodes row.1 (takingOver row.2 (nodes row.1))) o) :
    (Procedure.all (rows.map fun row =>
      retry plan .pullState (handTo around plan row.1 row.2))).Ends now w fun w' rs =>
        (∀ r ∈ rs, r = .ok ()) ∧ w'.Holds who (I rows) := by
  refine work_through (motive := fun done todo => ∀ w : World ε, w.Holds who (I done) →
    (Procedure.all (todo.map fun row =>
      retry plan .pullState (handTo around plan row.1 row.2))).Ends now w fun w' rs =>
        (∀ r ∈ rs, r = .ok ()) ∧ w'.Holds who (I rows)) ?_ ?_ w h
  · exact fun w holds => Procedure.ends_all_nil ⟨fun r hr => absurd hr List.not_mem_nil, holds⟩
  · intro done row todo split rest w holds
    have target : row.1 ∈ who.members :=
      mem row (split ▸ List.mem_append_right _ List.mem_cons_self)
    refine Procedure.ends_all_cons
      (retryUntil_ends (handTo_ends silent target holds (step done row todo split))) ?_
    rintro w' r ⟨v, rfl, holds'⟩
    refine (rest w' holds').mono ?_
    rintro w'' rs ⟨ok, holds''⟩
    exact ⟨List.forall_mem_cons.mpr ⟨rfl, ok⟩, holds''⟩

/-- Entries are handed to one target after the other; `I held done` is what
holds when `held` has been read and the rows `done` have been handed over. -/
theorem pushState_ends (silent : around.Silent) (self : plan.By who) {old new : MemberRing}
    (mem : ∀ held, ∀ row ∈ gains plan old new held, row.1 ∈ who.members)
    {I : List Entry → List (Address × List Entry) → (Address → Node) → ε → Prop}
    (h : w.Holds who P)
    (start : ∀ nodes o, P nodes o → I ((nodes plan.node).store.select fun key =>
      old.isOwner plan.node key plan.settings.owners) [] nodes o)
    (step : ∀ held done row rest, done ++ row :: rest = gains plan old new held →
      around.Leads who
        { sender := plan.node, targets := [row.1], command := .pushState row.2 }
        (I held done) fun nodes o => I held (done ++ [row])
          (Function.update nodes row.1 (takingOver row.2 (nodes row.1))) o)
    (finished : ∀ held nodes o, I held (gains plan old new held) nodes o → Q nodes o) :
    (pushState around plan old new).Ends now w fun w' r => r = .ok () ∧ w'.Holds who Q := by
  unfold pushState
  rw [self.self]
  refine (World.ends_readNode self.mem h).bind ?_
  rintro w₁ r ⟨held, rfl, h₁⟩
  have begun : w₁.Holds who (I held []) := by
    refine h₁.mono ?_
    rintro nodes o ⟨p, rfl⟩
    exact start nodes o p
  refine (handAll_ends silent (mem held) begun (step held)).bind ?_
  rintro w₂ rs ⟨ok, h₂⟩
  split
  · next cause found =>
    obtain ⟨r, hr, failed⟩ := List.exists_of_findSome?_eq_some found
    rw [ok r hr] at failed
    cases failed
  · refine (enter_ends _ _ (h₂.mono fun nodes o => finished held nodes o)).bind ?_
    exact fun w₃ _ h₃ => Procedure.ends_pure ⟨rfl, h₃⟩

/-! ## The whole departure -/

/-- A departure that moves state, with what holds at each of its sendings: `A`
and `U` before and after the union has been announced, `V` when state has been
handed over, `D` and `B` before and after the new ring has been announced. -/
theorem depart_ends (silent : around.Silent) (self : plan.By who) {leaver : Address}
    {old new : MemberRing} (other : leaver ≠ plan.node) (member : old.contains leaver = true)
    (without : old.without plan.strategy leaver = .ok new)
    (enabled : plan.settings.rehashEnabled = true)
    {A U V D B : (Address → Node) → ε → Prop} (h : w.Holds who P)
    (opened : ∀ nodes o, P nodes o → (nodes plan.node).log.state = .disabled ∧
      A (Function.update nodes plan.node
        ((logging old (nodes plan.node)).install (.moving old new))) o)
    (union : around.Leads who
      { sender := plan.node, targets := who.members.filter (· != plan.node),
        command := .installMapping (.moving old new) } A fun nodes o =>
      U (fun a => if a = plan.node then nodes a else (nodes a).install (.moving old new)) o)
    (moved : ∀ w : World ε, w.Holds who U →
      (pushState around plan old new).Ends now w fun w' r => r = .ok () ∧ w'.Holds who V)
    (finished : ∀ nodes o, V nodes o →
      D (Function.update nodes plan.node
        ((nodes plan.node).finishTransition.install (.settled new))) o)
    (final : around.Leads who
      { sender := plan.node, targets := who.members.filter (· != plan.node),
        command := .installMapping (.settled new) } D fun nodes o =>
      B (fun a => if a = plan.node then nodes a else (nodes a).install (.settled new)) o)
    (dropped : ∀ nodes o, B nodes o →
      Q (Function.update nodes plan.node ((nodes plan.node).dropUnowned new)) o) :
    (depart around plan leaver old).Ends now w fun w' r => r = .ok new ∧
      w'.Holds (who.leaving (hintsLeft plan.settings plan.self old new)) Q := by
  unfold depart
  refine (enter_ends _ _ h).bind fun w₁ _ h₁ => ?_
  simp only [other, if_false, member, Bool.not_true, Bool.false_eq_true]
  refine (enter_ends _ _ h₁).bind fun w₂ _ h₂ => ?_
  simp only [without, enabled, Bool.not_true, Bool.false_eq_true, if_false]
  refine (transfer_ends silent self (Q := fun nodes o => D (Function.update nodes plan.node
    ((nodes plan.node).install (.settled new))) o) h₂ opened union moved ?_).bind ?_
  · intro nodes o v
    rw [Function.update_self, Function.update_idem]
    exact finished nodes o v
  rintro w₃ r ⟨rfl, h₃⟩
  refine (settle_ends silent self h₃ final).bind fun w₄ _ h₄ => ?_
  refine Procedure.Ends.bind (Q := fun w' _ => w'.Holds who Q) ?_ fun w₅ _ h₅ => ?_
  · rw [self.self]
    exact World.ends_modifyNode self.mem (h₄.mono fun nodes o b => ⟨rfl, dropped nodes o b⟩)
  refine (leaveHints_ends old new h₅).bind fun w₆ _ h₆ => ?_
  exact Procedure.ends_pure ⟨rfl, h₆⟩

end SlotRing.Rehash
