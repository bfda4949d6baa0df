/-
# The errand that a join leaves

A join that has ended may have left an errand.  Whoever waits for the errand finds it
through the record of the join, where its number stands: that number is the one the
errand has on the list (`run_bequeaths`), whatever goes on around the join that leaves
the record and the list alone.
-/
import SlotRing.Proofs.Rehash.Asking

namespace SlotRing.Rehash

variable {ε : Type} {around : Surroundings ε} {plan : Plan} {w : World ε} {now : Nat}
  {rehash : Serial} {errand : Option Nat} {errands : List Errand}

/-- The errand that a rehash has on record, and all that have been left. -/
structure Filed (rehash : Serial) (errand : Option Nat) (errands : List Errand)
    (w : World ε) : Prop where
  record : (w.cluster.rehashes.get? rehash).map Rehash.errand = some errand
  errands_eq : w.cluster.errands = errands

theorem Filed.updateNode (h : Filed rehash errand errands w) (n : Serial) (f : Node → Node) :
    Filed rehash errand errands { w with cluster := w.cluster.updateNode n f } :=
  ⟨h.record, h.errands_eq⟩

theorem Filed.updateRehash (h : Filed rehash errand errands w) {f : Rehash → Rehash}
    (kept : ∀ r, (f r).errand = r.errand) :
    Filed rehash errand errands { w with cluster := w.cluster.updateRehash rehash f } := by
  refine ⟨?_, h.errands_eq⟩
  obtain ⟨r, known, same⟩ := Option.map_eq_some_iff.mp h.record
  show ((w.cluster.rehashes.update rehash f).get? rehash).map Rehash.errand = some errand
  rw [Roster.get?_update_self, known]
  exact congrArg some ((kept r).trans same)

theorem Filed.answer (h : Filed rehash errand errands w) (endpoint : Serial)
    (command : Command) (outside : ε) : Filed rehash errand errands
      { w with cluster := (w.cluster.answer endpoint command).1, outside } := by
  have idle : Filed rehash errand errands { w with outside } := ⟨h.record, h.errands_eq⟩
  unfold Cluster.answer
  generalize (w.cluster.endpoints.get? endpoint).getD {} = e
  dsimp only
  split
  · exact idle
  · split
    · exact idle
    · cases e.node with
      | none => exact idle
      | some n => exact idle.updateNode n _

/-- As long as no errand is left, the record and the list stay as they are. -/
theorem enduring_filed : Enduring rehash (Filed (ε := ε) rehash errand errands) where
  steady := fun _ _ h => ⟨h.record, h.errands_eq⟩
  answer h endpoint command outside := h.answer endpoint command outside
  approached h _ := ⟨h.record, h.errands_eq⟩
  node h _ _ _ := h.updateNode _ _
  record h _ kept := h.updateRehash kept

theorem lasting_filed : Lasting (Filed (ε := ε) rehash errand errands) :=
  enduring_filed.toLasting

/-! ## The errand that is left -/

/-- No errand has been left, or one, and that one is on record. -/
def Bequeathed (rehash : Serial) (errand : Option Nat) (errands : List Errand)
    (w : World ε) : Prop :=
  Filed rehash errand errands w ∨
    ∃ left, Filed rehash (some errands.length) (errands ++ [left]) w

theorem leaveHints_bequeaths {old new : MemberRing} (h : Filed plan.rehash errand errands w) :
    (leaveHints plan old new : Procedure (World ε) Unit).Returns now w fun w' _ =>
      Bequeathed plan.rehash errand errands w' := by
  unfold leaveHints
  split
  · refine ((maintains_enter enduring_filed _).returns lasting_filed.steady h).bind fun now w _ h =>
      .inr ⟨{ node := plan.self, passage := ⟨old, new⟩ }, ?_, ?_⟩
    · obtain ⟨r, known, -⟩ := Option.map_eq_some_iff.mp h.record
      rw [← h.errands_eq]
      show ((w.cluster.rehashes.update _ _).get? _).map Rehash.errand = _
      rw [Roster.get?_update_self, known]
      rfl
    · exact congrArg (· ++ _) h.errands_eq
  · exact Procedure.returns_pure (.inl h)

/-- What maintains whatever is filed maintains what has been bequeathed. -/
theorem Bequeathed.along {α : Type} {p : Procedure (World ε) α}
    (h : Bequeathed rehash errand errands w)
    (maintained : ∀ errand errands, p.Maintains (Filed rehash errand errands)) :
    p.Returns now w fun w' _ => Bequeathed rehash errand errands w' := by
  rcases h with filed | ⟨left, filed⟩
  · exact ((maintained _ _).returns lasting_filed.steady filed).mono fun _ _ => .inl
  · exact ((maintained _ _).returns lasting_filed.steady filed).mono fun _ _ h => .inr ⟨left, h⟩

theorem arrive_bequeaths (spares : around.Spares (Filed plan.rehash errand errands))
    (h : Filed plan.rehash errand errands w) :
    (arrive around plan).Returns now w fun w' _ => Bequeathed plan.rehash errand errands w' := by
  have along {α : Type} {p : Procedure (World ε) α} {now : Nat} {w : World ε}
      (h : Filed plan.rehash errand errands w)
      (maintained : p.Maintains (Filed plan.rehash errand errands)) :
      p.Returns now w fun w' _ => Filed plan.rehash errand errands w' :=
    maintained.returns lasting_filed.steady h
  unfold arrive
  refine (along h (maintains_enter enduring_filed _)).bind fun now w _ h => ?_
  refine (along h (maintains_fetchRing lasting_filed spares)).bind fun now w r h => ?_
  rcases r with cause | old
  · exact Procedure.returns_pure (.inl h)
  refine (along h (maintains_enter enduring_filed _)).bind fun now w _ h => ?_
  split
  · exact Procedure.returns_pure (.inl h)
  split
  · exact (along h (maintains_settle enduring_filed spares _)).bind fun now w _ h =>
      Procedure.returns_pure (.inl h)
  refine (along h (maintains_transfer enduring_filed spares
    (maintains_pullState enduring_filed spares _))).bind fun now w r h => ?_
  rcases r with cause | ⟨⟩
  · exact Procedure.returns_pure (.inl h)
  refine (along h (maintains_settle enduring_filed spares _)).bind fun now w _ h => ?_
  refine (along h (maintains_reportArrival lasting_filed spares)).bind fun now w _ h => ?_
  exact (leaveHints_bequeaths h).bind fun now w _ left => Procedure.returns_pure left

theorem carryOut_bequeaths (spares : around.Spares (Filed plan.rehash errand errands))
    (h : Filed plan.rehash errand errands w) :
    (carryOut around plan .join).Returns now w fun w' _ =>
      Bequeathed plan.rehash errand errands w' := by
  unfold carryOut
  refine (arrive_bequeaths spares h).bind fun now w result left => ?_
  cases result <;>
    exact (left.along fun _ _ => maintains_enter enduring_filed _).bind fun now w _ left =>
      Procedure.returns_pure left

/-- When a join returns, the errand that it may have left is the one on record. -/
theorem run_bequeaths {self : Serial} (spares : around.Spares (Filed rehash errand errands))
    (h : Filed rehash errand errands w) :
    (run around rehash self .join).Returns now w fun w' _ =>
      Bequeathed rehash errand errands w' := by
  unfold run
  have acquires : (acquire self : Procedure (World ε) (Option Node)).Maintains
      (Filed rehash errand errands) := by
    refine Procedure.maintains_change fun w h => ?_
    split
    · exact h
    · split
      · exact h
      · exact h.updateNode self _
  refine (acquires.returns lasting_filed.steady h).bind fun now w found h => ?_
  cases found with
  | none => exact Procedure.returns_pure (.inl h)
  | some n =>
    refine Procedure.Returns.bind (Q := fun w' _ => Filed rehash errand errands w') h
      fun now w start h => ?_
    let plan : Plan := {
      rehash, self, node := n.address, settings := n.settings, strategy := n.strategy
      deadline := start * Duration.perTick + n.settings.deadline.nanoseconds }
    have carried : (carryOut around plan .join).Returns now w fun w' _ =>
      Bequeathed rehash errand errands w' := carryOut_bequeaths spares h
    refine Procedure.Returns.ensuring ?_
    split
    case isTrue =>
      exact carried.mono fun w' _ left =>
        left.imp (·.updateNode _ _) fun ⟨e, filed⟩ => ⟨e, filed.updateNode _ _⟩
    case isFalse => exact Procedure.returns_pure (.inl (h.updateNode _ _))

end SlotRing.Rehash
