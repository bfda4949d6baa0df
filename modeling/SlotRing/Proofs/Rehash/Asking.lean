/-
# Steps that maintain what lasts

What others are asked for and told in the course of a rehash gets at nothing that
lasts (`Lasting`), however often it is tried.  The member that goes over to a mapping
itself does so with its own node; that this changes nothing is left to who knows what
is to last.

Otherwise a rehash changes its own node and publishes how far it is.  What endures that
as well (`Enduring`) is maintained by whole changes, up to the errand that they leave
in the end.
-/
import SlotRing.Proofs.Cluster.Order

namespace SlotRing.Rehash

variable {ε : Type} {around : Surroundings ε} {plan : Plan} {J : World ε → Prop}

section

variable (lasting : Lasting J)
include lasting

theorem maintains_retry {α : Type} {phase : Phase}
    {attempt : Procedure (World ε) (Except RehashError α)} (h : attempt.Maintains J) :
    (retry plan phase attempt).Maintains J :=
  fun _ _ hs => (retryUntil_keeps lasting.steady (T := fun _ => True) hs
    fun _ _ hs => (h _ _ hs).mono fun _ _ hs' => ⟨hs', fun _ _ => trivial⟩).mono
    fun _ _ holds => holds.1

variable (spares : around.Spares J)
include spares

theorem maintains_announce {mapping : MemberMapping}
    (installs : (World.modifyNode plan.self (·.install mapping)).Maintains J) :
    (announce around plan mapping).Maintains J :=
  installs.bind fun _ => (maintains_broadcast lasting spares _ _ _ _).discard

theorem maintains_fetchRing : (fetchRing around plan).Maintains J := by
  refine (maintains_world_read _).bind fun coordinator => ?_
  split
  · exact Procedure.maintains_pure _
  · refine maintains_retry lasting ?_
    refine (maintains_sendTo lasting spares _ _ _ _).bind fun reply => ?_
    split <;> exact Procedure.maintains_pure _

theorem maintains_pull (new : MemberRing) : (pull around plan new).Maintains J := by
  unfold pull
  refine (Procedure.maintains_all ?_).bind fun results => Procedure.maintains_pure _
  simp only [List.mem_map, forall_exists_index, and_imp]
  rintro _ source - rfl
  refine (maintains_retry lasting ?_).bind fun _ => Procedure.maintains_pure _
  refine (maintains_sendTo lasting spares _ _ _ _).bind fun reply => ?_
  split <;> exact Procedure.maintains_pure _

theorem maintains_reportArrival : (reportArrival around plan).Maintains J := by
  refine (maintains_world_read _).bind fun coordinator => ?_
  split
  · exact Procedure.maintains_pure _
  · split
    · exact (maintains_sendTo lasting spares _ _ _ _).discard
    · exact Procedure.maintains_pure _

end

/-! ## Steps of the node itself -/

/-- What a rehash does to nodes and publishes of itself does not get at it, as long as
nodes stay in order. -/
structure Enduring (rehash : Serial) (J : World ε → Prop) : Prop extends Lasting J where
  node {w : World ε} (h : J w) {n : Serial} {f : Node → Node}
    (kept : ∀ m, m.InOrder → (f m).InOrder) : J { w with cluster := w.cluster.updateNode n f }
  record {w : World ε} (h : J w) {f : Rehash → Rehash} (kept : ∀ r, (f r).errand = r.errand) :
    J { w with cluster := w.cluster.updateRehash rehash f }

section

variable (enduring : Enduring plan.rehash J)
include enduring

theorem Enduring.modifyNode {n : Serial} {f : Node → Node}
    (kept : ∀ m, m.InOrder → (f m).InOrder) : (World.modifyNode n f).Maintains J :=
  Procedure.maintains_modify fun _ h => enduring.node h kept

theorem maintains_enter (phase : Phase) : (enter plan.rehash phase).Maintains J :=
  Procedure.maintains_modify fun _ h => enduring.record h fun _ => rfl

theorem maintains_openLog (old : MemberRing) : (openLog plan old).Maintains J := by
  refine Procedure.maintains_change fun w h => ?_
  cases opened : (w.cluster.nodes.get? plan.self).bind (·.beginTransition? old) with
  | none => exact h
  | some node =>
    obtain ⟨n, -, opened⟩ := Option.bind_eq_some_iff.mp opened
    exact enduring.node h fun _ _ => Node.InOrder.beginTransition opened

variable (spares : around.Spares J)
include spares

theorem maintains_announce_to (mapping : MemberMapping) :
    (announce around plan mapping).Maintains J :=
  maintains_announce enduring.toLasting spares
    (enduring.modifyNode fun _ inOrder => inOrder.congr rfl)

theorem maintains_settle (new : MemberRing) : (settle around plan new).Maintains J :=
  (maintains_enter enduring _).bind fun _ => maintains_announce_to enduring spares _

theorem maintains_abort (old : MemberRing) : (abort around plan old).Maintains J :=
  (enduring.modifyNode fun m _ => .abortTransition m).bind fun _ =>
    maintains_announce_to enduring spares _

theorem maintains_transfer {old new : MemberRing}
    {moveState : Procedure (World ε) (Except RehashError Unit)} (moves : moveState.Maintains J) :
    (transfer around plan old new moveState).Maintains J := by
  have records : (World.modify (·.updateRehash plan.rehash
      ({ · with passage := some ⟨old, new⟩ })) : Procedure (World ε) Unit).Maintains J :=
    Procedure.maintains_modify fun _ h =>
      enduring.record (f := ({ · with passage := some ⟨old, new⟩ })) h fun _ => rfl
  refine records.bind fun _ => ?_
  refine (maintains_openLog enduring old).bind fun opened => ?_
  split
  · exact Procedure.maintains_pure _
  refine (maintains_enter enduring _).bind fun _ => ?_
  refine (maintains_announce_to enduring spares _).bind fun _ => ?_
  refine (maintains_enter enduring _).bind fun _ => moves.bind fun moved => ?_
  split
  · exact (maintains_abort enduring spares old).bind fun _ => Procedure.maintains_pure _
  · exact (maintains_enter enduring _).bind fun _ =>
      (enduring.modifyNode fun _ inOrder => inOrder.finishTransition).bind fun _ =>
        Procedure.maintains_pure _

theorem maintains_pullState (new : MemberRing) : (pullState around plan new).Maintains J := by
  refine (maintains_pull enduring.toLasting spares new).bind fun pulled => ?_
  split
  · exact Procedure.maintains_pure _
  · refine (maintains_enter enduring _).bind fun _ =>
      (enduring.modifyNode fun n inOrder => ?_).bind fun _ => Procedure.maintains_pure _
    exact inOrder.congr rfl

theorem maintains_pushState (old new : MemberRing) :
    (pushState around plan old new).Maintains J := by
  refine (maintains_world_read _).bind fun held => ?_
  refine (Procedure.maintains_all ?_).bind fun results => ?_
  · simp only [List.mem_map, forall_exists_index, and_imp]
    rintro _ ⟨target, entries⟩ - rfl
    refine maintains_retry enduring.toLasting ?_
    refine (maintains_sendTo enduring.toLasting spares _ _ _ _).bind fun reply => ?_
    split <;> exact Procedure.maintains_pure _
  · split
    · exact Procedure.maintains_pure _
    · exact (maintains_enter enduring _).bind fun _ => Procedure.maintains_pure _

end

end SlotRing.Rehash
