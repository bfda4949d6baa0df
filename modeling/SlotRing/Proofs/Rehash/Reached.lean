/-
# Every node is in order

Rehashes, and whoever acts while they run, leave every node in order that was.  Nodes
are made in order, and so they are in every cluster that anything has led to, whatever
was lost on the way and however often a rehash was refused, failed or was stopped
(`Cluster.Reached.inOrder`).
-/
import SlotRing.Proofs.Rehash.Asking

namespace SlotRing

namespace Rehash

variable {ε : Type} {around : Surroundings ε} {plan : Plan}

theorem enduring_orderly (rehash : Serial) : Enduring rehash (Orderly (ε := ε)) where
  toLasting := standing_orderly.lasting
  node h _ _ kept := h.updateNode fun n _ => kept n
  record h _ _ := h

theorem leaveHints_orderly (old new : MemberRing) :
    (leaveHints plan old new : Procedure (World ε) Unit).Maintains Orderly := by
  unfold leaveHints
  split
  · exact (maintains_enter (enduring_orderly _) _).bind fun _ =>
      Procedure.maintains_modify fun _ h => h
  · exact Procedure.maintains_pure _

section

variable (spares : around.Spares Orderly)
include spares

theorem arrive_orderly : (arrive around plan).Maintains Orderly := by
  have enduring := enduring_orderly (ε := ε) plan.rehash
  unfold arrive
  refine (maintains_enter enduring _).bind fun _ => ?_
  refine (maintains_fetchRing enduring.toLasting spares).bind fun fetched => ?_
  split
  · exact Procedure.maintains_pure _
  refine (maintains_enter enduring _).bind fun _ => ?_
  split
  · exact Procedure.maintains_pure _
  split
  · exact (maintains_settle enduring spares _).bind fun _ => Procedure.maintains_pure _
  refine (maintains_transfer enduring spares (maintains_pullState enduring spares _)).bind
    fun moved => ?_
  split
  · exact Procedure.maintains_pure _
  · exact (maintains_settle enduring spares _).bind fun _ =>
      (maintains_reportArrival enduring.toLasting spares).bind fun _ =>
      (leaveHints_orderly _ _).bind fun _ => Procedure.maintains_pure _

theorem depart_orderly (leaver : Address) (old : MemberRing) :
    (depart around plan leaver old).Maintains Orderly := by
  have enduring := enduring_orderly (ε := ε) plan.rehash
  unfold depart
  refine (maintains_enter enduring _).bind fun _ => ?_
  split
  · exact Procedure.maintains_pure _
  split
  · exact Procedure.maintains_pure _
  refine (maintains_enter enduring _).bind fun _ => ?_
  split
  · exact Procedure.maintains_pure _
  split
  · exact (maintains_settle enduring spares _).bind fun _ => Procedure.maintains_pure _
  refine (maintains_transfer enduring spares (maintains_pushState enduring spares _ _)).bind
    fun moved => ?_
  split
  · exact Procedure.maintains_pure _
  · refine (maintains_settle enduring spares _).bind fun _ =>
      (enduring.modifyNode fun n inOrder => ?_).bind fun _ =>
      (leaveHints_orderly _ _).bind fun _ => Procedure.maintains_pure _
    exact inOrder.congr rfl

theorem carryOut_orderly (change : Change) : (carryOut around plan change).Maintains Orderly := by
  have ended (phase : Phase) (result : Except RehashError MemberRing) :
      (enter plan.rehash phase >>= fun _ => pure result :
        Procedure (World ε) (Except RehashError MemberRing)).Maintains Orderly :=
    (maintains_enter (enduring_orderly _) phase).bind fun _ => Procedure.maintains_pure result
  unfold carryOut
  cases change with
  | join =>
    refine (arrive_orderly spares).bind fun result => ?_
    cases result <;> exact ended _ _
  | leave leaver old =>
    refine (depart_orderly spares leaver old).bind fun result => ?_
    cases result <;> exact ended _ _

/-- A run leaves every node in order, however it ends. -/
theorem run_orderly (rehash self : Serial) (change : Change) :
    (run around rehash self change).Maintains Orderly := by
  have acquires : (acquire self : Procedure (World ε) (Option Node)).Maintains Orderly := by
    refine Procedure.maintains_change fun w h => ?_
    split
    · exact h
    · split
      · exact h
      · exact h.updateNode fun n _ inOrder => inOrder
  unfold run
  refine acquires.bind fun found => ?_
  split
  · exact Procedure.maintains_pure _
  refine Procedure.Maintains.bind (fun _ _ h => h) fun now => ?_
  refine Procedure.Maintains.ensuring ?_ fun w h => h.updateNode fun n _ inOrder => inOrder
  split
  · exact carryOut_orderly spares change
  · exact Procedure.maintains_pure _

theorem tell_orderly (sender : Address) (timeout : Duration)
    (told : List (Address × List String)) :
    (tell around sender timeout told).Maintains Orderly := by
  induction told with
  | nil => exact Procedure.maintains_pure _
  | cons row told ih =>
    refine (maintains_sendTo standing_orderly.lasting spares _ _ _ _).bind fun reply => ?_
    split
    · exact ih.bind fun _ => Procedure.maintains_pure _
    · exact ih

theorem runErrand_orderly (n : Nat) (errand : Errand) :
    (runErrand around n errand).Maintains Orderly := by
  refine (maintains_world_read _).bind fun node => ?_
  cases node with
  | none => exact Procedure.maintains_modify fun _ h => h
  | some node =>
    exact (tell_orderly spares _ _ _).bind fun _ => Procedure.maintains_modify fun _ h => h

end

end Rehash

theorem crowd_spares_orderly (self : Serial) (script : Nat → Sending → List Act) (depth : Nat) :
    (crowd self script depth).Spares Orderly :=
  crowd_spares standing_orderly (fun spares other change =>
    Rehash.run_orderly spares other self change) script depth

namespace Cluster

/-- What is left of a cluster when a procedure has been run in it, with nobody beside it but
those who act at its sendings. -/
def after {α : Type} (c : Cluster) (p : Procedure (World Nat) α) (now : Nat) : Cluster :=
  ((p now { cluster := c, outside := 0 }).run now).2.1.cluster

/-- A cluster that something has led to: nodes are made, and rehashes prepared; whatever a
crowd may do is done in the company of a crowd; and errands are run. -/
inductive Reached : Cluster → Prop
  | empty : Reached {}
  | start {c : Cluster} (reached : Reached c) (a : Address) (settings : Settings)
      (members : List Address) : Reached (c.start a settings members)
  | prepare {c : Cluster} (reached : Reached c) (id : String) (rehash : Rehash) :
      Reached (c.addRehash id rehash)
  | act {c : Cluster} (reached : Reached c) (self : Serial) (act : Act) (now : Nat)
      (script : Nat → Sending → List Act) (depth : Nat) :
      Reached (c.after (act.carryOut (crowd self script depth) self) now)
  | errand {c : Cluster} (reached : Reached c) (self : Serial) (n : Nat) (errand : Errand)
      (now : Nat) (script : Nat → Sending → List Act) (depth : Nat) :
      Reached (c.after (Rehash.runErrand (crowd self script depth) n errand) now)

variable {c : Cluster}

theorem orderly_after {α : Type} {p : Procedure (World Nat) α} (maintains : p.Maintains Orderly)
    (h : Orderly { cluster := c, outside := 0 : World Nat }) (now : Nat) :
    Orderly { cluster := c.after p now, outside := 0 : World Nat } :=
  maintains.returns standing_orderly.steady h

theorem Reached.orderly (reached : c.Reached) :
    Orderly { cluster := c, outside := 0 : World Nat } := by
  induction reached with
  | empty => exact fun s n there => by cases there
  | start _ a settings members ih => exact ih.start a settings members
  | prepare _ id rehash ih => exact ih
  | act _ self act now script depth ih =>
    have spares := crowd_spares_orderly self script depth
    exact orderly_after (act.maintains standing_orderly spares
      fun other change => Rehash.run_orderly spares other self change) ih now
  | errand _ self n errand now script depth ih =>
    exact orderly_after
      (Rehash.runErrand_orderly (crowd_spares_orderly self script depth) n errand) ih now

theorem Reached.inOrder (reached : c.Reached) {s : Serial} {n : Node}
    (there : c.nodes.get? s = some n) : n.InOrder :=
  reached.orderly s n there

end Cluster

end SlotRing
