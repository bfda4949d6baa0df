/-
# Nodes in order

A node whose log is closed has nothing in it, and comes from no ring: that is how nodes
are made, and whatever is done to a node leaves it so (`Node.InOrder`).  A log that is
on does not matter, and nothing but a rehash turns one on or off.
-/
import SlotRing.Proofs.Cluster.Bustle
import SlotRing.Proofs.Cluster.Registration

namespace SlotRing

namespace Node

/-- While the log of the node is closed, nothing is in it and the node comes from
nowhere. -/
def InOrder (n : Node) : Prop :=
  n.log.state = .disabled → n.log = .closed ∧ n.movingFrom = none

variable {n n' : Node}

theorem inOrder_create {a : Address} {settings : Settings} {members : List Address}
    (created : Node.create a settings members = .ok n) : n.InOrder := by
  obtain ⟨-, strategy, ring, -, -, rfl⟩ := Node.create_eq_ok_iff.mp created
  exact fun _ => ⟨rfl, rfl⟩

theorem stance_shut (shut : n.log.state = .disabled) : n.stance.shut = some n.log := by
  simp [stance, WriteLog.isActive, shut]

theorem log_of_stance {log : WriteLog} (shut : n.stance.shut = some log) : n.log = log := by
  rw [stance] at shut
  dsimp only at shut
  split at shut
  · cases shut
  · exact Option.some.inj shut

theorem state_ne_of_stance (on : n.stance.shut = none) : n.log.state ≠ .disabled := by
  intro shut
  rw [stance_shut shut] at on
  cases on

namespace InOrder

/-- Whatever leaves a node as it stands leaves it in order. -/
theorem congr (h : n.InOrder) (same : n'.stance = n.stance) : n'.InOrder := by
  intro shut
  have both := (congrArg Stance.shut same).symm.trans (stance_shut shut)
  have was : n.log = n'.log := log_of_stance both
  obtain ⟨closed, still⟩ := h (was ▸ shut)
  exact ⟨was ▸ closed, (congrArg Stance.movingFrom same).trans still⟩

theorem beginTransition {old : MemberRing} (opened : n.beginTransition? old = some n') :
    n'.InOrder := by
  obtain ⟨log, enabled, rfl⟩ := Option.map_eq_some_iff.mp opened
  intro shut
  rw [WriteLog.enable?] at enabled
  split at enabled
  · cases enabled
    cases shut
  · cases enabled

theorem finishTransition (h : n.InOrder) : n.finishTransition.InOrder := by
  intro shut
  by_cases closed : n.log.state = .disabled
  · have idle : n.finishTransition = { n with movingFrom := none } := by
      simp [Node.finishTransition, WriteLog.drain, WriteLog.isActive, closed]
    rw [idle]
    exact ⟨(h closed).1, rfl⟩
  · rw [Rehash.finishTransition_eq closed]
    exact ⟨rfl, rfl⟩

theorem abortTransition (n : Node) : n.abortTransition.InOrder := fun _ => ⟨rfl, rfl⟩

end InOrder

end Node

variable {ε : Type} {w : World ε}

/-- All nodes of the cluster are in order. -/
def Orderly (w : World ε) : Prop :=
  ∀ s n, w.cluster.nodes.get? s = some n → n.InOrder

theorem Orderly.updateNode (h : Orderly w) {s : Serial} {f : Node → Node}
    (kept : ∀ n, w.cluster.nodes.get? s = some n → n.InOrder → (f n).InOrder) :
    Orderly { w with cluster := w.cluster.updateNode s f } := by
  intro s' n there
  change (w.cluster.nodes.update s f).get? s' = some n at there
  by_cases same : s = s'
  · subst same
    rw [Roster.get?_update_self] at there
    obtain ⟨m, was, rfl⟩ := Option.map_eq_some_iff.mp there
    exact kept m was (h s m was)
  · rw [Roster.get?_update_of_ne _ same] at there
    exact h s' n there

theorem Orderly.start (h : Orderly w) (a : Address) (settings : Settings)
    (members : List Address) :
    Orderly { w with cluster := w.cluster.start a settings members } := by
  intro s n there
  unfold Cluster.start at there
  split at there
  · next node created =>
    have nodes : (w.cluster.enrol a node).nodes = w.cluster.nodes.add a node := by
      unfold Cluster.enrol Cluster.register
      split <;> rfl
    change (w.cluster.enrol a node).nodes.get? s = some n at there
    rw [nodes] at there
    rcases Roster.get?_add_eq_some_iff.mp there with ⟨-, rfl⟩ | before
    · exact Node.inOrder_create created
    · exact h s n before
  · exact h s n there

theorem standing_orderly : Standing (Orderly (ε := ε)) where
  steady _ _ h := h
  approached h _ := h
  weather h _ := h
  outside h _ := h
  node h _ _ kept := h.updateNode fun n there inOrder => inOrder.congr (kept n there)

end SlotRing
