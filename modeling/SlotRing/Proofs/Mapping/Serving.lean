/-
# Who serves a key

Under a settled ring the owners of a key serve it.  While ownership moves, the
owners under both rings do, as far as they are members of the ring that the
mapping ends with.
-/
import SlotRing.Cluster.Client
import SlotRing.Proofs.Mapping.Built

namespace SlotRing

namespace Node

variable {n : Node} {key : String}

theorem nodup_serving (built : n.mapping.Built) (key : String) : (n.serving key).Nodup :=
  (built.nodup_writeOwners key n.copies).filter _

theorem mem_serving_iff (built : n.mapping.Built) {a : Address} :
    a ∈ n.serving key ↔
      a ∈ n.mapping.target.members ∧ a ∈ n.mapping.writeOwners key n.copies := by
  rw [serving, List.mem_filter, built.contains_target, and_comm]

theorem mem_serving_settled {ring : MemberRing} (sound : ring.Sound)
    (mapping : n.mapping = .settled ring) {a : Address} :
    a ∈ n.serving key ↔ a ∈ ring.locate key n.copies := by
  rw [serving, mapping, List.mem_filter]
  exact and_iff_left_of_imp fun owner =>
    sound.contains_iff.mpr (sound.mem_members_of_mem_locate owner)

theorem nodup_serving_settled {ring : MemberRing} (sound : ring.Sound)
    (mapping : n.mapping = .settled ring) (key : String) : (n.serving key).Nodup := by
  rw [serving, mapping]
  exact (sound.nodup_locate key _).filter _

theorem mem_serving_moving {old new : MemberRing} (sound : new.Sound)
    (mapping : n.mapping = .moving old new) {a : Address} :
    a ∈ n.serving key ↔
      (a ∈ old.locate key n.copies ∨ a ∈ new.locate key n.copies) ∧ a ∈ new.members := by
  rw [serving, mapping, List.mem_filter]
  exact and_congr mem_appendNew sound.contains_iff

theorem nodup_serving_moving {old new : MemberRing} (sound : old.Sound)
    (mapping : n.mapping = .moving old new) (key : String) : (n.serving key).Nodup := by
  rw [serving, mapping]
  exact (nodup_appendNew (sound.nodup_locate key _)).filter _

end Node

end SlotRing
