/-
# Mappings of rings that could be built

What a node goes by is a ring that could be built, or the move from one such ring to
another.  Whoever is read from is written to, and behind those come the owners that find no
room among the copies any more (`surplus`): they are the difference between the two lists
(`Built.writeOwners_eq`).
-/
import SlotRing.Proofs.Mapping.Gained

namespace SlotRing.Mapping

variable {η α κ : Type} [Ord α] [Std.TransOrd α] [HashWith η α]

/-- A ring that could be built, or the move from one such ring to another. -/
inductive Built : Mapping η α → Prop
  | settled {hasher : η} {ms : List α} {ring : Ring η α}
      (built : Ring.ofMembers hasher ms = .ok ring) : Built (.settled ring)
  | moving {hasher hasher' : η} {ms ms' : List α} {old new : Ring η α}
      (builtOld : Ring.ofMembers hasher ms = .ok old)
      (builtNew : Ring.ofMembers hasher' ms' = .ok new) : Built (.moving old new)

theorem Built.contains_target [Std.LawfulEqOrd α] {mapping : Mapping η α}
    (built : mapping.Built) {m : α} :
    mapping.target.contains m = true ↔ m ∈ mapping.target.members := by
  cases built with
  | settled built => exact (Ring.sound_ofMembers built).contains_iff
  | moving _ builtNew => exact (Ring.sound_ofMembers builtNew).contains_iff

variable [BEq α] [HashWith η κ]

/-- The owners to come that are written to and not read from, since owners before them are
as many as there are copies. -/
def surplus (mapping : Mapping η α) (key : κ) (count : Nat) : List α :=
  match mapping with
  | .settled _ => []
  | .moving old new => (old.gainedOwners new key count).drop (count - old.size)

variable [Std.LawfulEqOrd α] [LawfulBEq α] {mapping : Mapping η α}

/-- Writes reach those that are read from, and the surplus behind them. -/
theorem Built.writeOwners_eq (built : mapping.Built) (key : κ) (count : Nat) :
    mapping.writeOwners key count = mapping.locate key count ++ mapping.surplus key count := by
  cases built with
  | settled => exact (List.append_nil _).symm
  | moving builtOld builtNew =>
    have soundOld := Ring.sound_ofMembers builtOld
    have soundNew := Ring.sound_ofMembers builtNew
    rw [writeOwners_moving_eq soundNew, locate_moving_eq soundOld soundNew, surplus,
      List.append_assoc, List.take_append_drop]

theorem Built.nodup_writeOwners (built : mapping.Built) (key : κ) (count : Nat) :
    (mapping.writeOwners key count).Nodup := by
  cases built with
  | settled built => exact (Ring.sound_ofMembers built).nodup_locate key count
  | moving builtOld _ =>
    exact nodup_appendNew ((Ring.sound_ofMembers builtOld).nodup_locate key count)

theorem Built.mem_surplus_iff (built : mapping.Built) {m : α} {key : κ} {count : Nat} :
    m ∈ mapping.surplus key count ↔
      m ∈ mapping.writeOwners key count ∧ m ∉ mapping.locate key count := by
  have distinct := built.nodup_writeOwners key count
  rw [built.writeOwners_eq] at distinct ⊢
  have apart := (List.nodup_append.mp distinct).2.2
  rw [List.mem_append]
  constructor
  · exact fun mem => ⟨.inr mem, fun read => apart m read m mem rfl⟩
  · exact fun ⟨written, unread⟩ => written.resolve_left unread

end SlotRing.Mapping
