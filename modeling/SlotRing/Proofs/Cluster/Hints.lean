/-
# Hints that come late

A hint names copies that were stale when it was sent.  When it comes, the next rehash may
be on its way, and the receiver may have been given some of these keys anew: whoever gains
a key is written to and pushed to from the moment the move begins.  The receiver drops what
it is not read for under the mapping it goes by then, and that is less than what it is
written for.  What it has got of the surplus is lost (`hint_spares_writers_iff`); of
everything else a hint leaves what it should.
-/
import SlotRing.Proofs.Cluster.Registration
import SlotRing.Proofs.Mapping.Built
import SlotRing.Proofs.Rehash.Errands
import SlotRing.Scenario.Run

namespace SlotRing

namespace Node

variable {n : Node}

/-- To drop an entry that is not to be read and to drop one that is not to be written come to
the same, but for what is there of the surplus. -/
theorem dropped_alike_iff (built : n.mapping.Built) {key : String} (listed : Prop)
    [Decidable listed] (e : Option Entry) :
    ((if listed ∧ n.address ∉ n.mapping.locate key n.copies then none else e) =
        if listed ∧ n.address ∉ n.mapping.writeOwners key n.copies then none else e) ↔
      (listed → e.isSome → n.address ∉ n.mapping.surplus key n.copies) := by
  by_cases surplus : n.address ∈ n.mapping.surplus key n.copies
  case pos =>
    obtain ⟨written, unread⟩ := built.mem_surplus_iff.mp surplus
    by_cases named : listed
    · cases e <;> simp [named, unread, written, surplus]
    · simp [named]
  case neg =>
    have same : n.address ∉ n.mapping.locate key n.copies ↔
        n.address ∉ n.mapping.writeOwners key n.copies := by
      rw [built.writeOwners_eq, List.mem_append, or_iff_left surplus]
    simp only [same]
    exact iff_of_true trivial fun _ _ => surplus

/-- A hint is acknowledged whoever sends it, and drops nothing but live entries of keys that
it names: those of which the node is not to be read.  These are the ones of which the node
is not written to either, if and only if it holds none of the named keys for which it is one
of the surplus. -/
theorem hint_spares_writers_iff (built : n.mapping.Built) (keys : List String) :
    let hinted := (n.handle (.invalidateHint keys)).1
    (n.handle (.invalidateHint keys)).2 = .ack ∧
      hinted = { n with store := hinted.store } ∧
      (∀ key, hinted.store.removed? key = n.store.removed? key) ∧
      (∀ key, hinted.store.get? key =
        if key ∈ keys ∧ n.address ∉ n.mapping.locate key n.copies then none
        else n.store.get? key) ∧
      ((∀ key, hinted.store.get? key =
          if key ∈ keys ∧ n.address ∉ n.mapping.writeOwners key n.copies then none
          else n.store.get? key) ↔
        ∀ key ∈ keys, (n.store.get? key).isSome →
          n.address ∉ n.mapping.surplus key n.copies) := by
  have left (key : String) : (n.invalidate keys).store.get? key =
      if key ∈ keys ∧ n.address ∉ n.mapping.locate key n.copies then none
      else n.store.get? key := by
    simp only [get?_invalidate, isOwner_eq_false_iff]
  refine ⟨rfl, rfl, removed?_invalidate n keys, left, forall_congr' fun key => ?_⟩
  show (n.invalidate keys).store.get? key = _ ↔ _
  rw [left]
  exact dropped_alike_iff built _ _

/-- While "D" comes to be an owner of "k0" beside "C", it holds what it has been given of
that key, and loses it to a hint. -/
theorem hint_spares_writers_iff_of_newcomer :
    ∃ (old new : MemberRing) (n : Node), n.mapping = .moving old new ∧ n.mapping.Built ∧
      n.address = "D" ∧ n.mapping.writeOwners "k0" n.copies = ["C", "A", "D"] ∧
      n.mapping.surplus "k0" n.copies = ["D"] ∧
      n.store.get? "k0" = some ⟨"k0", [1], 1⟩ ∧
      (n.handle (.invalidateHint ["k1", "k0", "k0"])).2 = .ack ∧
      (n.handle (.invalidateHint ["k1", "k0", "k0"])).1.store.get? "k0" = none := by
  have room : ["A", "C", "D"].length ≤ ringSize := by decide
  obtain ⟨new, builtNew⟩ := Ring.exists_ofMembers Strategy.sip24 room
  obtain ⟨old, builtOld⟩ := Ring.exists_ofMembers_of_subset builtNew
    (show ∀ m ∈ ["A", "C"], m ∈ ["A", "C", "D"] by decide)
  have built : Mapping.Built (.moving old new) := .moving builtOld builtNew
  have read : old.locate "k0" 2 = ["C", "A"] :=
    Ring.apply_eq_of_ofMembers builtOld (·.locate "k0" 2) (by decide +kernel)
  have readNew : new.locate "k0" 2 = ["C", "D"] :=
    Ring.apply_eq_of_ofMembers builtNew (·.locate "k0" 2) (by decide +kernel)
  have size : old.size = 2 := Ring.apply_eq_of_ofMembers builtOld (·.size) (by decide +kernel)
  let n : Node := { Node.made "D" {} .sip24 old with
    accepted := .initial (.moving old new), store := Store.empty.insert ⟨"k0", [1], 1⟩ }
  have written : n.mapping.writeOwners "k0" n.copies = ["C", "A", "D"] := by
    show appendNew (old.locate "k0" 2) (new.locate "k0" 2) = _
    rw [read, readNew]
    rfl
  have surplus : n.mapping.surplus "k0" n.copies = ["D"] := by
    show (lost (new.locate "k0" 2) (old.locate "k0" 2)).drop (2 - old.size) = _
    rw [read, readNew, size]
    rfl
  obtain ⟨acknowledged, -, -, left, -⟩ :=
    hint_spares_writers_iff (n := n) built ["k1", "k0", "k0"]
  have unread : n.address ∉ n.mapping.locate "k0" n.copies :=
    (built.mem_surplus_iff.mp (surplus ▸ List.mem_singleton_self "D")).2
  refine ⟨old, new, n, rfl, built, rfl, written, surplus, ?_, acknowledged, ?_⟩
  · rw [Store.get?_insert, if_pos rfl]
  · rw [left, if_pos ⟨by decide, unread⟩]

end Node

/-- "D" has left, and "C" has handed "k0" over to "A", which becomes an owner of it; then a
hint comes that "D" sent when it had got "k0" from "A". -/
def lateHint : List Scenario.Step :=
  let members := ["A", "C", "D"]
  [.node "A" members {} true, .node "C" members {} true, .node "D" members {} true,
    .put "A" "k0" [1], .unregister "D", .leave "C" "D" "of C",
    .hook (some "C") (some "A") .installMapping 2
      [.store "A" (.get "k0"), .handle "A" "D" (.ok (.invalidateHint ["k0"])),
        .store "A" (.get "k0")],
    .run "of C", .ask "A" "k0", .store "A" (.get "k0")]

theorem handed_copy_lost_to_late_hint :
    (Scenario.run lateHint).flatMap (fun answer => answer.events.filterMap fun event =>
        match event.2 with
        | .hooked _ (.store (.entry e)) => some e
        | _ => none) = [some ⟨"k0", [1], 1⟩, none] ∧
      (Scenario.run lateHint).filterMap (fun answer =>
        match answer.outcome with
        | .key owner _ _ => some owner
        | .store (.entry e) => some e.isSome
        | _ => none) = [true, false] := by
  decide +kernel

end SlotRing
