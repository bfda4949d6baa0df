/-
# Answers with writes that are pending

While its log is open, a node answers for a key with what stands in its store and the
writes of the key that wait in the log.  It takes these one by one, and the drain replays
whole transactions on the live and the removed keys; the values come to the same all the
same, and the versions do where no put finds its key removed (`logging_node_foresees`).
-/
import SlotRing.Proofs.Cluster.Accounts
import SlotRing.Proofs.Cluster.Reads
import SlotRing.Proofs.Cluster.Registration
import SlotRing.Proofs.Rehash.Steps
import SlotRing.Proofs.Store.Omissions

namespace SlotRing

variable {key : String}

/-- No put of the key comes after a remove of it. -/
def Unrevived (key : String) (ws : List Write) : Prop :=
  ws.Pairwise fun w later => w = .remove key → later.puts key = false

instance (key : String) (ws : List Write) : Decidable (Unrevived key ws) :=
  inferInstanceAs (Decidable (List.Pairwise _ ws))

/-- A put on top of what is live has the version of the put in the store, as long as the
key has not been removed. -/
theorem overlay_put {s : Store} (unremoved : s.removed? key = none) (value : List UInt8) :
    Node.overlay (s.get? key) (.put key value) = (s.write (.put key value)).get? key := by
  have next : ((s.get? key).map (·.version + 1)).getD 1 = s.nextVersion key := by
    rw [Store.nextVersion, Store.version?, unremoved]
    cases s.get? key <;> rfl
  rw [Store.get?_put, if_pos rfl, ← next]
  rfl

theorem foldl_overlay_eq_get? {s : Store} {ws : List Write} (unremoved : s.removed? key = none)
    (unrevived : Unrevived key ws) :
    (ws.filter (·.key == key)).foldl Node.overlay (s.get? key) = (s.writeAll ws).get? key := by
  induction ws generalizing s with
  | nil => rfl
  | cons w ws ih =>
    obtain ⟨after, rest⟩ := List.pairwise_cons.mp unrevived
    show _ = ((s.write w).writeAll ws).get? key
    by_cases own : w.key = key
    · rw [List.filter_cons_of_pos (by simpa using own), List.foldl_cons]
      cases w with
      | put written value =>
        obtain rfl : written = key := own
        rw [overlay_put unremoved]
        exact ih ((Store.removed?_insert s _ written).trans (if_pos rfl)) rest
      | remove removed =>
        obtain rfl : removed = key := own
        -- nothing is put any more, so that there is no value in the end, here and there
        have unput : ∀ w ∈ ws, w.puts removed = false := fun w mem => after w mem rfl
        have laid : ((ws.filter (·.key == removed)).foldl Node.overlay none).map Entry.value =
            none :=
          (map_value_foldl_overlay_filter removed ws none).trans (valueAfter_of_unput unput)
        have stored : ((s.write (.remove removed)).writeAll ws).value? removed = none := by
          rw [Store.value?_writeAll, Store.value?, Store.get?_remove, if_pos rfl]
          exact valueAfter_of_unput unput
        exact (Option.map_eq_none_iff.mp laid).trans (Option.map_eq_none_iff.mp stored).symm
    · rw [List.filter_cons_of_neg (by simpa using own)]
      have same := Store.sameAt_write (s := s) own
      rw [← same.1]
      exact ih (same.2.trans unremoved) rest

namespace Node

variable {n : Node}

/-- While a node logs, it answers for a key with the value that its store will hold once the
transactions in its log have been replayed.  The version is the same, too, if the key is not
a removed one and is not put again after it was removed. -/
theorem logging_node_foresees (opened : n.log.isActive = true) (txs : List Transaction)
    (key : String) :
    let m := n.acceptAll txs
    (m.log.pending = n.log.pending ++ txs ∧ m.store = n.store) ∧
      (m.localEntry key).map Entry.value =
        (m.finishTransition.store.get? key).map Entry.value ∧
      (m.store.removed? key = none →
        Unrevived key (m.log.pending.flatMap (·.writes)) →
        m.localEntry key = m.finishTransition.store.get? key) := by
  intro m
  have opened : n.log.state ≠ .disabled := by simpa [WriteLog.isActive] using opened
  have accepted : m = { n with log := { n.log with pending := n.log.pending ++ txs } } :=
    acceptAll_of_open opened txs
  have opened : m.log.state ≠ .disabled := by rw [accepted]; exact opened
  rw [Rehash.finishTransition_eq opened, localEntry_of_open opened]
  refine ⟨⟨by rw [accepted], by rw [accepted]⟩, ?value, foldl_overlay_eq_get?⟩
  case value =>
    exact (map_value_foldl_overlay_filter key _ _).trans (Store.value?_writeAll _).symm

/-- "k" is put twice and found with its version; "j" has been removed at version 1, so that a
put of it counts on from there in the store, and begins anew in the answer. -/
theorem logging_node_foresees_of_removed :
    let n : Node :=
      { Node.made "A" {} .sip24 (Ring.ofPositions .sip24 ∅) with
        log := ⟨.enabled, []⟩
        store := Store.empty.writeAll [.put "k" [1], .put "j" [1], .remove "j"] }
    let txs : List Transaction := [⟨some 7, [.put "k" [2], .put "j" [3]]⟩, .single (.put "k" [4])]
    let m := n.acceptAll txs
    (n.log.isActive = true ∧ m.store.removed? "k" = none ∧
        Unrevived "k" (m.log.pending.flatMap (·.writes))) ∧
      (m.localEntry "k" = some ⟨"k", [4], 3⟩ ∧
        m.finishTransition.store.get? "k" = some ⟨"k", [4], 3⟩) ∧
      m.localEntry "j" = some ⟨"j", [3], 1⟩ ∧
      m.finishTransition.store.get? "j" = some ⟨"j", [3], 2⟩ ∧
      (m.localEntry "j").map Entry.value = (m.finishTransition.store.get? "j").map Entry.value := by
  intro n txs m
  have opened : n.log.isActive = true := rfl
  have unremoved : m.store.removed? "k" = none := by decide +kernel
  have unrevived : Unrevived "k" (m.log.pending.flatMap (·.writes)) := by decide +kernel
  obtain ⟨-, -, same⟩ := logging_node_foresees opened txs "k"
  obtain ⟨-, value, -⟩ := logging_node_foresees opened txs "j"
  have answered : m.localEntry "k" = some ⟨"k", [4], 3⟩ := by decide +kernel
  exact ⟨⟨opened, unremoved, unrevived⟩, ⟨answered, (same unremoved unrevived).symm.trans answered⟩,
    by decide +kernel, by decide +kernel, value⟩

end Node

end SlotRing
