/-
# Whom a write reaches

A client's transaction is gathered per recipient, write by write and owner by owner, and
then handed over, recipient by recipient.  What comes of that is said without the two loops
(`write_fans_out`): who the recipients are, which part each of them gets, and what the client
is told, whatever comes back from them and whatever the others do in the meantime.
-/
import Mathlib.Data.List.Sort
import Mathlib.Data.String.Basic
import SlotRing.Proofs.Cluster.Registration
import SlotRing.Proofs.Mapping.Serving
import SlotRing.Proofs.Time.Endings

namespace SlotRing

namespace Node

/-- Keeps a transaction in the log while that is on, and else carries it out. -/
def logOrApply (n : Node) (tx : Transaction) : Node :=
  if n.log.isActive then { n with log := { n.log with pending := n.log.pending ++ [tx] } }
  else { n with store := n.store.writeAll tx.writes }

theorem acceptWrite_eq (n : Node) (tx : Transaction) : n.acceptWrite tx = n.logOrApply tx := by
  rw [acceptWrite, WriteLog.append?, logOrApply]
  cases n.log.isActive <;> rfl

/-- The part of a transaction that a member is to get from a node: the writes that are to
reach it, in their order. -/
def part (n : Node) (tx : Transaction) (a : Address) : Transaction :=
  tx.withWrites (tx.writes.filter fun wr => (n.mapping.writeOwners wr.key n.copies).contains a)

end Node

/-! ## Handing over -/

/-- One handing over: to whom, what, and what came back.  The node itself is not sent a
message, so that nothing comes back from it. -/
structure Delivery where
  recipient : Address
  part : Transaction
  response : Option (Except TransportError Reply)

def isAck : Except TransportError Reply → Bool
  | .ok .ack => true
  | _ => false

/-- Whether a message has been acknowledged; without one there is nothing to
acknowledge. -/
def Delivery.acknowledged (d : Delivery) : Bool := d.response.all isAck

def missed (ds : List Delivery) : List Address :=
  (ds.filter (!·.acknowledged)).map Delivery.recipient

variable {ε : Type}

/-- Deliveries are made one after the other, from a tick and a state to another tick and
state.  `self` is the number of the node that makes them, and `sender` its name. -/
inductive Delivers (around : Surroundings ε) (self : Serial) (sender : Address)
    (timeout : Duration) : Nat → World ε → List Delivery → Nat → World ε → Prop
  | nil {now w} : Delivers around self sender timeout now w [] now w
  /-- The node takes its own part over at once and on the spot. -/
  | own {now w part ds now' w'}
      (rest : Delivers around self sender timeout now
        { w with cluster := w.cluster.updateNode self (·.logOrApply part) } ds now' w') :
      Delivers around self sender timeout now w (⟨sender, part, none⟩ :: ds) now' w'
  /-- Others are sent theirs, and whatever comes back the rest follows. -/
  | sent {now w recipient part response ds now₁ w₁ now' w'} (other : recipient ≠ sender)
      (sends : (sendTo around sender recipient (.write part) timeout).EndsUp now w now₁ w₁
        response)
      (rest : Delivers around self sender timeout now₁ w₁ ds now' w') :
      Delivers around self sender timeout now w (⟨recipient, part, some response⟩ :: ds) now' w'

/-- What the client is told after deliveries. -/
inductive Verdict (ds : List Delivery) : Except TransportError Unit → Prop
  | acknowledged (all : ∀ d ∈ ds, d.acknowledged = true) : Verdict ds (.ok ())
  | unacknowledged {failed : List Address} (some : failed ≠ [])
      (ascending : failed.Pairwise (· < ·))
      (exactly : ∀ a, a ∈ failed ↔ ∃ d ∈ ds, d.recipient = a ∧ d.acknowledged = false) :
      Verdict ds (.error (.missingAcks failed))

section

variable {ds : List Delivery}

theorem mem_missed_iff {a : Address} :
    a ∈ missed ds ↔ ∃ d ∈ ds, d.recipient = a ∧ d.acknowledged = false := by
  simp only [missed, List.mem_map, List.mem_filter, Bool.not_eq_true']
  exact exists_congr fun d => by rw [and_assoc, and_comm (a := d.acknowledged = false)]

theorem missed_eq_nil_iff : missed ds = [] ↔ ∀ d ∈ ds, d.acknowledged = true := by
  simp [missed]

theorem missed_cons (d : Delivery) (ds : List Delivery) :
    missed (d :: ds) = if d.acknowledged then missed ds else d.recipient :: missed ds := by
  cases h : d.acknowledged <;> simp [missed, h]

theorem verdict_iff (ascending : (ds.map Delivery.recipient).Pairwise (· < ·))
    {r : Except TransportError Unit} :
    Verdict ds r ↔
      r = match missed ds with | [] => .ok () | failed => .error (.missingAcks failed) := by
  have sorted : (missed ds).Pairwise (· < ·) :=
    ascending.sublist (List.filter_sublist.map Delivery.recipient)
  constructor
  case mp =>
    rintro (all | ⟨some, sorted', exactly⟩)
    · rw [missed_eq_nil_iff.mpr all]
    · obtain rfl := sorted'.eq_of_mem_iff sorted fun a => (exactly a).trans mem_missed_iff.symm
      split
      · next none => exact absurd none some
      · rfl
  case mpr =>
    rintro rfl
    split
    · next none => exact .acknowledged (missed_eq_nil_iff.mp none)
    · next some => exact .unacknowledged (fun none => some none) sorted fun a => mem_missed_iff

end

/-! ## The loop over the rows -/

def Planned (tx : Transaction) (rows : List (Address × List Write)) (ds : List Delivery) : Prop :=
  ds.map (fun d => (d.recipient, d.part)) = rows.map fun row => (row.1, tx.withWrites row.2)

namespace Planned

variable {tx : Transaction} {rows : List (Address × List Write)} {ds : List Delivery}

theorem cons {owner : Address} {writes : List Write}
    {response : Option (Except TransportError Reply)} (planned : Planned tx rows ds) :
    Planned tx ((owner, writes) :: rows) (⟨owner, tx.withWrites writes, response⟩ :: ds) := by
  rw [Planned, List.map_cons, List.map_cons, planned]

theorem nil_iff (planned : Planned tx rows ds) : ds = [] ↔ rows = [] := by
  rw [← List.map_eq_nil_iff, planned, List.map_eq_nil_iff]

theorem exists_cons {d : Delivery} (planned : Planned tx rows (d :: ds)) :
    ∃ writes rows', rows = (d.recipient, writes) :: rows' ∧ d.part = tx.withWrites writes ∧
      Planned tx rows' ds := by
  obtain ⟨⟨owner, writes⟩, rows', rfl, head, tail⟩ := List.map_eq_cons_iff.mp planned.symm
  obtain ⟨rfl, part⟩ := Prod.mk.inj head
  exact ⟨writes, rows', rfl, part.symm, tail.symm⟩

end Planned

section

variable {around : Surroundings ε} {self : Serial} {sender owner : Address} {timeout : Duration}
  {tx : Transaction} {writes : List Write} {rows : List (Address × List Write)}
  {now now' : Nat} {w w' : World ε}

/-- Whatever comes back from a recipient, the others get theirs. -/
theorem handOut_cons_of_ne (other : owner ≠ sender) :
    Client.handOut around self sender timeout tx ((owner, writes) :: rows) = do
      let response ← sendTo around sender owner (.write (tx.withWrites writes)) timeout
      let failed ← Client.handOut around self sender timeout tx rows
      return if isAck response then failed else owner :: failed := by
  rw [Client.handOut, if_neg other]
  refine congrArg _ (funext fun response => ?_)
  split
  · exact (bind_pure _).symm
  · next unlike => simp only [isAck.eq_2 response unlike, Bool.false_eq_true, if_false]

theorem exists_delivers {failed : List Address}
    (ends : (Client.handOut around self sender timeout tx rows).EndsUp now w now' w' failed) :
    ∃ ds, Delivers around self sender timeout now w ds now' w' ∧ Planned tx rows ds ∧
      failed = missed ds := by
  induction rows generalizing now w failed with
  | nil =>
    obtain ⟨rfl, rfl, rfl⟩ := Procedure.endsUp_pure_iff.mp ends
    exact ⟨[], .nil, rfl, rfl⟩
  | cons row rows ih =>
    obtain ⟨owner, writes⟩ := row
    by_cases same : owner = sender
    · subst same
      rw [Client.handOut, if_pos rfl] at ends
      obtain ⟨_, _, _, taken, rest⟩ := Procedure.endsUp_bind_iff.mp ends
      obtain ⟨rfl, rfl, -⟩ := Procedure.endsUp_modify_iff.mp taken
      obtain ⟨ds, hands, planned, rfl⟩ := ih rest
      simp only [Node.acceptWrite_eq] at hands
      exact ⟨⟨owner, tx.withWrites writes, none⟩ :: ds, .own hands, planned.cons, rfl⟩
    · rw [handOut_cons_of_ne same] at ends
      obtain ⟨_, _, response, sends, ends⟩ := Procedure.endsUp_bind_iff.mp ends
      obtain ⟨_, _, _, rest, last⟩ := Procedure.endsUp_bind_iff.mp ends
      obtain ⟨rfl, rfl, rfl⟩ := Procedure.endsUp_pure_iff.mp last
      obtain ⟨ds, hands, planned, rfl⟩ := ih rest
      refine ⟨⟨owner, tx.withWrites writes, some response⟩ :: ds, .sent same sends hands,
        planned.cons, ?_⟩
      rw [missed_cons]
      rfl

theorem Delivers.endsUp {ds : List Delivery}
    (hands : Delivers around self sender timeout now w ds now' w') (planned : Planned tx rows ds) :
    (Client.handOut around self sender timeout tx rows).EndsUp now w now' w' (missed ds) := by
  induction hands generalizing rows with
  | nil =>
    obtain rfl := planned.nil_iff.mp rfl
    exact .done
  | own rest ih =>
    obtain ⟨writes, rows, rfl, rfl, tail⟩ := planned.exists_cons
    rw [Client.handOut, if_pos rfl]
    refine Procedure.endsUp_bind_iff.mpr ⟨_, _, (), .done, ?_⟩
    simp only [Node.acceptWrite_eq]
    exact ih tail
  | sent other sends rest ih =>
    obtain ⟨writes, rows, rfl, rfl, tail⟩ := planned.exists_cons
    rw [handOut_cons_of_ne other, missed_cons]
    refine Procedure.endsUp_bind_iff.mpr ⟨_, _, _, sends, ?_⟩
    exact Procedure.endsUp_bind_iff.mpr ⟨_, _, _, ih tail, .done⟩

/-- A write comes to the deliveries of its shares, and tells the client who has been
missed. -/
theorem endsUp_write_iff {n : Node} {r : Except TransportError Unit} :
    (Client.write around self n tx).EndsUp now w now' w' r ↔
      ∃ ds, Delivers around self n.address n.settings.rpcTimeout now w ds now' w' ∧
        Planned tx (n.shares tx.writes) ds ∧
        r = match missed ds with | [] => .ok () | failed => .error (.missingAcks failed) := by
  have told (failed : List Address) (s : World ε) (now : Nat) :
      Procedure.EndsUp (match failed with
        | [] => pure (.ok ())
        | failed => pure (.error (.missingAcks failed))) now s now' w' r ↔
        now' = now ∧ w' = s ∧
          r = match failed with | [] => .ok () | failed => .error (.missingAcks failed) := by
    cases failed <;> exact Procedure.endsUp_pure_iff
  rw [Client.write, Procedure.endsUp_bind_iff]
  constructor
  case mp =>
    rintro ⟨_, _, failed, ends, last⟩
    obtain ⟨ds, hands, planned, rfl⟩ := exists_delivers ends
    obtain ⟨rfl, rfl, rfl⟩ := (told _ _ _).mp last
    exact ⟨ds, hands, planned, rfl⟩
  case mpr =>
    rintro ⟨ds, hands, planned, told'⟩
    exact ⟨_, _, _, hands.endsUp planned, (told _ _ _).mpr ⟨rfl, rfl, told'⟩⟩

end

/-! ## Who gets what -/

section

variable {n : Node} {tx : Transaction} {a : Address}

def Node.recipients (n : Node) (tx : Transaction) : List Address :=
  (n.shares tx.writes).map Prod.fst

theorem Node.itemsOf_serving (built : n.mapping.Built) (ws : List Write) :
    itemsOf (ws.flatMap fun wr => (n.serving wr.key).map (·, wr)) a =
      ws.filter fun wr => (n.serving wr.key).contains a :=
  itemsOf_flatMap ws (fun wr => n.serving wr.key) (fun wr _ => n.nodup_serving built wr.key) a

theorem Node.mem_recipients_iff (built : n.mapping.Built) :
    a ∈ n.recipients tx ↔ a ∈ n.mapping.target.members ∧
      ∃ wr ∈ tx.writes, a ∈ n.mapping.writeOwners wr.key n.copies := by
  have row : a ∈ n.recipients tx ↔
      tx.writes.filter (fun wr => (n.serving wr.key).contains a) ≠ [] := by
    rw [recipients, shares, ← itemsOf_serving built]
    constructor
    · rintro mem
      obtain ⟨⟨_, ws⟩, listed, rfl⟩ := List.mem_map.mp mem
      obtain ⟨rfl, some⟩ := mem_perMember_iff.mp listed
      exact some
    · exact fun some => List.mem_map.mpr ⟨(a, _), mem_perMember_iff.mpr ⟨rfl, some⟩, rfl⟩
  rw [row, Ne, List.filter_eq_nil_iff]
  simp only [List.contains_iff_mem, mem_serving_iff built]
  constructor
  · intro some
    by_contra none
    exact some fun wr mem owner => none ⟨owner.1, wr, mem, owner.2⟩
  · rintro ⟨member, wr, mem, owner⟩ none
    exact none wr mem ⟨member, owner⟩

theorem Node.shares_eq (built : n.mapping.Built) :
    n.shares tx.writes = (n.recipients tx).map fun a =>
      (a, tx.writes.filter fun wr => (n.mapping.writeOwners wr.key n.copies).contains a) := by
  refine (map_fst_perMember _).symm.trans (List.map_congr_left fun a mem => ?_)
  obtain ⟨member, -⟩ := (mem_recipients_iff built).mp mem
  rw [itemsOf_serving built]
  refine congrArg _ (List.filter_congr fun wr _ => Bool.eq_iff_iff.mpr ?_)
  rw [List.contains_iff_mem, List.contains_iff_mem, mem_serving_iff built, and_iff_right member]

/-- Deliveries that are planned for a transaction go to its recipients, each of which gets
what it is to get. -/
theorem planned_shares_iff (built : n.mapping.Built) {ds : List Delivery} :
    Planned tx (n.shares tx.writes) ds ↔
      ds.map (fun d => (d.recipient, d.part)) = (n.recipients tx).map fun a =>
        (a, n.part tx a) := by
  rw [Planned, Node.shares_eq built, List.map_map]
  rfl

end

/-- A write reaches the members of the ring that the mapping ends with which are to be
written to for at least one of its keys, in order.  Each of them is handed one part of the
transaction, once: the writes that are to reach it, as they were ordered, under the same
identity.  The node's own part goes into its log or its store, and the others are sent a
message each, whatever has come back from those before.  The client is told that all is
well if everybody who was sent one has acknowledged it, and else exactly who has not.  That
holds however the procedure goes on after its stops, and on its own it ends. -/
theorem write_fans_out {ε : Type} {n : Node} (built : n.mapping.Built) (tx : Transaction) :
    ∃ recipients : List Address, recipients.Pairwise (· < ·) ∧
      (∀ a, a ∈ recipients ↔ a ∈ n.mapping.target.members ∧
        ∃ wr ∈ tx.writes, a ∈ n.mapping.writeOwners wr.key n.copies) ∧
      ∀ (around : Surroundings ε) (self : Serial) (now : Nat) (w : World ε),
        (∃ now' w' r, ((Client.write around self n tx) now w).run now = (now', w', r) ∧
          (Client.write around self n tx).EndsUp now w now' w' r) ∧
        ∀ now' w' r, (Client.write around self n tx).EndsUp now w now' w' r ↔
          ∃ ds, Delivers around self n.address n.settings.rpcTimeout now w ds now' w' ∧
            ds.map (fun d => (d.recipient, d.part)) = recipients.map (fun a => (a, n.part tx a)) ∧
            Verdict ds r := by
  have ascending : (n.recipients tx).Pairwise (· < ·) := ascending_perMember _
  refine ⟨n.recipients tx, ascending, fun a => Node.mem_recipients_iff built,
    fun around self now w => ⟨⟨_, _, _, rfl, Task.endsUp_run _ now⟩, fun now' w' r => ?_⟩⟩
  rw [endsUp_write_iff]
  refine exists_congr fun ds => and_congr_right fun _ => ?_
  rw [planned_shares_iff built]
  refine and_congr_right fun planned => (verdict_iff ?_).symm
  have recipients := congrArg (List.map Prod.fst) planned
  rw [List.map_map, List.map_map] at recipients
  rw [show ds.map Delivery.recipient = n.recipients tx from recipients.trans (List.map_id _)]
  exact ascending

/-- "A" on its way from `old` to `new`, under settings by which each key has one owner. -/
def departing (old new : MemberRing) : Node :=
  { Node.made "A" { owners := 1 } .sip24 old with accepted := .initial (.moving old new) }

/-- The node "A", and nobody whom it could reach. -/
def secluded (n : Node) : World Unit :=
  { cluster := ({} : Cluster).addNode "A" n, outside := () }

/-- When "D" leaves "A" and "C", its key `k31` goes to "A", and `k0` stays with "C". -/
theorem exists_departing :
    ∃ old new : MemberRing, Mapping.Built (.moving old new) ∧ new.members = ["A", "C"] ∧
      (departing old new).mapping.writeOwners "k0" (departing old new).copies = ["C"] ∧
      (departing old new).mapping.writeOwners "k31" (departing old new).copies = ["D", "A"] := by
  have room : ["A", "C", "D"].length ≤ ringSize := by decide
  obtain ⟨old, builtOld⟩ := Ring.exists_ofMembers Strategy.sip24 room
  obtain ⟨new, builtNew⟩ := Ring.exists_ofMembers_of_subset builtOld
    (show ∀ m ∈ ["A", "C"], m ∈ ["A", "C", "D"] by decide)
  have members : new.members = ["A", "C"] :=
    Ring.apply_eq_of_ofMembers builtNew (·.members) (by decide +kernel)
  have owners : (old.locate "k0" 1, old.locate "k31" 1) = (["C"], ["D"]) :=
    Ring.apply_eq_of_ofMembers builtOld (fun r => (r.locate "k0" 1, r.locate "k31" 1))
      (by decide +kernel)
  have owners' : (new.locate "k0" 1, new.locate "k31" 1) = (["C"], ["A"]) :=
    Ring.apply_eq_of_ofMembers builtNew (fun r => (r.locate "k0" 1, r.locate "k31" 1))
      (by decide +kernel)
  refine ⟨old, new, .moving builtOld builtNew, members, ?_, ?_⟩
  · show appendNew (old.locate "k0" 1) (new.locate "k0" 1) = _
    rw [(Prod.mk.inj owners).1, (Prod.mk.inj owners').1]
    rfl
  · show appendNew (old.locate "k31" 1) (new.locate "k31" 1) = _
    rw [(Prod.mk.inj owners).2, (Prod.mk.inj owners').2]
    rfl

/-- "D" has left.  Of three writes "A" carries out the one of the key that it gains from "D",
and "C", which cannot be reached, is sent the other two. -/
theorem write_fans_out_of_departure :
    let tx : Transaction := ⟨some 7, [.put "k0" [1], .put "k31" [2], .remove "k0"]⟩
    ∃ (old new : MemberRing) (n : Node), n.mapping = .moving old new ∧ n.mapping.Built ∧
      n.address = "A" ∧ n.mapping.writeOwners "k0" n.copies = ["C"] ∧
      n.mapping.writeOwners "k31" n.copies = ["D", "A"] ∧
      ∃ w w' : World Unit, w.cluster.nodes.get? 0 = some n ∧
        Delivers .quiet 0 "A" n.settings.rpcTimeout 0 w
          [⟨"A", ⟨some 7, [.put "k31" [2]]⟩, none⟩,
            ⟨"C", ⟨some 7, [.put "k0" [1], .remove "k0"]⟩, some (.error (.unreachable "C"))⟩]
          0 w' ∧
        (w'.cluster.nodes.get? 0).bind (·.store.get? "k31") = some ⟨"k31", [2], 1⟩ ∧
        (Client.write .quiet 0 n tx).EndsUp 0 w 0 w' (.error (.missingAcks ["C"])) := by
  intro tx
  obtain ⟨old, new, built, members, first, second⟩ := exists_departing
  obtain ⟨recipients, ascending, mem, ends⟩ :=
    write_fans_out (ε := Unit) (n := departing old new) built tx
  obtain rfl : recipients = ["A", "C"] := by
    refine ascending.eq_of_mem_iff (by decide) fun a => (mem a).trans ?_
    show a ∈ new.members ∧ _ ↔ _
    rw [members]
    refine and_iff_left_of_imp fun member => ?_
    rcases List.mem_pair.mp member with rfl | rfl
    · exact ⟨.put "k31" [2], by decide, by rw [Write.key, second]; decide⟩
    · exact ⟨.put "k0" [1], by decide, by rw [Write.key, first]; decide⟩
  have delivers : Delivers .quiet 0 "A" (departing old new).settings.rpcTimeout 0
      (secluded (departing old new))
      [⟨"A", ⟨some 7, [.put "k31" [2]]⟩, none⟩,
        ⟨"C", ⟨some 7, [.put "k0" [1], .remove "k0"]⟩, some (.error (.unreachable "C"))⟩] 0 _ :=
    .own (.sent (by decide) .done .nil)
  have stored : (Store.empty.writeAll [.put "k31" [2]]).get? "k31" = some ⟨"k31", [2], 1⟩ := by
    decide +kernel
  refine ⟨old, new, departing old new, rfl, built, rfl, first, second, secluded _, _, rfl, delivers,
    stored, ((ends .quiet 0 0 _).2 _ _ _).mpr ⟨_, delivers, ?_, ?_⟩⟩
  · simp only [tx, Node.part, List.map_cons, List.map_nil, List.filter_cons, List.filter_nil,
      Write.key, first, second]
    decide
  · exact (verdict_iff (by decide)).mpr rfl

end SlotRing
