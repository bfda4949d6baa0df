/-
# What a client's write does

The members that serve a key are the recipients of its writes.  A transaction
comes down to what each of them makes of its own share of it (`spread`), and the
client is told that all went well exactly when every recipient is a member
(`write_ends`).
-/
import SlotRing.Cluster.Client
import SlotRing.Proofs.Cluster.Hosting
import SlotRing.Proofs.Store.Values

namespace SlotRing

def share (serving : String → List Address) (tx : Transaction) (a : Address) : List Write :=
  tx.writes.filter fun w => (serving w.key).contains a

/-- The nodes after each of them has taken over its share of a transaction. -/
def spread (serving : String → List Address) (tx : Transaction) (nodes : Address → Node) :
    Address → Node :=
  fun a =>
    if share serving tx a = [] then nodes a
    else (nodes a).acceptWrite (tx.withWrites (share serving tx a))

section

variable {serving : String → List Address} {tx : Transaction} {nodes : Address → Node}
  {a : Address} {key : String}

theorem ne_of_mem_share (other : a ∉ serving key) {w : Write} (h : w ∈ share serving tx a) :
    w.key ≠ key := by
  rintro rfl
  exact other (List.contains_iff_mem.mp (List.mem_filter.mp h).2)

theorem valueAfter_share (initial : Option (List UInt8)) :
    valueAfter (share serving tx a) key initial =
      if a ∈ serving key then valueAfter tx.writes key initial else initial := by
  split
  · next serves =>
    exact valueAfter_filter fun w _ same => List.contains_iff_mem.mpr (same ▸ serves)
  · next other => exact valueAfter_of_untouched fun w hw => ne_of_mem_share other hw

theorem share_eq_nil (other : ∀ key, a ∉ serving key) : share serving tx a = [] := by
  rw [share, List.filter_eq_nil_iff]
  exact fun w _ => by simpa using other w.key

theorem spread_of_closed (closed : (nodes a).log.state = .disabled) :
    spread serving tx nodes a =
      { nodes a with store := (nodes a).store.writeAll (share serving tx a) } := by
  rw [spread]
  split
  · next none => rw [none]; rfl
  · rw [Node.acceptWrite, (WriteLog.append?_eq_none_iff _ _).mpr closed]
    rfl

theorem spread_of_open (serving : String → List Address) (tx : Transaction)
    (opened : (nodes a).log.state ≠ .disabled) :
    ∃ kept, kept.flatMap (·.writes) = share serving tx a ∧
      spread serving tx nodes a =
        { nodes a with
          log := { (nodes a).log with pending := (nodes a).log.pending ++ kept } } := by
  rw [spread]
  split
  · next none => exact ⟨[], none.symm, by rw [List.append_nil]⟩
  · have active : (nodes a).log.isActive = true := by simpa [WriteLog.isActive] using opened
    refine ⟨[tx.withWrites (share serving tx a)], by simp [Transaction.withWrites], ?_⟩
    rw [Node.acceptWrite, WriteLog.append?, if_pos active]

theorem value?_spread (closed : (nodes a).log.state = .disabled) :
    (spread serving tx nodes a).store.value? key =
      if a ∈ serving key then valueAfter tx.writes key ((nodes a).store.value? key)
      else (nodes a).store.value? key := by
  rw [spread_of_closed closed]
  exact (Store.value?_writeAll _).trans (valueAfter_share _)

theorem spread_of_not_serving (other : ∀ key, a ∉ serving key) :
    spread serving tx nodes a = nodes a := by
  rw [spread, if_pos (share_eq_nil other)]

end

section

variable {ε : Type} {who : Census} {w : World ε} {now : Nat} {nodes : Address → Node}

theorem sendTo_quiet_ends (hosts : w.cluster.Hosts who nodes) {sender target : Address}
    (mem : target ∈ who.members) (command : Command) (timeout : Duration) :
    (sendTo .quiet sender target command timeout).Ends now w fun w' r =>
      r = .ok ((nodes target).handle command).2 ∧
      w'.cluster.Hosts who (heeding command [target] nodes) ∧ w'.outside = w.outside := by
  refine (sendTo_ends Surroundings.silent_quiet mem (Q := fun ns o reply =>
    ns = heeding command [target] nodes ∧ o = w.outside ∧
      reply = ((nodes target).handle command).2)
    (P := fun ns o => ns = nodes ∧ o = w.outside) ⟨nodes, hosts, rfl, rfl⟩
    (Surroundings.leads_quiet ?_)).mono ?_
  · rintro ns o ⟨rfl, rfl⟩
    exact ⟨rfl, rfl, rfl⟩
  · rintro w' r ⟨reply, rfl, ns, hosts', rfl, outside, rfl⟩
    exact ⟨rfl, hosts', outside⟩

/-- The nodes after each recipient has taken over what stands in its row. -/
def handed (tx : Transaction) (rows : List (Address × List Write)) (nodes : Address → Node) :
    Address → Node :=
  fun a =>
    match rows.lookup a with
    | none => nodes a
    | some ws => (nodes a).acceptWrite (tx.withWrites ws)

theorem handed_cons {tx : Transaction} {rows : List (Address × List Write)} {owner : Address}
    {ws : List Write} (absent : owner ∉ rows.map Prod.fst) {nodes nodes' : Address → Node}
    {a : Address} (step : nodes' a =
      if a = owner then (nodes a).acceptWrite (tx.withWrites ws) else nodes a) :
    handed tx ((owner, ws) :: rows) nodes a = handed tx rows nodes' a := by
  by_cases same : a = owner
  · subst same
    have unlisted : rows.lookup a = none := by
      rw [List.lookup_eq_none_iff]
      exact fun row hrow => by
        simpa using fun same : a = row.1 => absent (same ▸ List.mem_map.mpr ⟨row, hrow, rfl⟩)
    simp only [handed, List.lookup_cons, beq_self_eq_true, unlisted, step, if_true]
  · have other : (a == owner) = false := by simpa using same
    simp only [handed, List.lookup_cons, other, step, if_neg same]

theorem Node.acceptWrite_address (n : Node) (tx : Transaction) :
    (n.acceptWrite tx).address = n.address :=
  n.handle_address (.write tx)

theorem handOut_ends (hosts : w.cluster.Hosts who nodes) {issuer : Address}
    (mem : issuer ∈ who.members) (timeout : Duration) (tx : Transaction)
    (rows : List (Address × List Write)) (distinct : (rows.map Prod.fst).Nodup) :
    (Client.handOut .quiet (who.serial issuer) issuer timeout tx rows).Ends now w
      fun w' failed => (failed = [] ↔ ∀ row ∈ rows, row.1 ∈ who.members) ∧
        w'.cluster.Hosts who (handed tx rows nodes) ∧ w'.outside = w.outside := by
  induction rows generalizing w nodes with
  | nil => exact Procedure.ends_pure ⟨by simp, hosts, rfl⟩
  | cons row rows ih =>
    obtain ⟨owner, ws⟩ := row
    obtain ⟨absent, distinct⟩ := List.nodup_cons.mp distinct
    rw [Client.handOut]
    split
    · next same =>
      subst same
      refine (Procedure.ends_modify (Q := fun w' _ => w'.outside = w.outside ∧
        w'.cluster.Hosts who (Function.update nodes owner
          ((nodes owner).acceptWrite (tx.withWrites ws))))
        ⟨rfl, hosts.updateNode mem ((Node.acceptWrite_address _ _).trans (hosts.address mem))⟩).bind
        ?_
      rintro w' - ⟨outside, hosts'⟩
      refine (ih hosts' distinct).mono ?_
      rintro w'' failed ⟨all, hosts'', outside'⟩
      refine ⟨?_, hosts''.congr fun a _ => handed_cons absent ?_,
        outside'.trans outside⟩
      · rw [all, List.forall_mem_cons]
        exact (and_iff_right mem).symm
      · by_cases same : a = owner
        · subst same
          rw [Function.update_self, if_pos rfl]
        · rw [Function.update_of_ne same, if_neg same]
    · next other =>
      by_cases served : owner ∈ who.members
      · refine (sendTo_quiet_ends hosts served _ timeout).bind ?_
        rintro w' r ⟨rfl, hosts', outside⟩
        refine (ih hosts' distinct).mono ?_
        rintro w'' failed ⟨all, hosts'', outside'⟩
        refine ⟨?_, hosts''.congr fun a _ => handed_cons absent ?_,
        outside'.trans outside⟩
        · rw [all, List.forall_mem_cons]
          exact (and_iff_right served).symm
        · simp only [heeding, List.mem_singleton]
          rfl
      · refine (sendTo_ends_unreachable served (P := fun ns o => ns = nodes ∧ o = w.outside)
          ⟨nodes, hosts, rfl, rfl⟩ (Surroundings.leads_quiet fun _ _ h => h)).bind ?_
        rintro w' r ⟨rfl, ns, hosts', rfl, outside⟩
        refine (ih hosts' distinct).bind ?_
        rintro w'' failed ⟨-, hosts'', outside'⟩
        refine Procedure.ends_pure ⟨?_, hosts''.congr fun a ha => handed_cons absent ?_,
          outside'.trans outside⟩
        · simp [served]
        · rw [if_neg fun same : a = owner => served (same ▸ ha)]

/-- A client's write through a member.  Every member takes over its share, and
the client is told so if there are no other recipients. -/
theorem write_ends (hosts : w.cluster.Hosts who nodes) {issuer : Address}
    (mem : issuer ∈ who.members) {tx : Transaction}
    (distinct : ∀ wr ∈ tx.writes, ((nodes issuer).serving wr.key).Nodup) :
    (Client.write .quiet (who.serial issuer) (nodes issuer) tx).Ends now w fun w' r =>
      (r = .ok () ↔
        ∀ wr ∈ tx.writes, ∀ a ∈ (nodes issuer).serving wr.key, a ∈ who.members) ∧
      w'.cluster.Hosts who (spread (nodes issuer).serving tx nodes) ∧
      w'.outside = w.outside := by
  have items := itemsOf_flatMap tx.writes (fun wr => (nodes issuer).serving wr.key) distinct
  rw [Client.write, hosts.address mem]
  refine (handOut_ends hosts mem _ tx _ (nodup_perMember _)).bind ?_
  rintro w' failed ⟨all, hosts', outside⟩
  have spread_eq : handed tx ((nodes issuer).shares tx.writes) nodes =
      spread (nodes issuer).serving tx nodes := by
    funext a
    have row : ((nodes issuer).shares tx.writes).lookup a =
        if share (nodes issuer).serving tx a = [] then none
        else some (share (nodes issuer).serving tx a) := by
      rw [Node.shares, lookup_perMember, items]
      rfl
    rw [handed, spread, row]
    by_cases none : share (nodes issuer).serving tx a = []
    · rw [if_pos none, if_pos none]
    · rw [if_neg none, if_neg none]
  have acked : failed = [] ↔
      ∀ wr ∈ tx.writes, ∀ a ∈ (nodes issuer).serving wr.key, a ∈ who.members := by
    rw [all]
    constructor
    · intro h wr hwr a ha
      have mine : wr ∈ share (nodes issuer).serving tx a :=
        List.mem_filter.mpr ⟨hwr, List.contains_iff_mem.mpr ha⟩
      refine h (a, share (nodes issuer).serving tx a) (mem_perMember_iff.mpr ⟨(items a).symm, ?_⟩)
      exact List.ne_nil_of_mem mine
    · rintro h ⟨a, ws⟩ row
      obtain ⟨rfl, some⟩ := mem_perMember_iff.mp row
      obtain ⟨wr, hwr⟩ := List.exists_mem_of_ne_nil _ some
      rw [items, List.mem_filter, List.contains_iff_mem] at hwr
      exact h wr hwr.1 a hwr.2
  cases failed with
  | nil => exact Procedure.ends_pure ⟨by simpa using acked, spread_eq ▸ hosts', outside⟩
  | cons => exact Procedure.ends_pure ⟨by simpa using acked, spread_eq ▸ hosts', outside⟩

end

end SlotRing
