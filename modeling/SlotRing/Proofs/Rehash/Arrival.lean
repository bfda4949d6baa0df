/-
# The steps of a join, where nothing goes wrong

As in `SlotRing.Proofs.Rehash.Steps`, for what only a join does: it asks the
coordinator for the ring, pulls state from its providers one after the other
(`pullState_ends`), and in the end goes over to the new ring (`arrive_ends`).
-/
import SlotRing.Proofs.Rehash.Steps
import SlotRing.Proofs.Ring.Newcomer
import SlotRing.Proofs.Store.Values
import SlotRing.Proofs.Tables

namespace SlotRing.Rehash

variable {ε : Type} {around : Surroundings ε} {who : Census} {w : World ε} {now : Nat}
variable {P Q : (Address → Node) → ε → Prop} {plan : Plan}

theorem heeding_eq_self {command : Command} (idle : ∀ n : Node, (n.handle command).1 = n)
    (targets : List Address) (nodes : Address → Node) : heeding command targets nodes = nodes := by
  funext a
  rw [heeding, idle]
  split <;> rfl

theorem ends_coordinator {coordinator : Address} (head : who.members.head? = some coordinator)
    (h : w.Holds who P) :
    (World.read (·.coordinator?) : Procedure (World ε) (Option Address)).Ends now w
      fun w' c => w' = w ∧ c = some coordinator := by
  obtain ⟨nodes, hosts, -⟩ := h
  refine Procedure.ends_read ⟨rfl, ?_⟩
  show w.cluster.members.head? = _
  rw [hosts.members_eq, head]

theorem fetchRing_ends (silent : around.Silent) {coordinator : Address}
    (head : who.members.head? = some coordinator)
    {F : MemberRing → (Address → Node) → ε → Prop} (h : w.Holds who P)
    (leads : around.Leads who
      { sender := plan.node, targets := [coordinator],
        command := .getCurrentMapping plan.node } P fun nodes o =>
      ∃ old, (nodes coordinator).mapping = .settled old ∧ F old nodes o) :
    (fetchRing around plan).Ends now w fun w' r => ∃ old, r = .ok old ∧ w'.Holds who (F old) := by
  unfold fetchRing
  refine (ends_coordinator head h).bind ?_
  rintro w' c ⟨rfl, rfl⟩
  refine retryUntil_ends (T := fun (w' : World ε) old => w'.Holds who (F old)) ?_
  refine (sendTo_ends silent (List.mem_of_mem_head? head) h (Q := fun nodes o reply =>
    ∃ old, reply = .currentMapping (some old) ∧ F old nodes o) ?_).bind ?_
  · intro now' w' holds
    refine (leads now' w' holds).mono fun w'' _ h'' => h''.mono ?_
    rintro nodes o ⟨old, settled, f⟩
    rw [heeding_eq_self (fun _ => rfl)]
    exact ⟨old, congrArg (Reply.currentMapping ∘ Mapping.settled?) settled, f⟩
  · rintro w' r ⟨reply, rfl, nodes, hosts, old, rfl, f⟩
    exact Procedure.ends_pure ⟨old, rfl, nodes, hosts, f⟩

theorem askForState_ends (silent : around.Silent) {source : Address} (mem : source ∈ who.members)
    {new : MemberRing} {T : (Address → Node) → ε → List Entry → Prop} (h : w.Holds who P)
    (leads : around.Leads who
      { sender := plan.node, targets := [source], command := .pullState plan.node new } P
      fun nodes o => T nodes o ((nodes source).stateFor plan.node new)) :
    (askForState around plan new source).Ends now w fun w' r =>
      ∃ chunk, r = .ok chunk ∧ w'.Holds who fun nodes o => T nodes o chunk := by
  refine (sendTo_ends silent mem h
    (Q := fun nodes o reply => ∃ chunk, reply = .stateChunk chunk ∧ T nodes o chunk) ?_).bind ?_
  · intro now' w' holds
    refine (leads now' w' holds).mono fun w'' _ h'' => h''.mono fun nodes o t => ?_
    rw [heeding_eq_self (fun _ => rfl)]
    exact ⟨_, rfl, t⟩
  · rintro w' r ⟨reply, rfl, nodes, hosts, chunk, rfl, t⟩
    exact Procedure.ends_pure ⟨chunk, rfl, nodes, hosts, t⟩

theorem allOk_map_ok {α : Type} (as : List α) : allOk (as.map .ok) = .ok as := by
  induction as with
  | nil => rfl
  | cons a as ih => rw [List.map_cons, allOk, ih]; rfl

/-- The chunks of distinct sources, in the order in which they are merged. -/
def inOrder (chunks : List (Address × List Entry)) : List (Address × List Entry) :=
  (Std.ExtTreeMap.ofList chunks).toList

theorem mem_inOrder {chunks : List (Address × List Entry)}
    (distinct : (chunks.map Prod.fst).Nodup) {chunk : Address × List Entry} :
    chunk ∈ inOrder chunks ↔ chunk ∈ chunks := by
  rw [inOrder, Std.ExtTreeMap.mem_toList_iff_getElem?_eq_some, getElem?_ofList_iff]
  rw [List.Nodup, List.pairwise_map] at distinct
  exact distinct.imp fun other same => other (Std.LawfulEqOrd.eq_of_compare same)

def merging (new : MemberRing) (a : Address) (copies : Nat)
    (chunks : List (Address × List Entry)) (n : Node) : Node :=
  { n with
    store := ((inOrder chunks).map fun (_, chunk) => owned new a copies chunk).foldl
      (fun store chunk => (store.merge chunk).1) n.store }

def pulled (new : MemberRing) (a : Address) (copies : Nat)
    (chunks : List (Address × List Entry)) : List Entry :=
  ((inOrder chunks).map fun chunk => owned new a copies chunk.2).flatten

theorem mem_pulled {new : MemberRing} {a : Address} {copies : Nat}
    {chunks : List (Address × List Entry)} (distinct : (chunks.map Prod.fst).Nodup) {e : Entry} :
    e ∈ pulled new a copies chunks ↔
      (∃ chunk ∈ chunks, e ∈ chunk.2) ∧ a ∈ new.locate e.key copies := by
  simp only [pulled, List.mem_flatten, List.mem_map, owned, Ring.isOwner]
  constructor
  · rintro ⟨_, ⟨chunk, hc, rfl⟩, he⟩
    rw [List.mem_filter, List.contains_iff_mem] at he
    exact ⟨⟨chunk, (mem_inOrder distinct).mp hc, he.1⟩, he.2⟩
  · rintro ⟨⟨chunk, hc, he⟩, mine⟩
    exact ⟨_, ⟨chunk, (mem_inOrder distinct).mpr hc, rfl⟩,
      List.mem_filter.mpr ⟨he, List.contains_iff_mem.mpr mine⟩⟩

/-- What is pulled is what the providers have of the keys that they owned, as far as the
member is to own them too. -/
theorem mem_pulled_iff {old new : MemberRing} {a : Address} {copies : Nat}
    {chunks : List (Address × List Entry)} {D : Address → Store}
    (all : chunks.map Prod.fst = new.providers a copies)
    (right : ∀ chunk ∈ chunks, ∀ e, e ∈ chunk.2 ↔ (D chunk.1).get? e.key = some e ∧
      a ∈ new.locate e.key copies ∧ chunk.1 ∈ old.locate e.key copies) {e : Entry} :
    e ∈ pulled new a copies chunks ↔ a ∈ new.locate e.key copies ∧
      ∃ p ∈ new.providers a copies, p ∈ old.locate e.key copies ∧
        (D p).get? e.key = some e := by
  rw [mem_pulled (all ▸ Ring.nodup_providers _ _ _), and_comm]
  refine and_congr_right fun mine => ⟨?_, ?_⟩
  · rintro ⟨chunk, hc, he⟩
    obtain ⟨found, -, owner⟩ := (right chunk hc e).mp he
    exact ⟨chunk.1, all ▸ List.mem_map_of_mem hc, owner, found⟩
  · rintro ⟨p, asked, owner, found⟩
    obtain ⟨chunk, hc, rfl⟩ := List.mem_map.mp (all.symm ▸ asked)
    exact ⟨chunk, hc, (right chunk hc e).mpr ⟨found, mine, owner⟩⟩

theorem merging_store {n : Node} (blank : n.store = .empty) (new : MemberRing) (a : Address)
    (copies : Nat) (chunks : List (Address × List Entry)) :
    (merging new a copies chunks n).store = (Store.empty.merge (pulled new a copies chunks)).1 := by
  rw [← blank]
  exact Store.foldl_merge _

/-- State is pulled from one provider after the other and merged at the end;
`I chunks` is what holds when `chunks` have come. -/
theorem pullState_ends (silent : around.Silent) (self : plan.By who) {new : MemberRing}
    (mem : ∀ source ∈ new.providers plan.node plan.settings.owners, source ∈ who.members)
    {I : List (Address × List Entry) → (Address → Node) → ε → Prop} (h : w.Holds who (I []))
    (step : ∀ source ∈ new.providers plan.node plan.settings.owners, ∀ chunks,
      around.Leads who
        { sender := plan.node, targets := [source], command := .pullState plan.node new }
        (I chunks) fun nodes o =>
          I (chunks ++ [(source, (nodes source).stateFor plan.node new)]) nodes o)
    (merged : ∀ chunks nodes o, I chunks nodes o →
      chunks.map Prod.fst = new.providers plan.node plan.settings.owners →
      Q (Function.update nodes plan.node
        (merging new plan.node plan.settings.owners chunks (nodes plan.node))) o) :
    (pullState around plan new).Ends now w fun w' r => r = .ok () ∧ w'.Holds who Q := by
  let sources := new.providers plan.node plan.settings.owners
  have pulled : (pull around plan new).Ends now w fun w' r =>
      ∃ chunks, chunks.map Prod.fst = sources ∧ r = .ok (inOrder chunks) ∧
        w'.Holds who (I chunks) := by
    unfold pull
    have each : ∀ todo : List Address, (∀ source ∈ todo, source ∈ sources) →
        ∀ (chunks : List (Address × List Entry)) (w : World ε), w.Holds who (I chunks) →
        (Procedure.all (todo.map fun source => do
          return (← retry plan .pullState (askForState around plan new source)).map
            (source, ·))).Ends now w fun w' rs =>
          ∃ more : List (Address × List Entry), more.map Prod.fst = todo ∧ rs = more.map .ok ∧
            w'.Holds who (I (chunks ++ more)) := by
      intro todo
      induction todo with
      | nil =>
        intro _ chunks w holds
        exact Procedure.ends_all_nil ⟨[], rfl, rfl, (List.append_nil chunks).symm ▸ holds⟩
      | cons source todo ih =>
        intro listed chunks w holds
        have asked := listed source List.mem_cons_self
        refine Procedure.ends_all_cons (Q := fun w' r => ∃ chunk, r = .ok (source, chunk) ∧
          w'.Holds who (I (chunks ++ [(source, chunk)]))) ?_ ?_
        · refine (retryUntil_ends (askForState_ends silent (mem source asked) holds
            (T := fun nodes o chunk => I (chunks ++ [(source, chunk)]) nodes o)
            (step source asked chunks))).bind ?_
          rintro w' r ⟨chunk, rfl, holds'⟩
          exact Procedure.ends_pure ⟨chunk, rfl, holds'⟩
        · rintro w' r ⟨chunk, rfl, holds'⟩
          refine (ih (fun s hs => listed s (List.mem_cons_of_mem _ hs)) _ w' holds').mono ?_
          rintro w'' rs ⟨more, rfl, rfl, holds''⟩
          refine ⟨(source, chunk) :: more, rfl, rfl, ?_⟩
          rw [List.append_assoc] at holds''
          exact holds''
    refine (each sources (fun _ h => h) [] w h).bind ?_
    rintro w' rs ⟨chunks, all, rfl, holds⟩
    refine Procedure.ends_pure ⟨chunks, all, ?_, holds⟩
    rw [allOk_map_ok]
    rfl
  unfold pullState
  refine pulled.bind ?_
  rintro w₁ r ⟨chunks, all, rfl, h₁⟩
  refine (enter_ends _ _ h₁).bind fun w₂ _ h₂ => ?_
  rw [self.self]
  exact (World.ends_modifyNode self.mem (P := Q)
    (h₂.mono fun nodes o i => ⟨rfl, merged chunks nodes o i all⟩)).bind
    fun w₃ _ h₃ => Procedure.ends_pure ⟨rfl, h₃⟩

/-- A newcomer that coordinates itself reports to nobody. -/
theorem reportArrival_keeps {J : World ε → Prop} (silent : around.Silent) {coordinator : Address}
    (head : who.members.head? = some coordinator) (h : w.Holds who P)
    (allows : around.Allows who J
      { sender := plan.node, targets := [coordinator], command := .joinComplete plan.node } P Q)
    (alone : coordinator = plan.node → ∀ nodes o, P nodes o → Q nodes o) :
    (reportArrival around plan).Keeps J now w fun w' _ => w'.Holds who Q := by
  unfold reportArrival
  refine (ends_coordinator head h).keeps.bind ?_
  rintro now' w' c ⟨rfl, rfl⟩
  by_cases same : coordinator = plan.node
  · simp only [same, ne_eq, not_true, if_false]
    exact Procedure.keeps_pure (h.mono (alone same))
  · simp only [same, ne_eq, not_false_eq_true, if_true]
    refine Procedure.Keeps.discard (T := fun (w' : World ε) _ => w'.Holds who Q) ?_
    refine (sendTo_keeps silent (List.mem_of_mem_head? head) (Q := fun nodes o _ => Q nodes o)
      ((allows now' w' h).mono fun w'' _ h'' => h''.mono ?_)).mono ?_
    · intro nodes o q
      rw [heeding_eq_self (fun _ => rfl)]
      exact q
    · rintro w'' r ⟨reply, -, holds⟩
      exact holds

theorem reportArrival_ends (silent : around.Silent) {coordinator : Address}
    (head : who.members.head? = some coordinator) (h : w.Holds who P)
    (leads : around.Leads who
      { sender := plan.node, targets := [coordinator], command := .joinComplete plan.node } P Q)
    (alone : coordinator = plan.node → ∀ nodes o, P nodes o → Q nodes o) :
    (reportArrival around plan).Ends now w fun w' _ => w'.Holds who Q :=
  Procedure.ends_iff_keeps.mpr (reportArrival_keeps silent head h leads.allows alone)

/-! ## The whole join -/

section

variable {coordinator : Address} {old new : MemberRing} {F D : (Address → Node) → ε → Prop}

/-- A join that moves state, with what holds at each of its sendings: `F` when
the ring has been fetched, `A` and `U` before and after the union has been
announced, `V` when state has been merged, `D` and `B` before and after the new
ring has been announced. -/
theorem arrive_ends (silent : around.Silent) (self : plan.By who)
    (head : who.members.head? = some coordinator)
    (extend : old.extend plan.strategy [plan.node] = .ok new)
    (moves : (new == old || !plan.settings.rehashEnabled) = false)
    {A U V B : (Address → Node) → ε → Prop} (h : w.Holds who P)
    (fetch : around.Leads who
      { sender := plan.node, targets := [coordinator],
        command := .getCurrentMapping plan.node } P fun nodes o =>
      (nodes coordinator).mapping = .settled old ∧ F nodes o)
    (opened : ∀ nodes o, F nodes o → (nodes plan.node).log.state = .disabled ∧
      A (Function.update nodes plan.node
        ((logging old (nodes plan.node)).install (.moving old new))) o)
    (union : around.Leads who
      { sender := plan.node, targets := who.members.filter (· != plan.node),
        command := .installMapping (.moving old new) } A fun nodes o =>
      U (fun a => if a = plan.node then nodes a else (nodes a).install (.moving old new)) o)
    (moved : ∀ w : World ε, w.Holds who U →
      (pullState around plan new).Ends now w fun w' r => r = .ok () ∧ w'.Holds who V)
    (finished : ∀ nodes o, V nodes o →
      D (Function.update nodes plan.node
        ((nodes plan.node).finishTransition.install (.settled new))) o)
    (final : around.Leads who
      { sender := plan.node, targets := who.members.filter (· != plan.node),
        command := .installMapping (.settled new) } D fun nodes o =>
      B (fun a => if a = plan.node then nodes a else (nodes a).install (.settled new)) o)
    (report : around.Leads who
      { sender := plan.node, targets := [coordinator], command := .joinComplete plan.node } B Q)
    (alone : coordinator = plan.node → ∀ nodes o, B nodes o → Q nodes o) :
    (arrive around plan).Ends now w fun w' r => r = .ok new ∧
      w'.Holds (who.leaving (hintsLeft plan.settings plan.self old new)) Q := by
  unfold arrive
  refine (enter_ends _ _ h).bind fun w₁ _ h₁ => ?_
  refine (fetchRing_ends silent head (F := fun ring nodes o => old = ring ∧ F nodes o) h₁
    (fetch.mono fun nodes o _ held => ⟨old, held.1, rfl, held.2⟩)).bind ?_
  rintro w₂ _ ⟨ring, rfl, nodes, hosts, rfl, f⟩
  have h₂ : w₂.Holds who F := ⟨nodes, hosts, f⟩
  refine (enter_ends _ _ h₂).bind fun w₃ _ h₃ => ?_
  simp only [extend, moves, Bool.false_eq_true, if_false]
  refine (transfer_ends silent self (Q := fun nodes o => D (Function.update nodes plan.node
    ((nodes plan.node).install (.settled new))) o) h₃ opened union moved ?_).bind ?_
  · intro nodes o v
    rw [Function.update_self, Function.update_idem]
    exact finished nodes o v
  rintro w₄ r ⟨rfl, h₄⟩
  refine (settle_ends silent self h₄ final).bind fun w₅ _ h₅ => ?_
  refine (reportArrival_ends silent head h₅ report alone).bind fun w₆ _ h₆ => ?_
  refine (leaveHints_ends old new h₆).bind fun w₇ _ h₇ => ?_
  exact Procedure.ends_pure ⟨rfl, h₇⟩

end

end SlotRing.Rehash
