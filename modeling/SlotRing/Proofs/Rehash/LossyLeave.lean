/-
# When a departure loses a write

A key is at risk if one of its owners stays and a member comes to own it that
has not taken part in the writes which the owner's copy comes from
(`Farewell.AtRisk`).  Then one order of the parts and two requests are enough:
the key is removed while the copy is on its way, and the copy comes to a member
that knows nothing of the removal (`Farewell.not_keeps_of_atRisk`).  For all
other keys every order and every choice of writes is harmless, and so the
condition is exact (`departure_keeps_writes_iff`).
-/
import SlotRing.Proofs.Rehash.LosslessLeave
import SlotRing.Scenario.Run

namespace SlotRing

namespace Farewell

/-! ## The wrong moment -/

/-- If there is no entry of the key yet, it is put when `gainer` announces the
union; and it is removed while the copy of `owner` is on its way to `gainer`. -/
def untimely (key : String) (absent : Bool) (owner gainer : Address) :
    Nat → Sending → List Request :=
  fun _ sending =>
    match sending.command with
    | .installMapping (.moving _ _) =>
      if sending.sender = gainer ∧ absent = true then [⟨owner, .single (.put key [])⟩] else []
    | .pushState _ =>
      if sending.sender = owner ∧ sending.targets = [gainer] then
        [⟨owner, .single (.remove key)⟩]
      else []
    | _ => []

theorem share_single_of_mem {serving : String → List Address} (wr : Write) {a : Address}
    (served : a ∈ serving wr.key) : share serving (.single wr) a = [wr] := by
  simp [share, Transaction.single, served]

theorem share_single_of_not_mem {serving : String → List Address} (wr : Write) {a : Address}
    (other : a ∉ serving wr.key) : share serving (.single wr) a = [] := by
  simp [share, Transaction.single, other]

section

variable (f : Farewell) (key : String) (initial : Option (List UInt8)) (owner gainer : Address)

def Primed (D : Address → Store) (o : Chronicle) : Prop :=
  (∃ e, (D owner).get? key = some e) ∧ (D gainer).version? key = none ∧ o.Acknowledged

/-- The gainer has a copy of a key that has been removed. -/
def Fooled (D : Address → Store) (o : Chronicle) : Prop :=
  ((D gainer).get? key).isSome ∧ valueAfter o.writes key initial = none ∧ o.Acknowledged

/-- The owner has read `held`, with a copy in it, and has handed over to `done`: the gainer
does not know the key until its turn comes, and has the copy of a removed key after it. -/
structure Misled (held : List Entry) (done : List Address) (D : Address → Store)
    (o : Chronicle) : Prop where
  copy : ∃ e ∈ held, e.key = key
  primed : gainer ∉ done → (D gainer).version? key = none ∧ o.Acknowledged
  fooled : gainer ∈ done → Fooled key initial gainer D o

end

section

variable {f : Farewell} (sound : f.Sound) {key : String} {initial : Option (List UInt8)}
  {absent : Bool} {owner gainer : Address} {who : Census} {w : World Chronicle} {now : Nat}
  {rehash : Serial}

theorem Primed.congr {D D' : Address → Store} {o : Chronicle} (h : Primed key owner gainer D o)
    (hold : (D' owner).SameAt (D owner) key) (gain : (D' gainer).SameAt (D gainer) key) :
    Primed key owner gainer D' o := by
  obtain ⟨⟨e, found⟩, unknown, ok⟩ := h
  exact ⟨⟨e, hold.1.trans found⟩, gain.version?.trans unknown, ok⟩

variable (owns : owner ∈ f.oldOwners key) (stays : owner ∈ f.members)
  (gains : gainer ∈ f.newOwners key) (fresh : gainer ∉ f.oldOwners key)
include sound owns stays gains fresh

/-- The key is put through the owner before that hears of the union. -/
theorem owner_primed (census : who.members = f.members) (settled : f.leaver ∉ f.oldOwners key) :
    (clients (untimely key true owner gainer)).Leads who
      { sender := gainer, targets := who.members.filter (· != gainer),
        command := .installMapping (.moving f.old f.new) }
      (f.Sees gainer true (.moving f.old f.new) (.settled f.old) fun _ D o =>
        (true = false → ∃ e, (D owner).get? key = some e) ∧ (D gainer).version? key = none ∧
        o.Acknowledged)
      (f.Sees gainer true (.moving f.old f.new) (.settled f.old) fun _ =>
        Primed key owner gainer) := by
  have apart : owner ≠ gainer := fun same => fresh (same ▸ owns)
  have put : ∀ i, untimely key true owner gainer i
      { sender := gainer, targets := who.members.filter (· != gainer),
        command := .installMapping (.moving f.old f.new) } =
      [⟨owner, .single (.put key [])⟩] := fun i => by simp [untimely]
  refine clients_see sound census .between .before
    (fun done _ D o => (D gainer).version? key = none ∧ o.Acknowledged ∧
      (done ≠ [] → ∃ e, (D owner).get? key = some e)) ?issuers ?count ?step ?last
  case issuers =>
    intro i r hr
    rw [put, List.mem_singleton] at hr
    exact hr ▸ stays
  case count =>
    rintro s D o ⟨-, unknown, ok⟩
    exact ⟨unknown, ok, fun some => absurd rfl some⟩
  case step =>
    rintro i done r rest split s D o ⟨unknown, ok, -⟩ g going outcome acked s' D' - written
    have listed : r ∈ done ++ r :: rest := List.mem_append_right _ List.mem_cons_self
    rw [split, put, List.mem_singleton] at listed
    subst listed
    rw [if_neg apart] at going
    subst going
    refine ⟨?_, ?_, fun _ => ?_⟩
    · rw [written gainer (mem_of_newOwner sound gains), share_single_of_not_mem (.put key [])
        fun hs => fresh ((mem_recipients_before sound).mp hs)]
      exact unknown
    · refine Chronicle.acknowledged_note.mpr ⟨ok, acked.mpr ?_⟩
      intro wr hwr a ha
      obtain rfl : wr = .put key [] := by simpa [Transaction.single] using hwr
      have old := (mem_recipients_before sound).mp ha
      exact mem_of_oldOwner sound old fun left => settled (left ▸ old)
    · rw [written owner stays, share_single_of_mem (.put key [])
        ((mem_recipients_before sound).mpr owns)]
      exact ⟨_, (Store.get?_put key []).trans (if_pos rfl)⟩
  case last =>
    rintro i s D o ⟨unknown, ok, live⟩
    rw [put] at live
    exact ⟨live (List.cons_ne_nil _ _), unknown, ok⟩

theorem primed_part (census : who.members = f.members)
    (counted : f.settings.deadline.CountedFrom now)
    (settled : absent = true → f.leaver ∉ f.oldOwners key)
    (h : w.Holds who fun nodes o => f.Rest (.settled f.old) nodes ∧
      (absent = false → ∃ e, (replayed nodes owner).get? key = some e) ∧
      (replayed nodes gainer).version? key = none ∧ o.Acknowledged) :
    (Rehash.run (clients (untimely key absent owner gainer)) rehash (who.serial gainer)
        (.leave f.leaver f.old)).Ends now w fun w' r =>
      r = .ok f.new ∧ ∃ errands, w'.Holds (who.leaving errands) fun nodes o =>
        f.Rest (.settled f.new) nodes ∧ Primed key owner gainer (replayed nodes) o := by
  have apart : owner ≠ gainer := fun same => fresh (same ▸ owns)
  refine part_ends sound (silent_clients _) census (mem_of_newOwner sound gains) counted
    (fun D (o : Chronicle) => (absent = false → ∃ e, (D owner).get? key = some e) ∧
      (D gainer).version? key = none ∧ o.Acknowledged)
    (fun _ D (o : Chronicle) => (absent = false → ∃ e, (D owner).get? key = some e) ∧
      (D gainer).version? key = none ∧ o.Acknowledged)
    (fun _ => Primed key owner gainer)
    (fun held _ D o => (∀ e ∈ held, e.key ≠ key) ∧ Primed key owner gainer D o)
    (Primed key owner gainer) (Primed key owner gainer)
    (Primed key owner gainer) h (fun _ _ k => k) ?union ?start ?step ?finish ?final ?drop
  case union =>
    cases missing : absent with
    | false =>
      refine (clients_see_nothing (fun i => by simp [untimely]) fun _ _ _ k => k).mono ?_
      rintro nodes o - ⟨run, live, unknown, ok⟩
      exact ⟨run, live rfl, unknown, ok⟩
    | true => exact owner_primed sound owns stays gains fresh census (settled missing)
  case start =>
    intro s D o keyed k
    refine ⟨?_, k⟩
    rintro e he rfl
    exact fresh (List.contains_iff_mem.mp ((Store.mem_select_iff keyed).mp he).2)
  case step =>
    intro held rows done row rest spec split
    refine (clients_see_nothing (fun i => by simp [untimely, apart.symm]) fun _ _ _ k => k).mono ?_
    rintro nodes o - ⟨run, others, k⟩
    have same := sameAt_handed (D := replayed nodes) spec
      (split ▸ List.mem_append_right _ List.mem_cons_self)
      fun e he own => absurd own (others e he)
    exact ⟨run, others, k.congr (same owner) (same gainer)⟩
  case finish => exact fun held rows D o _ k => k.2
  case final => exact clients_see_nothing (fun i => by simp [untimely]) fun _ _ _ k => k
  case drop =>
    exact fun D o k => k.congr (sameAt_kept fun same => absurd same apart)
      (sameAt_kept fun _ => gains)

omit sound owns stays gains fresh in
/-- A request to remove the key that reaches the gainer before the copy does
leaves no trace there. -/
theorem unknown_of_remove {D D' : Address → Store} {g : Going} (mem : gainer ∈ f.members)
    (unknown : (D gainer).version? key = none)
    (written : ∀ a ∈ f.members,
      D' a = (D a).writeAll (share (f.recipients g) (.single (.remove key)) a)) :
    (D' gainer).version? key = none := by
  rw [written gainer mem]
  by_cases served : gainer ∈ f.recipients g key
  · rw [share_single_of_mem (.remove key) served]
    exact (Store.version?_remove key).trans unknown
  · rw [share_single_of_not_mem (.remove key) served]
    exact unknown

theorem gainer_misled (census : who.members = f.members) {held : List Entry}
    {rows done rest : List (Address × List Entry)} {es : List Entry}
    (spec : f.Rows owner held rows) (split : done ++ (gainer, es) :: rest = rows) :
    (clients (untimely key absent owner gainer)).Leads who
      { sender := owner, targets := [gainer], command := .pushState es }
      (f.Sees owner true (.moving f.old f.new) (.moving f.old f.new) fun _ =>
        Misled key initial gainer held (done.map Prod.fst))
      (f.Sees owner true (.moving f.old f.new) (.moving f.old f.new) fun _ D =>
        Misled key initial gainer held ((done ++ [(gainer, es)]).map Prod.fst)
          (Function.update D gainer ((D gainer).merge es).1)) := by
  have member : gainer ∈ f.members := mem_of_newOwner sound gains
  have listed : (gainer, es) ∈ rows := split ▸ List.mem_append_right _ List.mem_cons_self
  have before : gainer ∉ done.map Prod.fst := by
    have distinct := spec.distinct
    rw [← split, List.map_append, List.map_cons] at distinct
    exact fun past => List.disjoint_of_nodup_append distinct past List.mem_cons_self
  have removed : ∀ i, untimely key absent owner gainer i
      { sender := owner, targets := [gainer], command := .pushState es } =
      [⟨owner, .single (.remove key)⟩] := fun i => by simp [untimely]
  refine Surroundings.Leads.mono (clients_see sound
    census .between .between (L := fun _ D o =>
      (∃ e ∈ held, e.key = key) ∧ (D gainer).version? key = none ∧
      valueAfter o.writes key initial = none ∧ o.Acknowledged)
    (fun done _ D o => (∃ e ∈ held, e.key = key) ∧ (D gainer).version? key = none ∧
      (done ≠ [] → valueAfter o.writes key initial = none) ∧ o.Acknowledged)
    ?issuers ?count ?step ?last) ?_
  case issuers =>
    intro i r hr
    rw [removed, List.mem_singleton] at hr
    exact hr ▸ stays
  case count =>
    rintro s D o ⟨copy, primed, -⟩
    obtain ⟨unknown, ok⟩ := primed before
    exact ⟨copy, unknown, fun some => absurd rfl some, ok⟩
  case step =>
    rintro i gone r rest' split' s D o ⟨copy, unknown, -, ok⟩ g going outcome acked s' D' -
      written
    have one : r ∈ gone ++ r :: rest' := List.mem_append_right _ List.mem_cons_self
    rw [split', removed, List.mem_singleton] at one
    subst one
    rw [ite_self] at going
    subst going
    refine ⟨copy, unknown_of_remove member unknown written, fun _ => ?_,
      Chronicle.acknowledged_note.mpr ⟨ok, acked.mpr fun wr _ a ha => ?_⟩⟩
    · rw [Chronicle.writes_note, valueAfter_append]
      show Write.upon (.remove key) key _ = none
      rw [Write.upon]
      exact if_pos rfl
    · exact ((mem_recipients_between sound).mp ha).2
  case last =>
    rintro i s D o ⟨copy, unknown, gone, ok⟩
    rw [removed] at gone
    exact ⟨copy, unknown, gone (List.cons_ne_nil _ _), ok⟩
  rintro nodes o - ⟨run, ⟨e, he, rfl⟩, unknown, gone, ok⟩
  refine ⟨run, ⟨e, he, rfl⟩, fun todo => absurd ?_ todo, fun _ => ⟨?_, gone, ok⟩⟩
  · rw [List.map_append]
    exact List.mem_append_right _ List.mem_cons_self
  · rw [Function.update_self]
    refine Store.isSome_get?_merge_of_accepts ((spec.mem listed).mpr ⟨he, gains, fresh⟩) ?_
    rw [Store.accepts, unknown]

omit sound owns stays gains fresh in
theorem Misled.aside {held es : List Entry} {done : List (Address × List Entry)}
    {target : Address} {D : Address → Store} {o : Chronicle} (other : target ≠ gainer) {s : Store}
    (h : Misled key initial gainer held (done.map Prod.fst) D o) :
    Misled key initial gainer held ((done ++ [(target, es)]).map Prod.fst)
      (Function.update D target s) o := by
  have names : gainer ∈ (done ++ [(target, es)]).map Prod.fst ↔ gainer ∈ done.map Prod.fst := by
    rw [List.map_append, List.mem_append]
    exact or_iff_left fun last => other (List.mem_singleton.mp last).symm
  have same : Function.update D target s gainer = D gainer :=
    Function.update_of_ne (Ne.symm other) _ _
  refine ⟨h.copy, ?_, ?_⟩
  · rw [names, same]
    exact h.primed
  · rw [names, Fooled, same]
    exact h.fooled

/-- The owner's part, in which the key is removed just before the gainer gets
the copy. -/
theorem fooled_part (census : who.members = f.members)
    (counted : f.settings.deadline.CountedFrom now)
    (h : w.Holds who fun nodes o => f.Rest (.settled f.new) nodes ∧
      Primed key owner gainer (replayed nodes) o) :
    (Rehash.run (clients (untimely key absent owner gainer)) rehash (who.serial owner)
        (.leave f.leaver f.old)).Ends now w fun w' r =>
      r = .ok f.new ∧ ∃ errands, w'.Holds (who.leaving errands) fun nodes o =>
        f.Rest (.settled f.new) nodes ∧ Fooled key initial gainer (replayed nodes) o := by
  have apart : owner ≠ gainer := fun same => fresh (same ▸ owns)
  refine part_ends sound (silent_clients _) census stays counted (Primed key owner gainer)
    (fun s D o => (∃ e, s.get? key = some e) ∧ Primed key owner gainer D o)
    (fun s D o => (∃ e, s.get? key = some e) ∧ Primed key owner gainer D o)
    (fun held done => Misled key initial gainer held (done.map Prod.fst))
    (Fooled key initial gainer) (Fooled key initial gainer)
    (Fooled key initial gainer) h (fun _ _ k => ⟨k.1, k⟩) ?union ?start ?step ?finish ?final ?drop
  case union => exact clients_see_nothing (fun i => by simp [untimely, apart]) fun _ _ _ k => k
  case start =>
    rintro s D o keyed ⟨⟨e, found⟩, -, unknown, ok⟩
    obtain rfl := keyed key e found
    refine ⟨⟨e, (Store.mem_select_iff keyed).mpr ⟨found, ?_⟩, rfl⟩, fun _ => ⟨unknown, ok⟩,
      fun past => absurd past List.not_mem_nil⟩
    exact List.contains_iff_mem.mpr owns
  case step =>
    rintro held rows done ⟨target, es⟩ rest spec split
    by_cases here : target = gainer
    · subst here
      exact gainer_misled sound owns stays gains fresh census spec split
    · refine (clients_see_nothing (fun i => by simp [untimely, here]) fun _ _ _ k =>
        ⟨k.copy, k.primed, k.fooled⟩).mono ?_
      rintro nodes o - ⟨run, misled⟩
      exact ⟨run, misled.aside here⟩
  case finish =>
    rintro held rows D o spec ⟨⟨e, he, rfl⟩, -, fooled⟩
    obtain ⟨es, listed⟩ := spec.complete he apart.symm gains fresh
    exact fooled (List.mem_map_of_mem listed)
  case final => exact clients_see_nothing (fun i => by simp [untimely]) fun _ _ _ k => k
  case drop =>
    rintro D o ⟨live, rest⟩
    refine ⟨?_, rest⟩
    rw [Function.update_of_ne apart.symm]
    exact live

omit owns stays gains fresh in
theorem fooled_later (census : who.members = f.members) {x : Address} (mem : x ∈ f.members)
    (counted : f.settings.deadline.CountedFrom now) (other : x ≠ gainer) (other' : x ≠ owner)
    (h : w.Holds who fun nodes o => f.Rest (.settled f.new) nodes ∧
      Fooled key initial gainer (replayed nodes) o) :
    (Rehash.run (clients (untimely key absent owner gainer)) rehash (who.serial x)
        (.leave f.leaver f.old)).Ends now w fun w' r =>
      r = .ok f.new ∧ ∃ errands, w'.Holds (who.leaving errands) fun nodes o =>
        f.Rest (.settled f.new) nodes ∧ Fooled key initial gainer (replayed nodes) o := by
  have silence (i : Nat) (targets : List Address) (command : Command) :
      untimely key absent owner gainer i { sender := x, targets, command } = [] := by
    unfold untimely
    split
    · exact if_neg fun h => other h.1
    · exact if_neg fun h => other' h.1
    · rfl
  refine part_ends sound (silent_clients _) census mem counted (Fooled key initial gainer)
    (fun _ => Fooled key initial gainer) (fun _ => Fooled key initial gainer)
    (fun _ _ => Fooled key initial gainer)
    (Fooled key initial gainer) (Fooled key initial gainer)
    (Fooled key initial gainer) h (fun _ _ k => k) ?union (fun _ _ _ _ k => k) ?step
    (fun _ _ _ _ _ k => k) ?final ?drop
  case union => exact clients_see_nothing (fun i => silence i _ _) fun _ _ _ k => k
  case step =>
    intro held rows done row rest spec split
    refine (clients_see_nothing (fun i => silence i _ _) fun _ _ _ k => k).mono ?_
    rintro nodes o - ⟨run, live, k⟩
    refine ⟨run, ?_, k⟩
    by_cases here : gainer = row.1
    · rw [here, Function.update_self]
      exact Store.isSome_get?_merge _ (here ▸ live)
    · rw [Function.update_of_ne here]
      exact live
  case final => exact clients_see_nothing (fun i => silence i _ _) fun _ _ _ k => k
  case drop =>
    rintro D o ⟨live, k⟩
    refine ⟨?_, k⟩
    rw [Function.update_of_ne other.symm]
    exact live

omit sound owns gains fresh in
theorem untimely_admits : f.Admits (untimely key absent owner gainer) := by
  intro i sending r hr
  unfold untimely at hr
  split at hr
  · split at hr
    · obtain rfl := List.mem_singleton.mp hr
      exact ⟨stays, _, rfl⟩
    · cases hr
  · split at hr
    · obtain rfl := List.mem_singleton.mp hr
      exact ⟨stays, _, rfl⟩
    · cases hr
  · cases hr

/-- The gainer leaves the old ring before the owner does, and in the end it has a copy of a
key that has been removed. -/
theorem departure_fooled (initial : Option (List UInt8)) (now : Nat) {c : Cluster}
    {nodes : Address → Node} (hosts : c.Hosts who nodes)
    (census : (who.without f.leaver).members = f.members) {entry : String → Option Entry}
    (opening : f.Opening entry nodes) (settled : entry key = none → f.leaver ∉ f.oldOwners key)
    {rest : List Address} (perm : (gainer :: owner :: rest).Perm f.members)
    (counted : f.settings.deadline.CountedFrom now) :
    (Rehash.departure (clients (untimely key (entry key).isNone owner gainer)) f.leaver
      (gainer :: owner :: rest)).Ends now { cluster := c, outside := {} } fun w' rs =>
      rs = (gainer :: owner :: rest).map (fun _ => .ok f.new) ∧
      ∃ errands, w'.Holds ((who.without f.leaver).leaving errands) fun nodes o =>
        f.Rest (f.mapping (reached (gainer :: owner :: rest))) nodes ∧
        Fooled key initial gainer (replayed nodes) o := by
  have member : gainer ∈ f.members := mem_of_newOwner sound gains
  have distinct : (gainer :: owner :: rest).Nodup := nodup_order hosts census perm
  refine departure_ends
    (J := fun done D (o : Chronicle) => match done with
      | [] => ((entry key).isNone = false → ∃ e, (D owner).get? key = some e) ∧
        (D gainer).version? key = none ∧ o.Acknowledged
      | [_] => Primed key owner gainer D o
      | _ :: _ :: _ => Fooled key initial gainer D o)
    census (fun a ha => perm.subset ha) ⟨nodes, hosts, opening.rest, ?_, ?_, ?_⟩ ?_
  · intro live
    rw [opening.get?_replayed stays, if_pos owns]
    exact Option.isSome_iff_exists.mp (by simpa using live)
  · exact opening.unknown member fun owner => absurd owner fresh
  · exact fun entry h => absurd h List.not_mem_nil
  intro done x todo split who' w' rehash census' holds
  match done, split with
  | [], split =>
    obtain ⟨rfl, -⟩ := List.cons.inj split
    exact primed_part sound owns stays gains fresh census' counted
      (fun missing => settled (Option.isNone_iff_eq_none.mp missing)) holds
  | [_], split =>
    obtain ⟨rfl, split'⟩ := List.cons.inj split
    obtain ⟨rfl, -⟩ := List.cons.inj split'
    exact fooled_part sound owns stays gains fresh census' counted holds
  | a :: b :: before, split =>
    have mem : x ∈ gainer :: owner :: rest :=
      split ▸ List.mem_append_right _ List.mem_cons_self
    have later : x ∈ rest := by
      obtain ⟨-, split⟩ := List.cons.inj split
      obtain ⟨-, split⟩ := List.cons.inj split
      exact split ▸ List.mem_append_right _ List.mem_cons_self
    rw [List.nodup_cons, List.nodup_cons] at distinct
    exact fooled_later sound census' (perm.subset mem) counted
      (fun same => distinct.1 (same ▸ List.mem_cons_of_mem _ later))
      (fun same => distinct.2.1 (same ▸ later)) holds

omit owns stays gains fresh in
/-- A key that is at risk is lost in one of the orders, if clients write at the
wrong moment. -/
theorem not_keeps_of_atRisk (now : Nat) {entry : String → Option Entry} {c : Cluster}
    {nodes : Address → Node} (hosts : c.Hosts who nodes)
    (census : (who.without f.leaver).members = f.members) (opening : f.Opening entry nodes)
    (counted : f.settings.deadline.CountedFrom now) (risk : f.AtRisk entry key) :
    ∃ order script, order.Perm f.members ∧ f.Admits script ∧
      ¬ f.Keeps entry key script order now { cluster := c, outside := {} } := by
  obtain ⟨⟨owner, stays, owns⟩, ⟨gainer, gains, fresh⟩, cause⟩ := risk
  have apart : owner ≠ gainer := fun same => fresh (same ▸ owns)
  have member : gainer ∈ f.members := mem_of_newOwner sound gains
  let rest := (f.members.erase gainer).erase owner
  have perm : (gainer :: owner :: rest).Perm f.members :=
    ((List.perm_cons_erase ((List.mem_erase_of_ne apart).mpr stays)).symm.cons gainer).trans
      (List.perm_cons_erase member).symm
  have settled : entry key = none → f.leaver ∉ f.oldOwners key := by
    intro missing
    refine cause.resolve_left ?_
    rw [missing]
    exact Bool.noConfusion
  refine ⟨gainer :: owner :: rest, untimely key (entry key).isNone owner gainer, perm,
    untimely_admits stays, ?_⟩
  rintro ⟨w', run, kept⟩
  obtain ⟨w'', rs, run', -, errands, nodes', hosts', resting, live, gone, ok⟩ :=
    departure_fooled sound owns stays gains fresh ((entry key).map Entry.value) now hosts census
      opening settled perm counted
  rw [run] at run'
  cases run'
  obtain ⟨n, found, value⟩ := kept ok (.inl ⟨owner, stays, owns⟩) gainer gains
  rw [hosts'.find? (census.symm ▸ member)] at found
  cases found
  rw [gone, Store.value?, Option.map_eq_none_iff] at value
  rw [replayed, (resting gainer member).1.replayed, value] at live
  cases live

end

end Farewell

/-- `D` has left `A` and `C`; it owned `k0` with `C`, which has an entry of it, and `A`
comes to own it. -/
theorem Farewell.exists_of_three :
    ∃ old new serial nodes, Ring.ofMembers Strategy.sip24 ["A", "C", "D"] = .ok old ∧
      Ring.ofMembers Strategy.sip24 ["A", "C"] = .ok new ∧
      let f : Farewell := ⟨["A", "C"], "D", {}, .sip24, old, new⟩
      f.Sound ∧
      ((Cluster.founded {} ["A", "C", "D"]).stocked "C" ⟨"k0", [1], 1⟩).Hosts
        ⟨["A", "C", "D"], serial, some []⟩ nodes ∧
      f.Opening (fun key => if key = "k0" then some ⟨"k0", [1], 1⟩ else none) nodes ∧
      f.oldOwners "k0" = ["C", "D"] ∧ "A" ∈ f.newOwners "k0" := by
  obtain ⟨old, before⟩ : ∃ r, Ring.ofMembers Strategy.sip24 ["A", "C", "D"] = .ok r :=
    Ring.exists_ofMembers _ (by decide)
  obtain ⟨new, after⟩ : ∃ r, Ring.ofMembers Strategy.sip24 ["A", "C"] = .ok r :=
    Ring.exists_ofMembers _ (by decide)
  have oldOwners : old.locate "k0" 2 = ["C", "D"] :=
    Ring.apply_eq_of_ofMembers before (·.locate "k0" 2) (by decide +kernel)
  have newOwners : "A" ∈ new.locate "k0" 2 := of_decide_eq_true
    (Ring.apply_eq_of_ofMembers after (fun r => decide ("A" ∈ r.locate "k0" 2)) (by decide +kernel))
  let f : Farewell := ⟨["A", "C"], "D", {}, .sip24, old, new⟩
  let made := fun a => Node.made a {} .sip24 old
  obtain ⟨serial, founded⟩ : ∃ serial, (Cluster.founded {} ["A", "C", "D"]).Hosts
      ⟨["A", "C", "D"], serial, some []⟩ made := by
    refine Cluster.exists_hosts_founded (by decide) fun a _ => ?_
    exact Node.create_eq_ok_iff.mpr ⟨by decide +kernel, .sip24, old, by decide +kernel, before, rfl⟩
  let e : Entry := ⟨"k0", [1], 1⟩
  have hosts := founded.stocked (show "C" ∈ ["A", "C", "D"] by decide) e
  have sound : f.Sound :=
    .of_built rfl before after (show "D" ∈ ["A", "C", "D"] by decide) rfl
  refine ⟨old, new, serial, _, before, after, sound, hosts,
    Farewell.Opening.of_single (e := e) fun a ha => ?_, oldOwners, newOwners⟩
  rw [show f.oldOwners e.key = ["C", "D"] from oldOwners]
  obtain rfl | rfl : a = "A" ∨ a = "C" := by simpa using ha
  · rfl
  · rfl

/-- A member has left, and the survivors hand over, one after the other in any
order, while clients put and remove keys through them, at whichever sendings.
The last write of a key is kept in all orders and for all choices of writes if
and only if the key is not at risk; and where it is, the last write is still
kept as long as clients wait with the key until one of its owners has handed
over. -/
theorem departure_keeps_writes_iff {f : Farewell} (sound : f.Sound) {c : Cluster}
    {who : Census} {nodes : Address → Node} {entry : String → Option Entry}
    (hosts : c.Hosts who nodes) (census : (who.without f.leaver).members = f.members)
    (opening : f.Opening entry nodes) (key : String) (now : Nat)
    (counted : f.settings.deadline.CountedFrom now) :
    ((∀ order script, order.Perm f.members → f.Admits script →
        f.Keeps entry key script order now { cluster := c, outside := {} }) ↔
      ¬ f.AtRisk entry key) ∧
    ∀ order script, order.Perm f.members → f.Admits script → f.Patient key order script →
      f.Keeps entry key script order now { cluster := c, outside := {} } := by
  refine ⟨⟨fun kept risk => ?_, fun calm order script perm admits => ?_⟩,
    fun order script perm admits patient => ?_⟩
  · obtain ⟨order, script, perm, admits, lost⟩ :=
      Farewell.not_keeps_of_atRisk sound now hosts census opening counted risk
    exact lost (kept order script perm admits)
  · exact Farewell.keeps_of_not_atRisk sound hosts census opening perm counted admits calm
  · exact Farewell.keeps_of_patient sound hosts census opening perm counted admits patient

theorem departure_keeps_writes_iff_of_three :
    ∃ old new, Ring.ofMembers Strategy.sip24 ["A", "C", "D"] = .ok old ∧
      Ring.ofMembers Strategy.sip24 ["A", "C"] = .ok new ∧
      let f : Farewell := ⟨["A", "C"], "D", {}, .sip24, old, new⟩
      let c := (Cluster.founded {} ["A", "C", "D"]).stocked "C" ⟨"k0", [1], 1⟩
      let entry := fun key => if key = "k0" then some (Entry.mk "k0" [1] 1) else none
      ((∀ order script, order.Perm f.members → f.Admits script →
          f.Keeps entry "k0" script order 0 { cluster := c, outside := {} }) ↔
        ¬ f.AtRisk entry "k0") ∧
      (∀ order script, order.Perm f.members → f.Admits script → f.Patient "k0" order script →
        f.Keeps entry "k0" script order 0 { cluster := c, outside := {} }) ∧
      f.AtRisk entry "k0" := by
  obtain ⟨old, new, serial, nodes, before, after, sound, hosts, opening, oldOwners, newOwners⟩ :=
    Farewell.exists_of_three
  obtain ⟨exact_, patient⟩ := departure_keeps_writes_iff sound hosts rfl opening "k0" 0
    (show Duration.CountedFrom 0 (Settings.deadline {}) by decide)
  refine ⟨old, new, before, after, exact_, patient, ⟨"C", ?_, ?_⟩, ⟨"A", newOwners, ?_⟩, .inl rfl⟩
  · exact show "C" ∈ ["A", "C"] by decide
  · rw [oldOwners]
    decide
  · rw [oldOwners]
    decide

/-- Keys are put and removed, and a put comes while the copy of an older value
is on its way: two owners of the key differ in the end. -/
def lateCopy : List Scenario.Step :=
  let members := ["A", "C", "D"]
  [.node "A" members {} true, .node "C" members {} true, .node "D" members {} true,
    .put "A" "k0" [1], .put "A" "k0" [2], .unregister "D",
    .leave "C" "D" "of C", .leave "A" "D" "of A",
    .hook (some "C") (some "A") .pushState 1 [.put "A" "k0" [3]],
    .run "of C", .run "of A", .store "C" (.get "k0"), .store "A" (.get "k0")]

theorem write_lost_by_departure :
    (Scenario.run lateCopy).filterMap (fun answer => match answer.outcome with
      | .store (.entry e) => some (e.map (·.value))
      | _ => none) = [some [3], some [2]] := by
  decide +kernel

end SlotRing
