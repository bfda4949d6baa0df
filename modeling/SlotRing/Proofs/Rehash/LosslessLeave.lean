/-
# When a departure loses no write

A member has left, and the survivors hand over while clients write.  A member
that gains a key is sent the writes of the key and, from every survivor that
owned it, a copy that was read before; the version decides which of them stays.
As long as the newcomer among the owners has taken part in all writes it is
ahead of everything that is still to be handed over (`Farewell.Safe`), and then
nothing is lost (`Farewell.safe_part`).

It has not taken part in those that were carried out before it got its first
copy.  Then it counts from the beginning, or it does not know that the key was
removed, and the copy wins.  That cannot happen where there is no such copy or
no such member (`Farewell.keeps_of_not_atRisk`), and it does not happen if
clients wait with the key until one of its owners has handed over
(`Farewell.keeps_of_patient`).
-/
import SlotRing.Proofs.Rehash.HandingOver

namespace SlotRing

theorem Chronicle.acknowledged_note {o : Chronicle} {r : Request}
    {outcome : Except TransportError Unit} :
    (o.note r outcome).Acknowledged ↔ o.Acknowledged ∧ outcome = .ok () := by
  simp only [Acknowledged, note, List.mem_append, List.mem_singleton]
  constructor
  · exact fun all => ⟨fun entry h => all entry (.inl h), all (r, outcome) (.inr rfl)⟩
  · rintro ⟨all, last⟩ entry (h | rfl)
    · exact all entry h
    · exact last

namespace Farewell

variable (f : Farewell)

def Survives (key : String) : Prop := ∃ a ∈ f.members, a ∈ f.oldOwners key

def Moves (key : String) : Prop := ∃ a ∈ f.newOwners key, a ∉ f.oldOwners key

/-- There are copies of the key that a member is to get without having taken
part in the writes that they come from. -/
def AtRisk (entry : String → Option Entry) (key : String) : Prop :=
  f.Survives key ∧ f.Moves key ∧ ((entry key).isSome ∨ f.leaver ∉ f.oldOwners key)

/-- Clients put and remove keys through the members that stay. -/
def Admits (script : Nat → Sending → List Request) : Prop :=
  ∀ i sending, ∀ r ∈ script i sending, r.issuer ∈ f.members ∧ ∃ wr, r.tx = .single wr

/-- The departure ends, every part with the new ring; and if all clients were
told that their writes have been carried out, all new owners have the last write
of the key, unless the leaver has taken the only copy with it. -/
def Keeps (entry : String → Option Entry) (key : String)
    (script : Nat → Sending → List Request) (order : List Address) (now : Nat)
    (w : World Chronicle) : Prop :=
  ∃ w', Rehash.departure (clients script) f.leaver order now w =
      .done w' (order.map fun _ => .ok f.new) ∧
    (w'.outside.Acknowledged →
      (f.Survives key ∨ ∃ wr ∈ w'.outside.writes, wr.key = key) →
      ∀ a ∈ f.newOwners key, ∃ n, w'.cluster.nodes.find? a = some n ∧
        n.store.value? key =
          valueAfter w'.outside.writes key ((entry key).map Entry.value))

/-- The members hold entries for exactly the keys that they own, the same as
the other owners, and nothing has been removed. -/
structure Opening (entry : String → Option Entry) (nodes : Address → Node) : Prop where
  rest : f.Rest (.settled f.old) nodes
  held : ∀ key, ∀ a ∈ f.members,
    (nodes a).store.get? key = if a ∈ f.oldOwners key then entry key else none
  removed : ∀ key, ∀ a ∈ f.members, (nodes a).store.removed? key = none

theorem Opening.of_single {f : Farewell} {e : Entry} {nodes : Address → Node}
    (stored : ∀ a ∈ f.members, nodes a = { Node.made a f.settings f.strategy f.old with
      store := if a ∈ f.oldOwners e.key then Store.empty.insert e else .empty }) :
    f.Opening (fun key => if key = e.key then some e else none) nodes where
  rest a ha := by
    rw [stored a ha]
    refine ⟨⟨rfl, rfl, rfl, rfl, fun _ => rfl, ?_⟩, rfl⟩
    dsimp only
    split
    · exact Store.keyed_empty.insert e
    · exact Store.keyed_empty
  held key a ha := by
    rw [stored a ha]
    dsimp only
    by_cases same : key = e.key
    · subst same
      split
      · exact Store.get?_empty_insert e e.key
      · exact Store.get?_empty e.key
    · rw [if_neg same, ite_self]
      split
      · exact (Store.get?_empty_insert e key).trans (if_neg same)
      · exact Store.get?_empty key
  removed key a ha := by
    rw [stored a ha]
    dsimp only
    split
    · exact Store.removed?_empty_insert e key
    · exact Std.ExtTreeMap.getElem?_empty

/-- All owners of a key have the last write, and those that have just come to
own it are ahead of the survivors that are still to hand it over. -/
structure Safe (key : String) (initial : Option (List UInt8)) (done : List Address)
    (D : Address → Store) (ws : List Write) : Prop where
  values : ∀ a ∈ f.newOwners key, (D a).value? key = valueAfter ws key initial
  ahead : ∀ g ∈ f.newOwners key, g ∉ f.oldOwners key → ∀ a ∈ f.oldOwners key, a ∈ f.members →
    a ∉ done → (D a).Behind (D g) key

/-! ## What keeps a key safe -/

section

variable {f : Farewell} (sound : f.Sound) {key : String} {initial : Option (List UInt8)}
  {done : List Address} {D D' : Address → Store} {ws : List Write}
include sound

theorem Safe.congr (h : f.Safe key initial done D ws)
    (same : ∀ a ∈ f.members, (D' a).SameAt (D a) key) : f.Safe key initial done D' ws where
  values a ha := (same a (mem_of_newOwner sound ha)).value?.trans (h.values a ha)
  ahead g hg fresh a ha mem todo :=
    (h.ahead g hg fresh a ha mem todo).congr (same a mem) (same g (mem_of_newOwner sound hg))

theorem Safe.apart (h : f.Safe key initial done D ws) {ws' : List Write}
    (same : ∀ a ∈ f.members, (D' a).SameAt (D a) key) (untouched : ∀ wr ∈ ws', wr.key ≠ key) :
    f.Safe key initial done D' (ws ++ ws') where
  values a ha := by
    rw [(h.congr sound same).values a ha, valueAfter_append, valueAfter_of_untouched untouched]
  ahead := (h.congr sound same).ahead

theorem Safe.write (h : f.Safe key initial done D ws) {serving : String → List Address}
    {tx : Transaction}
    (reach : (∃ w ∈ tx.writes, w.key = key) → ∀ a ∈ f.newOwners key, a ∈ serving key)
    (written : ∀ a ∈ f.members, D' a = (D a).writeAll (share serving tx a)) :
    f.Safe key initial done D' (ws ++ tx.writes) := by
  by_cases touched : ∃ w ∈ tx.writes, w.key = key
  · have mine (a : Address) (ha : a ∈ f.newOwners key) :
        (D' a).SameAt ((D a).writeAll tx.writes) key := by
      have := Store.sameAt_share (D a) serving tx a key
      rw [if_pos (reach touched a ha), ← written a (mem_of_newOwner sound ha)] at this
      exact this
    refine ⟨fun a ha => ?_, fun g hg fresh a ha mem todo => ?_⟩
    · rw [(mine a ha).value?, Store.value?_writeAll, h.values a ha, valueAfter_append]
    · have behind := h.ahead g hg fresh a ha mem todo
      have part := Store.sameAt_share (D a) serving tx a key
      rw [← written a mem] at part
      by_cases served : a ∈ serving key
      · rw [if_pos served] at part
        exact (behind.writeAll tx.writes).congr part (mine g hg)
      · rw [if_neg served] at part
        exact (behind.trans (Store.behind_writeAll _ _ _)).congr part (mine g hg)
  · have untouched : ∀ w ∈ tx.writes, w.key ≠ key := fun w hw same => touched ⟨w, hw, same⟩
    refine h.apart sound (fun a ha => ?_) untouched
    rw [written a ha]
    exact Store.sameAt_writeAll fun w hw => untouched w (List.mem_filter.mp hw).1

omit sound in
theorem sameAt_handed {x target : Address} {held es : List Entry}
    {rows : List (Address × List Entry)} (spec : f.Rows x held rows) (listed : (target, es) ∈ rows)
    (known : ∀ e ∈ held, e.key = key → ∀ g ∈ f.newOwners key, g ∉ f.oldOwners key →
      ∃ v, (D g).version? key = some v ∧ e.version ≤ v) (a : Address) :
    (Function.update D target ((D target).merge es).1 a).SameAt (D a) key := by
  by_cases same : a = target
  · subst same
    rw [Function.update_self]
    refine Store.sameAt_merge fun e he own => ?_
    obtain ⟨mem, mine, fresh⟩ := (spec.mem listed).mp he
    rw [own] at mine fresh
    rw [Store.accepts_eq_false_iff, own]
    exact known e mem own _ mine fresh
  · rw [Function.update_of_ne same]
    exact Store.SameAt.refl _ key

/-- Requests that reach all new owners of the key keep it safe; `E` is what
else is known, and stays true when stores get ahead. -/
theorem requests_keep {who : Census} (census : who.members = f.members) {x : Address}
    {script : Nat → Sending → List Request} {sending : Sending} {opened : Bool}
    (mine others : Going) {E : Store → (Address → Store) → Prop}
    (issuers : ∀ i, ∀ r ∈ script i sending, r.issuer ∈ f.members)
    (grows : ∀ s s' D D', (opened = true → s' = s) →
      (∀ a ∈ f.members, (D a).Behind (D' a) key) → E s D → E s' D')
    (reach : ∀ i, ∀ r ∈ script i sending, ∀ g, g = mine ∨ g = others →
      (∀ wr ∈ r.tx.writes, ∀ a ∈ f.recipients g wr.key, a ∈ f.members) →
      (∃ w ∈ r.tx.writes, w.key = key) → ∀ a ∈ f.newOwners key, a ∈ f.recipients g key) :
    let K := fun s D (o : Chronicle) =>
      o.Acknowledged → f.Safe key initial done D o.writes ∧ E s D
    (clients script).Leads who sending (f.Sees x opened (f.mapping mine) (f.mapping others) K)
      (f.Sees x opened (f.mapping mine) (f.mapping others) K) := by
  intro K
  refine clients_see sound census mine others (fun _ => K) issuers (fun _ _ _ k => k) ?_
    fun _ _ _ _ k => k
  intro i before r rest split s D o k g going outcome acked s' D' frozen written ok
  have listed : r ∈ script i sending := split ▸ List.mem_append_right _ List.mem_cons_self
  obtain ⟨ok, told⟩ := Chronicle.acknowledged_note.mp ok
  obtain ⟨safe, extra⟩ := k ok
  refine ⟨?_, grows s s' D D' frozen (fun a ha => ?_) extra⟩
  · rw [Chronicle.writes_note]
    refine safe.write sound (reach i r listed g ?_ (acked.mp told)) written
    rw [going]
    split
    · exact .inl rfl
    · exact .inr rfl
  · rw [written a ha]
    exact Store.behind_writeAll _ _ _

theorem reaches {g : Going} (gone : g ≠ .before) {a : Address} (ha : a ∈ f.newOwners key) :
    a ∈ f.recipients g key := by
  cases g with
  | before => exact absurd rfl gone
  | between => exact (mem_recipients_between sound).mpr ⟨.inr ha, mem_of_newOwner sound ha⟩
  | after => exact (mem_recipients_after sound).mpr ha

omit sound in
theorem Safe.past (h : f.Safe key initial done D ws) (x : Address) :
    f.Safe key initial (done ++ [x]) D ws where
  values := h.values
  ahead g hg fresh a ha mem todo :=
    h.ahead g hg fresh a ha mem fun past => todo (List.mem_append_left _ past)

omit sound in
theorem Safe.kept {x : Address} (h : f.Safe key initial (done ++ [x]) D ws) :
    f.Safe key initial (done ++ [x]) (Function.update D x (f.keptBy x (D x))) ws where
  values a ha := (sameAt_kept fun same => same ▸ ha).value?.trans (h.values a ha)
  ahead g hg fresh a ha mem todo := by
    refine (h.ahead g hg fresh a ha mem todo).congr (sameAt_kept fun same => ?_)
      (sameAt_kept fun same => same ▸ hg)
    exact absurd (same ▸ List.mem_append_right _ List.mem_cons_self) todo

/-- What a survivor holds of the key is not newer than what those know of it that come to
own it. -/
def Known (f : Farewell) (key : String) (held : List Entry) (D : Address → Store) : Prop :=
  ∀ e ∈ held, e.key = key → ∀ g ∈ f.newOwners key, g ∉ f.oldOwners key →
    ∃ v, (D g).version? key = some v ∧ e.version ≤ v

/-- The part of one survivor keeps a key safe, if no write that is told to be
carried out misses a new owner while members still go by the old ring. -/
theorem safe_part {who : Census} (census : who.members = f.members) {x : Address}
    (mem : x ∈ f.members) (todo : x ∉ done) {w : World Chronicle} {now : Nat} {rehash : Serial}
    (counted : f.settings.deadline.CountedFrom now)
    {script : Nat → Sending → List Request}
    (issuers : ∀ i sending, ∀ r ∈ script i sending, r.issuer ∈ f.members)
    (early : done = [] → ∀ i sending, sending.sender = x → ∀ r ∈ script i sending,
      (∀ wr ∈ r.tx.writes, ∀ a ∈ f.oldOwners wr.key, a ∈ f.members) →
      (∃ w ∈ r.tx.writes, w.key = key) → ∀ a ∈ f.newOwners key, a ∈ f.oldOwners key)
    (h : w.Holds who fun nodes o => f.Rest (f.mapping (reached done)) nodes ∧
      (o.Acknowledged → f.Safe key initial done (replayed nodes) o.writes)) :
    (Rehash.run (clients script) rehash (who.serial x) (.leave f.leaver f.old)).Ends now w
      fun w' r => r = .ok f.new ∧ ∃ errands, w'.Holds (who.leaving errands) fun nodes o =>
        f.Rest (.settled f.new) nodes ∧
        (o.Acknowledged → f.Safe key initial (done ++ [x]) (replayed nodes) o.writes) := by
  refine part_ends sound (silent_clients script) census mem counted
    (fun D o => o.Acknowledged → f.Safe key initial done D o.writes)
    (fun s D o => o.Acknowledged →
      f.Safe key initial done D o.writes ∧ s.Behind (D x) key)
    (fun s D o => o.Acknowledged →
      f.Safe key initial done D o.writes ∧ s.Behind (D x) key)
    (fun held _ D o => o.Acknowledged → f.Safe key initial done D o.writes ∧ f.Known key held D)
    (fun D o => o.Acknowledged → f.Safe key initial (done ++ [x]) D o.writes ∧ True)
    (fun D o => o.Acknowledged → f.Safe key initial (done ++ [x]) D o.writes ∧ True)
    (fun D o => o.Acknowledged → f.Safe key initial (done ++ [x]) D o.writes)
    h ?opened ?union ?start ?step ?finish ?final ?drop
  case opened => exact fun D o k ok => ⟨k ok, Store.Behind.refl _ key⟩
  case union =>
    refine requests_keep
      (E := fun s D => s.Behind (D x) key) sound census .between (reached done)
      (fun i => issuers i _) ?_ ?_
    · intro s s' D D' frozen ahead behind
      rw [frozen rfl]
      exact behind.trans (ahead x mem)
    · intro i r listed g going acked touched a ha
      cases done with
      | cons => exact reaches sound (by rcases going with rfl | rfl <;> simp [reached]) ha
      | nil =>
        rcases going with rfl | rfl
        · exact reaches sound (by simp) ha
        · refine (mem_recipients_before sound).mpr (early rfl i _ rfl r listed ?_ touched a ha)
          exact fun wr hwr b hb => acked wr hwr b ((mem_recipients_before sound).mpr hb)
  case start =>
    intro s D o keyed k ok
    obtain ⟨safe, behind⟩ := k ok
    refine ⟨safe, ?_⟩
    rintro e he rfl g hg fresh
    obtain ⟨found, owner⟩ := (Store.mem_select_iff keyed).mp he
    obtain ⟨v, hv, le⟩ := behind _ (Store.version?_of_get? found)
    obtain ⟨v', hv', le'⟩ :=
      safe.ahead g hg fresh x (List.contains_iff_mem.mp owner) mem todo v hv
    exact ⟨v', hv', Nat.le_trans le le'⟩
  case step =>
    intro held rows before row rest spec split
    refine (requests_keep
      (E := fun _ => f.Known key held) sound census .between .between (fun i => issuers i _) ?_
      ?_).mono ?_
    · intro _ _ D D' _ ahead all e he own g hg fresh
      obtain ⟨v, hv, le⟩ := all e he own g hg fresh
      obtain ⟨v', hv', le'⟩ := ahead g (mem_of_newOwner sound hg) v hv
      exact ⟨v', hv', Nat.le_trans le le'⟩
    · intro i r listed g going _ _ a ha
      exact reaches sound (by rcases going with rfl | rfl <;> simp) ha
    · rintro nodes o - ⟨run, k⟩
      refine ⟨run, fun ok => ?_⟩
      obtain ⟨safe, all⟩ := k ok
      have same := sameAt_handed (D := replayed nodes) spec
        (split ▸ List.mem_append_right _ List.mem_cons_self) all
      refine ⟨safe.congr sound fun a _ => same a, fun e he own g hg fresh => ?_⟩
      rw [(same g).version?]
      exact all e he own g hg fresh
  case finish => exact fun held rows D o _ k ok => ⟨(k ok).1.past x, trivial⟩
  case final =>
    refine requests_keep (E := fun _ _ => True) sound census .after .between
      (fun i => issuers i _) (fun _ _ _ _ _ _ h => h) ?_
    intro i r listed g going _ _ a ha
    exact reaches sound (by rcases going with rfl | rfl <;> simp) ha
  case drop => exact fun D o k ok => (k ok).1.kept

end

/-! ## Keys that are not at risk -/

section

variable {f : Farewell} (sound : f.Sound) {key : String} {entry : String → Option Entry}
  {c : Cluster} {who : Census} {nodes : Address → Node} {now : Nat} {order : List Address}
  {script : Nat → Sending → List Request}

theorem Opening.replayed_eq (h : f.Opening entry nodes) {a : Address} (ha : a ∈ f.members) :
    replayed nodes a = (nodes a).store :=
  (h.rest a ha).1.replayed

theorem Opening.get?_replayed (h : f.Opening entry nodes) {a : Address} (ha : a ∈ f.members) :
    (replayed nodes a).get? key = if a ∈ f.oldOwners key then entry key else none := by
  rw [h.replayed_eq ha, h.held key a ha]

theorem Opening.unknown (h : f.Opening entry nodes) {a : Address} (ha : a ∈ f.members)
    (none : a ∈ f.oldOwners key → entry key = none) :
    (replayed nodes a).version? key = .none := by
  have dead : (replayed nodes a).get? key = .none := by
    rw [h.get?_replayed ha]
    split
    · next owner => exact none owner
    · rfl
  rw [Store.version?_of_not_live dead, h.replayed_eq ha]
  exact h.removed key a ha

include sound

theorem exists_oldOwner {a : Address} (ha : a ∈ f.newOwners key) : ∃ b, b ∈ f.oldOwners key := by
  rw [newOwners, (sound_new sound).locate_eq_take] at ha
  have some : 0 < f.settings.owners := by
    refine Nat.pos_of_ne_zero fun none => ?_
    rw [none, List.take_zero] at ha
    cases ha
  have walked : f.leaver ∈ f.old.walk key :=
    sound.before.mem_walk_iff.mpr (sound.mem_old.mpr (.inr rfl))
  rw [oldOwners, sound.before.locate_eq_take]
  cases walk : f.old.walk key with
  | nil => rw [walk] at walked; cases walked
  | cons b rest =>
    obtain ⟨n, eq⟩ := Nat.exists_eq_add_of_lt some
    refine ⟨b, ?_⟩
    rw [show f.settings.owners = n + 1 by omega, List.take_succ_cons]
    exact List.mem_cons_self

/-- What the parts lead to is what the departure leads to. -/
theorem keeps_of_ends {w : World Chronicle} (initial : Option (List UInt8))
    (census : (who.without f.leaver).members = f.members)
    (meant : ∀ ws : List Write, (f.Survives key ∨ ∃ wr ∈ ws, wr.key = key) →
      valueAfter ws key initial = valueAfter ws key ((entry key).map Entry.value))
    (h : (Rehash.departure (clients script) f.leaver order).Ends now w fun w' rs =>
      rs = order.map (fun _ => .ok f.new) ∧
      ∃ errands, w'.Holds ((who.without f.leaver).leaving errands) fun nodes o =>
        f.Rest (f.mapping (reached order)) nodes ∧
        (o.Acknowledged → f.Safe key initial order (replayed nodes) o.writes)) :
    f.Keeps entry key script order now w := by
  obtain ⟨w', rs, run, rfl, errands, nodes', hosts', rest, safe⟩ := h
  refine ⟨w', run, fun ok counts a ha => ?_⟩
  have mem := mem_of_newOwner sound ha
  have value := (safe ok).values a ha
  rw [meant _ counts, replayed, (rest a mem).1.replayed] at value
  exact ⟨nodes' a, hosts'.find? (census.symm ▸ mem), value⟩

/-- Where no member can be surprised by a copy, the last write of the key is
kept. -/
theorem keeps_of_not_atRisk (hosts : c.Hosts who nodes)
    (census : (who.without f.leaver).members = f.members) (opening : f.Opening entry nodes)
    (perm : order.Perm f.members) (counted : f.settings.deadline.CountedFrom now)
    (admits : f.Admits script) (calm : ¬ f.AtRisk entry key) :
    f.Keeps entry key script order now { cluster := c, outside := {} } := by
  classical
  have distinct := nodup_order hosts census perm
  -- a key all of whose owners leave begins with nothing
  let initial := if f.Survives key then (entry key).map Entry.value else none
  have start : f.Safe key initial [] (replayed nodes) [] := by
    refine ⟨fun a ha => ?_, fun g hg fresh a ha mem _ => ?_⟩
    · have mem := mem_of_newOwner sound ha
      rw [Store.value?, opening.get?_replayed mem]
      show _ = initial
      by_cases owner : a ∈ f.oldOwners key
      · rw [if_pos owner, show initial = _ from if_pos ⟨a, mem, owner⟩]
      · rw [if_neg owner]
        by_cases survives : f.Survives key
        · have dead : entry key = none := by
            have := mt (fun live => ⟨survives, ⟨a, ha, owner⟩, .inl live⟩) calm
            simpa using this
          rw [show initial = _ from if_pos survives, dead]
        · rw [show initial = _ from if_neg survives]
          rfl
    · refine Store.behind_of_unknown (opening.unknown mem fun _ => ?_)
      have := mt (fun live => ⟨⟨a, mem, ha⟩, ⟨g, hg, fresh⟩, .inl live⟩) calm
      simpa using this
  refine keeps_of_ends sound initial census ?_ ?_
  · rintro ws (survives | touched)
    · rw [show initial = _ from if_pos survives]
    · exact valueAfter_of_touched touched _
  refine departure_ends
    (J := fun done D (o : Chronicle) => o.Acknowledged → f.Safe key initial done D o.writes) census
    (fun a ha => perm.subset ha) ⟨nodes, hosts, opening.rest, fun _ => start⟩ ?_
  intro done x rest split who' w' rehash census' holds
  have mem : x ∈ f.members :=
    perm.subset (split ▸ List.mem_append_right _ List.mem_cons_self)
  have todo : x ∉ done := fun past =>
    List.disjoint_of_nodup_append (split ▸ distinct) past List.mem_cons_self
  refine safe_part sound census' mem todo counted
    (fun i sending r hr => (admits i sending r hr).1) ?_ holds
  -- an early write that is carried out has met all owners, and they all stay
  rintro - i sending - r hr acked ⟨wr, hwr, rfl⟩ a ha
  by_contra fresh
  have member := mem_of_newOwner sound ha
  have stay : f.leaver ∉ f.oldOwners wr.key := fun left => sound.left (acked wr hwr _ left)
  obtain ⟨b, hb⟩ := exists_oldOwner sound ha
  exact calm ⟨⟨b, acked wr hwr b hb, hb⟩, ⟨a, ha, fresh⟩, .inr stay⟩

end

/-! ## Keys that are written later -/

theorem mem_of_mem_later {order done rest before later : List Address} {x a : Address}
    (distinct : order.Nodup) (now_ : done ++ x :: rest = order)
    (split : before ++ a :: later = order) (mem : x ∈ later) : a ∈ done := by
  subst split
  have apart := List.disjoint_of_nodup_append distinct
  have tail : (a :: later).Nodup := distinct.of_append_right
  rcases List.append_eq_append_iff.mp now_ with ⟨mid, rfl, eq⟩ | ⟨mid, rfl, eq⟩
  · cases mid with
    | nil =>
      obtain ⟨rfl, -⟩ := List.cons.inj eq
      exact absurd mem (List.nodup_cons.mp tail).1
    | cons y mid =>
      obtain ⟨rfl, -⟩ := List.cons.inj eq
      exact absurd (List.mem_cons_of_mem a mem)
        (apart (List.mem_append_right _ List.mem_cons_self))
  · cases mid with
    | nil =>
      obtain ⟨rfl, -⟩ := List.cons.inj eq
      exact absurd mem (List.nodup_cons.mp tail).1
    | cons y mid =>
      obtain ⟨rfl, -⟩ := List.cons.inj eq
      exact List.mem_append_right _ List.mem_cons_self

/-- Nobody writes the key before one of its owners that stay has handed over. -/
def Patient (f : Farewell) (key : String) (order : List Address)
    (script : Nat → Sending → List Request) : Prop :=
  ∀ i sending, ∀ r ∈ script i sending, (∃ wr ∈ r.tx.writes, wr.key = key) →
    ∃ past x todo, order = past ++ x :: todo ∧ x ∈ f.oldOwners key ∧ sending.sender ∈ todo

section

variable {f : Farewell} (sound : f.Sound) {key : String} {entry : String → Option Entry}
  {who : Census} {nodes : Address → Node} {w : World Chronicle} {now : Nat} {rehash : Serial}
  {x : Address} {script : Nat → Sending → List Request}
include sound

theorem requests_apart (census : who.members = f.members) {sending : Sending} {opened : Bool}
    (mine others : Going) {K : Store → (Address → Store) → List Write → Prop}
    (issuers : ∀ i, ∀ r ∈ script i sending, r.issuer ∈ f.members)
    (apart : ∀ i, ∀ r ∈ script i sending, ∀ wr ∈ r.tx.writes, wr.key ≠ key)
    (congr : ∀ s s' D D' ws ws', (opened = true → s' = s) →
      (∀ a ∈ f.members, (D' a).SameAt (D a) key) → (∀ wr ∈ ws', wr.key ≠ key) →
      K s D ws → K s' D' (ws ++ ws')) :
    (clients script).Leads who sending
      (f.Sees x opened (f.mapping mine) (f.mapping others)
        fun s D (o : Chronicle) => K s D o.writes)
      (f.Sees x opened (f.mapping mine) (f.mapping others) fun s D o => K s D o.writes) := by
  refine clients_see sound census mine others (fun _ s D o => K s D o.writes) issuers
    (fun _ _ _ k => k) ?_ fun _ _ _ _ k => k
  intro i done r rest split s D o k g _ outcome _ s' D' frozen written
  have about := apart i r (split ▸ List.mem_append_right _ List.mem_cons_self)
  rw [Chronicle.writes_note]
  refine congr s s' D D' _ _ frozen (fun a ha => ?_) about k
  rw [written a ha]
  exact Store.sameAt_writeAll fun wr hwr => about wr (List.mem_filter.mp hwr).1

omit sound in
theorem Opening.key_eq (h : f.Opening entry nodes) (mem : x ∈ f.members)
    (owns : x ∈ f.oldOwners key) {e : Entry} (live : entry key = some e) : e.key = key :=
  (h.rest x mem).1.keyed key e ((h.held key x mem).trans ((if_pos owns).trans live))

omit sound in
theorem Opening.passing (h : f.Opening entry nodes) :
    f.Passing key (replayed nodes) [] [] (replayed nodes) :=
  passing_nil fun _ mem other => (h.get?_replayed mem).trans (if_neg other)

omit sound in
/-- Whoever gains the key has the same entry as the owners that hand it over. -/
theorem Passing.get?_gained (opening : f.Opening entry nodes) {past dropped : List Address}
    {D : Address → Store} (h : f.Passing key (replayed nodes) past dropped D)
    (stay : ∀ a ∈ past, a ∈ f.members) (handed : x ∈ past) (owns : x ∈ f.oldOwners key)
    {g : Address} (mem : g ∈ f.members) (hg : g ∈ f.newOwners key) (fresh : g ∉ f.oldOwners key) :
    (D g).get? key = entry key := by
  have dead : (replayed nodes g).get? key = none := by
    rw [opening.get?_replayed mem, if_neg fresh]
  rcases h.gained g hg fresh with ⟨same, refused⟩ | ⟨e, ⟨a, ha, old, held⟩, found, -⟩
  · rw [same.1, dead]
    cases live : entry key with
    | none => rfl
    | some e =>
      have offer : f.Offer (replayed nodes) key x e := by
        refine ⟨owns, ?_⟩
        rw [opening.get?_replayed (stay x handed), if_pos owns, live]
      obtain ⟨v, known, -⟩ := Store.accepts_eq_false_iff.mp (refused e ⟨x, handed, offer⟩)
      rw [opening.key_eq (stay x handed) owns live,
        opening.unknown mem fun old => absurd old fresh] at known
      cases known
  · rw [found, ← held, opening.get?_replayed (stay a ha), if_pos old]

theorem Passing.safe (opening : f.Opening entry nodes) {past dropped : List Address}
    {D : Address → Store} (h : f.Passing key (replayed nodes) past dropped D)
    (sub : ∀ a ∈ dropped, a ∈ past) (stay : ∀ a ∈ past, a ∈ f.members) (handed : x ∈ past)
    (owns : x ∈ f.oldOwners key) {ws : List Write} (untouched : ∀ wr ∈ ws, wr.key ≠ key) :
    f.Safe key ((entry key).map Entry.value) past D ws := by
  refine ⟨fun a ha => ?_, fun g hg fresh a ha mem todo => ?_⟩
  · rw [valueAfter_of_untouched untouched, Store.value?]
    have mem := mem_of_newOwner sound ha
    by_cases old : a ∈ f.oldOwners key
    · rw [(h.kept a mem old fun _ => ha).1, opening.get?_replayed mem, if_pos old]
    · rw [h.get?_gained opening stay handed owns mem ha old]
  · have same := h.kept a mem ha fun gone => absurd (sub a gone) todo
    refine Store.Behind.congr ?_ same (Store.SameAt.refl _ key)
    cases live : entry key with
    | none => exact Store.behind_of_unknown (opening.unknown mem fun _ => live)
    | some e =>
      have copy := h.get?_gained opening stay handed owns (mem_of_newOwner sound hg) hg fresh
      have held : (replayed nodes a).get? key = some e := by
        rw [opening.get?_replayed mem, if_pos ha, live]
      intro v known
      rw [Store.version?_of_get? held] at known
      exact ⟨v, (Store.version?_of_get? (copy.trans live)).trans known, Nat.le_refl v⟩

/-- Where nobody writes the key too early: it is safe once one of its owners has had its
part, and before that it is handed over, and has not been written. -/
structure Awaited (f : Farewell) (key : String) (entry : String → Option Entry)
    (nodes : Address → Node) (done : List Address) (D : Address → Store) (o : Chronicle) :
    Prop where
  safe : (∃ a ∈ done, a ∈ f.oldOwners key) → o.Acknowledged →
    f.Safe key ((entry key).map Entry.value) done D o.writes
  passing : (∀ a ∈ done, a ∉ f.oldOwners key) →
    f.Passing key (replayed nodes) done done D ∧ ∀ wr ∈ o.writes, wr.key ≠ key

/-- A part before any owner has had its own: the key is not written meanwhile. -/
theorem part_before_owner {done : List Address} (census : who.members = f.members)
    (opening : f.Opening entry nodes) (mem : x ∈ f.members) (todo : x ∉ done)
    (counted : f.settings.deadline.CountedFrom now) (stay : ∀ a ∈ done, a ∈ f.members)
    (admits : f.Admits script)
    (apart : ∀ i sending, sending.sender = x → ∀ r ∈ script i sending,
      ∀ wr ∈ r.tx.writes, wr.key ≠ key)
    (h : w.Holds who fun ns o => f.Rest (f.mapping (reached done)) ns ∧
      f.Passing key (replayed nodes) done done (replayed ns) ∧ ∀ wr ∈ o.writes, wr.key ≠ key) :
    (Rehash.run (clients script) rehash (who.serial x) (.leave f.leaver f.old)).Ends now w
      fun w' r => r = .ok f.new ∧ ∃ errands, w'.Holds (who.leaving errands) fun ns o =>
        f.Rest (.settled f.new) ns ∧ f.Awaited key entry nodes (done ++ [x]) (replayed ns) o := by
  have begun : w.Holds who fun ns o => f.Rest (f.mapping (reached done)) ns ∧
      (∀ k, k = key → f.Passing k (replayed nodes) done done (replayed ns)) ∧
      ∀ wr ∈ o.writes, wr.key ≠ key :=
    h.mono fun ns o k => ⟨k.1, fun _ eq => eq ▸ k.2.1, k.2.2⟩
  refine (passing_part (· = key) (fun o => ∀ wr ∈ o.writes, wr.key ≠ key) sound
    (silent_clients script) census mem counted todo ?_ ?_ ?_ begun).mono ?_
  · rw [opening.replayed_eq mem]
    exact (opening.rest x mem).1.keyed
  · rintro _ rfl g hg fresh
    rw [opening.get?_replayed (mem_of_newOwner sound hg), if_neg fresh]
  · intro sending opened mine others K self congr
    refine requests_apart sound census mine others
      (K := fun s D ws => K s D ∧ ∀ wr ∈ ws, wr.key ≠ key)
      (fun i r hr => (admits i sending r hr).1) (fun i => apart i sending self) ?_
    rintro s s' D D' ws ws' frozen all about ⟨k, m⟩
    refine ⟨congr s s' D D' frozen (fun _ eq => eq ▸ all) k, fun wr hwr => ?_⟩
    exact (List.mem_append.mp hwr).elim (m wr) (about wr)
  · rintro w' r ⟨rfl, errands, holds⟩
    refine ⟨rfl, errands, holds.mono fun ns o k => ⟨k.1, ?_, fun _ => ⟨k.2.1 key rfl, k.2.2⟩⟩⟩
    rintro ⟨a, ha, owner⟩ -
    refine (k.2.1 key rfl).safe sound opening (fun _ h => h) (fun b hb => ?_) ha owner k.2.2
    rcases List.mem_append.mp hb with past | last
    · exact stay b past
    · exact List.mem_singleton.mp last ▸ mem

theorem part_after_owner {done : List Address} (census : who.members = f.members)
    (mem : x ∈ f.members) (todo : x ∉ done) (counted : f.settings.deadline.CountedFrom now)
    (admits : f.Admits script) (past : ∃ a ∈ done, a ∈ f.oldOwners key)
    (h : w.Holds who fun ns o => f.Rest (f.mapping (reached done)) ns ∧ (o.Acknowledged →
      f.Safe key ((entry key).map Entry.value) done (replayed ns) o.writes)) :
    (Rehash.run (clients script) rehash (who.serial x) (.leave f.leaver f.old)).Ends now w
      fun w' r => r = .ok f.new ∧ ∃ errands, w'.Holds (who.leaving errands) fun ns o =>
        f.Rest (.settled f.new) ns ∧ f.Awaited key entry nodes (done ++ [x]) (replayed ns) o := by
  obtain ⟨a, ha, owner⟩ := past
  refine (safe_part sound census mem todo counted
    (fun i sending r hr => (admits i sending r hr).1) ?_ h).mono ?_
  · rintro rfl
    cases ha
  · rintro w' r ⟨rfl, errands, holds⟩
    refine ⟨rfl, errands, holds.mono fun ns o k => ⟨k.1, fun _ => k.2, fun none => ?_⟩⟩
    exact absurd owner (none a (List.mem_append_left _ ha))

/-- No write of the key is lost if there is none before one of its owners that
stay has handed over. -/
theorem keeps_of_patient {c : Cluster} {order : List Address} (hosts : c.Hosts who nodes)
    (census : (who.without f.leaver).members = f.members) (opening : f.Opening entry nodes)
    (perm : order.Perm f.members) (counted : f.settings.deadline.CountedFrom now)
    (admits : f.Admits script) (patient : f.Patient key order script) :
    f.Keeps entry key script order now { cluster := c, outside := {} } := by
  by_cases risk : f.AtRisk entry key
  case neg => exact keeps_of_not_atRisk sound hosts census opening perm counted admits risk
  obtain ⟨⟨owner, stays, owns⟩, -⟩ := risk
  have distinct := nodup_order hosts census perm
  refine keeps_of_ends sound ((entry key).map Entry.value) census
    (fun _ _ => rfl) ?_
  refine (departure_ends (J := f.Awaited key entry nodes) census (fun a ha => perm.subset ha)
    ⟨nodes, hosts, opening.rest, ?_, ?_⟩ ?_).mono ?_
  · rintro ⟨a, past, -⟩
    cases past
  · exact fun _ => ⟨opening.passing, fun wr h => absurd h List.not_mem_nil⟩
  · intro done x rest split who' w' rehash census' holds
    have mem : x ∈ f.members :=
      perm.subset (split ▸ List.mem_append_right _ List.mem_cons_self)
    have stay : ∀ a ∈ done, a ∈ f.members := fun a ha =>
      perm.subset (split ▸ List.mem_append_left _ ha)
    have todo : x ∉ done := fun past =>
      List.disjoint_of_nodup_append (split ▸ distinct) past List.mem_cons_self
    by_cases past : ∃ a ∈ done, a ∈ f.oldOwners key
    · exact part_after_owner sound census' mem todo counted admits past
        (holds.mono fun ns o k => ⟨k.1, k.2.safe past⟩)
    · have none : ∀ a ∈ done, a ∉ f.oldOwners key := fun a ha owner => past ⟨a, ha, owner⟩
      have apart : ∀ i sending, sending.sender = x → ∀ r ∈ script i sending,
          ∀ wr ∈ r.tx.writes, wr.key ≠ key := by
        rintro i sending rfl r hr wr hwr own
        obtain ⟨before, a, later, split', owner, mem'⟩ := patient i sending r hr ⟨wr, hwr, own⟩
        exact none a (mem_of_mem_later distinct split split'.symm mem') owner
      exact part_before_owner sound census' opening mem todo counted stay admits apart
        (holds.mono fun ns o k => ⟨k.1, k.2.passing none⟩)
  · rintro w' rs ⟨all, errands, holds⟩
    exact ⟨all, errands, holds.mono fun ns o k =>
      ⟨k.1, k.2.safe ⟨owner, perm.symm.subset stays, owns⟩⟩⟩

end

end Farewell

end SlotRing
