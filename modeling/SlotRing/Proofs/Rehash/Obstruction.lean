/-
# What a departure fails to hand over

What a member remembers of a key that it saw removed it keeps when the key is
no longer its own.  It goes by that when it is handed a copy later on: if the
key has been put anew meanwhile, and not been written often enough since, the
copy counts as older than what was removed, and is refused.  Then the departure
is obstructed (`Cluster.Obstructed`), and an owner of the key is left without
it.  A departure that is not obstructed leaves a tidy cluster tidy
(`Tidy.leave_ends`).
-/
import SlotRing.Proofs.Rehash.HandingOver
import SlotRing.Proofs.Rehash.Turns

namespace SlotRing

namespace Farewell

variable (f : Farewell)

/-- A member that comes to own a key remembers of it that it was removed, at a
version that the copies of the owners that stay have not got beyond. -/
def Obstructed (D₀ : Address → Store) (key : String) (g : Address) : Prop :=
  (∃ a ∈ f.members, a ∈ f.oldOwners key ∧ ((D₀ a).get? key).isSome) ∧
    ∃ version, (D₀ g).removed? key = some version ∧
      ∀ a ∈ f.members, a ∈ f.oldOwners key → ∀ e, (D₀ a).get? key = some e → e.version ≤ version

variable {f} {D₀ D : Address → Store} {order dropped : List Address} {key : String}
  {value : Option (List UInt8)} {g : Address}

/-- When all have handed over, a member that has come to own a key has its
value, unless it is obstructed. -/
theorem Passing.value?_gained_iff (h : f.Passing key D₀ order dropped D)
    (all : ∀ a, a ∈ order ↔ a ∈ f.members) (keyed : ∀ a ∈ f.members, (D₀ a).Keyed)
    (held : ∀ a ∈ f.members, a ∈ f.oldOwners key → (D₀ a).value? key = value)
    (survives : ∃ a ∈ f.members, a ∈ f.oldOwners key) (dead : (D₀ g).get? key = none)
    (gains : g ∈ f.newOwners key) (fresh : g ∉ f.oldOwners key) :
    (D g).value? key = value ↔ ¬ f.Obstructed D₀ key g := by
  obtain ⟨owner, stays, owns⟩ := survives
  have own := held owner stays owns
  rcases h.gained g gains fresh with
    ⟨same, refused⟩ | ⟨e, ⟨a, ha, old, found⟩, got, e', offer, taken⟩
  · have absent : (D g).value? key = none := Store.value?_eq_none_iff.mpr (same.1.trans dead)
    rw [absent]
    cases live : (D₀ owner).get? key with
    | none =>
      refine ⟨?_, fun _ => (Store.value?_eq_none_iff.mpr live).symm.trans own⟩
      rintro - ⟨⟨a, mem, old, some⟩, -⟩
      have copy := (held a mem old).trans own.symm
      rw [Store.value?_eq_none_iff.mpr live, Store.value?_eq_none_iff] at copy
      rw [copy] at some
      cases some
    | some e =>
      have offered : f.Offer D₀ key owner e := ⟨owns, live⟩
      have known (a : Address) (e : Entry) (mem : a ∈ f.members) (offer : f.Offer D₀ key a e) :
          ∃ v, (D₀ g).removed? key = some v ∧ e.version ≤ v := by
        have := Store.accepts_eq_false_iff.mp (refused e ⟨a, (all a).mpr mem, offer⟩)
        rw [keyed a mem key e offer.2, Store.version?_of_not_live dead] at this
        exact this
      obtain ⟨version, removed, -⟩ := known owner e stays offered
      have clear : value ≠ none := by
        rw [← own, Store.value?, live]
        simp
      refine ⟨fun none => absurd none.symm clear, fun free => (free ?_).elim⟩
      refine ⟨⟨owner, stays, owns, by rw [live]; rfl⟩, version, removed, fun a mem old e he => ?_⟩
      obtain ⟨v, hv, le⟩ := known a e mem ⟨old, he⟩
      rw [removed] at hv
      cases hv
      exact le
  · have right : (D g).value? key = value := by
      rw [← held a ((all a).mp ha) old, Store.value?, Store.value?, got, found]
    refine ⟨fun _ => ?_, fun _ => right⟩
    rintro ⟨-, version, removed, behind⟩
    obtain ⟨a', ha', old', found'⟩ := offer
    have mem' := (all a').mp ha'
    have refused : (D₀ g).accepts e' = false := by
      rw [Store.accepts_eq_false_iff, keyed a' mem' key e' found', Store.version?_of_not_live dead]
      exact ⟨version, removed, behind a' mem' old' e' found'⟩
    rw [refused] at taken
    cases taken

theorem exists_remaining_owner (sound : f.Sound) (copies : 2 ≤ f.settings.owners)
    (inhabited : f.members ≠ []) (key : String) : ∃ a ∈ f.members, a ∈ f.oldOwners key := by
  obtain ⟨b, hb⟩ := List.exists_mem_of_ne_nil _ inhabited
  have left : f.leaver ∈ f.old.walk key :=
    sound.before.mem_walk_iff.mpr (sound.mem_old.mpr (.inr rfl))
  have stays : b ∈ f.old.walk key := sound.before.mem_walk_iff.mpr (sound.mem_old.mpr (.inl hb))
  have other : b ≠ f.leaver := fun same => sound.left (same ▸ hb)
  have distinct := sound.before.nodup_walk key
  have member {a : Address} (ha : a ∈ f.old.walk key) (stays : a ≠ f.leaver) : a ∈ f.members :=
    (sound.mem_old.mp (sound.before.mem_walk_iff.mp ha)).resolve_right stays
  obtain ⟨n, enough⟩ : ∃ n, f.settings.owners = n + 2 := ⟨_, (Nat.sub_add_cancel copies).symm⟩
  rw [oldOwners, sound.before.locate_eq_take, enough]
  cases walk : f.old.walk key with
  | nil => rw [walk] at left; cases left
  | cons p rest =>
    cases rest with
    | nil =>
      rw [walk, List.mem_singleton] at left stays
      exact absurd (stays.trans left.symm) other
    | cons q rest =>
      rw [walk] at member distinct
      rw [List.take_succ_cons, List.take_succ_cons]
      by_cases same : p = f.leaver
      · have apart : q ≠ f.leaver := fun eq =>
          (List.nodup_cons.mp distinct).1 (same.trans eq.symm ▸ List.mem_cons_self)
        exact ⟨q, member (List.mem_cons_of_mem _ List.mem_cons_self) apart,
          List.mem_cons_of_mem _ List.mem_cons_self⟩
      · exact ⟨p, member List.mem_cons_self same, List.mem_cons_self⟩

end Farewell

/-- Someone cannot be handed what it comes to own when `leaver` has left: it
remembers a key as removed, at a version that the owners that stay have not got
beyond, although they hold the key. -/
def Cluster.Obstructed (c : Cluster) (copies : Nat) (old new : MemberRing) (leaver : Address) :
    Prop :=
  ∃ key, ∃ g ∈ new.locate key copies, g ∉ old.locate key copies ∧
    ∃ n, c.nodes.find? g = some n ∧ ∃ version, n.store.removed? key = some version ∧
      (∃ a ∈ old.locate key copies, a ≠ leaver ∧
        ∃ m, c.nodes.find? a = some m ∧ (m.store.get? key).isSome) ∧
      ∀ a ∈ old.locate key copies, a ≠ leaver → ∀ m e, c.nodes.find? a = some m →
        m.store.get? key = some e → e.version ≤ version

/-- The cluster is obstructed if one of the members that gain a key is. -/
theorem Farewell.obstructed_iff {f : Farewell} (sound : f.Sound) {c : Cluster} {who : Census}
    {nodes : Address → Node} (hosts : c.Hosts who nodes)
    (hosted : ∀ a ∈ f.members, a ∈ who.members)
    (store : ∀ a ∈ f.members, replayed nodes a = (nodes a).store) :
    c.Obstructed f.settings.owners f.old f.new f.leaver ↔
      ∃ key, ∃ g ∈ f.newOwners key, g ∉ f.oldOwners key ∧
        f.Obstructed (replayed nodes) key g := by
  have found {a : Address} (ha : a ∈ f.members) {n : Node} (h : c.nodes.find? a = some n) :
      n = nodes a :=
    Option.some.inj (h.symm.trans (hosts.find? (hosted a ha)))
  constructor
  · rintro ⟨key, g, gains, fresh, n, gainer, version, removed, ⟨a, old, stays, m, owner, live⟩,
      behind⟩
    have mem := mem_of_newOwner sound gains
    have mem' := mem_of_oldOwner sound old stays
    refine ⟨key, g, gains, fresh, ⟨a, mem', old, ?_⟩, version, ?_, fun b hb old' e he => ?_⟩
    · rw [store a mem', ← found mem' owner]
      exact live
    · rw [store g mem, ← found mem gainer]
      exact removed
    · rw [store b hb] at he
      exact behind b old' (fun eq => sound.left (eq ▸ hb)) _ e (hosts.find? (hosted b hb)) he
  · rintro ⟨key, g, gains, fresh, ⟨a, mem', old, live⟩, version, removed, behind⟩
    have mem := mem_of_newOwner sound gains
    rw [store a mem'] at live
    rw [store g mem] at removed
    refine ⟨key, g, gains, fresh, nodes g, hosts.find? (hosted g mem), version, removed,
      ⟨a, old, fun eq => sound.left (eq ▸ mem'), nodes a, hosts.find? (hosted a mem'), live⟩, ?_⟩
    intro b old' stays m e owner he
    have hb := mem_of_oldOwner sound old' stays
    rw [found hb owner, ← store b hb] at he
    exact behind b hb old' e he

section

variable {settings : Settings} {strategy : Strategy} {members : List Address}
  {ring new : MemberRing} {value : String → Option (List UInt8)} {nodes : Address → Node}
  {who : Census} {w : World Unit} {now : Nat} {d a : Address} {key : String}
  {order : List Address}

theorem Tidy.replayed_eq (tidy : Tidy settings strategy members ring value nodes)
    (mem : a ∈ members) : replayed nodes a = (nodes a).store :=
  (tidy.rest a mem).1.replayed

theorem Tidy.value?_owned (tidy : Tidy settings strategy members ring value nodes)
    (mem : a ∈ members) (owns : a ∈ ring.locate key settings.owners) :
    (replayed nodes a).value? key = value key := by
  rw [tidy.replayed_eq mem, tidy.values key a mem, if_pos owns]

theorem Tidy.get?_foreign (tidy : Tidy settings strategy members ring value nodes)
    (mem : a ∈ members) (other : a ∉ ring.locate key settings.owners) :
    (replayed nodes a).get? key = none := by
  rw [← Store.value?_eq_none_iff, tidy.replayed_eq mem, tidy.values key a mem, if_neg other]

theorem Tidy.passing_ends {f : Farewell} (sound : f.Sound)
    (tidy : Tidy f.settings f.strategy members f.old value nodes)
    (stay : ∀ a ∈ f.members, a ∈ members)
    (census : (who.without f.leaver).members = f.members) (perm : order.Perm f.members)
    (counted : f.settings.deadline.CountedFrom now) (hosts : w.cluster.Hosts who nodes) :
    (Rehash.departure .quiet f.leaver order).Ends now w fun w' _ =>
      ∃ errands, w'.Holds ((who.without f.leaver).leaving errands) fun nodes' _ =>
        f.Rest (f.mapping (Farewell.reached order)) nodes' ∧
        ∀ key, f.Passing key (replayed nodes) order order (replayed nodes') := by
  have distinct := Farewell.nodup_order hosts census perm
  have dead (key : String) (a : Address) (ha : a ∈ f.members) (other : a ∉ f.oldOwners key) :
      (replayed nodes a).get? key = none := tidy.get?_foreign (stay a ha) other
  have start : w.Holds who fun nodes' o => f.Rest (.settled f.old) nodes' ∧
      (∀ key, True → f.Passing key (replayed nodes) [] [] (replayed nodes')) ∧ True :=
    ⟨nodes, hosts, fun a ha => tidy.rest a (stay a ha),
      fun key _ => Farewell.passing_nil (dead key), trivial⟩
  refine (Farewell.departure_ends (J := fun done D (_ : Unit) =>
    (∀ key, True → f.Passing key (replayed nodes) done done D) ∧ True) census
    (fun a ha => perm.subset ha) start ?_).mono ?_
  · intro done x rest split who' w' rehash census' holds
    have mem : x ∈ f.members := perm.subset (split ▸ List.mem_append_right _ List.mem_cons_self)
    have todo : x ∉ done := fun past =>
      List.disjoint_of_nodup_append (split ▸ distinct) past List.mem_cons_self
    refine Farewell.passing_part (fun _ => True) (fun _ => True) sound Surroundings.silent_quiet
      census' mem counted todo ?_ ?_ ?_ holds
    · rw [tidy.replayed_eq (stay x mem)]
      exact (tidy.rest x (stay x mem)).1.keyed
    · exact fun key _ g gains fresh => dead key g (Farewell.mem_of_newOwner sound gains) fresh
    · exact fun _ _ _ _ _ _ _ => Surroundings.leads_quiet fun _ _ h => h
  · rintro w' _ ⟨-, errands, holds⟩
    exact ⟨errands, holds.mono fun nodes' _ k => ⟨k.1, fun key => k.2.1 key trivial⟩⟩

/-- A departure ends with all members on the new ring.  It leaves a tidy
cluster tidy unless it is obstructed, and then some owner has not the value of
its key. -/
theorem Tidy.leave_ends (built : Ring.ofMembers strategy members = .ok ring)
    (left : Ring.ofMembers strategy (members.filter (· != d)) = .ok new)
    (census : who.members = members) (mem : d ∈ members)
    (perm : order.Perm (members.filter (· != d))) (inhabited : order ≠ [])
    (copies : 2 ≤ settings.owners) (enabled : settings.rehashEnabled = true)
    (counted : settings.deadline.CountedFrom now)
    (h : w.Holds who fun nodes _ => Tidy settings strategy members ring value nodes) :
    (Rehash.departure .quiet d order).Ends now w fun w' _ => ∃ who',
      who'.members = members.filter (· != d) ∧ w'.Holds who' fun nodes _ =>
        (¬ w.cluster.Obstructed settings.owners ring new d →
          Tidy settings strategy (members.filter (· != d)) new value nodes) ∧
        (w.cluster.Obstructed settings.owners ring new d →
          ∃ key, ∃ a ∈ new.locate key settings.owners, (nodes a).store.value? key ≠ value key) := by
  obtain ⟨before, hosts, tidy⟩ := h
  let f : Farewell := ⟨members.filter (· != d), d, settings, strategy, ring, new⟩
  have sound : f.Sound := .of_built enabled built left mem rfl
  have stay : ∀ a ∈ f.members, a ∈ members := fun a ha => (List.mem_filter.mp ha).1
  have census' : (who.without f.leaver).members = f.members :=
    congrArg (List.filter (· != d)) census
  have all (a : Address) : a ∈ order ↔ a ∈ f.members := perm.mem_iff
  refine (tidy.passing_ends sound stay census' perm counted hosts).mono ?_
  rintro w' _ ⟨errands, nodes, hosts', rest, passed⟩
  have after : f.mapping (Farewell.reached order) = .settled new := by
    cases order with
    | nil => exact absurd rfl inhabited
    | cons => rfl
  rw [after] at rest
  have values (a : Address) (ha : a ∈ f.members) : replayed nodes a = (nodes a).store :=
    (rest a ha).1.replayed
  have obstructed := Farewell.obstructed_iff sound hosts
    (fun a ha => census.symm ▸ stay a ha) fun a ha => tidy.replayed_eq (stay a ha)
  have survives (key : String) : ∃ a ∈ f.members, a ∈ f.oldOwners key := by
    obtain ⟨a, ha⟩ := List.exists_mem_of_ne_nil _ inhabited
    exact Farewell.exists_remaining_owner sound copies (List.ne_nil_of_mem ((all a).mp ha)) key
  have gained (key : String) (g : Address) (gains : g ∈ f.newOwners key)
      (fresh : g ∉ f.oldOwners key) :
      (nodes g).store.value? key = value key ↔ ¬ f.Obstructed (replayed before) key g := by
    have mem' := Farewell.mem_of_newOwner sound gains
    rw [← values g mem']
    refine (passed key).value?_gained_iff all (fun a ha => ?_)
      (fun a ha old => tidy.value?_owned (stay a ha) old) (survives key)
      (tidy.get?_foreign (stay g mem') fresh) gains fresh
    rw [tidy.replayed_eq (stay a ha)]
    exact (tidy.rest a (stay a ha)).1.keyed
  refine ⟨(who.without f.leaver).leaving errands, census', nodes, hosts',
    fun free => ⟨rest, fun key a ha => ?_⟩, fun stuck => ?_⟩
  · split
    · next owner =>
      by_cases old : a ∈ f.oldOwners key
      · rw [← values a ha, ((passed key).kept a ha old fun _ => owner).value?]
        exact tidy.value?_owned (stay a ha) old
      · refine (gained key a owner old).mpr fun stuck => free ?_
        exact obstructed.mpr ⟨key, a, owner, old, stuck⟩
    · next other =>
      rw [Store.value?_eq_none_iff, ← values a ha]
      exact (passed key).gone a ha other fun _ => (all a).mpr ha
  · obtain ⟨key, g, gains, fresh, stuck⟩ := obstructed.mp stuck
    exact ⟨key, g, gains, fun right => (gained key g gains fresh).mp right stuck⟩

end

end SlotRing
