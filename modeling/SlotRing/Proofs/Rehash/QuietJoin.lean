/-
# A join that nothing disturbs

Nothing is lost, and nobody writes.  Then it is known to the last detail what the
members and the newcomer are when the join is over (`quiet_join_ends`): all go by the
new ring, the newcomer has the entries that it is to own, and the members have what
they had, also what they do not own any more.

Of that they keep less and less when the newcomer tells them what they may drop
(`Shedding`).  In the end every member has the entries that it owns and no others
(`Shedding.exact`): a key that a member has lost has come to the newcomer, so that the
newcomer holds it and tells of it.
-/
import Mathlib.Data.Set.Card
import SlotRing.Proofs.Rehash.CompletedJoin
import SlotRing.Proofs.Rehash.Errands
import SlotRing.Proofs.Rehash.LosslessJoin

namespace SlotRing

variable {ε : Type} {settings : Settings} {strategy : Strategy} {members : List Address}
  {x : Address} {old new : MemberRing} {entry : String → Option Entry}
  {done : List (Address × List String)} {row : Address × List String}
  {nodes : Address → Node}

/-- In none of the rows a member has been told of a key. -/
def Untold (done : List (Address × List String)) (a : Address) (key : String) : Prop :=
  ∀ row ∈ done, row.1 = a → key ∉ row.2

instance (done : List (Address × List String)) (a : Address) (key : String) :
    Decidable (Untold done a key) :=
  inferInstanceAs (Decidable (∀ row ∈ done, row.1 = a → key ∉ row.2))

theorem untold_concat {a : Address} {key : String} :
    Untold (done ++ [row]) a key ↔ Untold done a key ∧ (row.1 = a → key ∉ row.2) := by
  simp only [Untold, List.forall_mem_append, List.forall_mem_singleton]

/-- After a join of `x`, and when the former owners have been told the rows `done`: all
go by the new ring; who owns a key under it has its entry, and so does who owned it
under the old one, unless it has been told of the key. -/
structure Shedding (settings : Settings) (members : List Address) (x : Address)
    (old new : MemberRing) (entry : String → Option Entry)
    (done : List (Address × List String)) (nodes : Address → Node) : Prop where
  ring : ∀ a ∈ members ++ [x], (nodes a).mapping = .settled new
  configured : ∀ a ∈ members ++ [x], (nodes a).settings = settings
  held : ∀ key, ∀ a ∈ members ++ [x], (nodes a).store.get? key =
    if a ∈ new.locate key settings.owners ∨
      (a ∈ old.locate key settings.owners ∧ Untold done a key)
    then entry key else none

namespace Shedding

theorem isOwner_eq (h : Shedding settings members x old new entry done nodes) {a : Address}
    (mem : a ∈ members ++ [x]) (address : (nodes a).address = a) (key : String) :
    (nodes a).isOwner key = decide (a ∈ new.locate key settings.owners) := by
  rw [Node.isOwner, h.ring a mem, address, Node.copies, h.configured a mem,
    ← List.contains_eq_mem]
  rfl

theorem step (h : Shedding settings members x old new entry done nodes)
    (mem : row.1 ∈ members ++ [x]) (address : (nodes row.1).address = row.1) :
    Shedding settings members x old new entry (done ++ [row])
      (Function.update nodes row.1 ((nodes row.1).invalidate row.2)) := by
  refine ⟨fun a ha => ?_, fun a ha => ?_, fun key a ha => ?_⟩
  · by_cases same : a = row.1
    · subst same
      rw [Function.update_self]
      exact h.ring _ mem
    · rw [Function.update_of_ne same]
      exact h.ring a ha
  · by_cases same : a = row.1
    · subst same
      rw [Function.update_self]
      exact h.configured _ mem
    · rw [Function.update_of_ne same]
      exact h.configured a ha
  · by_cases same : a = row.1
    · subst same
      rw [Function.update_self, Node.get?_invalidate, h.isOwner_eq mem address, h.held key _ mem]
      by_cases owner : row.1 ∈ new.locate key settings.owners <;> by_cases told : key ∈ row.2 <;>
        simp [untold_concat, owner, told]
    · rw [Function.update_of_ne same, h.held key a ha]
      simp [untold_concat, Ne.symm same]

theorem skip (h : Shedding settings members x old new entry done nodes)
    (absent : row.1 ∉ members ++ [x]) :
    Shedding settings members x old new entry (done ++ [row]) nodes := by
  refine ⟨h.ring, h.configured, fun key a ha => (h.held key a ha).trans ?_⟩
  have other : row.1 ≠ a := fun same => absent (same ▸ ha)
  simp [untold_concat, other]

theorem newcomer (h : Shedding settings members x old new entry done nodes)
    (grows : Ring.Grows strategy members x old new) (key : String) :
    (nodes x).store.get? key = if x ∈ new.locate key settings.owners then entry key else none := by
  have foreign : x ∉ old.locate key settings.owners := fun owner => grows.absent
    ((Ring.mem_members_ofMembers grows.before).mp
      ((Ring.sound_ofMembers grows.before).mem_members_of_mem_locate owner))
  exact (h.held key x (List.mem_append_right _ List.mem_cons_self)).trans
    (if_congr ⟨fun owner => owner.resolve_right fun h => foreign h.1, .inl⟩ rfl rfl)

end Shedding

/-! ## Who loses what -/

/-- The stored keys of which members lose their copies when the ring changes. -/
def lostCopies (members : List Address) (old new : MemberRing) (copies : Nat)
    (entry : String → Option Entry) : Set (Address × String) :=
  {lost | lost.1 ∈ members ∧ (entry lost.2).isSome ∧ lost.1 ∈ old.locate lost.2 copies ∧
    lost.1 ∉ new.locate lost.2 copies}

section

variable {n : Node} (grows : Ring.Grows strategy members x old new) (address : n.address = x)
  (configured : n.settings = settings)
  (mine : ∀ key, n.store.get? key = if x ∈ new.locate key settings.owners then entry key else none)
include grows address configured mine

/-- The newcomer tells of exactly the copies that are lost: a key that a member has lost
has come to the newcomer. -/
theorem mem_staleCopies_iff {lost : Address × String} :
    lost ∈ Rehash.staleCopies n ⟨old, new⟩ ↔
      lost ∈ lostCopies members old new settings.owners entry := by
  obtain ⟨a, key⟩ := lost
  have before := Ring.sound_ofMembers grows.before
  have after := Ring.sound_ofMembers grows.after
  rw [Rehash.mem_staleCopies, Node.copies, configured, address, mine key]
  constructor
  · rintro ⟨live, ⟨former, gone⟩, -, -⟩
    have member : a ∈ members := (Ring.mem_members_ofMembers grows.before).mp
      (before.mem_members_of_mem_locate former)
    refine ⟨member, ?_, former, gone⟩
    by_contra none
    rw [Option.not_isSome_iff_eq_none.mp none, ite_self] at live
    cases live
  · rintro ⟨member, live, former, gone⟩
    have gained : x ∈ new.locate key settings.owners := by
      by_contra foreign
      have same := grows.adds.locate_eq_of_not_mem before after foreign
      exact gone (same ▸ former)
    refine ⟨(if_pos gained).symm ▸ live, ⟨former, gone⟩, fun same => grows.absent (same ▸ member),
      ?_⟩
    exact (Ring.contains_ofMembers grows.after).mpr (List.mem_append_left _ member)

/-- Who has been told of all that the newcomer finds is left with what it owns. -/
theorem Shedding.exact
    (h : Shedding settings members x old new entry (Rehash.hints n ⟨old, new⟩) nodes)
    (key : String) {a : Address} (ha : a ∈ members ++ [x]) :
    (nodes a).store.get? key = if a ∈ new.locate key settings.owners then entry key else none := by
  rw [h.held key a ha]
  by_cases owner : a ∈ new.locate key settings.owners
  · simp [owner]
  by_cases former : a ∈ old.locate key settings.owners ∧
      Untold (Rehash.hints n ⟨old, new⟩) a key
  · obtain ⟨former, untold⟩ := former
    rw [if_neg owner, if_pos (.inr ⟨former, untold⟩)]
    by_contra live
    have member : a ∈ members := (Ring.mem_members_ofMembers grows.before).mp
      ((Ring.sound_ofMembers grows.before).mem_members_of_mem_locate former)
    have told : (a, key) ∈ Rehash.staleCopies n ⟨old, new⟩ :=
      (mem_staleCopies_iff grows address configured mine).mpr
        ⟨member, Option.isSome_iff_ne_none.mpr live, former, owner⟩
    obtain ⟨keys, listed, told⟩ := Rehash.exists_hint told
    exact untold (a, keys) listed rfl told
  · rw [if_neg (not_or.mpr ⟨owner, former⟩), if_neg owner]

/-- All whom the newcomer tells are members, so that it tells of as many keys as copies
are lost. -/
theorem encard_lostCopies :
    (lostCopies members old new settings.owners entry).encard =
      Rehash.toldTo (members ++ [x]) (Rehash.hints n ⟨old, new⟩) := by
  have same : lostCopies members old new settings.owners entry =
      ((Rehash.staleCopies n ⟨old, new⟩).toFinset : Set (Address × String)) := by
    ext lost
    rw [List.coe_toFinset, Set.mem_ofPred_eq, mem_staleCopies_iff grows address configured mine]
  have before : old.Sound := Ring.sound_ofMembers grows.before
  rw [same, Set.encard_coe_eq_coe_finsetCard,
    List.toFinset_card_of_nodup (Rehash.nodup_staleCopies before n), Rehash.toldTo_hints before]
  exact fun a listed => (Ring.contains_ofMembers grows.after).mp listed

end

/-! ## The run -/

namespace Rehash

/-- The newcomer's node when its join is over, if it has pulled these chunks. -/
def arrived (old new : MemberRing) (a : Address) (copies : Nat)
    (chunks : List (Address × List Entry)) (n : Node) : Node :=
  givenBack ((gathered old new a copies chunks
    ((taken n).install (.moving old new))).install (.settled new))

/-- The nodes after a join that nothing has disturbed, where they were those of `base`:
chunks have come from all providers, and all have gone over to the new ring. -/
def Undisturbed (settings : Settings) (members : List Address) (x : Address)
    (old new : MemberRing) (base nodes : Address → Node) : Prop :=
  ∃ chunks : List (Address × List Entry),
    chunks.map Prod.fst = new.providers x settings.owners ∧
    (∀ chunk ∈ chunks, chunk.2 = (base chunk.1).stateFor x new) ∧
    nodes x = arrived old new x settings.owners chunks (base x) ∧
    ∀ a ∈ members, nodes a = ((base a).install (.moving old new)).install (.settled new)

section

variable (x) (old new) (base : Address → Node)

def pulling (n : Node) : Node := logging old ((taken n).install (.moving old new))

def duringUnion : Address → Node := fun a =>
  if a = x then pulling old new (base x) else (base a).install (.moving old new)

def goneOver (copies : Nat) (chunks : List (Address × List Entry)) : Node :=
  (merging new x copies chunks (pulling old new (base x))).finishTransition.install (.settled new)

def HandedOver (chunks : List (Address × List Entry)) : Prop :=
  ∀ chunk ∈ chunks, chunk.2 = (base chunk.1).stateFor x new

/-- As `Undisturbed`, while the newcomer's run is not over yet. -/
def Arriving (settings : Settings) (members : List Address) (nodes : Address → Node) : Prop :=
  ∃ chunks : List (Address × List Entry),
    chunks.map Prod.fst = new.providers x settings.owners ∧ HandedOver x new base chunks ∧
    nodes x = goneOver x old new base settings.owners chunks ∧
    ∀ a ∈ members, nodes a = ((base a).install (.moving old new)).install (.settled new)

end

variable {base : Address → Node} {who : Census} {w : World ε} {now : Nat} {rehash : Serial}

theorem duringUnion_self : duringUnion x old new base x = pulling old new (base x) := if_pos rfl

theorem duringUnion_of_ne {a : Address} (other : a ≠ x) :
    duringUnion x old new base a = (base a).install (.moving old new) := if_neg other

theorem Arriving.undisturbed (h : Arriving x old new base settings members nodes)
    (absent : x ∉ members) : Undisturbed settings members x old new base
      (Function.update nodes x (givenBack (nodes x))) := by
  obtain ⟨chunks, all, pulled, mine, others⟩ := h
  refine ⟨chunks, all, pulled, ?_, fun a ha => ?_⟩
  · rw [Function.update_self, mine]
    rfl
  · rw [Function.update_of_ne fun same : a = x => absent (same ▸ ha)]
    exact others a ha

theorem quiet_run_ends (inhabited : members ≠ []) (grows : Ring.Grows strategy members x old new)
    (census : who.members = members ++ [x]) (enabled : settings.rehashEnabled = true)
    (settled : ∀ a ∈ members, (base a).mapping = .settled old)
    (idle : (base x).rehashing = false) (closed : (base x).log.state = .disabled)
    (configured : (base x).settings = settings) (placed : (base x).strategy = strategy)
    (counted : settings.deadline.CountedFrom now) (hosts : w.cluster.Hosts who base) :
    (run .quiet rehash (who.serial x) .join).Ends now w fun w' r =>
      w'.Holds (who.leaving (hintsLeft settings (who.serial x) old new)) fun nodes o =>
        r = .ok new ∧ o = w.outside ∧ Undisturbed settings members x old new base nodes := by
  let scene : Scene ε := {
    members, newcomer := x, settings, strategy, old, new
    initial := fun _ => none, wrote := fun _ => [], kept := fun _ _ => True }
  obtain ⟨coordinator, listed⟩ := Scene.exists_listed (s := scene) census inhabited
  have apart {a : Address} (ha : a ∈ members) : a ≠ x := fun same => grows.absent (same ▸ ha)
  refine scene.run_ends (S := fun nodes o => nodes = base ∧ o = w.outside)
    (P := fun nodes o => nodes = Function.update base x (taken (base x)) ∧ o = w.outside)
    (F := fun nodes o => nodes = Function.update base x (taken (base x)) ∧ o = w.outside)
    (A := fun nodes o =>
      nodes = Function.update base x (pulling old new (base x)) ∧ o = w.outside)
    (I := fun chunks nodes o =>
      nodes = duringUnion x old new base ∧ o = w.outside ∧ HandedOver x new base chunks)
    (D := fun nodes o => o = w.outside ∧ ∃ chunks,
      chunks.map Prod.fst = new.providers x settings.owners ∧ HandedOver x new base chunks ∧
      nodes = Function.update (duringUnion x old new base) x
        (goneOver x old new base settings.owners chunks))
    (B := fun nodes o => o = w.outside ∧ Arriving x old new base settings members nodes)
    (Q := fun nodes o => o = w.outside ∧ Arriving x old new base settings members nodes)
    (T := fun nodes o => o = w.outside ∧ Undisturbed settings members x old new base nodes)
    Surroundings.silent_quiet grows.enters listed enabled counted ⟨base, hosts, rfl, rfl⟩
    ?ready ?fetch ?opened ?union ?pulled ?finished ?final ?report ?last
  case ready =>
    rintro nodes o ⟨rfl, rfl⟩
    exact ⟨idle, configured, placed, rfl, rfl⟩
  case fetch =>
    refine Surroundings.leads_quiet ?_
    rintro nodes o ⟨rfl, rfl⟩
    refine ⟨?_, rfl, rfl⟩
    rw [Function.update_of_ne (apart listed.member)]
    exact settled coordinator listed.member
  case opened =>
    rintro nodes o ⟨rfl, rfl⟩
    show (Function.update base x _ x).log.state = .disabled ∧ _
    rw [Function.update_self, Function.update_idem]
    exact ⟨closed, rfl, rfl⟩
  case union =>
    refine Surroundings.leads_quiet ?_
    rintro nodes o ⟨rfl, rfl⟩
    refine ⟨funext fun a => ?_, rfl, nofun⟩
    by_cases same : a = x
    · simp [duringUnion, same, scene]
    · simp [duringUnion, same, scene]
  case pulled =>
    intro source asked chunks
    refine Surroundings.leads_quiet ?_
    rintro nodes o ⟨rfl, rfl, pulled⟩
    have member : source ∈ members := grows.enters.mem_of_provider asked
    refine ⟨rfl, rfl, fun chunk hc => ?_⟩
    rcases List.mem_append.mp hc with hc | hc
    · exact pulled chunk hc
    · rw [List.mem_singleton.mp hc]
      show (duringUnion x old new base source).stateFor x new = (base source).stateFor x new
      rw [duringUnion_of_ne (apart member)]
      have informed : (base source).Informed (· = .moving old new)
        ((base source).install (.moving old new)) := (Node.Informed.refl _).install rfl
      exact informed.stateFor_eq (settled source member) x new
  case finished =>
    rintro chunks nodes o ⟨rfl, rfl, pulled⟩ all
    refine ⟨rfl, chunks, all, pulled, ?_⟩
    exact congrArg (fun n : Node => Function.update (duringUnion x old new base) x
      ((merging new x settings.owners chunks n).finishTransition.install (.settled new)))
      duringUnion_self
  case final =>
    refine Surroundings.leads_quiet ?_
    rintro nodes o ⟨rfl, chunks, all, pulled, rfl⟩
    refine ⟨rfl, chunks, all, pulled, (if_pos rfl).trans (Function.update_self ..),
      fun a ha => (if_neg (apart ha)).trans ?_⟩
    rw [Function.update_of_ne (apart ha), duringUnion_of_ne (apart ha)]
  case report => exact Surroundings.leads_quiet fun _ _ h => h
  case last =>
    rintro nodes o ⟨rfl, arriving⟩
    exact ⟨rfl, arriving.undisturbed grows.absent⟩

theorem Undisturbed.shedding (h : Undisturbed settings members x old new base nodes)
    (inhabited : members ≠ []) (grows : Ring.Grows strategy members x old new)
    (settled : ∀ a ∈ members, (base a).Follows settings (.settled old))
    (named : ∀ a ∈ members, (base a).address = a)
    (copies : ∀ key, ∀ a ∈ members, (base a).store.get? key =
      if a ∈ old.locate key settings.owners then entry key else none)
    (log : (base x).log = .closed) (blank : (base x).store = .empty)
    (configured : (base x).settings = settings) :
    Shedding settings members x old new entry [] nodes := by
  obtain ⟨chunks, all, pulled, mine, others⟩ := h
  have before := Ring.sound_ofMembers grows.before
  have after := Ring.sound_ofMembers grows.after
  refine ⟨fun a ha => ?_, fun a ha => ?_, fun key a ha => ?_⟩ <;>
    rcases List.mem_append.mp ha with member | newcomer
  · rw [others a member]
    rfl
  · rw [List.mem_singleton.mp newcomer, mine]
    rfl
  · rw [others a member]
    exact (settled a member).settings
  · rw [List.mem_singleton.mp newcomer, mine]
    exact configured
  · -- an owner under the new ring has been one under the old
    have former : a ∈ new.locate key settings.owners → a ∈ old.locate key settings.owners :=
      fun owner => grows.adds.mem_locate_of_ne before after owner
        fun same => grows.absent (same ▸ member)
    have untold : Untold [] a key := nofun
    rw [others a member]
    show (base a).store.get? key = _
    rw [copies key a member]
    exact if_congr ⟨fun owner => .inr ⟨owner, untold⟩, fun owner => owner.elim former And.left⟩
      rfl rfl
  · obtain rfl := List.mem_singleton.mp newcomer
    have foreign : a ∉ old.locate key settings.owners := fun owner => grows.absent
      ((Ring.mem_members_ofMembers grows.before).mp (before.mem_members_of_mem_locate owner))
    have gathers := get?_gathered inhabited grows settled named copies log blank all pulled key
    rw [mine]
    exact gathers.trans (if_congr ⟨.inl, fun owner => owner.resolve_right fun h => foreign h.1⟩
      rfl rfl)

end Rehash

end SlotRing
