/-
# What becomes of one key when a member leaves

Every survivor that owned the key hands it to those that come to own it, its heirs, and
drops it if it is none of them; later it tells others to drop it, too.  The survivors do
so one after the other, and what they tell each other may arrive at any time.

That a drop never outruns the hand-over that makes up for it comes from one fact, which
all steps preserve (`Legacy.Orderly`): who drops the key, or has others drop it, knows that
it has got to an heir before (`Legacy.Begun`).  What the steps do to the copies of the heirs
is told apart by three relations: nothing (`Legacy.Aside`), they do not lose it
(`Legacy.Onward`), and what one survivor may do in its part (`Legacy.Handing`).
-/
import SlotRing.Proofs.Cluster.Staffing
import SlotRing.Proofs.Rehash.Errands
import SlotRing.Proofs.Rehash.Survivor

namespace SlotRing

open Picture

/-- A key in a departure, the entry that its owners hold at the beginning, and the numbers
of the nodes. -/
structure Legacy where
  farewell : Farewell
  key : String
  entry : Option Entry
  serial : Address → Serial

/-- What a node holds is not touched, and nothing is logged. -/
structure Node.Undisturbed (n n' : Node) : Prop where
  address : n'.address = n.address
  settings : n'.settings = n.settings
  strategy : n'.strategy = n.strategy
  store : n'.store = n.store
  idle : n.log.pending = [] → n'.log.pending = []

namespace Node.Undisturbed

variable (n : Node)

theorem refl : n.Undisturbed n := ⟨rfl, rfl, rfl, rfl, id⟩

theorem install (mapping : MemberMapping) : n.Undisturbed (n.install mapping) :=
  ⟨rfl, rfl, rfl, rfl, id⟩

theorem taken : n.Undisturbed (Rehash.taken n) := ⟨rfl, rfl, rfl, rfl, id⟩

theorem givenBack : n.Undisturbed (Rehash.givenBack n) := ⟨rfl, rfl, rfl, rfl, id⟩

theorem logging (old : MemberRing) : n.Undisturbed (Rehash.logging old n) :=
  ⟨rfl, rfl, rfl, rfl, id⟩

theorem abortTransition : n.Undisturbed n.abortTransition := ⟨rfl, rfl, rfl, rfl, fun _ => rfl⟩

theorem finishTransition (idle : n.log.pending = []) : n.Undisturbed n.finishTransition := by
  by_cases closed : n.log.state = .disabled
  · have still : n.finishTransition = { n with movingFrom := none } := by
      simp [Node.finishTransition, WriteLog.drain, WriteLog.isActive, closed]
    rw [still]
    exact ⟨rfl, rfl, rfl, rfl, id⟩
  · rw [Rehash.finishTransition_eq closed, idle]
    exact ⟨rfl, rfl, rfl, rfl, fun _ => rfl⟩

end Node.Undisturbed

theorem Node.get?_dropUnowned (n : Node) (ring : MemberRing) (key : String) :
    (n.dropUnowned ring).store.get? key =
      if ring.isOwner n.address key n.copies then n.store.get? key else none :=
  Store.get?_retain n.store _ key

namespace Legacy

variable (l : Legacy) {ε : Type}

def owners : List Address := l.farewell.oldOwners l.key

def heirs : List Address := l.farewell.newOwners l.key

def copy (p : Picture ε) (a : Address) : Option Entry := (p.nodes a).store.get? l.key

/-- What is true of a survivor's node all along. -/
structure Tidy (a : Address) (n : Node) : Prop where
  address : n.address = a
  settings : n.settings = l.farewell.settings
  strategy : n.strategy = l.farewell.strategy
  idle : n.log.pending = []
  keyed : n.store.Keyed
  unremoved : n.store.removed? l.key = none
  copies : n.store.get? l.key = none ∨ n.store.get? l.key = l.entry
  keeps : a ∈ l.owners → a ∈ l.heirs → n.store.get? l.key = l.entry
  foreign : a ∉ l.owners → a ∉ l.heirs → n.store.get? l.key = none

/-- An heir has got the key, or there is none that needs it. -/
def Begun (p : Picture ε) : Prop :=
  (∀ g ∈ l.heirs, g ∈ l.owners) ∨ ∃ g ∈ l.heirs, g ∉ l.owners ∧ l.copy p g = l.entry

/-- All heirs hold the entry. -/
def Complete (p : Picture ε) : Prop := ∀ g ∈ l.heirs, l.copy p g = l.entry

/-- Who does not hold the entry any more, or has left an errand, has handed it over
before. -/
structure Orderly (p : Picture ε) : Prop where
  tidy {a : Address} : a ∈ l.farewell.members → l.Tidy a (p.nodes a)
  held {a : Address} : a ∈ l.farewell.members → a ∈ l.owners →
    l.copy p a = l.entry ∨ l.Begun p
  errand {e : Errand} : e ∈ p.errands → e.passage = ⟨l.farewell.old, l.farewell.new⟩ ∧
    ∃ b ∈ l.farewell.members, e.node = l.serial b ∧ (b ∈ l.owners → l.Begun p)

def Onward (p q : Picture ε) : Prop :=
  (l.Orderly p → l.Orderly q) ∧ ∀ g ∈ l.heirs, l.copy p g = l.entry → l.copy q g = l.entry

/-- The copies of heirs are not touched. -/
def Aside (p q : Picture ε) : Prop :=
  (l.Orderly p → l.Orderly q) ∧ ∀ g ∈ l.heirs, l.copy q g = l.copy p g

/-- What a survivor may do in its part: only who was an owner has something to hand
over. -/
def Handing (x : Address) (p q : Picture ε) : Prop :=
  l.Onward p q ∧ (x ∉ l.owners → l.Aside p q)

variable {l} {p q r : Picture ε} {a x : Address} {n n' : Node}

theorem flow_onward : Flow (l.Onward : Picture ε → Picture ε → Prop) where
  refl _ := ⟨id, fun _ _ => id⟩
  trans first second := ⟨second.1 ∘ first.1, fun g hg => second.2 g hg ∘ first.2 g hg⟩

theorem flow_aside : Flow (l.Aside : Picture ε → Picture ε → Prop) where
  refl _ := ⟨id, fun _ _ => rfl⟩
  trans first second :=
    ⟨second.1 ∘ first.1, fun g hg => (second.2 g hg).trans (first.2 g hg)⟩

theorem flow_handing (x : Address) : Flow (l.Handing x : Picture ε → Picture ε → Prop) where
  refl p := ⟨flow_onward.refl p, fun _ => flow_aside.refl p⟩
  trans first second := ⟨flow_onward.trans first.1 second.1,
    fun other => flow_aside.trans (first.2 other) (second.2 other)⟩

theorem Aside.onward (h : l.Aside p q) : l.Onward p q :=
  ⟨h.1, fun g hg holds => (h.2 g hg).trans holds⟩

theorem Aside.handing (h : l.Aside p q) (x : Address) : l.Handing x p q :=
  ⟨h.onward, fun _ => h⟩

theorem Onward.begun (h : l.Onward p q) (begun : l.Begun p) : l.Begun q :=
  begun.imp id fun ⟨g, heir, fresh, holds⟩ => ⟨g, heir, fresh, h.2 g heir holds⟩

theorem Onward.complete (h : l.Onward p q) (complete : l.Complete p) : l.Complete q :=
  fun g heir => h.2 g heir (complete g heir)

/-- Who has got to the heirs is not changed by what goes on aside. -/
theorem Aside.begun_iff (h : l.Aside p q) : l.Begun q ↔ l.Begun p :=
  or_congr Iff.rfl <| exists_congr fun g => and_congr_right fun heir =>
    and_congr_right fun _ => by rw [h.2 g heir]

theorem Complete.begun (h : l.Complete p) : l.Begun p := by
  by_cases all : ∀ g ∈ l.heirs, g ∈ l.owners
  · exact .inl all
  · obtain ⟨g, heir, fresh⟩ : ∃ g ∈ l.heirs, g ∉ l.owners := by simpa using all
    exact .inr ⟨g, heir, fresh, h g heir⟩

/-! ## Nodes -/

theorem Tidy.undisturbed (h : l.Tidy a n) (u : n.Undisturbed n') : l.Tidy a n' where
  address := u.address.trans h.address
  settings := u.settings.trans h.settings
  strategy := u.strategy.trans h.strategy
  idle := u.idle h.idle
  keyed := u.store ▸ h.keyed
  unremoved := u.store ▸ h.unremoved
  copies := u.store ▸ h.copies
  keeps := u.store ▸ h.keeps
  foreign := u.store ▸ h.foreign

/-- The store may change as long as heirs lose nothing, and nobody else gets the
entry. -/
theorem Tidy.withStore (h : l.Tidy a n) {s : Store} (keyed : s.Keyed)
    (unremoved : s.removed? l.key = none)
    (copies : s.get? l.key = n.store.get? l.key ∨ (a ∈ l.heirs ∧ s.get? l.key = l.entry) ∨
      (a ∉ l.heirs ∧ s.get? l.key = none)) : l.Tidy a { n with store := s } where
  address := h.address
  settings := h.settings
  strategy := h.strategy
  idle := h.idle
  keyed := keyed
  unremoved := unremoved
  copies := by
    rcases copies with same | ⟨-, got⟩ | ⟨-, gone⟩
    · exact same ▸ h.copies
    · exact .inr got
    · exact .inl gone
  keeps owner heir := by
    rcases copies with same | ⟨-, got⟩ | ⟨none, -⟩
    · exact same.trans (h.keeps owner heir)
    · exact got
    · exact absurd heir none
  foreign owner heir := by
    rcases copies with same | ⟨some, -⟩ | ⟨-, gone⟩
    · exact same.trans (h.foreign owner heir)
    · exact absurd some heir
    · exact gone

theorem Tidy.copies_eq (h : l.Tidy a n) : n.copies = l.farewell.settings.owners :=
  congrArg Settings.owners h.settings

/-! ## Steps -/

section

variable (sound : l.farewell.Sound)
include sound

theorem mem_of_heir (heir : a ∈ l.heirs) : a ∈ l.farewell.members :=
  Farewell.mem_of_newOwner sound heir

theorem Orderly.complete_of_none (h : l.Orderly p) (none : l.entry = none) : l.Complete p :=
  fun _ heir => ((h.tidy (mem_of_heir sound heir)).copies.elim (·.trans none.symm) id)

/-- Whatever a step does: heirs get the entry or keep what they hold, and others lose it
only when it has got to an heir. -/
theorem Orderly.next (h : l.Orderly p)
    (tidy : ∀ a ∈ l.farewell.members, l.Tidy a (q.nodes a))
    (copies : ∀ a ∈ l.farewell.members, l.copy q a = l.copy p a ∨ l.copy q a = l.entry ∨
      (a ∉ l.heirs ∧ (a ∈ l.owners → l.Begun p)))
    (errand : ∀ e ∈ q.errands, e.passage = ⟨l.farewell.old, l.farewell.new⟩ ∧
      ∃ b ∈ l.farewell.members, e.node = l.serial b ∧ (b ∈ l.owners → l.Begun p)) :
    l.Orderly q := by
  have goes : l.Begun p → l.Begun q := by
    refine Or.imp id fun ⟨g, heir, fresh, holds⟩ => ⟨g, heir, fresh, ?_⟩
    rcases copies g (mem_of_heir sound heir) with same | got | ⟨none, -⟩
    · exact same.trans holds
    · exact got
    · exact absurd heir none
  refine ⟨fun ha => tidy _ ha, fun {a} ha owner => ?_, fun {e} he => ?_⟩
  · rcases copies a ha with same | got | ⟨-, begun⟩
    · exact (h.held ha owner).imp same.trans goes
    · exact .inl got
    · exact .inr (goes (begun owner))
  · obtain ⟨passage, b, hb, left, begun⟩ := errand e he
    exact ⟨passage, b, hb, left, goes ∘ begun⟩

theorem Orderly.update (h : l.Orderly p) (nodes : q.nodes = Function.update p.nodes a n)
    (errands : q.errands = p.errands) (tidy : a ∈ l.farewell.members → l.Tidy a n)
    (copies : a ∈ l.farewell.members → n.store.get? l.key = l.copy p a ∨
      n.store.get? l.key = l.entry ∨ (a ∉ l.heirs ∧ (a ∈ l.owners → l.Begun p))) :
    l.Orderly q := by
  refine h.next sound (fun b hb => ?_) (fun b hb => ?_) fun e he => h.errand (errands ▸ he)
  · rw [nodes]
    by_cases same : b = a
    · subst same
      rw [Function.update_self]
      exact tidy hb
    · rw [Function.update_of_ne same]
      exact h.tidy hb
  · by_cases same : b = a
    · subst same
      rw [copy, nodes, Function.update_self]
      exact copies hb
    · rw [copy, nodes, Function.update_of_ne same]
      exact .inl rfl

theorem aside_of_undisturbed (nodes : ∀ a, (p.nodes a).Undisturbed (q.nodes a))
    (errands : ∀ e ∈ q.errands, ∃ e' ∈ p.errands, e.node = e'.node ∧ e.passage = e'.passage) :
    l.Aside p q := by
  have same (a : Address) : l.copy q a = l.copy p a :=
    congrArg (Store.get? · l.key) (nodes a).store
  refine ⟨fun h => h.next sound (fun a ha => (h.tidy ha).undisturbed (nodes a))
    (fun a _ => .inl (same a)) fun e he => ?_, fun g _ => same g⟩
  obtain ⟨e', he', left, passage⟩ := errands e he
  rw [left, passage]
  exact h.errand he'

theorem aside_of_same (nodes : q.nodes = p.nodes) (errands : q.errands = p.errands) :
    l.Aside p q :=
  aside_of_undisturbed sound (fun _ => nodes ▸ .refl _)
    fun e he => ⟨e, errands ▸ he, rfl, rfl⟩

/-- Errands are left for nodes that have handed the key over, if they had to. -/
theorem aside_leaving {more : List Errand}
    (left : ∀ e ∈ more, e.passage = ⟨l.farewell.old, l.farewell.new⟩ ∧
      ∃ b ∈ l.farewell.members, e.node = l.serial b ∧ (b ∈ l.owners → l.Begun p)) :
    l.Aside p { p with errands := p.errands ++ more } :=
  ⟨fun h => h.next sound (fun _ ha => h.tidy ha) (fun _ _ => .inl rfl) fun e he =>
    (List.mem_append.mp he).elim h.errand (left e), fun _ _ => rfl⟩

theorem aside_update (nodes : q.nodes = Function.update p.nodes a n)
    (errands : q.errands = p.errands) (u : (p.nodes a).Undisturbed n) : l.Aside p q := by
  refine aside_of_undisturbed sound (fun b => ?_) fun e he => ⟨e, errands ▸ he, rfl, rfl⟩
  rw [nodes]
  by_cases same : b = a
  · subst same
    rw [Function.update_self]
    exact u
  · rw [Function.update_of_ne same]
    exact .refl _

/-- A member drops the key only if it is no heir and an heir has got it. -/
theorem aside_dropped {s : Store}
    (nodes : q.nodes = Function.update p.nodes a { p.nodes a with store := s })
    (errands : q.errands = p.errands) (keyed : (p.nodes a).store.Keyed → s.Keyed)
    (removed : s.removed? l.key = (p.nodes a).store.removed? l.key)
    (copies : s.get? l.key = l.copy p a ∨
      (a ∉ l.heirs ∧ s.get? l.key = none ∧ (a ∈ l.owners → l.Begun p))) : l.Aside p q := by
  refine ⟨fun h => h.update sound nodes errands (fun ha => ?_) fun _ => ?_,
    fun g heir => ?_⟩
  · exact (h.tidy ha).withStore (keyed (h.tidy ha).keyed) (removed.trans (h.tidy ha).unremoved)
      (copies.imp id fun ⟨other, gone, _⟩ => .inr ⟨other, gone⟩)
  · exact copies.imp id fun ⟨other, _, begun⟩ => .inr ⟨other, begun⟩
  · by_cases same : g = a
    · subst same
      rw [copy, nodes, Function.update_self]
      exact copies.resolve_right fun ⟨other, _⟩ => other heir
    · rw [copy, nodes, Function.update_of_ne same]
      rfl

theorem aside_dropUnowned (tidy : l.Tidy a (p.nodes a)) (begun : a ∈ l.owners → l.Begun p) :
    l.Aside p (p.withNode a ((p.nodes a).dropUnowned l.farewell.new)) := by
  have spec := (p.nodes a).get?_dropUnowned l.farewell.new l.key
  rw [tidy.address, tidy.copies_eq] at spec
  refine aside_dropped sound rfl rfl (·.foldl_drop _) (Store.removed?_foldl_drop _) ?_
  by_cases heir : a ∈ l.heirs
  · exact .inl (spec.trans (if_pos (List.contains_iff_mem.mpr heir)))
  · exact .inr ⟨heir, spec.trans (if_neg fun owner => heir (List.contains_iff_mem.mp owner)), begun⟩

theorem aside_invalidate {keys : List String}
    (nodes : q.nodes = Function.update p.nodes a ((p.nodes a).invalidate keys))
    (errands : q.errands = p.errands) (told : l.key ∈ keys → a ∉ l.heirs ∧ l.Begun p) :
    l.Aside p q := by
  refine aside_dropped sound nodes errands (·.foldl_drop _) (Store.removed?_foldl_drop _) ?_
  have spec := Node.get?_invalidate (p.nodes a) keys l.key
  by_cases dropped : l.key ∈ keys ∧ (p.nodes a).isOwner l.key = false
  · obtain ⟨other, begun⟩ := told dropped.1
    exact .inr ⟨other, spec.trans (if_pos dropped), fun _ => begun⟩
  · exact .inl (spec.trans (if_neg dropped))

/-! ## Handing over -/

omit sound in
theorem get?_takingOver {entries : List Entry}
    (known : n.store.get? l.key = l.entry ∨
      (n.store.get? l.key = none ∧ n.store.removed? l.key = none))
    (given : ∀ e ∈ entries, e.key = l.key → l.entry = some e)
    (listed : ∃ e ∈ entries, e.key = l.key) :
    (Rehash.takingOver entries n).store.get? l.key = l.entry := by
  obtain ⟨e, he, own⟩ := id listed
  have entry := given e he own
  rw [entry] at known ⊢
  refine Store.get?_merge_of_same known (fun e' he' own' => ?_) listed
  exact Option.some.inj ((given e' he' own').symm.trans entry)

omit sound in
theorem Tidy.known (h : l.Tidy a n) : n.store.get? l.key = l.entry ∨
    (n.store.get? l.key = none ∧ n.store.removed? l.key = none) :=
  h.copies.symm.imp id (⟨·, h.unremoved⟩)

/-- A member takes entries over, which have the key only if an owner hands it to an
heir. -/
theorem handing_takingOver {entries : List Entry}
    (nodes : q.nodes = Function.update p.nodes a (Rehash.takingOver entries (p.nodes a)))
    (errands : q.errands = p.errands)
    (given : ∀ e ∈ entries, e.key = l.key → x ∈ l.owners ∧ a ∈ l.heirs ∧ l.entry = some e) :
    l.Handing x p q := by
  by_cases listed : ∃ e ∈ entries, e.key = l.key
  · obtain ⟨e, he, own⟩ := id listed
    obtain ⟨owner, heir, -⟩ := given e he own
    have got (known) := get?_takingOver (n := p.nodes a) known
      (fun e he own => (given e he own).2.2) listed
    refine ⟨⟨fun h => h.update sound nodes errands (fun ha => ?_)
      fun ha => .inr (.inl (got (h.tidy ha).known)), fun g _ holds => ?_⟩,
      fun other => absurd owner other⟩
    · have tidy := h.tidy ha
      exact tidy.withStore (tidy.keyed.merge _) (Store.removed?_merge tidy.unremoved _)
        (.inr (.inl ⟨heir, got tidy.known⟩))
    · by_cases self : g = a
      · subst self
        rw [copy, nodes, Function.update_self]
        exact got (.inl holds)
      · rw [copy, nodes, Function.update_of_ne self]
        exact holds
  · have still : ((p.nodes a).store.merge entries).1.SameAt (p.nodes a).store l.key :=
      Store.sameAt_merge fun e he own => absurd ⟨e, he, own⟩ listed
    exact (aside_dropped sound nodes errands (·.merge _) still.2 (.inl still.1)).handing x

end

variable (l)

/-- How far the survivors have come between two of their parts: as long as none has
failed, the key is complete when it has got to an heir, and in any case when an owner has
had its part. -/
structure Standing (smooth past : Prop) (p : Picture ε) : Prop where
  orderly : l.Orderly p
  complete : smooth → l.Begun p ∨ past → l.Complete p

/-- While `x` hands over what it holds. -/
structure Holding (x : Address) (smooth past : Prop) (held : List Entry) (p : Picture ε) :
    Prop where
  orderly : l.Orderly p
  own {e : Entry} : e ∈ held → e.key = l.key → x ∈ l.owners ∧ l.entry = some e
  begun : x ∈ l.owners → (∃ e ∈ held, e.key = l.key) ∨ l.Begun p
  owner : smooth → x ∈ l.owners → (∃ e ∈ held, e.key = l.key) ∨ l.Complete p
  stranger : smooth → x ∉ l.owners → l.Begun p ∨ past → l.Complete p

variable {l} {smooth past : Prop} {held : List Entry}

theorem Standing.aside (h : l.Standing smooth past p) (step : l.Aside p q) :
    l.Standing smooth past q where
  orderly := step.1 h.orderly
  complete fine some := step.onward.complete (h.complete fine (some.imp step.begun_iff.mp id))

theorem Holding.handing (h : l.Holding x smooth past held p) (step : l.Handing x p q) :
    l.Holding x smooth past held q where
  orderly := step.1.1 h.orderly
  own := h.own
  begun owner := (h.begun owner).imp id step.1.begun
  owner fine owner := (h.owner fine owner).imp id step.1.complete
  stranger fine other some := step.1.complete
    (h.stranger fine other (some.imp (step.2 other).begun_iff.mp id))

section

variable (sound : l.farewell.Sound)
include sound

/-- An owner that begins holds the entry, or others have handed it over. -/
theorem Standing.holding (h : l.Standing smooth past p) (mem : x ∈ l.farewell.members) :
    l.Holding x smooth past ((p.nodes x).store.select fun key =>
      l.farewell.old.isOwner x key l.farewell.settings.owners) p := by
  have tidy := h.orderly.tidy mem
  have listed {e : Entry} := Store.mem_select_iff tidy.keyed (e := e)
    (p := fun key => l.farewell.old.isOwner x key l.farewell.settings.owners)
  have there (owner : x ∈ l.owners) : (∃ e ∈ (p.nodes x).store.select fun key =>
      l.farewell.old.isOwner x key l.farewell.settings.owners, e.key = l.key) ∨
      l.Begun p ∧ (smooth → l.Complete p) := by
    rcases h.orderly.held mem owner with holds | begun
    · cases entry : l.entry with
      | none =>
        have complete := h.orderly.complete_of_none sound entry
        exact .inr ⟨complete.begun, fun _ => complete⟩
      | some e =>
        have holds : (p.nodes x).store.get? l.key = some e := holds.trans entry
        have own := tidy.keyed _ _ holds
        exact .inl ⟨e, listed.mpr ⟨own ▸ holds, own ▸ List.contains_iff_mem.mpr owner⟩, own⟩
    · exact .inr ⟨begun, fun fine => h.complete fine (.inl begun)⟩
  refine ⟨h.orderly, fun {e} he own => ?_, fun owner => (there owner).imp id And.left,
    fun fine owner => (there owner).imp id (·.2 fine), fun fine _ => h.complete fine⟩
  obtain ⟨found, owner⟩ := listed.mp he
  rw [own] at found owner
  refine ⟨List.contains_iff_mem.mp owner, ?_⟩
  rcases tidy.copies with dead | entry
  · rw [dead] at found
    cases found
  · exact entry.symm.trans found

/-- When all that `x` had to hand over has got there, the key is complete, unless `x` had
nothing to hand over. -/
theorem Holding.handed (h : l.Holding x smooth past held p) {rows : List (Address × List Entry)}
    (spec : l.farewell.Rows x held rows)
    (arrived : ∀ row ∈ rows, row.1 ∈ l.heirs → (∃ e ∈ row.2, e.key = l.key) →
      l.copy p row.1 = l.entry) :
    l.Standing smooth (past ∨ x ∈ l.owners) p ∧ (x ∈ l.owners → l.Begun p) := by
  have all : (∃ e ∈ held, e.key = l.key) → l.Complete p := by
    rintro ⟨e, he, own⟩ g heir
    by_cases kept : g ∈ l.owners
    · exact (h.orderly.tidy (mem_of_heir sound heir)).keeps kept heir
    · have other : g ≠ x := fun same => kept (same ▸ (h.own he own).1)
      have fresh : g ∈ l.farewell.newOwners e.key ∧ g ∉ l.farewell.oldOwners e.key :=
        own.symm ▸ ⟨heir, kept⟩
      obtain ⟨es, listed⟩ := spec.complete he other fresh.1 fresh.2
      exact arrived _ listed heir ⟨e, (spec.mem listed).mpr ⟨he, fresh⟩, own⟩
  refine ⟨⟨h.orderly, fun fine some => ?_⟩,
    fun owner => (h.begun owner).elim (Complete.begun ∘ all) id⟩
  by_cases owner : x ∈ l.owners
  · exact (h.owner fine owner).elim all id
  · exact h.stranger fine owner (some.imp id fun past => past.resolve_right owner)

end

/-! ## Errands -/

/-- When somebody who is not an owner holds the entry, or an owner has handed it over, it
has got to an heir. -/
theorem Orderly.begun_of_live (h : l.Orderly p) (mem : a ∈ l.farewell.members)
    (handed : a ∈ l.owners → l.Begun p) (live : (l.copy p a).isSome) : l.Begun p := by
  by_cases owner : a ∈ l.owners
  · exact handed owner
  · have tidy := h.tidy mem
    have heir : a ∈ l.heirs := by
      by_contra other
      rw [copy, tidy.foreign owner other] at live
      cases live
    refine .inr ⟨a, heir, owner, tidy.copies.resolve_left fun dead => ?_⟩
    rw [copy, dead] at live
    cases live

/-- Who is told to drop the key is no heir, and who tells them holds it. -/
theorem hint_of_key (tidy : l.Tidy a n) {row : Address × List String}
    (listed : row ∈ Rehash.hints n ⟨l.farewell.old, l.farewell.new⟩) (told : l.key ∈ row.2) :
    (n.store.get? l.key).isSome ∧ row.1 ∉ l.heirs := by
  obtain ⟨live, ⟨-, other⟩, -⟩ := Rehash.mem_staleCopies.mp ((Rehash.mem_hints listed).mp told)
  rw [tidy.copies_eq] at other
  exact ⟨live, other⟩

end Legacy

end SlotRing
