/-
# What is handed over while nobody writes

Copies of a key pass from the survivors that owned it to the members that come
to own it.  As long as the key is not written meanwhile, it is known of each
store what it holds of the key when some of the survivors have done their part
(`Farewell.Passing`): owners that stay have what they had, former owners have
nothing any more, and a new owner has been offered the copies of those that are
done.
-/
import SlotRing.Proofs.Rehash.Farewell
import SlotRing.Proofs.Store.Versions

namespace SlotRing.Farewell

variable (f : Farewell)

/-- What `a` had to offer of a key. -/
def Offer (D₀ : Address → Store) (key : String) (a : Address) (e : Entry) : Prop :=
  a ∈ f.oldOwners key ∧ (D₀ a).get? key = some e

/-- The stores `D` have come out of `D₀`: the survivors in `past` have offered
their copies of the key, and those in `dropped` have dropped what they do not
keep. -/
structure Passing (key : String) (D₀ : Address → Store) (past dropped : List Address)
    (D : Address → Store) : Prop where
  kept : ∀ a ∈ f.members, a ∈ f.oldOwners key → (a ∈ dropped → a ∈ f.newOwners key) →
    (D a).SameAt (D₀ a) key
  gone : ∀ a ∈ f.members, a ∉ f.newOwners key → (a ∈ f.oldOwners key → a ∈ dropped) →
    (D a).get? key = none
  gained : ∀ g ∈ f.newOwners key, g ∉ f.oldOwners key →
    (D₀ g).Received key (fun e => ∃ a ∈ past, f.Offer D₀ key a e) (D g)

/-- While `x` hands over what it holds, the rows `given` being done. -/
structure Giving (key : String) (D₀ : Address → Store) (past : List Address) (x : Address)
    (held : List Entry) (given : List Address) (D : Address → Store) : Prop where
  kept : ∀ a ∈ f.members, a ∈ f.oldOwners key → (a ∈ past → a ∈ f.newOwners key) →
    (D a).SameAt (D₀ a) key
  gone : ∀ a ∈ f.members, a ∉ f.newOwners key → (a ∈ f.oldOwners key → a ∈ past) →
    (D a).get? key = none
  gained : ∀ g ∈ f.newOwners key, g ∉ f.oldOwners key →
    (D₀ g).Received key
      (fun e => (∃ a ∈ past, f.Offer D₀ key a e) ∨ (g ∈ given ∧ e ∈ held ∧ e.key = key)) (D g)

section

variable {f : Farewell} {key : String} {D₀ D D' : Address → Store}
  {past dropped : List Address} {x : Address} {held : List Entry} {given : List Address}

/-- What a survivor does not keep is no new owner's. -/
theorem sameAt_kept {a : Address} (owns : a = x → x ∈ f.newOwners key) :
    (Function.update D x (f.keptBy x (D x)) a).SameAt (D a) key := by
  by_cases same : a = x
  · have kept := owns same
    subst same
    rw [Function.update_self]
    exact Store.sameAt_retain (List.contains_iff_mem.mpr kept)
  · rw [Function.update_of_ne same]
    exact Store.SameAt.refl _ key

theorem sameAt_row {row : Address × List Entry} {a : Address}
    (other : a = row.1 → ∀ e ∈ row.2, e.key ≠ key) :
    (Function.update D row.1 ((D row.1).merge row.2).1 a).SameAt (D a) key := by
  by_cases here : a = row.1
  · rw [here, Function.update_self]
    exact Store.sameAt_merge fun e he own => absurd own (other here e he)
  · rw [Function.update_of_ne here]
    exact Store.SameAt.refl _ key

theorem passing_nil (dead : ∀ a ∈ f.members, a ∉ f.oldOwners key → (D₀ a).get? key = none) :
    f.Passing key D₀ [] [] D₀ where
  kept _ _ _ _ := Store.SameAt.refl _ key
  gone a mem _ left := dead a mem fun old => absurd (left old) List.not_mem_nil
  gained _ _ _ := .inl ⟨Store.SameAt.refl _ key, fun _ ⟨_, past, _⟩ =>
    absurd past List.not_mem_nil⟩

theorem Passing.congr (h : f.Passing key D₀ past dropped D)
    (same : ∀ a ∈ f.members, (D' a).SameAt (D a) key) (sound : f.Sound) :
    f.Passing key D₀ past dropped D' where
  kept a mem old stays := (same a mem).trans (h.kept a mem old stays)
  gone a mem lost left := (same a mem).1.trans (h.gone a mem lost left)
  gained g hg fresh :=
    (h.gained g hg fresh).congr (same g (mem_of_newOwner sound hg)) fun _ => Iff.rfl

theorem Giving.congr (h : f.Giving key D₀ past x held given D)
    (same : ∀ a ∈ f.members, (D' a).SameAt (D a) key) (sound : f.Sound) :
    f.Giving key D₀ past x held given D' where
  kept a mem old stays := (same a mem).trans (h.kept a mem old stays)
  gone a mem lost left := (same a mem).1.trans (h.gone a mem lost left)
  gained g hg fresh :=
    (h.gained g hg fresh).congr (same g (mem_of_newOwner sound hg)) fun _ => Iff.rfl

theorem Passing.giving (h : f.Passing key D₀ past past D) (x : Address) (held : List Entry) :
    f.Giving key D₀ past x held [] D where
  kept := h.kept
  gone := h.gone
  gained g hg fresh := (h.gained g hg fresh).congr (Store.SameAt.refl _ key) fun _ =>
    (or_iff_left fun more => absurd more.1 List.not_mem_nil).symm

theorem Giving.step (h : f.Giving key D₀ past x held given D) {row : Address × List Entry}
    {rows : List (Address × List Entry)} (spec : f.Rows x held rows) (listed : row ∈ rows)
    (dead : ∀ g ∈ f.newOwners key, g ∉ f.oldOwners key → (D₀ g).get? key = none) :
    f.Giving key D₀ past x held (given ++ [row.1])
      (Function.update D row.1 ((D row.1).merge row.2).1) := by
  -- nobody else is given anything of the key
  have same {a : Address} (other : a ∈ f.newOwners key → a ∉ f.oldOwners key → False) :
      (Function.update D row.1 ((D row.1).merge row.2).1 a).SameAt (D a) key := by
    refine sameAt_row fun here e he own => ?_
    obtain ⟨-, mine, fresh⟩ := (spec.mem listed).mp he
    rw [own, ← here] at mine fresh
    exact other mine fresh
  refine ⟨fun a mem old stays => ?_, fun a mem lost left => ?_, fun g hg fresh => ?_⟩
  · exact (same fun _ fresh => fresh old).trans (h.kept a mem old stays)
  · exact (same fun mine _ => lost mine).1.trans (h.gone a mem lost left)
  · by_cases here : g = row.1
    · subst here
      rw [Function.update_self]
      refine ((h.gained _ hg fresh).merge (dead _ hg fresh) row.2).congr
        (Store.SameAt.refl _ key) fun e => ?_
      have mine : e.key = key → (e ∈ row.2 ↔ e ∈ held) := by
        rintro rfl
        rw [spec.mem listed]
        exact and_iff_left ⟨hg, fresh⟩
      constructor
      · rintro ((before | ⟨-, he, own⟩) | ⟨he, own⟩)
        · exact .inl before
        · exact .inr ⟨List.mem_append_right _ List.mem_cons_self, he, own⟩
        · exact .inr ⟨List.mem_append_right _ List.mem_cons_self, (mine own).mp he, own⟩
      · rintro (before | ⟨-, he, own⟩)
        · exact .inl (.inl before)
        · exact .inr ⟨(mine own).mpr he, own⟩
    · rw [Function.update_of_ne here]
      refine (h.gained g hg fresh).congr (Store.SameAt.refl _ key) fun e => or_congr_right ?_
      rw [List.mem_append, List.mem_singleton, or_iff_left here]

theorem Giving.passing (h : f.Giving key D₀ past x held given D)
    {rows : List (Address × List Entry)} (spec : f.Rows x held rows)
    (names : given = rows.map Prod.fst)
    (held_iff : ∀ e, e.key = key → (e ∈ held ↔ f.Offer D₀ key x e))
    (keyed : ∀ e, f.Offer D₀ key x e → e.key = key) :
    f.Passing key D₀ (past ++ [x]) past D where
  kept := h.kept
  gone := h.gone
  gained g hg fresh := by
    refine (h.gained g hg fresh).congr (Store.SameAt.refl _ key) fun e => ?_
    constructor
    · rintro (⟨a, ha, offer⟩ | ⟨-, he, own⟩)
      · exact ⟨a, List.mem_append_left _ ha, offer⟩
      · exact ⟨x, List.mem_append_right _ List.mem_cons_self, (held_iff e own).mp he⟩
    · rintro ⟨a, ha, offer⟩
      rcases List.mem_append.mp ha with ha | ha
      · exact .inl ⟨a, ha, offer⟩
      · obtain rfl := List.mem_singleton.mp ha
        have own := keyed e offer
        have he := (held_iff e own).mpr offer
        subst own
        have other : g ≠ a := by
          rintro rfl
          exact fresh offer.1
        obtain ⟨es, listed⟩ := spec.complete he other hg fresh
        exact .inr ⟨names ▸ List.mem_map_of_mem listed, he, rfl⟩

theorem Passing.drop (h : f.Passing key D₀ (past ++ [x]) past D) (todo : x ∉ past) :
    f.Passing key D₀ (past ++ [x]) (past ++ [x]) (Function.update D x (f.keptBy x (D x))) := by
  refine ⟨fun a mem old stays => ?_, fun a mem lost left => ?_, fun g hg fresh => ?_⟩
  · by_cases self : a = x
    · subst self
      refine (sameAt_kept fun _ => ?_).trans (h.kept a mem old fun past => absurd past todo)
      exact stays (List.mem_append_right _ List.mem_cons_self)
    · rw [Function.update_of_ne self]
      exact h.kept a mem old fun done => stays (List.mem_append_left _ done)
  · by_cases self : a = x
    · subst self
      rw [Function.update_self, keptBy, Store.get?_retain]
      exact if_neg fun owns => lost (List.contains_iff_mem.mp owns)
    · rw [Function.update_of_ne self]
      refine h.gone a mem lost fun old => (List.mem_append.mp (left old)).resolve_right ?_
      exact fun last => self (List.mem_singleton.mp last)
  · exact (h.gained g hg fresh).congr (sameAt_kept fun same => same ▸ hg) fun _ => Iff.rfl

section

variable (f) (about : String → Prop) (D₀ : Address → Store)

/-- All keys that are spoken of have been handed over so far. -/
def PassingAll (past dropped : List Address) (D : Address → Store) : Prop :=
  ∀ key, about key → f.Passing key D₀ past dropped D

/-- A survivor has of its own keys what it had. -/
def Frozen (x : Address) (s : Store) : Prop :=
  ∀ key, about key → x ∈ f.oldOwners key → s.get? key = (D₀ x).get? key

/-- A survivor is about to hand over what it had, of the keys that are spoken of. -/
structure GivingAll (past : List Address) (x : Address) (held : List Entry)
    (given : List Address) (D : Address → Store) : Prop where
  held_iff : ∀ e, about e.key → (e ∈ held ↔ f.Offer D₀ e.key x e)
  giving : ∀ key, about key → f.Giving key D₀ past x held given D

end

/-- The part of one survivor, beside which nothing happens to the keys that
`about` speaks of; `M` is what else stays true. -/
theorem passing_part {ε : Type} {around : Surroundings ε} {who : Census} {w : World ε}
    {now : Nat} {rehash : Serial} {g : Going} (about : String → Prop) (M : ε → Prop)
    (sound : f.Sound) (silent : around.Silent) (census : who.members = f.members)
    (mem : x ∈ f.members) (counted : f.settings.deadline.CountedFrom now)
    (todo : x ∉ past) (keyed : (D₀ x).Keyed)
    (dead : ∀ key, about key → ∀ g ∈ f.newOwners key, g ∉ f.oldOwners key →
      (D₀ g).get? key = none)
    (still : ∀ (sending : Sending) (opened : Bool) (mine others : Going)
      (K : Store → (Address → Store) → Prop), sending.sender = x →
      (∀ s s' D D', (opened = true → s' = s) →
        (∀ key, about key → ∀ a ∈ f.members, (D' a).SameAt (D a) key) → K s D → K s' D') →
      around.Leads who sending
        (f.Sees x opened (f.mapping mine) (f.mapping others) fun s D o => K s D ∧ M o)
        (f.Sees x opened (f.mapping mine) (f.mapping others) fun s D o => K s D ∧ M o))
    (h : w.Holds who fun nodes o => f.Rest (f.mapping g) nodes ∧
      (∀ key, about key → f.Passing key D₀ past past (replayed nodes)) ∧ M o) :
    (Rehash.run around rehash (who.serial x) (.leave f.leaver f.old)).Ends now w fun w' r =>
      r = .ok f.new ∧ ∃ errands, w'.Holds (who.leaving errands) fun nodes o =>
        f.Rest (.settled f.new) nodes ∧
        (∀ key, about key → f.Passing key D₀ (past ++ [x]) (past ++ [x]) (replayed nodes)) ∧
        M o := by
  refine part_ends sound silent census mem counted
    (fun D o => f.PassingAll about D₀ past past D ∧ M o)
    (fun s D o => (f.Frozen about D₀ x s ∧ f.PassingAll about D₀ past past D) ∧ M o)
    (fun s D o => (f.Frozen about D₀ x s ∧ f.PassingAll about D₀ past past D) ∧ M o)
    (fun held done D o => f.GivingAll about D₀ past x held (done.map Prod.fst) D ∧ M o)
    (fun D o => f.PassingAll about D₀ (past ++ [x]) past D ∧ M o)
    (fun D o => f.PassingAll about D₀ (past ++ [x]) past D ∧ M o)
    (fun D o => f.PassingAll about D₀ (past ++ [x]) (past ++ [x]) D ∧ M o) h ?opened ?union ?start
    ?step ?finish ?final ?drop
  case opened =>
    rintro D o ⟨k, m⟩
    refine ⟨⟨fun key spoken old => ?_, k⟩, m⟩
    exact ((k key spoken).kept x mem old fun past => absurd past todo).1
  case union =>
    refine still _ true .between g
      (fun s D => f.Frozen about D₀ x s ∧ f.PassingAll about D₀ past past D) rfl ?_
    rintro s s' D D' same all ⟨store, k⟩
    exact ⟨same rfl ▸ store, fun key spoken => (k key spoken).congr (all key spoken) sound⟩
  case start =>
    rintro s D o keyed' ⟨⟨store, k⟩, m⟩
    refine ⟨⟨fun e spoken => ?_, fun key spoken => (k key spoken).giving x _⟩, m⟩
    rw [heldBy, Store.mem_select_iff keyed', Offer, and_comm, Ring.isOwner, List.contains_iff_mem]
    exact and_congr_right fun owner => by rw [store e.key spoken owner]
  case step =>
    intro held rows done row rest spec split
    refine (still _ true .between .between
      (fun _ => f.GivingAll about D₀ past x held (done.map Prod.fst)) rfl ?_).mono ?_
    · rintro _ _ D D' - all ⟨iff_, k⟩
      exact ⟨iff_, fun key spoken => (k key spoken).congr (all key spoken) sound⟩
    · rintro nodes o - ⟨run, ⟨iff_, k⟩, m⟩
      refine ⟨run, ⟨iff_, fun key spoken => ?_⟩, m⟩
      rw [List.map_append]
      exact (k key spoken).step spec (split ▸ List.mem_append_right _ List.mem_cons_self)
        (dead key spoken)
  case finish =>
    rintro held rows D o spec ⟨⟨iff_, k⟩, m⟩
    refine ⟨fun key spoken => (k key spoken).passing spec rfl ?_ fun e offer => ?_, m⟩
    · rintro e rfl
      exact iff_ e spoken
    · exact keyed key e offer.2
  case final =>
    exact still _ false .after .between (fun _ => f.PassingAll about D₀ (past ++ [x]) past) rfl
      fun _ _ D D' _ all k key spoken => (k key spoken).congr (all key spoken) sound
  case drop => exact fun D o k => ⟨fun key spoken => (k.1 key spoken).drop todo, k.2⟩

end

end SlotRing.Farewell
