/-
# A join loses no write

A newcomer joins while clients write.  Its run has three stages, and one
invariant goes with each of them; every write that is carried out meanwhile
preserves the one that is in force.

* `Before`: the members still go by the old ring.  All owners of a key agree on
  its value, and the newcomer is not written to.
* `During`: the members go by the union, and the newcomer logs.  The owners under
  the old ring still agree.  For a key that the newcomer comes to own, its log
  makes of any value what the writes since the union make of it, and a chunk that
  was pulled from an owner has the value of the time of the union, unless the key
  was written since.
* `After`: the newcomer writes through, and the owners under the new ring agree.

Between the second stage and the third the chunks are merged and the log is
replayed (`Scene.after_of_during`).  A key that was not written since the union
has its value from a chunk, as one of the providers owned it; for any other key
the log decides, whatever the chunks held.

All this takes a deadline that the clock counts to.  Settings with another one are
valid, too, and a join by them stops before anything has been sent
(`no_write_lost_by_join_iff`).
-/
import SlotRing.Proofs.Cluster.Registration
import SlotRing.Proofs.Rehash.Arrival
import SlotRing.Proofs.Rehash.Following
import SlotRing.Proofs.Ring.Newcomer
import SlotRing.Scenario.Run

namespace SlotRing

variable {ε : Type}

/-- A join: the members, the newcomer, the rings of both, and what is to be
kept track of. -/
structure Scene (ε : Type) where
  members : List Address
  newcomer : Address
  settings : Settings
  strategy : Strategy
  old : MemberRing
  new : MemberRing
  /-- What the owners of each key held at the beginning. -/
  initial : String → Option (List UInt8)
  /-- The writes since then, as the surroundings remember them. -/
  wrote : ε → List Write
  /-- What else is true of the members' nodes, and stays so. -/
  kept : Address → Node → Prop

namespace Scene

variable (s : Scene ε)

def value (o : ε) (key : String) : Option (List UInt8) :=
  valueAfter (s.wrote o) key (s.initial key)

/-- The owners of a key under the old ring. -/
def oldOwners (key : String) : List Address := s.old.locate key s.settings.owners

def newOwners (key : String) : List Address := s.new.locate key s.settings.owners

def Following (mapping : MemberMapping) (nodes : Address → Node) : Prop :=
  ∀ a ∈ s.members, (nodes a).Follows s.settings mapping ∧ s.kept a (nodes a)

/-- The members go by the old ring, and the newcomer is as `blank` says. -/
structure Before (blank : Node → Prop) (nodes : Address → Node) (o : ε) : Prop where
  following : s.Following (.settled s.old) nodes
  agree : Agree s.oldOwners (s.value o) nodes
  newcomer : blank (nodes s.newcomer)

/-- The writes that the newcomer has logged. -/
def logged (nodes : Address → Node) : List Write :=
  (nodes s.newcomer).log.pending.flatMap (·.writes)

/-- The newcomer logs and has nothing in its store. -/
structure Blank (n : Node) : Prop where
  opened : n.log.state ≠ .disabled
  store : n.store = .empty
  settings : n.settings = s.settings
  strategy : n.strategy = s.strategy

/-- What was pulled from a member is right for the keys that have not been
written since: nothing else stands in it, and it is all there if the member is
an owner. -/
structure ChunkRight (before : List Write) (chunk : Address × List Entry)
    (key : String) : Prop where
  sound : ∀ e ∈ chunk.2, e.key = key → valueAfter before key (s.initial key) = some e.value
  complete : chunk.1 ∈ s.oldOwners key → (valueAfter before key (s.initial key)).isSome →
    ∃ e ∈ chunk.2, e.key = key

/-- The members go by the union since the writes `before`; the newcomer has
logged its part of the writes `since`, and `chunks` have been pulled. -/
structure Gathering (before since : List Write) (chunks : List (Address × List Entry))
    (nodes : Address → Node) : Prop where
  following : s.Following (.moving s.old s.new) nodes
  agree : Agree s.oldOwners
    (fun key => valueAfter (before ++ since) key (s.initial key)) nodes
  blank : s.Blank (nodes s.newcomer)
  mine : ∀ w ∈ s.logged nodes, s.newcomer ∈ s.newOwners w.key
  logged : ∀ key, s.newcomer ∈ s.newOwners key → ∀ value,
    valueAfter (s.logged nodes) key value = valueAfter since key value
  chunks : ∀ chunk ∈ chunks, ∀ key, s.newcomer ∈ s.newOwners key →
    (∀ w ∈ since, w.key ≠ key) → s.ChunkRight before chunk key

@[inherit_doc Gathering]
def During (chunks : List (Address × List Entry)) (nodes : Address → Node) (o : ε) : Prop :=
  ∃ before since, s.wrote o = before ++ since ∧ s.Gathering before since chunks nodes

/-- The newcomer writes through, while the members go by `mapping`. -/
structure After (mapping : MemberMapping) (nodes : Address → Node) (o : ε) : Prop where
  following : s.Following mapping nodes
  newcomer : (nodes s.newcomer).Follows s.settings (.settled s.new)
  log : (nodes s.newcomer).log = .closed
  strategy : (nodes s.newcomer).strategy = s.strategy
  lean : ∀ key, s.newcomer ∉ s.newOwners key →
    (nodes s.newcomer).store.value? key = none
  agree : Agree s.newOwners (s.value o) nodes

/-! ## What the rings have to do with each other -/

section

variable {s : Scene ε} (grows : Ring.Grows s.strategy s.members s.newcomer s.old s.new)
include grows

theorem mem_of_oldOwner {key : String} {a : Address} (h : a ∈ s.oldOwners key) :
    a ∈ s.members :=
  (Ring.mem_members_ofMembers grows.before).mp
    ((Ring.sound_ofMembers grows.before).mem_members_of_mem_locate h)

theorem newOwner_cases {key : String} {a : Address} (h : a ∈ s.newOwners key) :
    a = s.newcomer ∨ a ∈ s.oldOwners key := by
  by_cases same : a = s.newcomer
  · exact .inl same
  · exact .inr (grows.adds.mem_locate_of_ne (Ring.sound_ofMembers grows.before)
      (Ring.sound_ofMembers grows.after) h same)

theorem newcomer_not_oldOwner (key : String) : s.newcomer ∉ s.oldOwners key :=
  fun h => grows.absent (mem_of_oldOwner grows h)

/-- Under the union the owners under both rings are served. -/
theorem mem_serving_union {n : Node} (follows : n.Follows s.settings (.moving s.old s.new))
    {key : String} {a : Address} :
    a ∈ n.serving key ↔ a ∈ s.oldOwners key ∨ a ∈ s.newOwners key := by
  have sound := Ring.sound_ofMembers grows.after
  refine (follows.mem_serving_moving sound).trans (and_iff_left_of_imp ?_)
  rintro (owner | owner)
  · rw [Ring.mem_members_ofMembers grows.after]
    exact List.mem_append_left _ (mem_of_oldOwner grows owner)
  · exact sound.mem_members_of_mem_locate owner

end

/-! ## Writes preserve what holds -/

section

variable {s : Scene ε} {who : Census} {around : Surroundings ε} {allowed : Request → Prop}
  {mapping : MemberMapping} {nodes : Address → Node} {o : ε}

theorem Blank.spread (h : s.Blank (nodes s.newcomer)) (serving : String → List Address)
    (tx : Transaction) :
    s.Blank (SlotRing.spread serving tx nodes s.newcomer) ∧
      s.logged (SlotRing.spread serving tx nodes) =
        s.logged nodes ++ share serving tx s.newcomer := by
  obtain ⟨kept, part, eq⟩ := spread_of_open serving tx h.opened
  constructor
  · rw [eq]
    exact ⟨h.opened, h.store, h.settings, h.strategy⟩
  · rw [Scene.logged, eq, ← part, List.flatMap_append]
    rfl

theorem Following.spread (h : s.Following mapping nodes) {serving : String → List Address}
    {tx : Transaction} (keeps : ∀ a n tx, s.kept a n → s.kept a (n.acceptWrite tx)) :
    s.Following mapping (spread serving tx nodes) := by
  intro a ha
  obtain ⟨follows, kept⟩ := h a ha
  refine ⟨follows.spread, ?_⟩
  rw [SlotRing.spread]
  split
  · exact kept
  · exact keeps a _ _ kept

variable (writes : around.OnlyWrites who allowed s.wrote)
  (issuers : ∀ r, allowed r → r.issuer ∈ s.members)
  (keeps : ∀ r, allowed r → ∀ a n tx, s.kept a n → s.kept a (n.acceptWrite tx))
  (grows : Ring.Grows s.strategy s.members s.newcomer s.old s.new)
include writes issuers keeps grows

theorem leads_before (blank : Node → Prop) (sending : Sending) :
    around.Leads who sending (s.Before blank) (s.Before blank) := by
  have sound := Ring.sound_ofMembers grows.before
  refine writes sending _ ?_ ?_
  · intro nodes o o' same h
    refine ⟨h.following, ?_, h.newcomer⟩
    rw [show s.value o' = s.value o from funext fun key => by rw [value, value, same]]
    exact h.agree
  · intro nodes o r ok h
    obtain ⟨follows, -⟩ := h.following _ (issuers r ok)
    refine ⟨Node.nodup_serving_settled sound follows.mapping, fun o' more => ⟨?_, ?_, ?_⟩⟩
    · exact h.following.spread (keeps r ok)
    · rw [show s.value o' = fun key => valueAfter r.tx.writes key (s.value o key) from
        funext fun key => by rw [value, value, more, valueAfter_append]]
      exact h.agree.spread
        (fun key a ha => (h.following a (mem_of_oldOwner grows ha)).1.closed)
        (fun key a ha => (follows.mem_serving_settled sound).mpr ha)
    · rw [spread_of_not_serving]
      · exact h.newcomer
      · exact fun key hs => newcomer_not_oldOwner grows key
          ((follows.mem_serving_settled sound).mp hs)

theorem leads_during (chunks : List (Address × List Entry)) (sending : Sending) :
    around.Leads who sending (s.During chunks) (s.During chunks) := by
  refine writes sending _ ?_ ?_
  · rintro nodes o o' same ⟨before, since, split, h⟩
    exact ⟨before, since, same.trans split, h⟩
  · rintro nodes o r ok ⟨before, since, split, h⟩
    obtain ⟨follows, -⟩ := h.following _ (issuers r ok)
    have newcomer {key : String} :
        s.newcomer ∈ (nodes r.issuer).serving key ↔ s.newcomer ∈ s.newOwners key :=
      (mem_serving_union grows follows).trans (or_iff_right (newcomer_not_oldOwner grows key))
    refine ⟨Node.nodup_serving_moving (Ring.sound_ofMembers grows.before) follows.mapping,
      fun o' more => ⟨before, since ++ r.tx.writes, by rw [more, split, List.append_assoc], ?_⟩⟩
    obtain ⟨blank, log⟩ := h.blank.spread (nodes r.issuer).serving r.tx
    refine ⟨h.following.spread (keeps r ok), ?_, blank, ?_, ?_, ?_⟩
    · simp only [← List.append_assoc, valueAfter_append (before ++ since)]
      exact h.agree.spread
        (fun key a ha => (h.following a (mem_of_oldOwner grows ha)).1.closed)
        (fun key a ha => (mem_serving_union grows follows).mpr (.inl ha))
    · intro w hw
      rw [log, List.mem_append] at hw
      rcases hw with hw | hw
      · exact h.mine w hw
      · exact newcomer.mp (List.contains_iff_mem.mp (List.mem_filter.mp hw).2)
    · intro key mine value
      rw [log, valueAfter_append, valueAfter_append, h.logged key mine, valueAfter_share,
        if_pos (newcomer.mpr mine)]
    · intro chunk hc key mine untouched
      exact h.chunks chunk hc key mine fun w hw => untouched w (List.mem_append_left _ hw)

theorem leads_after (served : ∀ n : Node, n.Follows s.settings mapping → ∀ key,
      (n.serving key).Nodup ∧ (∀ a ∈ s.newOwners key, a ∈ n.serving key) ∧
      (s.newcomer ∈ n.serving key → s.newcomer ∈ s.newOwners key)) (sending : Sending) :
    around.Leads who sending (s.After mapping) (s.After mapping) := by
  refine writes sending _ ?_ ?_
  · intro nodes o o' same h
    refine ⟨h.following, h.newcomer, h.log, h.strategy, h.lean, ?_⟩
    rw [show s.value o' = s.value o from funext fun key => by rw [value, value, same]]
    exact h.agree
  · intro nodes o r ok h
    obtain ⟨follows, -⟩ := h.following _ (issuers r ok)
    refine ⟨fun key => (served _ follows key).1, fun o' more => ⟨?_, ?_, ?_, ?_, ?_, ?_⟩⟩
    · exact h.following.spread (keeps r ok)
    · exact h.newcomer.spread
    · rw [spread_of_closed h.newcomer.closed]
      exact h.log
    · rw [spread_of_closed h.newcomer.closed]
      exact h.strategy
    · intro key other
      rw [value?_spread h.newcomer.closed, if_neg, h.lean key other]
      exact fun hs => other ((served _ follows key).2.2 hs)
    · rw [show s.value o' = fun key => valueAfter r.tx.writes key (s.value o key) from
        funext fun key => by rw [value, value, more, valueAfter_append]]
      refine h.agree.spread (fun key a ha => ?_) (fun key => (served _ follows key).2.1)
      rcases newOwner_cases grows ha with rfl | old
      · exact h.newcomer.closed
      · exact (h.following a (mem_of_oldOwner grows old)).1.closed

theorem leads_after_moving (sending : Sending) :
    around.Leads who sending (s.After (.moving s.old s.new)) (s.After (.moving s.old s.new)) := by
  refine leads_after writes issuers keeps grows (fun n follows key => ⟨?_, ?_, ?_⟩) sending
  · exact Node.nodup_serving_moving (Ring.sound_ofMembers grows.before) follows.mapping key
  · exact fun a ha => (mem_serving_union grows follows).mpr (.inr ha)
  · exact fun h => ((mem_serving_union grows follows).mp h).resolve_left
      (newcomer_not_oldOwner grows key)

theorem leads_after_settled (sending : Sending) :
    around.Leads who sending (s.After (.settled s.new)) (s.After (.settled s.new)) := by
  have sound := Ring.sound_ofMembers grows.after
  refine leads_after writes issuers keeps grows (fun n follows key => ⟨?_, ?_, ?_⟩) sending
  · exact Node.nodup_serving_settled sound follows.mapping key
  · exact fun a => (follows.mem_serving_settled sound).mpr
  · exact (follows.mem_serving_settled sound).mp

end

/-! ## From one stage to the next -/

section

variable {s : Scene ε} {nodes : Address → Node} {o : ε}
  {mapping : MemberMapping}

theorem Following.install (h : s.Following mapping nodes)
    (keeps : ∀ a n m, s.kept a n → s.kept a (Node.install n m)) (next : MemberMapping)
    {nodes' : Address → Node} (same : ∀ a ∈ s.members, nodes' a = (nodes a).install next) :
    s.Following next nodes' := by
  intro a ha
  obtain ⟨follows, kept⟩ := h a ha
  rw [same a ha]
  exact ⟨follows.install next, keeps a _ _ kept⟩

variable (grows : Ring.Grows s.strategy s.members s.newcomer s.old s.new)
include grows

theorem during_of_before (keeps : ∀ a n m, s.kept a n → s.kept a (Node.install n m))
    (h : s.Before (fun n => s.Blank n ∧ n.log.pending = []) nodes o) :
    s.During [] (fun a => if a = s.newcomer then nodes a
      else (nodes a).install (.moving s.old s.new)) o := by
  have other {a : Address} (ha : a ∈ s.members) : a ≠ s.newcomer :=
    fun same => grows.absent (same ▸ ha)
  have none : s.logged (fun a => if a = s.newcomer then nodes a
      else (nodes a).install (.moving s.old s.new)) = [] := by
    rw [logged, if_pos rfl, h.newcomer.2]
    rfl
  refine ⟨s.wrote o, [], (List.append_nil _).symm, ?_, ?_, ?_, ?_, ?_, ?_⟩
  · exact h.following.install keeps _ fun a ha => if_neg (other ha)
  · rw [List.append_nil]
    exact h.agree.congr fun key a ha => by
      rw [if_neg (other (mem_of_oldOwner grows ha))]
      rfl
  · rw [if_pos rfl]
    exact h.newcomer.1
  · rw [none]
    exact fun w hw => absurd hw List.not_mem_nil
  · rw [none]
    exact fun key _ value => rfl
  · exact fun chunk hc => absurd hc List.not_mem_nil

omit grows in
/-- What an owner hands over is right if it holds the right value itself. -/
theorem chunkRight_of_source {before : List Write} {source : Address} {key : String}
    (follows : (nodes source).Follows s.settings (.moving s.old s.new))
    (address : (nodes source).address = source) (mine : s.newcomer ∈ s.newOwners key)
    (value : source ∈ s.oldOwners key →
      (nodes source).store.value? key = valueAfter before key (s.initial key)) :
    s.ChunkRight before (source, (nodes source).stateFor s.newcomer s.new) key := by
  have held {e : Entry} : e ∈ (nodes source).stateFor s.newcomer s.new ↔
      (nodes source).store.get? e.key = some e ∧ s.newcomer ∈ s.newOwners e.key ∧
        source ∈ s.oldOwners e.key := by
    rw [follows.mem_stateFor_iff, address]
    rfl
  refine ⟨?_, ?_⟩
  · rintro e he rfl
    obtain ⟨found, -, owner⟩ := held.mp he
    rw [← value owner, Store.value?, found]
    rfl
  · intro owner live
    rw [← value owner, Store.value?, Option.isSome_map] at live
    obtain ⟨e, found⟩ := Option.isSome_iff_exists.mp live
    obtain rfl := follows.keyed key e found
    exact ⟨e, held.mpr ⟨found, mine, owner⟩, rfl⟩

omit grows in
theorem during_of_pull {chunks : List (Address × List Entry)} {source : Address}
    (mem : source ∈ s.members) (address : (nodes source).address = source)
    (h : s.During chunks nodes o) :
    s.During (chunks ++ [(source, (nodes source).stateFor s.newcomer s.new)]) nodes o := by
  obtain ⟨before, since, split, h⟩ := h
  refine ⟨before, since, split, h.following, h.agree, h.blank, h.mine, h.logged, ?_⟩
  intro chunk hc key mine untouched
  rw [List.mem_append, List.mem_singleton] at hc
  rcases hc with hc | rfl
  · exact h.chunks chunk hc key mine untouched
  -- an owner still holds what the key had at the time of the union
  refine chunkRight_of_source (h.following source mem).1 address mine fun owner => ?_
  refine (h.agree key source owner).trans ?_
  show valueAfter (before ++ since) key (s.initial key) = _
  rw [valueAfter_append, valueAfter_of_untouched untouched]

/-- What the newcomer has after merging all chunks: the value of the time of the
union, if the chunks are right, and no key that it does not own. -/
theorem value?_merging (before : List Write) {chunks : List (Address × List Entry)} {n : Node}
    (blank : n.store = .empty)
    (all : chunks.map Prod.fst = s.new.providers s.newcomer s.settings.owners)
    (inhabited : s.members ≠ []) (key : String) :
    (s.newcomer ∈ s.newOwners key → (∀ chunk ∈ chunks, s.ChunkRight before chunk key) →
      (Rehash.merging s.new s.newcomer s.settings.owners chunks n).store.value? key =
        valueAfter before key (s.initial key)) ∧
    (s.newcomer ∉ s.newOwners key →
      (Rehash.merging s.new s.newcomer s.settings.owners chunks n).store.value? key =
        none) := by
  have distinct : (chunks.map Prod.fst).Nodup := all ▸ Ring.nodup_providers _ _ _
  rw [Rehash.merging_store blank, Store.value?]
  rcases Store.get?_merge Store.empty (Rehash.pulled s.new s.newcomer s.settings.owners chunks) key
    with none | ⟨e, he, rfl, found⟩
  · rw [none, Store.get?_empty]
    refine ⟨fun mine right => ?_, fun _ => rfl⟩
    -- had the key a value, one of the providers would have handed it over
    by_contra live
    have sound := Ring.sound_ofMembers grows.before
    obtain ⟨provider, asked, -, owner⟩ := grows.adds.exists_provider sound
      (Ring.sound_ofMembers grows.after)
      (List.exists_mem_of_ne_nil _ inhabited |>.elim fun m hm =>
        List.ne_nil_of_mem ((Ring.mem_members_ofMembers grows.before).mpr hm)) mine
    rw [← all, List.mem_map] at asked
    obtain ⟨chunk, hc, rfl⟩ := asked
    obtain ⟨e, he, rfl⟩ := (right chunk hc).complete owner
      (Option.isSome_iff_ne_none.mpr fun eq => live eq.symm)
    have taken := Store.isSome_get?_merge_of_accepts (s := Store.empty)
      ((Rehash.mem_pulled distinct).mpr ⟨⟨chunk, hc, he⟩, mine⟩) rfl
    rw [none, Store.get?_empty] at taken
    cases taken
  · obtain ⟨⟨chunk, hc, hin⟩, mine⟩ := (Rehash.mem_pulled distinct).mp he
    refine ⟨fun _ right => ?_, fun other => absurd mine other⟩
    rw [found]
    exact ((right chunk hc).sound e hin rfl).symm

omit grows in
theorem value?_finished {n : Node} (opened : n.log.state ≠ .disabled) (mapping : MemberMapping)
    (chunks : List (Address × List Entry)) (key : String) :
    ((Rehash.merging s.new s.newcomer s.settings.owners chunks n).finishTransition.install
        mapping).store.value? key =
      valueAfter (n.log.pending.flatMap (·.writes)) key
        ((Rehash.merging s.new s.newcomer s.settings.owners chunks n).store.value? key) := by
  have opened' :
      (Rehash.merging s.new s.newcomer s.settings.owners chunks n).log.state ≠ .disabled := opened
  rw [Rehash.finishTransition_eq opened']
  exact Store.value?_writeAll _

omit grows in
theorem follows_finished {n : Node} (blank : s.Blank n) (chunks : List (Address × List Entry)) :
    ((Rehash.merging s.new s.newcomer s.settings.owners chunks n).finishTransition.install
      (.settled s.new)).Follows s.settings (.settled s.new) := by
  have opened : (Rehash.merging s.new s.newcomer s.settings.owners chunks n).log.state ≠
      .disabled := blank.opened
  have keyed : (Rehash.merging s.new s.newcomer s.settings.owners chunks n).store.Keyed := by
    rw [Rehash.merging_store blank.store]
    exact Store.keyed_empty.merge _
  rw [Rehash.finishTransition_eq opened]
  exact ⟨rfl, blank.settings, rfl, keyed.writeAll _⟩

/-- The chunks have been merged and the log replayed; the newcomer has gone over
to the new ring. -/
theorem after_of_during {chunks : List (Address × List Entry)} (h : s.During chunks nodes o)
    (all : chunks.map Prod.fst = s.new.providers s.newcomer s.settings.owners)
    (inhabited : s.members ≠ []) :
    s.After (.moving s.old s.new) (Function.update nodes s.newcomer
      ((Rehash.merging s.new s.newcomer s.settings.owners chunks
        (nodes s.newcomer)).finishTransition.install (.settled s.new))) o := by
  obtain ⟨before, since, split, h⟩ := h
  have opened : (Rehash.merging s.new s.newcomer s.settings.owners chunks
      (nodes s.newcomer)).log.state ≠ .disabled := h.blank.opened
  have other {a : Address} (ha : a ∈ s.members) : a ≠ s.newcomer :=
    fun same => grows.absent (same ▸ ha)
  refine ⟨?_, ?_, ?_, ?_, ?_, ?_⟩
  · intro a ha
    rw [Function.update_of_ne (other ha)]
    exact h.following a ha
  · rw [Function.update_self]
    exact follows_finished h.blank chunks
  · rw [Function.update_self, Rehash.finishTransition_eq opened]
    rfl
  · rw [Function.update_self, Rehash.finishTransition_eq opened]
    exact h.blank.strategy
  · intro key foreign
    rw [Function.update_self, value?_finished h.blank.opened,
      (value?_merging grows before h.blank.store all inhabited key).2 foreign]
    exact valueAfter_of_untouched fun w hw same => foreign (same ▸ h.mine w hw)
  · intro key a ha
    by_cases same : a = s.newcomer
    · subst same
      rw [Function.update_self, value?_finished h.blank.opened]
      show valueAfter (s.logged nodes) key _ = _
      rw [h.logged key ha, value, split, valueAfter_append]
      by_cases touched : ∃ w ∈ since, w.key = key
      · exact valueAfter_of_touched touched _
      · rw [(value?_merging grows before h.blank.store all inhabited key).1 ha fun chunk hc =>
          h.chunks chunk hc key ha fun w hw same => touched ⟨w, hw, same⟩]
    · rw [Function.update_of_ne same, value, split]
      exact h.agree key a ((newOwner_cases grows ha).resolve_left same)

omit grows in
theorem after_settled (keeps : ∀ a n m, s.kept a n → s.kept a (Node.install n m))
    (absent : s.newcomer ∉ s.members) (h : s.After mapping nodes o) :
    s.After (.settled s.new) (fun a => if a = s.newcomer then nodes a
      else (nodes a).install (.settled s.new)) o := by
  refine ⟨?_, ?_, ?_, ?_, ?_, ?_⟩
  · exact h.following.install keeps _ fun a ha =>
      if_neg fun same : a = s.newcomer => absent (same ▸ ha)
  · rw [if_pos rfl]
    exact h.newcomer
  · rw [if_pos rfl]
    exact h.log
  · rw [if_pos rfl]
    exact h.strategy
  · intro key other
    rw [if_pos rfl]
    exact h.lean key other
  · refine h.agree.congr fun key a _ => ?_
    split <;> rfl

end

/-! ## The run -/

/-- The members and the newcomer are on the books, and the coordinator is a member. -/
structure Listed (s : Scene ε) (who : Census) (coordinator : Address) : Prop where
  members : ∀ a ∈ s.members, a ∈ who.members
  newcomer : s.newcomer ∈ who.members
  head : who.members.head? = some coordinator
  member : coordinator ∈ s.members

theorem exists_listed {s : Scene ε} {who : Census}
    (census : who.members = s.members ++ [s.newcomer]) (inhabited : s.members ≠ []) :
    ∃ coordinator, s.Listed who coordinator := by
  obtain ⟨coordinator, first⟩ : ∃ c, s.members.head? = some c :=
    Option.isSome_iff_exists.mp (List.isSome_head?.mpr inhabited)
  refine ⟨coordinator, fun a ha => by simp [census, ha], by simp [census], ?_,
    List.mem_of_mem_head? first⟩
  rw [census, List.head?_append, first]
  rfl

/-- A newcomer's run, with what holds at each of its sendings: `P` when the ring is
asked for, `F` when it has been fetched, `A` before the union is announced, `I chunks`
when `chunks` have been pulled, `D` and `B` before and after the new ring has been
announced. -/
theorem run_ends {s : Scene ε} {who : Census} {around : Surroundings ε} {w : World ε} {now : Nat}
    {rehash : Serial} {coordinator : Address} {S P F A D B Q T : (Address → Node) → ε → Prop}
    {I : List (Address × List Entry) → (Address → Node) → ε → Prop} (silent : around.Silent)
    (enters : Ring.Enters s.strategy s.members s.newcomer s.old s.new)
    (listed : s.Listed who coordinator) (enabled : s.settings.rehashEnabled = true)
    (counted : s.settings.deadline.CountedFrom now) (h : w.Holds who S)
    (ready : ∀ nodes o, S nodes o → (nodes s.newcomer).rehashing = false ∧
      (nodes s.newcomer).settings = s.settings ∧ (nodes s.newcomer).strategy = s.strategy ∧
      P (Function.update nodes s.newcomer (Rehash.taken (nodes s.newcomer))) o)
    (fetch : around.Leads who
      { sender := s.newcomer, targets := [coordinator],
        command := .getCurrentMapping s.newcomer } P fun nodes o =>
      (nodes coordinator).mapping = .settled s.old ∧ F nodes o)
    (opened : ∀ nodes o, F nodes o → (nodes s.newcomer).log.state = .disabled ∧
      A (Function.update nodes s.newcomer
        ((Rehash.logging s.old (nodes s.newcomer)).install (.moving s.old s.new))) o)
    (union : around.Leads who
      { sender := s.newcomer, targets := who.members.filter (· != s.newcomer),
        command := .installMapping (.moving s.old s.new) } A fun nodes o =>
      I [] (fun a => if a = s.newcomer then nodes a
        else (nodes a).install (.moving s.old s.new)) o)
    (pulled : ∀ source ∈ s.new.providers s.newcomer s.settings.owners, ∀ chunks,
      around.Leads who
        { sender := s.newcomer, targets := [source], command := .pullState s.newcomer s.new }
        (I chunks) fun nodes o =>
          I (chunks ++ [(source, (nodes source).stateFor s.newcomer s.new)]) nodes o)
    (finished : ∀ chunks nodes o, I chunks nodes o →
      chunks.map Prod.fst = s.new.providers s.newcomer s.settings.owners →
      D (Function.update nodes s.newcomer ((Rehash.merging s.new s.newcomer s.settings.owners
        chunks (nodes s.newcomer)).finishTransition.install (.settled s.new))) o)
    (final : around.Leads who
      { sender := s.newcomer, targets := who.members.filter (· != s.newcomer),
        command := .installMapping (.settled s.new) } D fun nodes o =>
      B (fun a => if a = s.newcomer then nodes a else (nodes a).install (.settled s.new)) o)
    (report : around.Leads who
      { sender := s.newcomer, targets := [coordinator], command := .joinComplete s.newcomer } B Q)
    (last : ∀ nodes o, Q nodes o →
      T (Function.update nodes s.newcomer (Rehash.givenBack (nodes s.newcomer))) o) :
    (Rehash.run around rehash (who.serial s.newcomer) .join).Ends now w fun w' r =>
      w'.Holds (who.leaving (Rehash.hintsLeft s.settings (who.serial s.newcomer) s.old s.new))
        fun nodes o => r = .ok s.new ∧ T nodes o := by
  have apart : coordinator ≠ s.newcomer := fun same => enters.absent (same ▸ listed.member)
  refine Rehash.run_ends listed.newcomer _ h (fun nodes o start => (ready nodes o start).1)
    (fun nodes o start => (ready nodes o start).2.1 ▸ counted)
    (T := fun nodes o r => r = .ok s.new ∧ T nodes o) ?_
  rintro w' plan self node ⟨nodes, hosts, settings, strategy, nodes', start, rfl⟩
  obtain ⟨-, configured, placed, begun⟩ := ready _ _ start
  rw [Function.update_self] at settings strategy
  have configured : plan.settings = s.settings := settings.symm.trans configured
  have extend : s.old.extend plan.strategy [plan.node] = .ok s.new := by
    rw [node, ← strategy, show (Rehash.taken (nodes' s.newcomer)).strategy = _ from placed]
    exact enters.extend_eq
  have arrived : (Rehash.arrive around plan).Ends now w' fun w'' r => r = .ok s.new ∧
      w''.Holds (who.leaving (Rehash.hintsLeft plan.settings plan.self s.old s.new)) Q := by
    refine Rehash.arrive_ends (P := P) (F := F) (A := A) (U := I [])
      (V := fun nodes o => ∃ chunks nodes', I chunks nodes' o ∧
        chunks.map Prod.fst = s.new.providers s.newcomer s.settings.owners ∧
        nodes = Function.update nodes' s.newcomer (Rehash.merging s.new s.newcomer
          s.settings.owners chunks (nodes' s.newcomer)))
      (D := D) (B := B) silent self listed.head extend ?moves ⟨_, hosts, begun⟩ ?fetch ?opened
      ?union ?moved ?finished ?final ?report ?alone
    case moves =>
      rw [enters.beq_eq_false, configured, enabled]
      rfl
    case fetch =>
      rw [node]
      exact fetch
    case opened =>
      rw [node]
      exact opened
    case union =>
      rw [node]
      exact union
    case moved =>
      intro w'' begins
      refine Rehash.pullState_ends silent self ?_ (I := I) begins ?_ ?_
      · intro source asked
        rw [node] at asked
        exact listed.members source (enters.mem_of_provider asked)
      · rw [node, configured]
        exact pulled
      · intro chunks nodes o i all
        rw [node, configured] at all ⊢
        exact ⟨chunks, nodes, i, all, rfl⟩
    case finished =>
      rintro nodes o ⟨chunks, nodes', i, all, rfl⟩
      rw [node, Function.update_self, Function.update_idem]
      exact finished chunks nodes' o i all
    case final =>
      rw [node]
      exact final
    case report =>
      rw [node]
      exact report
    case alone => exact fun same => absurd (same.trans node) apart
  have hints : Rehash.hintsLeft plan.settings plan.self s.old s.new =
      Rehash.hintsLeft s.settings (who.serial s.newcomer) s.old s.new := by
    rw [configured, self.self, node]
  rw [hints] at arrived
  have carried : (Rehash.carryOut around plan .join).Ends now w' fun w'' r => r = .ok s.new ∧
      w''.Holds (who.leaving (Rehash.hintsLeft s.settings (who.serial s.newcomer) s.old s.new))
        Q := Rehash.carryOut_ends arrived
  refine carried.mono ?_
  rintro w'' r ⟨rfl, holds⟩
  exact holds.mono fun nodes o q => ⟨rfl, last nodes o q⟩

structure Fresh (s : Scene ε) (n : Node) : Prop where
  log : n.log = .closed
  store : n.store = .empty
  settings : n.settings = s.settings
  strategy : n.strategy = s.strategy
  idle : n.rehashing = false

structure Ready (s : Scene ε) (n : Node) : Prop where
  log : n.log = .closed
  store : n.store = .empty
  settings : n.settings = s.settings
  strategy : n.strategy = s.strategy

section

variable {s : Scene ε} {nodes : Address → Node} {o : ε}

theorem Before.update {blank blank' : Node → Prop} (h : s.Before blank nodes o)
    (grows : Ring.Grows s.strategy s.members s.newcomer s.old s.new) {n : Node} (hn : blank' n) :
    s.Before blank' (Function.update nodes s.newcomer n) o where
  following a ha := by
    rw [Function.update_of_ne fun same : a = s.newcomer => grows.absent (same ▸ ha)]
    exact h.following a ha
  agree := h.agree.congr fun key a ha => by
    rw [Function.update_of_ne fun same : a = s.newcomer =>
      grows.absent (same ▸ mem_of_oldOwner grows ha)]
  newcomer := by
    rw [Function.update_self]
    exact hn

theorem After.update {mapping : MemberMapping} (h : s.After mapping nodes o)
    (absent : s.newcomer ∉ s.members) {n : Node}
    (follows : n.Follows s.settings (.settled s.new))
    (log : n.log = (nodes s.newcomer).log) (strategy : n.strategy = (nodes s.newcomer).strategy)
    (store : n.store = (nodes s.newcomer).store) :
    s.After mapping (Function.update nodes s.newcomer n) o where
  following a ha := by
    rw [Function.update_of_ne fun same : a = s.newcomer => absent (same ▸ ha)]
    exact h.following a ha
  newcomer := by
    rw [Function.update_self]
    exact follows
  log := by
    rw [Function.update_self, log]
    exact h.log
  strategy := by
    rw [Function.update_self, strategy]
    exact h.strategy
  lean key other := by
    rw [Function.update_self, store]
    exact h.lean key other
  agree := h.agree.congr fun key a _ => by
    by_cases same : a = s.newcomer
    · rw [same, Function.update_self, store]
    · rw [Function.update_of_ne same]

/-- The newcomer's run ends with the new ring, whatever clients write
meanwhile, and all owners under it have the last write of every key. -/
theorem join_ends {who : Census} {around : Surroundings ε} {allowed : Request → Prop}
    {w : World ε} {now : Nat} {rehash : Serial}
    (silent : around.Silent) (writes : around.OnlyWrites who allowed s.wrote)
    (issuers : ∀ r, allowed r → r.issuer ∈ s.members)
    (keeps : ∀ r, allowed r → ∀ a n tx, s.kept a n → s.kept a (n.acceptWrite tx))
    (keeps' : ∀ a n m, s.kept a n → s.kept a (Node.install n m))
    (grows : Ring.Grows s.strategy s.members s.newcomer s.old s.new)
    (census : who.members = s.members ++ [s.newcomer]) (inhabited : s.members ≠ [])
    (enabled : s.settings.rehashEnabled = true) (counted : s.settings.deadline.CountedFrom now)
    (h : w.Holds who (s.Before s.Fresh)) :
    (Rehash.run around rehash (who.serial s.newcomer) .join).Ends now w fun w' r =>
      w'.Holds (who.leaving (Rehash.hintsLeft s.settings (who.serial s.newcomer) s.old s.new))
        fun nodes o => r = .ok s.new ∧ s.After (.settled s.new) nodes o ∧
          (nodes s.newcomer).rehashing = false := by
  obtain ⟨coordinator, listed⟩ := exists_listed census inhabited
  refine run_ends (S := s.Before s.Fresh) (P := s.Before s.Ready) (F := s.Before s.Ready)
    (A := s.Before fun n => s.Blank n ∧ n.log.pending = []) (D := s.After (.moving s.old s.new))
    (B := s.After (.settled s.new)) (Q := s.After (.settled s.new)) (I := s.During)
    (T := fun nodes o => s.After (.settled s.new) nodes o ∧ (nodes s.newcomer).rehashing = false)
    silent grows.enters listed enabled counted h ?ready ?fetch ?opened ?union ?pulled ?finished
    ?final ?report ?last
  case ready =>
    intro nodes o before
    have fresh := before.newcomer
    exact ⟨fresh.idle, fresh.settings, fresh.strategy,
      before.update grows ⟨fresh.log, fresh.store, fresh.settings, fresh.strategy⟩⟩
  case fetch =>
    refine (leads_before writes issuers keeps grows _ _).mono fun nodes o _ before => ⟨?_, before⟩
    exact (before.following coordinator listed.member).1.mapping
  case opened =>
    intro nodes o before
    refine ⟨by rw [before.newcomer.log]; rfl, before.update grows ⟨⟨?_, ?_, ?_, ?_⟩, ?_⟩⟩
    · exact fun closed => by cases closed
    · exact before.newcomer.store
    · exact before.newcomer.settings
    · exact before.newcomer.strategy
    · show (nodes s.newcomer).log.pending = []
      rw [before.newcomer.log]
      rfl
  case union =>
    exact (leads_before writes issuers keeps grows _ _).mono
      fun nodes o _ before => during_of_before grows keeps' before
  case pulled =>
    intro source asked chunks
    have mem := grows.enters.mem_of_provider asked
    exact (leads_during writes issuers keeps grows chunks _).mono fun nodes o address h =>
      during_of_pull mem (address source (listed.members source mem)) h
  case finished => exact fun chunks nodes o during all => after_of_during grows during all inhabited
  case final =>
    exact (leads_after_moving writes issuers keeps grows _).mono
      fun nodes o _ after => after_settled keeps' grows.absent after
  case report => exact leads_after_settled writes issuers keeps grows _
  case last =>
    intro nodes o after
    refine ⟨after.update grows.absent ?_ rfl rfl rfl, ?_⟩
    · exact ⟨after.newcomer.mapping, after.newcomer.settings, after.newcomer.closed,
        after.newcomer.keyed⟩
    · rw [Function.update_self]
      rfl

end

end Scene

/-- A newcomer joins a settled cluster in which nobody moves for it, while
clients put, remove and write transactions through the members, at whichever
sendings of the run.  If the clock counts to the deadline, and only then, the run
ends with the new ring, every member goes by it, and every owner of a key under it
has the last write of the key, in the order in which the writes were carried out. -/
theorem no_write_lost_by_join_iff {members : List Address} {x : Address}
    {serial : Address → Serial} {errands : Option (List Errand)} {settings : Settings}
    {strategy : Strategy} {old new : MemberRing} {initial : String → Option (List UInt8)}
    {c : Cluster} {nodes : Address → Node} {script : Nat → Sending → List Request}
    (rehash : Serial) (now : Nat)
    (inhabited : members ≠ []) (hosts : c.Hosts ⟨members ++ [x], serial, errands⟩ nodes)
    (named : settings.strategy = .ok strategy) (enabled : settings.rehashEnabled = true)
    (grows : Ring.Grows strategy members x old new)
    (settled : ∀ a ∈ members, (nodes a).Follows settings (.settled old))
    (agree : Agree (old.locate · settings.owners) initial nodes)
    (fresh : Node.create x settings [x] = .ok (nodes x))
    (issuers : ∀ i sending, ∀ r ∈ script i sending, r.issuer ∈ members) :
    (∃ w', Rehash.run (clients script) rehash (serial x) .join now
        { cluster := c, outside := {} } = .done w' (.ok new) ∧
      (∀ a ∈ members ++ [x], ∃ n, w'.cluster.nodes.find? a = some n ∧
        n.mapping = .settled new) ∧
      ∀ key, ∀ a ∈ new.locate key settings.owners, ∃ n, w'.cluster.nodes.find? a = some n ∧
        n.store.value? key = valueAfter w'.outside.writes key (initial key)) ↔
      settings.deadline.CountedFrom now := by
  let scene : Scene Chronicle := {
    members, newcomer := x, settings, strategy, old, new, initial
    wrote := Chronicle.writes
    kept := fun _ _ => True }
  obtain ⟨-, strategy', ring, named', -, made⟩ := Node.create_eq_ok_iff.mp fresh
  have newcomer : scene.Fresh (nodes x) := by
    rw [made]
    exact ⟨rfl, rfl, rfl, Except.ok.inj (named'.symm.trans named), rfl⟩
  constructor
  · rintro ⟨w', run, -⟩
    by_contra uncounted
    have unreached : ¬ (nodes x).settings.deadline.CountedFrom now :=
      newcomer.settings ▸ uncounted
    have stopped : Rehash.run (clients script) rehash (serial x) .join now
        { cluster := c, outside := {} } = .done { cluster := c, outside := {} }
          (.error .overflow) :=
      Rehash.run_overflows (hosts.node (List.mem_append_right _ List.mem_cons_self))
        newcomer.idle unreached
    cases run.symm.trans stopped
  intro counted
  have start : World.Holds ⟨members ++ [x], serial, errands⟩ (scene.Before scene.Fresh)
      { cluster := c, outside := {} } :=
    ⟨nodes, hosts, fun a ha => ⟨settled a ha, trivial⟩, agree, newcomer⟩
  have writes : (clients script).OnlyWrites ⟨members ++ [x], serial, errands⟩
      (fun r => r.issuer ∈ members) Chronicle.writes :=
    Surroundings.onlyWrites_clients issuers fun r mem => List.mem_append_left _ mem
  obtain ⟨w', r, run, nodes', hosts', rfl, after, -⟩ := scene.join_ends (silent_clients script)
    writes (fun _ mem => mem) (fun _ _ _ _ _ _ => trivial) (fun _ _ _ _ => trivial) grows rfl
    inhabited enabled counted start
  refine ⟨w', run, fun a ha => ⟨nodes' a, hosts'.find? ha, ?_⟩, fun key a ha =>
    ⟨nodes' a, hosts'.find? ?_, after.agree key a ha⟩⟩
  · rcases List.mem_append.mp ha with ha | ha
    · exact (after.following a ha).1.mapping
    · rw [List.mem_singleton] at ha
      exact ha ▸ after.newcomer.mapping
  · exact (Ring.mem_members_ofMembers grows.after).mp
      ((Ring.sound_ofMembers grows.after).mem_members_of_mem_locate ha)

/-- `C` is about to come to `A`, which has been alone so far. -/
theorem exists_join_of_one :
    let c := (Cluster.founded {} ["A"]).start "C" {} ["C"]
    ∃ (serial : Address → Serial) (nodes : Address → Node) (old new : MemberRing),
      c.nodes.serial? "C" = some (serial "C") ∧
      c.Hosts ⟨["A"] ++ ["C"], serial, some []⟩ nodes ∧
      Ring.Grows Strategy.sip24 ["A"] "C" old new ∧
      (∀ a ∈ ["A"], (nodes a).Follows {} (.settled old)) ∧
      (∀ a, (nodes a).store = .empty) ∧ Node.create "C" {} ["C"] = .ok (nodes "C") := by
  obtain ⟨old, new, grows⟩ : ∃ old new, Ring.Grows Strategy.sip24 ["A"] "C" old new :=
    Ring.exists_grows (by decide) (by decide) (by decide +kernel)
  have before := grows.before
  obtain ⟨alone, apart⟩ : ∃ r, Ring.ofMembers Strategy.sip24 ["C"] = .ok r :=
    Ring.exists_ofMembers _ (by decide)
  have first : Node.create "A" {} ["A"] = .ok (Node.made "A" {} .sip24 old) :=
    Node.create_eq_ok_iff.mpr ⟨by decide +kernel, .sip24, old, by decide +kernel, before, rfl⟩
  have fresh : Node.create "C" {} ["C"] = .ok (Node.made "C" {} .sip24 alone) :=
    Node.create_eq_ok_iff.mpr ⟨by decide +kernel, .sip24, alone, by decide +kernel, apart, rfl⟩
  obtain ⟨serial, founded⟩ : ∃ serial, (Cluster.founded {} ["A"]).Hosts ⟨["A"], serial, some []⟩
      fun _ => Node.made "A" {} .sip24 old := by
    refine Cluster.exists_hosts_founded (by decide) fun a ha => ?_
    obtain rfl : a = "A" := by simpa using ha
    exact first
  have hosts := founded.start (a := "C") (show "C" ∉ ["A"] by decide) fresh
  refine ⟨_, _, old, new, hosts.named (show "C" ∈ ["A"] ++ ["C"] by decide), hosts, grows, ?_, ?_,
    fresh⟩
  · intro a ha
    obtain rfl : a = "A" := by simpa using ha
    exact ⟨rfl, rfl, rfl, Store.keyed_empty⟩
  · intro a
    simp only [Function.update_apply]
    split <;> rfl

/-- Two puts and a remove while `C` comes to `A`. -/
def midway : Nat → Sending → List Request
  | 0, _ => [⟨"A", .single (.put "k0" [1])⟩]
  | 2, _ => [⟨"A", ⟨some 7, [.put "k1" [2], .remove "k0"]⟩⟩]
  | _, _ => []

theorem issuer_mem_of_mem_midway (i : Nat) (sending : Sending) (r : Request)
    (listed : r ∈ midway i sending) : r.issuer ∈ ["A"] := by
  unfold midway at listed
  split at listed <;> simp_all

theorem no_write_lost_by_join_to_one :
    let c := (Cluster.founded {} ["A"]).start "C" {} ["C"]
    ∃ self w' new, c.nodes.serial? "C" = some self ∧
      Rehash.run (clients midway) 0 self .join 0 { cluster := c, outside := {} } =
        .done w' (.ok new) ∧
      (∀ a ∈ ["A", "C"], ∃ n, w'.cluster.nodes.find? a = some n ∧ n.mapping = .settled new) ∧
      ∀ key, ∀ a ∈ new.locate key 2, ∃ n, w'.cluster.nodes.find? a = some n ∧
        n.store.value? key = valueAfter w'.outside.writes key none := by
  obtain ⟨serial, nodes, old, new, self, hosts, grows, settled, blank, fresh⟩ := exists_join_of_one
  have agree := agree_of_empty blank (old.locate · (Settings.owners {}))
  obtain ⟨w', run, gone, values⟩ := (no_write_lost_by_join_iff 0 0 (List.cons_ne_nil _ _) hosts
    (show Settings.strategy {} = .ok .sip24 by decide +kernel) rfl grows settled agree fresh
    issuer_mem_of_mem_midway).mpr (by decide)
  exact ⟨_, w', new, self, run, gone, values⟩

/-- `C` is to join `A`, with the longest deadline that there is. -/
def endless : List Scenario.Step :=
  let settings : Settings := { rehashDeadline := some .longest }
  [.node "A" ["A"] settings true, .node "C" ["C"] settings true, .join "C" "of C", .run "of C"]

/-- Both nodes are made, the join stops at once, and nothing comes after it. -/
theorem join_stopped_by_endless_deadline :
    (Scenario.run endless).filterMap (fun answer => match answer.outcome with
      | .node n => some n.address
      | _ => none) = ["A", "C"] ∧
    (Scenario.run endless).filterMap (fun answer => match answer.outcome with
      | .ran (.error cause) phase _ => some (cause, phase)
      | _ => none) = [(.overflow, .idle)] ∧
    (Scenario.play endless).isNone = true := by
  decide +kernel

end SlotRing
