/-
# Puts that reach a newcomer twice

While a newcomer pulls state, clients go on writing, and every owner under the old
ring and the newcomer's log get what they write.  So the copy that an owner hands over
has the writes up to the moment at which it is asked, and the log has all of them
since the union was announced: those in between are carried out twice on the newcomer.
For the value of a key that does not matter, but every put moves the version on by
one.

All owners of a key end with the same version if and only if the newest copy that the
newcomer has pulled is as old as the union (`replicas_level_after_join_iff`).
-/
import SlotRing.Proofs.Cluster.Timetable
import SlotRing.Proofs.Rehash.LosslessJoin
import SlotRing.Proofs.Store.Omissions
import SlotRing.Scenario.Run

namespace SlotRing

namespace Scene

variable {ε : Type} (s : Scene ε)

/-! ## What is sent -/

def providers : List Address := s.new.providers s.newcomer s.settings.owners

def sends (targets : List Address) (command : Command) : Sending :=
  { sender := s.newcomer, targets, command }

/-- The sendings up to the one at which the last of some members is asked for state. -/
def upTo (asked : List Address) : List Sending :=
  [s.sends [s.members.headD s.newcomer] (.getCurrentMapping s.newcomer),
    s.sends s.members (.installMapping (.moving s.old s.new))] ++
  asked.map fun p => s.sends [p] (.pullState s.newcomer s.new)

def sendings : List Sending :=
  s.upTo s.providers ++ [s.sends s.members (.installMapping (.settled s.new))] ++
    [s.sends [s.members.headD s.newcomer] (.joinComplete s.newcomer)]

variable (script : Nat → Sending → List Request) (start : Address → Store)

/-- What the store of a member has become of when the last of some members is asked for
state. -/
def held (asked : List Address) (p : Address) : Store :=
  (start p).writeAll (written script (s.upTo asked))

def handed (p : Address) : Store :=
  s.held script start (s.providers.takeWhile (· != p) ++ [p]) p

/-- The versions of the copies of a key that the newcomer pulls. -/
def copies (key : String) : List Nat :=
  (s.providers.filter (s.oldOwners key).contains).filterMap fun p =>
    ((s.handed script start p).get? key).map Entry.version

/-- The version of the newest of these copies, 0 if there are none. -/
def newest (key : String) : Nat := (s.copies script start key).max?.getD 0

/-- The puts of a key that have been carried out by then. -/
def putsUpTo (asked : List Address) (key : String) : Nat :=
  (written script (s.upTo asked)).countP (·.puts key)

/-! ## The stages -/

/-- The members go by the old ring, and the owners of a key have carried out what was
written. -/
structure Early (blank : Node → Prop) (ws : List Write) (nodes : Address → Node) : Prop where
  following : ∀ a ∈ s.members, (nodes a).Follows s.settings (.settled s.old)
  stores : ∀ key, ∀ a ∈ s.oldOwners key, (nodes a).store.SameAt ((start a).writeAll ws) key
  newcomer : blank (nodes s.newcomer)

/-- The members go by the union.  The newcomer has logged what was written since, and each
chunk is what its provider held when it was asked. -/
structure Midst (chunks : List (Address × List Entry)) (ws : List Write)
    (nodes : Address → Node) : Prop where
  following : ∀ a ∈ s.members, (nodes a).Follows s.settings (.moving s.old s.new)
  stores : ∀ key, ∀ a ∈ s.oldOwners key, (nodes a).store.SameAt ((start a).writeAll ws) key
  blank : s.Blank (nodes s.newcomer)
  logged : ∃ since, ws = written script (s.upTo []) ++ since ∧
    ∀ key, s.newcomer ∈ s.newOwners key → ∀ t : Store,
      (t.writeAll (s.logged nodes)).SameAt (t.writeAll since) key
  chunks : ∀ before p chunk after, chunks = before ++ (p, chunk) :: after → ∀ e, e ∈ chunk ↔
    (s.held script start (before.map Prod.fst ++ [p]) p).get? e.key = some e ∧
      s.newcomer ∈ s.newOwners e.key ∧ p ∈ s.oldOwners e.key

/-- The newcomer writes through.  Its version of a key is that of the newest copy, moved on
by the puts since the union. -/
structure Late (mapping : MemberMapping) (ws : List Write) (nodes : Address → Node) : Prop where
  following : ∀ a ∈ s.members, (nodes a).Follows s.settings mapping
  stores : ∀ key, ∀ a ∈ s.newOwners key, a ≠ s.newcomer →
    (nodes a).store.SameAt ((start a).writeAll ws) key
  newcomer : (nodes s.newcomer).Follows s.settings (.settled s.new)
  version : ∀ key, s.newcomer ∈ s.newOwners key →
    (nodes s.newcomer).store.reached key + (written script (s.upTo [])).countP (·.puts key) =
      s.newest script start key + ws.countP (·.puts key)

end Scene

/-! ## Writes preserve what holds -/

theorem Store.writeAll_append (s : Store) (ws ws' : List Write) :
    s.writeAll (ws ++ ws') = (s.writeAll ws).writeAll ws' :=
  List.foldl_append

theorem Store.SameAt.reached {s t : Store} {key : String} (h : s.SameAt t key) :
    s.reached key = t.reached key := by
  rw [Store.reached, Store.reached, h.version?]

theorem isSome_valueAfter {key : String} {initial : Option (List UInt8)} {ws : List Write}
    (live : initial.isSome) (kept : .remove key ∉ ws) : (valueAfter ws key initial).isSome := by
  induction ws generalizing initial with
  | nil => exact live
  | cons w ws ih =>
    obtain ⟨first, rest⟩ := List.ne_and_not_mem_of_not_mem_cons kept
    refine ih ?_ rest
    show (w.upon key initial).isSome
    by_cases own : w.key = key
    · cases w with
      | put written value => simp [Write.upon, own]
      | remove removed => exact absurd (congrArg Write.remove own.symm) first
    · rwa [Write.upon_of_ne own]

theorem Store.isSome_get?_writeAll {s : Store} {key : String} {ws : List Write}
    (live : (s.get? key).isSome) (kept : .remove key ∉ ws) :
    ((s.writeAll ws).get? key).isSome := by
  have alive : (s.value? key).isSome := by rwa [value?, Option.isSome_map]
  have value := isSome_valueAfter alive kept
  rwa [← Store.value?_writeAll, value?, Option.isSome_map] at value

theorem Store.version_of_live {s : Store} {key : String} (live : (s.get? key).isSome) :
    (s.get? key).map Entry.version = some (s.reached key) := by
  obtain ⟨e, found⟩ := Option.isSome_iff_exists.mp live
  rw [reached, version?_of_get? found, found]
  rfl

theorem sameAt_spread {serving : String → List Address} {tx : Transaction}
    {nodes : Address → Node} {a : Address} {key : String} {s : Store} {ws : List Write}
    (closed : (nodes a).log.state = .disabled) (serves : a ∈ serving key)
    (h : (nodes a).store.SameAt (s.writeAll ws) key) :
    (spread serving tx nodes a).store.SameAt (s.writeAll (ws ++ tx.writes)) key := by
  rw [spread_of_closed closed, Store.writeAll_append]
  have taken := Store.sameAt_share (nodes a).store serving tx a key
  rw [if_pos serves] at taken
  exact taken.trans (h.writeAll _)

namespace Scene

variable {s : Scene Chronicle} {script : Nat → Sending → List Request} {start : Address → Store}
  {ws : List Write} {nodes : Address → Node} {r : Request} {mapping : MemberMapping}
  {chunks : List (Address × List Entry)}

section

variable (grows : Ring.Grows s.strategy s.members s.newcomer s.old s.new)
  (issued : r.issuer ∈ s.members)
include grows issued

theorem Early.spread {blank : Node → Prop} (h : s.Early start blank ws nodes) :
    (∀ key, ((nodes r.issuer).serving key).Nodup) ∧
      s.Early start blank (ws ++ r.tx.writes)
        (SlotRing.spread (nodes r.issuer).serving r.tx nodes) := by
  have sound := Ring.sound_ofMembers grows.before
  have follows := h.following _ issued
  refine ⟨Node.nodup_serving_settled sound follows.mapping, fun a ha => (h.following a ha).spread,
    fun key a ha => ?_, ?_⟩
  · have member := mem_of_oldOwner grows ha
    exact sameAt_spread (h.following a member).closed
      ((follows.mem_serving_settled sound).mpr ha) (h.stores key a ha)
  · rw [spread_of_not_serving]
    · exact h.newcomer
    · exact fun key serves => newcomer_not_oldOwner grows key
        ((follows.mem_serving_settled sound).mp serves)

theorem Midst.spread (h : s.Midst script start chunks ws nodes) :
    (∀ key, ((nodes r.issuer).serving key).Nodup) ∧
      s.Midst script start chunks (ws ++ r.tx.writes)
        (SlotRing.spread (nodes r.issuer).serving r.tx nodes) := by
  have follows := h.following _ issued
  obtain ⟨blank, log⟩ := h.blank.spread (nodes r.issuer).serving r.tx
  refine ⟨Node.nodup_serving_moving (Ring.sound_ofMembers grows.before) follows.mapping,
    fun a ha => (h.following a ha).spread, fun key a ha => ?_, blank, ?_, h.chunks⟩
  · exact sameAt_spread (h.following a (mem_of_oldOwner grows ha)).closed
      ((mem_serving_union grows follows).mpr (.inl ha)) (h.stores key a ha)
  · obtain ⟨since, split, replayed⟩ := h.logged
    refine ⟨since ++ r.tx.writes, by rw [split, List.append_assoc], fun key mine t => ?_⟩
    rw [log, Store.writeAll_append, Store.writeAll_append]
    have taken := Store.sameAt_share (t.writeAll (s.logged nodes)) (nodes r.issuer).serving r.tx
      s.newcomer key
    rw [if_pos ((mem_serving_union grows follows).mpr (.inr mine))] at taken
    exact taken.trans ((replayed key mine t).writeAll _)

theorem Late.spread (serves : ∀ n : Node, n.Follows s.settings mapping → ∀ key,
      (n.serving key).Nodup ∧ ∀ a ∈ s.newOwners key, a ∈ n.serving key)
    (h : s.Late script start mapping ws nodes) :
    (∀ key, ((nodes r.issuer).serving key).Nodup) ∧
      s.Late script start mapping (ws ++ r.tx.writes)
        (SlotRing.spread (nodes r.issuer).serving r.tx nodes) := by
  have follows := h.following _ issued
  refine ⟨fun key => (serves _ follows key).1, fun a ha => (h.following a ha).spread,
    fun key a ha other => ?_, h.newcomer.spread, fun key mine => ?_⟩
  · have member := mem_of_oldOwner grows ((newOwner_cases grows ha).resolve_left other)
    exact sameAt_spread (h.following a member).closed ((serves _ follows key).2 a ha)
      (h.stores key a ha other)
  · have taken := Store.sameAt_share (nodes s.newcomer).store (nodes r.issuer).serving r.tx
      s.newcomer key
    rw [if_pos ((serves _ follows key).2 _ mine)] at taken
    have level := h.version key mine
    rw [spread_of_closed h.newcomer.closed, taken.reached, Store.reached_writeAll,
      List.countP_append]
    omega

theorem Late.spread_moving (h : s.Late script start (.moving s.old s.new) ws nodes) :
    (∀ key, ((nodes r.issuer).serving key).Nodup) ∧
      s.Late script start (.moving s.old s.new) (ws ++ r.tx.writes)
        (SlotRing.spread (nodes r.issuer).serving r.tx nodes) :=
  h.spread grows issued fun _ follows key =>
    ⟨Node.nodup_serving_moving (Ring.sound_ofMembers grows.before) follows.mapping key,
      fun _ owner => (mem_serving_union grows follows).mpr (.inr owner)⟩

theorem Late.spread_settled (h : s.Late script start (.settled s.new) ws nodes) :
    (∀ key, ((nodes r.issuer).serving key).Nodup) ∧
      s.Late script start (.settled s.new) (ws ++ r.tx.writes)
        (SlotRing.spread (nodes r.issuer).serving r.tx nodes) :=
  h.spread grows issued fun _ follows key =>
    ⟨Node.nodup_serving_settled (Ring.sound_ofMembers grows.after) follows.mapping key,
      fun _ => (follows.mem_serving_settled (Ring.sound_ofMembers grows.after)).mpr⟩

end

/-! ## From one stage to the next -/

theorem Early.update {blank blank' : Node → Prop} (h : s.Early start blank ws nodes)
    (grows : Ring.Grows s.strategy s.members s.newcomer s.old s.new) {n : Node} (hn : blank' n) :
    s.Early start blank' ws (Function.update nodes s.newcomer n) where
  following a ha := by
    rw [Function.update_of_ne fun same : a = s.newcomer => grows.absent (same ▸ ha)]
    exact h.following a ha
  stores key a ha := by
    rw [Function.update_of_ne fun same : a = s.newcomer =>
      grows.absent (same ▸ mem_of_oldOwner grows ha)]
    exact h.stores key a ha
  newcomer := by
    rw [Function.update_self]
    exact hn

section

variable (grows : Ring.Grows s.strategy s.members s.newcomer s.old s.new)
include grows

theorem midst_of_early
    (h : s.Early start (fun n => s.Blank n ∧ n.log.pending = []) (written script (s.upTo []))
      nodes) :
    s.Midst script start [] (written script (s.upTo [])) (fun a => if a = s.newcomer then nodes a
      else (nodes a).install (.moving s.old s.new)) := by
  have other {a : Address} (ha : a ∈ s.members) : a ≠ s.newcomer :=
    fun same => grows.absent (same ▸ ha)
  refine ⟨fun a ha => ?_, fun key a ha => ?_, ?_, ⟨[], (List.append_nil _).symm, ?_⟩, ?_⟩
  · rw [if_neg (other ha)]
    exact (h.following a ha).install _
  · rw [if_neg (other (mem_of_oldOwner grows ha))]
    exact h.stores key a ha
  · rw [if_pos rfl]
    exact h.newcomer.1
  · intro key _ t
    rw [logged, if_pos rfl, h.newcomer.2]
    exact Store.SameAt.refl _ _
  · intro before p chunk after split
    cases before <;> cases split

omit grows in
theorem Midst.pull {source : Address} (mem : source ∈ s.members)
    (address : (nodes source).address = source)
    (h : s.Midst script start chunks (written script (s.upTo (chunks.map Prod.fst ++ [source])))
      nodes) :
    s.Midst script start (chunks ++ [(source, (nodes source).stateFor s.newcomer s.new)])
      (written script (s.upTo (chunks.map Prod.fst ++ [source]))) nodes := by
  refine ⟨h.following, h.stores, h.blank, h.logged, fun before p chunk after split e => ?_⟩
  rcases List.eq_nil_or_concat after with rfl | ⟨after, last, rfl⟩
  · obtain ⟨rfl, same⟩ := List.append_inj' split rfl
    obtain ⟨rfl, rfl⟩ := Prod.mk.inj (List.singleton_inj.mp same)
    rw [(h.following source mem).mem_stateFor_iff, address]
    refine and_congr_left fun owners => ?_
    rw [(h.stores e.key source owners.2).1]
    rfl
  · rw [List.concat_eq_append, ← List.cons_append, ← List.append_assoc] at split
    exact h.chunks before p chunk after (List.append_inj_left' split rfl) e

omit grows in
theorem Midst.mem_chunk_iff (h : s.Midst script start chunks ws nodes)
    (all : chunks.map Prod.fst = s.providers) {chunk : Address × List Entry}
    (mem : chunk ∈ chunks) (e : Entry) :
    e ∈ chunk.2 ↔ (s.handed script start chunk.1).get? e.key = some e ∧
      s.newcomer ∈ s.newOwners e.key ∧ chunk.1 ∈ s.oldOwners e.key := by
  obtain ⟨before, after, rfl⟩ := List.append_of_mem mem
  have split : before.map Prod.fst ++ chunk.1 :: after.map Prod.fst = s.providers := by
    rw [← all, List.map_append, List.map_cons]
  have distinct : (before.map Prod.fst ++ chunk.1 :: after.map Prod.fst).Nodup :=
    split ▸ Ring.nodup_providers _ _ _
  have others : ∀ p ∈ before.map Prod.fst, (p != chunk.1) = true := by
    intro p hp
    rw [bne_iff_ne]
    rintro rfl
    exact List.disjoint_of_nodup_append distinct hp List.mem_cons_self
  have first : s.providers.takeWhile (· != chunk.1) = before.map Prod.fst := by
    rw [← split, List.takeWhile_append_of_pos others, List.takeWhile_cons_of_neg (by simp),
      List.append_nil]
  rw [handed, first]
  exact h.chunks before chunk.1 chunk.2 after rfl e

omit grows in
theorem mem_copies_iff {key : String} {v : Nat} :
    v ∈ s.copies script start key ↔ ∃ p ∈ s.providers, p ∈ s.oldOwners key ∧
      ((s.handed script start p).get? key).map Entry.version = some v := by
  simp only [copies, List.mem_filterMap, List.mem_filter, List.contains_iff_mem, and_assoc]

/-- What has been merged has the version of the newest copy. -/
theorem Midst.reached_merging (keyed : ∀ a ∈ s.members, (start a).Keyed)
    (h : s.Midst script start chunks ws nodes) (all : chunks.map Prod.fst = s.providers)
    {key : String} (mine : s.newcomer ∈ s.newOwners key) :
    (Rehash.merging s.new s.newcomer s.settings.owners chunks
      (nodes s.newcomer)).store.reached key = s.newest script start key := by
  have copy {v : Nat} : v ∈ s.copies script start key ↔
      ∃ e ∈ Rehash.pulled s.new s.newcomer s.settings.owners chunks,
        e.key = key ∧ e.version = v := by
    rw [mem_copies_iff]
    constructor
    · rintro ⟨p, asked, owner, copied⟩
      obtain ⟨e, found, rfl⟩ := Option.map_eq_some_iff.mp copied
      obtain rfl : e.key = key :=
        (keyed p (mem_of_oldOwner grows owner)).writeAll _ key e found
      exact ⟨e, (Rehash.mem_pulled_iff all fun _ hc => h.mem_chunk_iff all hc).mpr
        ⟨mine, p, asked, owner, found⟩, rfl, rfl⟩
    · rintro ⟨e, he, rfl, rfl⟩
      obtain ⟨-, p, asked, owner, found⟩ :=
        (Rehash.mem_pulled_iff all fun _ hc => h.mem_chunk_iff all hc).mp he
      exact ⟨p, asked, owner, by rw [found]; rfl⟩
  rw [Rehash.merging_store h.blank.store, newest]
  rcases Store.get?_merge_empty (Rehash.pulled s.new s.newcomer s.settings.owners chunks) key
    with ⟨dead, none⟩ | ⟨e, he, own, found, newest⟩
  · have uncopied : s.copies script start key = [] :=
      List.eq_nil_iff_forall_not_mem.mpr fun v hv =>
        let ⟨e, he, own, _⟩ := copy.mp hv
        none e he own
    rw [uncopied, Store.reached, Store.version?_of_not_live dead,
      Store.removed?_merge Std.ExtTreeMap.getElem?_empty]
    rfl
  · have top : (s.copies script start key).max? = some e.version := by
      refine List.max?_eq_some_iff.mpr ⟨copy.mpr ⟨e, he, own, rfl⟩, fun v hv => ?_⟩
      obtain ⟨d, hd, own', rfl⟩ := copy.mp hv
      exact newest d hd own'
    rw [top, Store.reached, Store.version?_of_get? found]

/-- The chunks have been merged and the log replayed; the newcomer has gone over to the new
ring. -/
theorem late_of_midst (keyed : ∀ a ∈ s.members, (start a).Keyed)
    (h : s.Midst script start chunks ws nodes) (all : chunks.map Prod.fst = s.providers) :
    s.Late script start (.moving s.old s.new) ws (Function.update nodes s.newcomer
      ((Rehash.merging s.new s.newcomer s.settings.owners chunks
        (nodes s.newcomer)).finishTransition.install (.settled s.new))) := by
  have opened : (Rehash.merging s.new s.newcomer s.settings.owners chunks
      (nodes s.newcomer)).log.state ≠ .disabled := h.blank.opened
  refine ⟨fun a ha => ?_, fun key a ha other => ?_, ?_, fun key mine => ?_⟩
  · rw [Function.update_of_ne fun same : a = s.newcomer => grows.absent (same ▸ ha)]
    exact h.following a ha
  · rw [Function.update_of_ne other]
    exact h.stores key a ((newOwner_cases grows ha).resolve_left other)
  · rw [Function.update_self]
    exact follows_finished h.blank chunks
  · obtain ⟨since, rfl, replayed⟩ := h.logged
    have merged := h.reached_merging grows keyed all mine
    rw [Function.update_self, Rehash.finishTransition_eq opened]
    show (Store.writeAll _ (s.logged nodes)).reached key + _ = _
    rw [(replayed key mine _).reached, Store.reached_writeAll, merged, List.countP_append]
    omega

omit grows in
theorem late_settled (absent : s.newcomer ∉ s.members)
    (h : s.Late script start mapping ws nodes) :
    s.Late script start (.settled s.new) ws (fun a => if a = s.newcomer then nodes a
      else (nodes a).install (.settled s.new)) := by
  refine ⟨fun a ha => ?_, fun key a ha other => ?_, ?_, fun key mine => ?_⟩
  · rw [if_neg fun same : a = s.newcomer => absent (same ▸ ha)]
    exact (h.following a ha).install _
  · rw [if_neg other]
    exact h.stores key a ha other
  · rw [if_pos rfl]
    exact h.newcomer
  · rw [if_pos rfl]
    exact h.version key mine

omit grows in
theorem Late.update (h : s.Late script start mapping ws nodes) (absent : s.newcomer ∉ s.members)
    {n : Node} (follows : n.Follows s.settings (.settled s.new))
    (store : n.store = (nodes s.newcomer).store) :
    s.Late script start mapping ws (Function.update nodes s.newcomer n) where
  following a ha := by
    rw [Function.update_of_ne fun same : a = s.newcomer => absent (same ▸ ha)]
    exact h.following a ha
  stores key a ha other := by
    rw [Function.update_of_ne other]
    exact h.stores key a ha other
  newcomer := by
    rw [Function.update_self]
    exact follows
  version key mine := by
    rw [Function.update_self, store]
    exact h.version key mine

end

/-! ## The run -/

theorem upTo_concat (asked : List Address) (p : Address) :
    s.upTo (asked ++ [p]) = s.upTo asked ++ [s.sends [p] (.pullState s.newcomer s.new)] := by
  simp [upTo]

theorem Listed.headD_eq {who : Census} {coordinator : Address} (listed : s.Listed who coordinator)
    (census : who.members = s.members ++ [s.newcomer]) (inhabited : s.members ≠ []) :
    s.members.headD s.newcomer = coordinator := by
  have first := listed.head
  rw [census, List.head?_append_of_ne_nil _ inhabited] at first
  rw [List.headD_eq_head?_getD, first]
  rfl

theorem filter_newcomer {who : Census} (absent : s.newcomer ∉ s.members)
    (census : who.members = s.members ++ [s.newcomer]) :
    who.members.filter (· != s.newcomer) = s.members := by
  have apart : ∀ a ∈ s.members, (a != s.newcomer) = true := by
    intro a ha
    rw [bne_iff_ne]
    rintro rfl
    exact absent ha
  rw [census, List.filter_append, List.filter_eq_self.mpr apart]
  simp

/-- The newcomer's run goes through all its sendings, and the stores are what the puts by
then and the copies have made of them. -/
theorem join_ends_late {who : Census} {w : World Chronicle} {now : Nat} {rehash : Serial}
    (grows : Ring.Grows s.strategy s.members s.newcomer s.old s.new)
    (census : who.members = s.members ++ [s.newcomer]) (inhabited : s.members ≠ [])
    (enabled : s.settings.rehashEnabled = true) (counted : s.settings.deadline.CountedFrom now)
    (keyed : ∀ a ∈ s.members, (start a).Keyed)
    (issuers : ∀ i sending, ∀ r ∈ script i sending, r.issuer ∈ s.members)
    (h : w.Holds who (Timed script [] (s.Early start s.Fresh))) :
    (Rehash.run (clients script) rehash (who.serial s.newcomer) .join).Ends now w fun w' r =>
      w'.Holds (who.leaving (Rehash.hintsLeft s.settings (who.serial s.newcomer) s.old s.new))
        fun nodes o => r = .ok s.new ∧
          Timed script s.sendings (s.Late script start (.settled s.new)) nodes o := by
  obtain ⟨coordinator, listed⟩ := exists_listed census inhabited
  have first := listed.headD_eq census inhabited
  have others := filter_newcomer grows.absent census
  have known : ∀ i sending, ∀ r ∈ script i sending, r.issuer ∈ who.members :=
    fun i sending r hr => listed.members _ (issuers i sending r hr)
  refine run_ends (S := Timed script [] (s.Early start s.Fresh))
    (P := Timed script [] (s.Early start s.Ready))
    (F := Timed script [s.sends [coordinator] (.getCurrentMapping s.newcomer)]
      (s.Early start s.Ready))
    (A := Timed script [s.sends [coordinator] (.getCurrentMapping s.newcomer)]
      (s.Early start fun n => s.Blank n ∧ n.log.pending = []))
    (I := fun chunks => Timed script (s.upTo (chunks.map Prod.fst))
      (s.Midst script start chunks))
    (D := Timed script (s.upTo s.providers) (s.Late script start (.moving s.old s.new)))
    (B := Timed script
      (s.upTo s.providers ++ [s.sends s.members (.installMapping (.settled s.new))])
      (s.Late script start (.settled s.new)))
    (Q := Timed script s.sendings (s.Late script start (.settled s.new)))
    (T := Timed script s.sendings (s.Late script start (.settled s.new)))
    (silent_clients script) grows.enters listed enabled counted h ?ready ?fetch ?opened ?union
    ?pulled ?finished ?final ?report ?last
  case ready =>
    intro nodes o timed
    have fresh := timed.holds.newcomer
    exact ⟨fresh.idle, fresh.settings, fresh.strategy, timed.mono fun early =>
      early.update grows ⟨fresh.log, fresh.store, fresh.settings, fresh.strategy⟩⟩
  case fetch =>
    refine (clients_lead_timed known (fun i sending r hr ws nodes early =>
      early.spread grows (issuers i sending r hr)) _).mono fun nodes o _ timed => ⟨?_, timed⟩
    exact (timed.holds.following coordinator listed.member).mapping
  case opened =>
    intro nodes o timed
    have ready := timed.holds.newcomer
    refine ⟨by rw [ready.log]; rfl, timed.mono fun early =>
      early.update grows ⟨⟨?_, ready.store, ready.settings, ready.strategy⟩, ?_⟩⟩
    · exact fun closed => by cases closed
    · show (nodes s.newcomer).log.pending = []
      rw [ready.log]
      rfl
  case union =>
    rw [others]
    refine (clients_lead_timed known (fun i sending r hr ws nodes early =>
      early.spread grows (issuers i sending r hr)) _).mono fun nodes o _ timed => ?_
    have announced : [s.sends [coordinator] (.getCurrentMapping s.newcomer)] ++
        [s.sends s.members (.installMapping (.moving s.old s.new))] = s.upTo [] := by
      rw [← first]
      rfl
    have timed : Timed script (s.upTo []) _ nodes o := announced ▸ timed
    exact timed.mono fun early => midst_of_early grows early
  case pulled =>
    intro source asked chunks
    have mem := grows.enters.mem_of_provider asked
    refine (clients_lead_timed known (fun i sending r hr ws nodes midst =>
      midst.spread grows (issuers i sending r hr)) _).mono fun nodes o address timed => ?_
    have reached : s.upTo (chunks.map Prod.fst) ++
        [s.sends [source] (.pullState s.newcomer s.new)] =
          s.upTo (chunks.map Prod.fst ++ [source]) := (upTo_concat _ _).symm
    have timed : Timed script (s.upTo (chunks.map Prod.fst ++ [source])) _ nodes o :=
      reached ▸ timed
    rw [List.map_append]
    exact timed.mono fun midst => midst.pull mem (address source (listed.members source mem))
  case finished =>
    intro chunks nodes o timed all
    rw [all] at timed
    exact timed.mono fun midst => late_of_midst grows keyed midst all
  case final =>
    rw [others]
    exact (clients_lead_timed known (fun i sending r hr ws nodes late =>
      late.spread_moving grows (issuers i sending r hr)) _).mono fun nodes o _ timed =>
        timed.mono fun late => late_settled grows.absent late
  case report =>
    rw [sendings, ← first]
    exact clients_lead_timed known (fun i sending r hr ws nodes late =>
      late.spread_settled grows (issuers i sending r hr)) _
  case last =>
    intro nodes o timed
    refine timed.mono fun late => late.update grows.absent ?_ rfl
    exact ⟨late.newcomer.mapping, late.newcomer.settings, late.newcomer.closed,
      late.newcomer.keyed⟩

/-! ## Versions -/

theorem putsUpTo_nil_le (s : Scene Chronicle) (script : Nat → Sending → List Request)
    (asked : List Address) (key : String) :
    s.putsUpTo script [] key ≤ s.putsUpTo script asked key := by
  have first : written script (s.upTo []) <+: written script (s.upTo asked) := by
    rw [show s.upTo asked = s.upTo [] ++ asked.map fun p =>
      s.sends [p] (.pullState s.newcomer s.new) from rfl]
    exact written_prefix _ _
  exact first.sublist.countP_le

/-- For a key that the owners have had all along, the newest copy is as old as the union if
and only if no put of the key has come before the last of them was asked. -/
theorem newest_eq_iff (grows : Ring.Grows s.strategy s.members s.newcomer s.old s.new)
    (inhabited : s.members ≠ []) {key : String} {e : Entry}
    (live : ∀ a ∈ s.oldOwners key, (start a).get? key = some e)
    (kept : ∀ i sending, ∀ r ∈ script i sending, .remove key ∉ r.tx.writes)
    (mine : s.newcomer ∈ s.newOwners key) :
    s.newest script start key = e.version + s.putsUpTo script [] key ↔
      ∀ p ∈ s.providers, p ∈ s.oldOwners key →
        s.putsUpTo script (s.providers.takeWhile (· != p) ++ [p]) key =
          s.putsUpTo script [] key := by
  have version {p : Address} (owner : p ∈ s.oldOwners key) (asked : List Address) :
      ((s.held script start asked p).get? key).map Entry.version =
        some (e.version + s.putsUpTo script asked key) := by
    have alive : ((s.held script start asked p).get? key).isSome := by
      refine Store.isSome_get?_writeAll (by rw [live p owner]; rfl) fun removed => ?_
      obtain ⟨i, sending, -, r, hr, hw⟩ := mem_written removed
      exact kept i sending r hr hw
    rw [Store.version_of_live alive, held, Store.reached_writeAll, Store.reached,
      Store.version?_of_get? (live p owner)]
    rfl
  have copy {v : Nat} : v ∈ s.copies script start key ↔ ∃ p ∈ s.providers, p ∈ s.oldOwners key ∧
      e.version + s.putsUpTo script (s.providers.takeWhile (· != p) ++ [p]) key = v := by
    rw [mem_copies_iff]
    refine exists_congr fun p => and_congr_right fun _ => and_congr_right fun owner => ?_
    rw [handed, version owner, Option.some_inj]
  have sound := Ring.sound_ofMembers grows.before
  obtain ⟨q, asked, -, owner⟩ := grows.adds.exists_provider sound
    (Ring.sound_ofMembers grows.after)
    (List.exists_mem_of_ne_nil _ inhabited |>.elim fun m hm =>
      List.ne_nil_of_mem ((Ring.mem_members_ofMembers grows.before).mpr hm)) mine
  obtain ⟨top, newest⟩ : ∃ v, (s.copies script start key).max? = some v :=
    Option.isSome_iff_exists.mp (List.isSome_max?_of_mem (copy.mpr ⟨q, asked, owner, rfl⟩))
  obtain ⟨among, all⟩ := List.max?_eq_some_iff.mp newest
  rw [Scene.newest, newest]
  show top = _ ↔ _
  constructor
  · rintro rfl p asked owner
    have := all _ (copy.mpr ⟨p, asked, owner, rfl⟩)
    have := s.putsUpTo_nil_le script (s.providers.takeWhile (· != p) ++ [p]) key
    omega
  · intro unput
    obtain ⟨p, asked, owner, rfl⟩ := copy.mp among
    rw [unput p asked owner]

/-- For a key that the owners hold in the beginning and nobody removes, all comes down to
when it was put. -/
theorem newest_level_iff (grows : Ring.Grows s.strategy s.members s.newcomer s.old s.new)
    (inhabited : s.members ≠ []) {key : String} {e : Entry}
    (live : ∀ a ∈ s.oldOwners key, (start a).get? key = some e)
    (kept : ∀ i sending, ∀ r ∈ script i sending, .remove key ∉ r.tx.writes) :
    ((∀ a ∈ s.newOwners key, a ≠ s.newcomer → ∀ b ∈ s.newOwners key, b ≠ s.newcomer →
        (start a).reached key = (start b).reached key) ∧
      (s.newcomer ∈ s.newOwners key → ∀ a ∈ s.newOwners key, a ≠ s.newcomer →
        s.newest script start key = (s.held script start [] a).reached key)) ↔
    (s.newcomer ∈ s.newOwners key → (∀ a ∈ s.newOwners key, a = s.newcomer) ∨
      ∀ p ∈ s.providers, p ∈ s.oldOwners key →
        s.putsUpTo script (s.providers.takeWhile (· != p) ++ [p]) key =
          s.putsUpTo script [] key) := by
  have begun {a : Address} (ha : a ∈ s.newOwners key) (other : a ≠ s.newcomer) :
      (start a).reached key = e.version := by
    rw [Store.reached, Store.version?_of_get?
      (live a ((newOwner_cases grows ha).resolve_left other))]
    rfl
  have union {a : Address} (ha : a ∈ s.newOwners key) (other : a ≠ s.newcomer) :
      (s.held script start [] a).reached key = e.version + s.putsUpTo script [] key := by
    rw [held, Store.reached_writeAll, begun ha other]
    rfl
  constructor
  · rintro ⟨-, copied⟩ mine
    refine Classical.or_iff_not_imp_left.mpr fun shared => ?_
    obtain ⟨a, ha, other⟩ : ∃ a ∈ s.newOwners key, a ≠ s.newcomer := by
      simpa using shared
    exact (newest_eq_iff grows inhabited live kept mine).mp
      ((copied mine a ha other).trans (union ha other))
  · intro unput
    refine ⟨fun a ha other b hb other' => (begun ha other).trans (begun hb other').symm,
      fun mine a ha other => ?_⟩
    rw [union ha other]
    exact (newest_eq_iff grows inhabited live kept mine).mpr
      ((unput mine).resolve_left fun sole => other (sole a ha))

/-- After the join the owners of a live key have it with one version if and only if those
that stayed had reached the same, and the newcomer's newest copy was as old as the union. -/
theorem Late.level_iff_of_live (h : s.Late script start mapping (written script s.sendings) nodes)
    {key : String} (live : ∀ a ∈ s.newOwners key, ((nodes a).store.get? key).isSome) :
    (∀ a ∈ s.newOwners key, ∀ b ∈ s.newOwners key,
      ((nodes a).store.get? key).map Entry.version =
        ((nodes b).store.get? key).map Entry.version) ↔
    (∀ a ∈ s.newOwners key, a ≠ s.newcomer → ∀ b ∈ s.newOwners key, b ≠ s.newcomer →
      (start a).reached key = (start b).reached key) ∧
    (s.newcomer ∈ s.newOwners key → ∀ a ∈ s.newOwners key, a ≠ s.newcomer →
      s.newest script start key = (s.held script start [] a).reached key) := by
  have stayed {a : Address} (owner : a ∈ s.newOwners key) (other : a ≠ s.newcomer) :
      (nodes a).store.reached key =
        (start a).reached key + (written script s.sendings).countP (·.puts key) := by
    rw [(h.stores key a owner other).reached, Store.reached_writeAll]
  have union (a : Address) : (s.held script start [] a).reached key =
      (start a).reached key + (written script (s.upTo [])).countP (·.puts key) :=
    Store.reached_writeAll _
  have same {a b : Address} (ha : a ∈ s.newOwners key) (hb : b ∈ s.newOwners key) :
      ((nodes a).store.get? key).map Entry.version =
          ((nodes b).store.get? key).map Entry.version ↔
        (nodes a).store.reached key = (nodes b).store.reached key := by
    rw [Store.version_of_live (live a ha), Store.version_of_live (live b hb), Option.some_inj]
  constructor
  · intro level
    refine ⟨fun a ha other b hb other' => ?_, fun mine a ha other => ?_⟩
    · have := (same ha hb).mp (level a ha b hb)
      rw [stayed ha other, stayed hb other'] at this
      omega
    · have := (same ha mine).mp (level a ha _ mine)
      rw [stayed ha other] at this
      have := h.version key mine
      rw [union]
      omega
  · rintro ⟨before, copied⟩
    -- where all that stayed are, the newcomer is as well
    have arrived (mine : s.newcomer ∈ s.newOwners key) {a : Address}
        (ha : a ∈ s.newOwners key) (other : a ≠ s.newcomer) :
        (nodes a).store.reached key = (nodes s.newcomer).store.reached key := by
      have := copied mine a ha other
      have := h.version key mine
      rw [stayed ha other]
      rw [union] at *
      omega
    intro a ha b hb
    rw [same ha hb]
    by_cases first : a = s.newcomer <;> by_cases second : b = s.newcomer
    · rw [first, second]
    · rw [first]
      exact (arrived (first ▸ ha) hb second).symm
    · rw [second]
      exact arrived (second ▸ hb) ha first
    · rw [stayed ha first, stayed hb second, before a ha first b hb second]

theorem Late.level_iff (h : s.Late script start mapping (written script s.sendings) nodes)
    {key : String} {value : Option (List UInt8)}
    (values : ∀ a ∈ s.newOwners key, (nodes a).store.value? key = value) :
    (∀ a ∈ s.newOwners key, ∀ b ∈ s.newOwners key,
      ((nodes a).store.get? key).map Entry.version =
        ((nodes b).store.get? key).map Entry.version) ↔
    value = none ∨
      (∀ a ∈ s.newOwners key, a ≠ s.newcomer → ∀ b ∈ s.newOwners key, b ≠ s.newcomer →
        (start a).reached key = (start b).reached key) ∧
      (s.newcomer ∈ s.newOwners key → ∀ a ∈ s.newOwners key, a ≠ s.newcomer →
        s.newest script start key = (s.held script start [] a).reached key) := by
  by_cases gone : value = none
  · have dead : ∀ a ∈ s.newOwners key, (nodes a).store.get? key = none := fun a ha =>
      Option.map_eq_none_iff.mp ((values a ha).trans gone)
    exact iff_of_true (fun a ha b hb => by rw [dead a ha, dead b hb]) (.inl gone)
  · have live : ∀ a ∈ s.newOwners key, ((nodes a).store.get? key).isSome := fun a ha =>
      Option.isSome_iff_ne_none.mpr fun none => gone
        ((values a ha).symm.trans (Option.map_eq_none_iff.mpr none))
    exact (h.level_iff_of_live live).trans (or_iff_right gone).symm

/-- The newcomer's run ends with the new ring.  All owners have the last write of every key
then, and their versions are what the puts and the copies have made of them. -/
theorem exists_late {serial : Address → Serial} {errands : Option (List Errand)} {c : Cluster}
    (rehash : Serial) (now : Nat) (wrote : s.wrote = Chronicle.writes)
    (kept : ∀ a n, s.kept a n) (inhabited : s.members ≠ [])
    (hosts : c.Hosts ⟨s.members ++ [s.newcomer], serial, errands⟩ nodes)
    (enabled : s.settings.rehashEnabled = true) (counted : s.settings.deadline.CountedFrom now)
    (grows : Ring.Grows s.strategy s.members s.newcomer s.old s.new)
    (settled : ∀ a ∈ s.members, (nodes a).Follows s.settings (.settled s.old))
    (agree : Agree s.oldOwners s.initial nodes) (fresh : s.Fresh (nodes s.newcomer))
    (issuers : ∀ i sending, ∀ r ∈ script i sending, r.issuer ∈ s.members) :
    ∃ w' nodes', Rehash.run (clients script) rehash (serial s.newcomer) .join now
        { cluster := c, outside := {} } = .done w' (.ok s.new) ∧
      (∀ a ∈ s.members ++ [s.newcomer], w'.cluster.nodes.find? a = some (nodes' a)) ∧
      s.Late script (fun a => (nodes a).store) (.settled s.new) (written script s.sendings)
        nodes' ∧
      Agree s.newOwners (fun key => valueAfter (written script s.sendings) key (s.initial key))
        nodes' := by
  let who : Census := ⟨s.members ++ [s.newcomer], serial, errands⟩
  let w : World Chronicle := { cluster := c, outside := {} }
  have writes : (clients script).OnlyWrites who (fun r => r.issuer ∈ s.members) s.wrote :=
    wrote ▸ Surroundings.onlyWrites_clients issuers fun r mem => List.mem_append_left _ mem
  have begun : w.Holds who (s.Before s.Fresh) := by
    refine ⟨nodes, hosts, fun a ha => ⟨settled a ha, kept a _⟩, fun key a ha => ?_, fresh⟩
    rw [value, wrote]
    exact agree key a ha
  have timed : w.Holds who (Timed script [] (s.Early (fun a => (nodes a).store) s.Fresh)) :=
    ⟨nodes, hosts, rfl, rfl, settled, fun key a _ => Store.SameAt.refl _ _, fresh⟩
  have valued : (Rehash.run (clients script) rehash (who.serial s.newcomer) .join).Ends now w _ :=
    s.join_ends (silent_clients script) writes (fun _ mem => mem) (fun _ _ a _ _ _ => kept a _)
      (fun a _ _ _ => kept a _) grows rfl inhabited enabled counted begun
  have versioned : (Rehash.run (clients script) rehash (who.serial s.newcomer) .join).Ends now
      w _ :=
    s.join_ends_late grows rfl inhabited enabled counted (fun a ha => (settled a ha).keyed) issuers
      timed
  obtain ⟨w', r, run, nodes', hosts', rfl, after, -⟩ := valued
  obtain ⟨w'', r', run', nodes'', hosts'', -, late⟩ := versioned
  obtain rfl : w' = w'' := by
    cases run.symm.trans run'
    rfl
  refine ⟨w', nodes'', run, fun a ha => hosts''.find? ha, late.holds, fun key a ha => ?_⟩
  have mem : a ∈ s.members ++ [s.newcomer] := (Ring.mem_members_ofMembers grows.after).mp
    ((Ring.sound_ofMembers grows.after).mem_members_of_mem_locate ha)
  have same : nodes' a = nodes'' a :=
    Option.some.inj ((hosts'.find? mem).symm.trans (hosts''.find? mem))
  rw [← same, after.agree key a ha, value, wrote, late.writes]

end Scene

/-- The owners of a key have it with one version, or none of them has it. -/
def Cluster.Level (c : Cluster) (owners : List Address) (key : String) : Prop :=
  ∀ a ∈ owners, ∀ b ∈ owners, ∃ m n, c.nodes.find? a = some m ∧ c.nodes.find? b = some n ∧
    (m.store.get? key).map Entry.version = (n.store.get? key).map Entry.version

theorem Cluster.level_iff {c : Cluster} {nodes : Address → Node} {owners : List Address}
    {key : String} (found : ∀ a ∈ owners, c.nodes.find? a = some (nodes a)) :
    c.Level owners key ↔ ∀ a ∈ owners, ∀ b ∈ owners,
      ((nodes a).store.get? key).map Entry.version =
        ((nodes b).store.get? key).map Entry.version := by
  refine forall₂_congr fun a ha => forall₂_congr fun b hb => ?_
  rw [found a ha, found b hb]
  simp

/-- A newcomer joins a settled cluster in which nobody moves for it, and all owners of a key
hold the same under it, while clients put, remove and write transactions through the members,
at whichever sendings of the run.  The run ends with the new ring.  The owners of a key under
it have the key with one version if and only if it is gone by then, or the versions that those
that stayed had reached were the same in the beginning, and the newest copy that the newcomer
has pulled is as old as the union.  For a key that all owners hold in the beginning and nobody
removes this means: the newcomer does not own it, or is its only owner, or no put of it has
come between the union and the asking of an owner. -/
theorem replicas_level_after_join_iff {members : List Address} {x : Address}
    {serial : Address → Serial} {errands : Option (List Errand)} {settings : Settings}
    {strategy : Strategy} {old new : MemberRing} {initial : String → Option Entry}
    {c : Cluster} {nodes : Address → Node} {script : Nat → Sending → List Request}
    (rehash : Serial) (now : Nat)
    (inhabited : members ≠ []) (hosts : c.Hosts ⟨members ++ [x], serial, errands⟩ nodes)
    (named : settings.strategy = .ok strategy) (enabled : settings.rehashEnabled = true)
    (counted : settings.deadline.CountedFrom now) (grows : Ring.Grows strategy members x old new)
    (settled : ∀ a ∈ members, (nodes a).Follows settings (.settled old))
    (identical : ∀ key, ∀ a ∈ old.locate key settings.owners,
      (nodes a).store.get? key = initial key)
    (fresh : Node.create x settings [x] = .ok (nodes x))
    (issuers : ∀ i sending, ∀ r ∈ script i sending, r.issuer ∈ members) :
    let s : Scene Chronicle := {
      members, newcomer := x, settings, strategy, old, new
      initial := fun key => (initial key).map Entry.value
      wrote := Chronicle.writes
      kept := fun _ _ => True }
    let start (a : Address) : Store := (nodes a).store
    ∃ w', Rehash.run (clients script) rehash (serial x) .join now
        { cluster := c, outside := {} } = .done w' (.ok new) ∧
      ∀ key,
        (w'.cluster.Level (s.newOwners key) key ↔
          valueAfter (written script s.sendings) key (s.initial key) = none ∨
          (∀ a ∈ s.newOwners key, a ≠ x → ∀ b ∈ s.newOwners key, b ≠ x →
            (start a).reached key = (start b).reached key) ∧
          (x ∈ s.newOwners key → ∀ a ∈ s.newOwners key, a ≠ x →
            s.newest script start key = (s.held script start [] a).reached key)) ∧
        ∀ e, initial key = some e →
          (∀ i sending, ∀ r ∈ script i sending, .remove key ∉ r.tx.writes) →
          (w'.cluster.Level (s.newOwners key) key ↔
            (x ∈ s.newOwners key → (∀ a ∈ s.newOwners key, a = x) ∨
              ∀ p ∈ s.providers, p ∈ s.oldOwners key →
                s.putsUpTo script (s.providers.takeWhile (· != p) ++ [p]) key =
                  s.putsUpTo script [] key)) := by
  intro s start
  obtain ⟨-, strategy', ring, named', -, made⟩ := Node.create_eq_ok_iff.mp fresh
  have blank : s.Fresh (nodes x) := by
    rw [made]
    exact ⟨rfl, rfl, rfl, Except.ok.inj (named'.symm.trans named), rfl⟩
  have agree : Agree s.oldOwners s.initial nodes := fun key a ha =>
    congrArg (·.map Entry.value) (identical key a ha)
  obtain ⟨w', nodes', run, found, late, values⟩ := s.exists_late rehash now rfl
    (fun _ _ => trivial) inhabited hosts enabled counted grows settled agree blank issuers
  refine ⟨w', run, fun key => ?_⟩
  have member {a : Address} (ha : a ∈ s.newOwners key) : a ∈ members ++ [x] :=
    (Ring.mem_members_ofMembers grows.after).mp
      ((Ring.sound_ofMembers grows.after).mem_members_of_mem_locate ha)
  have general := (Cluster.level_iff fun a ha => found a (member ha)).trans
    (late.level_iff (values key))
  refine ⟨general, fun e held kept => ?_⟩
  have live : valueAfter (written script s.sendings) key (s.initial key) ≠ none := by
    refine Option.isSome_iff_ne_none.mp (isSome_valueAfter ?_ fun removed => ?_)
    · show ((initial key).map Entry.value).isSome
      rw [held]
      rfl
    · obtain ⟨i, sending, -, r, hr, hw⟩ := mem_written removed
      exact kept i sending r hr hw
  exact general.trans ((or_iff_right live).trans (Scene.newest_level_iff grows inhabited
    (fun a ha => (identical key a ha).trans held) kept))

theorem replicas_level_after_join_to_one_iff :
    let c := (Cluster.founded {} ["A"]).start "C" {} ["C"]
    ∃ self w' old new, c.nodes.serial? "C" = some self ∧
      Rehash.run (clients midway) 0 self .join 0 { cluster := c, outside := {} } =
        .done w' (.ok new) ∧
      let s : Scene Chronicle := {
        members := ["A"], newcomer := "C", settings := {}, strategy := .sip24, old, new
        initial := fun _ => none
        wrote := Chronicle.writes
        kept := fun _ _ => True }
      ∀ key, w'.cluster.Level (s.newOwners key) key ↔
        valueAfter (written midway s.sendings) key none = none ∨
        ("C" ∈ s.newOwners key → ∀ a ∈ s.newOwners key, a ≠ "C" →
          s.newest midway (fun _ => .empty) key =
            (s.held midway (fun _ => .empty) [] a).reached key) := by
  obtain ⟨serial, nodes, old, new, self, hosts, grows, settled, blank, fresh⟩ := exists_join_of_one
  have identical : ∀ key, ∀ a ∈ old.locate key (Settings.owners {}),
      (nodes a).store.get? key = (fun _ => none : String → Option Entry) key := by
    intro key a _
    rw [blank a, Store.get?_empty]
  obtain ⟨w', run, level⟩ := replicas_level_after_join_iff 0 0 (List.cons_ne_nil _ _) hosts
    (show Settings.strategy {} = .ok .sip24 by decide +kernel) rfl (by decide) grows settled
    identical fresh issuer_mem_of_mem_midway
  refine ⟨_, w', old, new, self, run, fun key => (level key).1.trans ?_⟩
  simp only [blank, true_and, implies_true]
  rfl

/-- While `C` comes to `A` and `D`, the key `k0` is put when `C` asks `A` for state. -/
def twicePut : List Scenario.Step :=
  [.node "A" ["A", "D"] {} true, .node "D" ["A", "D"] {} true, .put "A" "k0" [1],
    .node "C" ["C"] {} true, .join "C" "of C",
    .hook "C" "A" .pullState 1 [.put "D" "k0" [2]], .run "of C",
    .ask "C" "k0", .ask "D" "k0", .store "C" (.get "k0"), .store "D" (.get "k0")]

/-- `C` has the second put in what it pulls and in its log. -/
theorem version_ahead_after_join :
    (Scenario.run twicePut).filterMap (fun answer => match answer.outcome with
      | .ran result _ _ => some (result.toOption.map (·.members))
      | _ => none) = [some ["A", "C", "D"]] ∧
    (Scenario.run twicePut).filterMap (fun answer => match answer.outcome with
      | .key owner _ ring => some (owner, ring.members)
      | _ => none) = [(true, ["A", "C", "D"]), (true, ["A", "C", "D"])] ∧
    (Scenario.run twicePut).filterMap (fun answer => match answer.outcome with
      | .store (.entry e) => some e
      | _ => none) = [some ⟨"k0", [2], 3⟩, some ⟨"k0", [2], 2⟩] := by
  decide +kernel

end SlotRing
