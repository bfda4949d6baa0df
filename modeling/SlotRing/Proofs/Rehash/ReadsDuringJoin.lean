/-
# Reads while a member joins

Clients write and read while a newcomer joins; the newcomer takes calls as well, once
it goes by the union.  What a read needs is that every member it may get its answer
from holds what was last written, and for one key that is kept up from stage to stage:
before the union by the owners under the old ring (`KeyBefore`), under the union by
them too, while the newcomer is uncertain (`KeyDuring`), and after that by all that are
written to (`KeyAfter`).

At the two announcements it is not kept up.  There the newcomer goes by another mapping
than the members, and the two have different owners.  When the union is announced, a
write through the newcomer goes to its log as well, and a later one through a member
does not: the newcomer ends up with the earlier one.  When the new ring is announced, a
write through the newcomer passes by the member that loses the key, which still serves
it to others.  So reads are right for every key that the newcomer does not write at an
announcement, and, whatever it writes, for those keys alone that it does not come to
own (`reads_during_join_iff`).
-/
import SlotRing.Proofs.Cluster.Calls
import SlotRing.Proofs.Rehash.LosslessJoin
import SlotRing.Scenario.Run

namespace SlotRing

/-! ## Calls during a join -/

/-- Members are called at any sending, and the newcomer as soon as it goes by the union. -/
def Admits (members : List Address) (newcomer : Address) (script : Nat → Sending → List Call) :
    Prop :=
  ∀ i sending, ∀ call ∈ script i sending, call.issuer ∈ members ∨
    call.issuer = newcomer ∧ ∀ requester, sending.command ≠ .getCurrentMapping requester

/-- A key is not written through the newcomer while a mapping is announced. -/
def Sparing (newcomer : Address) (key : String) (script : Nat → Sending → List Call) : Prop :=
  ∀ i sending mapping w, sending.command = .installMapping mapping →
    .write newcomer w ∈ script i sending → w.key ≠ key

namespace Scene

variable {ε : Type} (s : Scene ε)

/-! ## Members that hold what was last written -/

def writers (mapping : MemberMapping) (key : String) : List Address :=
  mapping.writeOwners key s.settings.owners

/-- These members hold the key in their stores as it was last written. -/
def Current (key : String) (owners : List Address) (ws : List Write)
    (nodes : Address → Node) : Prop :=
  ∀ a ∈ owners, (nodes a).log.state = .disabled ∧
    (nodes a).store.value? key = valueAfter ws key (s.initial key)

def Heed (mapping : MemberMapping) (nodes : Address → Node) : Prop :=
  ∀ a ∈ s.members, (nodes a).Follows s.settings mapping

def Known (mapping : MemberMapping) : Prop :=
  mapping = .settled s.old ∨ mapping = .moving s.old s.new ∨ mapping = .settled s.new

/-- The newcomer goes by the union and logs. -/
structure Taking (n : Node) : Prop where
  blank : s.Blank n
  address : n.address = s.newcomer
  mapping : n.mapping = .moving s.old s.new
  source : n.movingFrom = some s.old

structure KeyBefore (key : String) (newcomer : Node → Prop) (ws : List Write)
    (nodes : Address → Node) : Prop where
  members : s.Heed (.settled s.old) nodes
  current : s.Current key (s.oldOwners key) ws nodes
  newcomer : newcomer (nodes s.newcomer)

/-- Everyone goes by the union, and `chunks` have been pulled. -/
structure KeyDuring (key : String) (chunks : List (Address × List Entry)) (ws : List Write)
    (nodes : Address → Node) : Prop where
  members : s.Heed (.moving s.old s.new) nodes
  current : s.Current key (s.oldOwners key) ws nodes
  newcomer : s.Taking (nodes s.newcomer)
  gathered : s.newcomer ∈ s.newOwners key → ∃ before since, ws = before ++ since ∧
    (∀ value, valueAfter (s.logged nodes) key value = valueAfter since key value) ∧
    ((∀ w ∈ since, w.key ≠ key) → ∀ chunk ∈ chunks, s.ChunkRight before chunk key)

/-- The newcomer goes by the new ring, and the members by `mapping`. -/
structure KeyAfter (key : String) (mapping : MemberMapping) (ws : List Write)
    (nodes : Address → Node) : Prop where
  members : s.Heed mapping nodes
  current : s.Current key (s.writers mapping key) ws nodes
  newcomer : (nodes s.newcomer).Follows s.settings (.settled s.new)

section

variable {s : Scene ε} {key : String} {owners : List Address} {ws : List Write}
  {nodes : Address → Node} {mapping : MemberMapping} {serving : String → List Address} {w : Write}

theorem Current.subset (h : s.Current key owners ws nodes) {fewer : List Address}
    (sub : ∀ a ∈ fewer, a ∈ owners) : s.Current key fewer ws nodes :=
  fun a ha => h a (sub a ha)

theorem Current.write (h : s.Current key owners ws nodes)
    (served : w.key = key → ∀ a ∈ owners, a ∈ serving key) :
    s.Current key owners (ws ++ [w]) (spread serving (.single w) nodes) := by
  intro a ha
  obtain ⟨closed, value⟩ := h a ha
  refine ⟨by rw [spread_of_closed closed]; exact closed, ?_⟩
  rw [value?_spread closed, value, valueAfter_append]
  by_cases same : w.key = key
  · rw [if_pos (served same a ha)]
    rfl
  · have untouched : ∀ w' ∈ [w], w'.key ≠ key := List.forall_mem_singleton.mpr same
    rw [valueAfter_of_untouched untouched]
    split
    · exact valueAfter_of_untouched untouched
    · rfl

theorem Current.congr (h : s.Current key owners ws nodes) {nodes' : Address → Node}
    (same : ∀ a ∈ owners, (nodes' a).log = (nodes a).log ∧ (nodes' a).store = (nodes a).store) :
    s.Current key owners ws nodes' := by
  intro a ha
  rw [(same a ha).1, (same a ha).2]
  exact h a ha

theorem Heed.write (h : s.Heed mapping nodes) : s.Heed mapping (spread serving (.single w) nodes) :=
  fun a ha => (h a ha).spread

variable (grows : Ring.Grows s.strategy s.members s.newcomer s.old s.new)
include grows

/-! ## Where calls go -/

theorem mem_members_new {a : Address} : a ∈ s.new.members ↔ a ∈ s.members ∨ a = s.newcomer := by
  rw [Ring.mem_members_ofMembers grows.after]
  simp

theorem mem_of_writer (known : s.Known mapping) {a : Address} (h : a ∈ s.writers mapping key) :
    a ∈ s.members ∨ a = s.newcomer := by
  have after {a : Address} (h : a ∈ s.new.locate key s.settings.owners) :
      a ∈ s.members ∨ a = s.newcomer :=
    (mem_members_new grows).mp ((Ring.sound_ofMembers grows.after).mem_members_of_mem_locate h)
  rcases known with rfl | rfl | rfl
  · exact .inl (mem_of_oldOwner grows h)
  · rcases mem_appendNew.mp h with h | h
    · exact .inl (mem_of_oldOwner grows h)
    · exact after h
  · exact after h

/-- Calls of a key go where writes of it go. -/
theorem mem_serving_iff (known : s.Known mapping) {n : Node} (goes : n.mapping = mapping)
    (settings : n.settings = s.settings) {a : Address} :
    a ∈ n.serving key ↔ a ∈ s.writers mapping key := by
  have copies : n.copies = s.settings.owners := congrArg Settings.owners settings
  have member : a ∈ s.writers mapping key → a ∈ s.members ∨ a = s.newcomer :=
    mem_of_writer grows known
  rcases known with rfl | rfl | rfl
  · rw [Node.mem_serving_settled (Ring.sound_ofMembers grows.before) goes, copies]
    rfl
  · rw [Node.mem_serving_moving (Ring.sound_ofMembers grows.after) goes, copies,
      mem_members_new grows]
    exact ⟨fun h => mem_appendNew.mpr h.1, fun h => ⟨mem_appendNew.mp h, member h⟩⟩
  · rw [Node.mem_serving_settled (Ring.sound_ofMembers grows.after) goes, copies]
    rfl

theorem nodup_serving (known : s.Known mapping) {n : Node} (goes : n.mapping = mapping)
    (key : String) : (n.serving key).Nodup := by
  rcases known with rfl | rfl | rfl
  · exact Node.nodup_serving_settled (Ring.sound_ofMembers grows.before) goes key
  · exact Node.nodup_serving_moving (Ring.sound_ofMembers grows.before) goes key
  · exact Node.nodup_serving_settled (Ring.sound_ofMembers grows.after) goes key

theorem exists_writer (inhabited : s.members ≠ []) (several : s.settings.owners ≠ 0)
    (known : s.Known mapping) (key : String) : ∃ a, a ∈ s.writers mapping key := by
  obtain ⟨m, hm⟩ := List.exists_mem_of_ne_nil _ inhabited
  have old := (Ring.sound_ofMembers grows.before).exists_mem_locate key several
    (List.ne_nil_of_mem ((Ring.mem_members_ofMembers grows.before).mpr hm))
  have new := (Ring.sound_ofMembers grows.after).exists_mem_locate key several
    (List.ne_nil_of_mem ((mem_members_new grows).mpr (.inl hm)))
  rcases known with rfl | rfl | rfl
  · exact old
  · obtain ⟨a, ha⟩ := old
    exact ⟨a, mem_appendNew.mpr (.inl ha)⟩
  · exact new

end

/-! ## The newcomer under the union -/

section

variable {s : Scene ε} {nodes : Address → Node}

theorem Taking.write (h : s.Taking (nodes s.newcomer)) (serving : String → List Address)
    (w : Write) :
    s.Taking (spread serving (.single w) nodes s.newcomer) ∧
      s.logged (spread serving (.single w) nodes) =
        s.logged nodes ++ share serving (.single w) s.newcomer := by
  obtain ⟨blank, log⟩ := h.blank.spread serving (.single w)
  obtain ⟨kept, -, eq⟩ := spread_of_open serving (.single w) h.blank.opened
  refine ⟨⟨blank, ?_, ?_, ?_⟩, log⟩
  · rw [eq]
    exact h.address
  · rw [eq]
    exact h.mapping
  · rw [eq]
    exact h.source

theorem Ready.taking {n : Node} (h : s.Ready n) (address : n.address = s.newcomer) :
    s.Taking ((Rehash.logging s.old n).install (.moving s.old s.new)) ∧
      ((Rehash.logging s.old n).install (.moving s.old s.new)).log.pending = [] := by
  constructor
  · refine ⟨⟨?_, h.store, h.settings, h.strategy⟩, address, rfl, rfl⟩
    exact fun closed => by cases closed
  · show n.log.pending = []
    rw [h.log]
    rfl

theorem Taking.uncertain (grows : Ring.Grows s.strategy s.members s.newcomer s.old s.new)
    {n : Node} (h : s.Taking n) (key : String) : n.isUncertain key = true := by
  have foreign : s.old.isOwner s.newcomer key s.settings.owners = false := by
    rw [Ring.isOwner, ← Bool.not_eq_true, List.contains_iff_mem]
    exact newcomer_not_oldOwner grows key
  rw [Node.isUncertain, h.source, h.address, Node.copies, h.blank.settings]
  simpa [foreign, WriteLog.isActive] using h.blank.opened

end

/-! ## Calls in each stage -/

section

variable {s : Scene ε} {key : String} {ws : List Write} {nodes : Address → Node}
  {mapping : MemberMapping} {w : Write} {a : Address} {who : Census}
  (grows : Ring.Grows s.strategy s.members s.newcomer s.old s.new)
include grows

/-- A read gets what was last written if it can get its answer from a member that holds
it, and from nobody else but a newcomer that is uncertain. -/
theorem shown_of_current (known : s.Known mapping) (goes : (nodes a).mapping = mapping)
    (settings : (nodes a).settings = s.settings) {owners : List Address}
    (current : s.Current key owners ws nodes)
    (listed : ∃ b ∈ owners, b ∈ s.writers mapping key ∧ b ∈ who.members)
    (others : ∀ b ∈ s.writers mapping key, b ∈ owners ∨ (nodes b).isUncertain key = true) :
    Shown who.members nodes a key (valueAfter ws key (s.initial key)) := by
  refine shown_of_stores ?_ fun b hb => ?_
  · obtain ⟨b, owner, writer, member⟩ := listed
    exact ⟨b, (mem_serving_iff grows known goes settings).mpr writer, member, (current b owner).1⟩
  · rcases others b ((mem_serving_iff grows known goes settings).mp hb) with owner | uncertain
    · exact .inr (current b owner)
    · exact .inl uncertain

theorem KeyBefore.write {newcomer : Node → Prop} (h : s.KeyBefore key newcomer ws nodes)
    (ha : a ∈ s.members) :
    s.KeyBefore key newcomer (ws ++ [w]) (spread (nodes a).serving (.single w) nodes) := by
  have follows := h.members a ha
  have served {key : String} {b : Address} : b ∈ (nodes a).serving key ↔ b ∈ s.oldOwners key :=
    mem_serving_iff grows (.inl rfl) follows.mapping follows.settings
  refine ⟨h.members.write, h.current.write fun _ b hb => served.mpr hb, ?_⟩
  rw [spread_of_not_serving fun key hs => newcomer_not_oldOwner grows key (served.mp hs)]
  exact h.newcomer

/-- The newcomer keeps what it is written itself in its log, so that nothing changes for
a key that it does not come to own, or does not write. -/
theorem KeyBefore.writeOwn
    (h : s.KeyBefore key (fun n => s.Taking n ∧
      ∀ w ∈ n.log.pending.flatMap (·.writes), w.key ≠ key) ws nodes)
    (apart : s.newcomer ∈ s.newOwners key → w.key ≠ key) :
    s.KeyBefore key (fun n => s.Taking n ∧
      ∀ w ∈ n.log.pending.flatMap (·.writes), w.key ≠ key) (ws ++ [w])
      (spread (nodes s.newcomer).serving (.single w) nodes) := by
  obtain ⟨taking, clean⟩ := h.newcomer
  have served {key : String} {b : Address} : b ∈ (nodes s.newcomer).serving key ↔
      b ∈ s.writers (.moving s.old s.new) key :=
    mem_serving_iff grows (.inr (.inl rfl)) taking.mapping taking.blank.settings
  obtain ⟨taking', logged⟩ := taking.write (nodes s.newcomer).serving w
  refine ⟨h.members.write,
    h.current.write fun _ b hb => served.mpr (mem_appendNew.mpr (.inl hb)), taking', ?_⟩
  intro w' hw'
  change w' ∈ s.logged _ at hw'
  rw [logged, List.mem_append] at hw'
  rcases hw' with hw' | hw'
  · exact clean w' hw'
  · rintro rfl
    obtain ⟨mine, serves⟩ := List.mem_filter.mp hw'
    obtain rfl := List.mem_singleton.mp mine
    have writer := served.mp (List.contains_iff_mem.mp serves)
    exact apart ((mem_appendNew.mp writer).resolve_left (newcomer_not_oldOwner grows _)) rfl

theorem KeyDuring.write {chunks : List (Address × List Entry)}
    (h : s.KeyDuring key chunks ws nodes) (goes : (nodes a).mapping = .moving s.old s.new)
    (settings : (nodes a).settings = s.settings) :
    s.KeyDuring key chunks (ws ++ [w]) (spread (nodes a).serving (.single w) nodes) := by
  have served {key : String} {b : Address} : b ∈ (nodes a).serving key ↔
      b ∈ s.writers (.moving s.old s.new) key :=
    mem_serving_iff grows (.inr (.inl rfl)) goes settings
  obtain ⟨taking, logged⟩ := h.newcomer.write (nodes a).serving w
  refine ⟨h.members.write,
    h.current.write fun _ b hb => served.mpr (mem_appendNew.mpr (.inl hb)), taking, ?_⟩
  intro mine
  obtain ⟨before, since, split, same, right⟩ := h.gathered mine
  refine ⟨before, since ++ [w], by rw [split, List.append_assoc], fun value => ?_,
    fun untouched => right fun w' hw' => untouched w' (List.mem_append_left _ hw')⟩
  rw [logged, valueAfter_append, valueAfter_append, same, valueAfter_share,
    if_pos (served.mpr (mem_appendNew.mpr (.inr mine)))]
  rfl

/-- Under the new ring a write reaches all owners, and before the members know of it one
of the newcomer does too if the owners are the same. -/
theorem KeyAfter.write (h : s.KeyAfter key mapping ws nodes) {mapping' : MemberMapping}
    (known : s.Known mapping') (goes : (nodes a).mapping = mapping')
    (settings : (nodes a).settings = s.settings)
    (reached : w.key = key → ∀ b ∈ s.writers mapping key, b ∈ s.writers mapping' key) :
    s.KeyAfter key mapping (ws ++ [w]) (spread (nodes a).serving (.single w) nodes) :=
  ⟨h.members.write, h.current.write fun same b hb =>
    (mem_serving_iff grows known goes settings).mpr (reached same b hb), h.newcomer.spread⟩

variable (census : who.members = s.members ++ [s.newcomer]) (inhabited : s.members ≠ [])
  (several : s.settings.owners ≠ 0)
include census inhabited several

theorem KeyBefore.shown {newcomer : Node → Prop} (h : s.KeyBefore key newcomer ws nodes)
    (ha : a ∈ s.members) : Shown who.members nodes a key (valueAfter ws key (s.initial key)) := by
  have follows := h.members a ha
  obtain ⟨b, hb⟩ := exists_writer grows inhabited several (.inl rfl) key
  exact shown_of_current grows (.inl rfl) follows.mapping follows.settings h.current
    ⟨b, hb, hb, by simp [census, mem_of_oldOwner grows hb]⟩ fun _ => .inl

theorem shown_of_taking (current : s.Current key (s.oldOwners key) ws nodes)
    (taking : s.Taking (nodes s.newcomer)) (goes : (nodes a).mapping = .moving s.old s.new)
    (settings : (nodes a).settings = s.settings) :
    Shown who.members nodes a key (valueAfter ws key (s.initial key)) := by
  obtain ⟨b, hb⟩ := exists_writer grows inhabited several (.inl rfl) key
  refine shown_of_current grows (.inr (.inl rfl)) goes settings current
    ⟨b, hb, mem_appendNew.mpr (.inl hb), by simp [census, mem_of_oldOwner grows hb]⟩ ?_
  intro c hc
  rcases mem_appendNew.mp hc with old | new
  · exact .inl old
  · rcases newOwner_cases grows new with rfl | old
    · exact .inr (taking.uncertain grows key)
    · exact .inl old

theorem KeyAfter.shown (h : s.KeyAfter key mapping ws nodes) {mapping' : MemberMapping}
    (known : s.Known mapping') (goes : (nodes a).mapping = mapping')
    (settings : (nodes a).settings = s.settings)
    (holds : ∀ b ∈ s.writers mapping' key, b ∈ s.writers mapping key) :
    Shown who.members nodes a key (valueAfter ws key (s.initial key)) := by
  obtain ⟨b, hb⟩ := exists_writer grows inhabited several known key
  exact shown_of_current grows known goes settings h.current
    ⟨b, holds b hb, hb, by simpa [census] using mem_of_writer grows known hb⟩
    fun c hc => .inl (holds c hc)

end

/-! ## A sending in each stage -/

/-- A stage as it is after the writes so far, all of which were acknowledged, while all
reads of the key were right. -/
def Fair (s : Scene Logbook) (key : String) (stage : List Write → (Address → Node) → Prop)
    (nodes : Address → Node) (o : Logbook) : Prop :=
  (stage o.writes nodes ∧ o.Acknowledged) ∧ o.Right (s.initial key) key

section

variable {s : Scene Logbook} {key : String} {who : Census} {script : Nat → Sending → List Call}
  {sending : Sending}
  (grows : Ring.Grows s.strategy s.members s.newcomer s.old s.new)
  (census : who.members = s.members ++ [s.newcomer])
include grows census

/-- Whoever a member of either ring writes to is registered, so that the write is
acknowledged. -/
theorem acknowledged_wrote {mapping : MemberMapping} (known : s.Known mapping) {n : Node}
    (goes : n.mapping = mapping) (settings : n.settings = s.settings) {a : Address} {w : Write}
    {outcome : Except TransportError Unit} {o : Logbook} (before : o.Acknowledged)
    (told : outcome = .ok () ↔ ∀ b ∈ n.serving w.key, b ∈ who.members) :
    (o.note (.wrote a w outcome)).Acknowledged := by
  refine Logbook.acknowledged_note.mpr ⟨before, ?_⟩
  rintro _ _ _ ⟨⟩
  refine told.mpr fun b hb => ?_
  have writer := (mem_serving_iff grows known goes settings).mp hb
  simpa [census] using mem_of_writer grows known writer

/-- A stage lasts over a sending if each call goes by one of the mappings, if it outlasts
the writes, and if the reads of the key are shown what was last written. -/
theorem stage_leads {stage : List Write → (Address → Node) → Prop}
    (calls : ∀ i, ∀ call ∈ script i sending, ∀ ws nodes, stage ws nodes →
      (call.issuer ∈ s.members ∨ call.issuer = s.newcomer) ∧
      (∃ mapping, s.Known mapping ∧ (nodes call.issuer).mapping = mapping ∧
        (nodes call.issuer).settings = s.settings) ∧
      (∀ w, call = .write call.issuer w →
        stage (ws ++ [w]) (spread (nodes call.issuer).serving (.single w) nodes)) ∧
      Shown who.members nodes call.issuer key (valueAfter ws key (s.initial key))) :
    (callers script).Leads who sending (s.Fair key stage) (s.Fair key stage) := by
  refine callers_lead_right (fun nodes o h => h) ?_
  rintro i call listed nodes o ⟨holds, acked⟩
  obtain ⟨issuer, ⟨mapping, known, goes, settings⟩, writes, shown⟩ :=
    calls i call listed o.writes nodes holds
  refine ⟨⟨by simpa [census] using issuer, nodup_serving grows known goes⟩, ?_, ?_⟩
  · intro nodes' record does
    cases does with
    | read =>
      refine ⟨?_, Logbook.acknowledged_note.mpr ⟨acked, fun _ _ _ eq => by cases eq⟩⟩
      rw [Logbook.writes_note]
      exact (List.append_nil _).symm ▸ holds
    | @write issuer w outcome told =>
      refine ⟨?_, acknowledged_wrote grows census known goes settings acked told⟩
      rw [Logbook.writes_note]
      exact writes w rfl
  · rintro issuer rfl -
    exact shown

variable (inhabited : s.members ≠ []) (several : s.settings.owners ≠ 0)
  (admits : Admits s.members s.newcomer script)
  (sparing : s.newcomer ∈ s.newOwners key → Sparing s.newcomer key script)
include inhabited several admits

theorem keyBefore_leads (newcomer : Node → Prop) {requester : Address}
    (asks : sending.command = .getCurrentMapping requester) :
    (callers script).Leads who sending
      (s.Fair key (s.KeyBefore key newcomer)) (s.Fair key (s.KeyBefore key newcomer)) := by
  refine stage_leads grows census fun i call listed ws nodes before => ?_
  have member : call.issuer ∈ s.members := by
    rcases admits i _ call listed with member | ⟨-, later⟩
    · exact member
    · exact absurd asks (later requester)
  have follows := before.members _ member
  exact ⟨.inl member, ⟨_, .inl rfl, follows.mapping, follows.settings⟩,
    fun w _ => before.write grows member, before.shown grows census inhabited several member⟩

include sparing

theorem keyBefore_leads_union {mapping : MemberMapping}
    (announces : sending.command = .installMapping mapping) :
    (callers script).Leads who sending
      (s.Fair key (s.KeyBefore key fun n => s.Taking n ∧
        ∀ w ∈ n.log.pending.flatMap (·.writes), w.key ≠ key))
      (s.Fair key (s.KeyBefore key fun n => s.Taking n ∧
        ∀ w ∈ n.log.pending.flatMap (·.writes), w.key ≠ key)) := by
  refine stage_leads grows census fun i call listed ws nodes before => ?_
  rcases admits i _ call listed with member | ⟨newcomer, -⟩
  · have follows := before.members _ member
    exact ⟨.inl member, ⟨_, .inl rfl, follows.mapping, follows.settings⟩,
      fun w _ => before.write grows member, before.shown grows census inhabited several member⟩
  · obtain ⟨taking, -⟩ := before.newcomer
    rw [newcomer]
    refine ⟨.inr rfl, ⟨_, .inr (.inl rfl), taking.mapping, taking.blank.settings⟩, ?_,
      shown_of_taking grows census inhabited several before.current taking taking.mapping
        taking.blank.settings⟩
    rintro w rfl
    exact before.writeOwn grows fun mine => sparing mine i _ mapping w announces listed

omit sparing in
theorem keyDuring_leads (chunks : List (Address × List Entry)) :
    (callers script).Leads who sending (s.Fair key (s.KeyDuring key chunks))
      (s.Fair key (s.KeyDuring key chunks)) := by
  refine stage_leads grows census fun i call listed ws nodes during => ?_
  have goes : (nodes call.issuer).mapping = .moving s.old s.new ∧
      (nodes call.issuer).settings = s.settings := by
    rcases admits i _ call listed with member | ⟨newcomer, -⟩
    · exact ⟨(during.members _ member).mapping, (during.members _ member).settings⟩
    · rw [newcomer]
      exact ⟨during.newcomer.mapping, during.newcomer.blank.settings⟩
  exact ⟨(admits i _ call listed).imp_right And.left, ⟨_, .inr (.inl rfl), goes⟩,
    fun w _ => during.write grows goes.1 goes.2,
    shown_of_taking grows census inhabited several during.current during.newcomer goes.1 goes.2⟩

/-- While the new ring is announced, the newcomer goes by it and the members do not. -/
theorem keyAfter_leads_new {mapping : MemberMapping}
    (announces : sending.command = .installMapping mapping) :
    (callers script).Leads who sending
      (s.Fair key (s.KeyAfter key (.moving s.old s.new)))
      (s.Fair key (s.KeyAfter key (.moving s.old s.new))) := by
  refine stage_leads grows census fun i call listed ws nodes after => ?_
  rcases admits i _ call listed with member | ⟨newcomer, -⟩
  · have follows := after.members _ member
    exact ⟨.inl member, ⟨_, .inr (.inl rfl), follows.mapping, follows.settings⟩,
      fun w _ => after.write grows (.inr (.inl rfl)) follows.mapping follows.settings
        fun _ _ => id,
      after.shown grows census inhabited several (.inr (.inl rfl)) follows.mapping
        follows.settings fun _ => id⟩
  · have follows := after.newcomer
    rw [newcomer]
    refine ⟨.inr rfl, ⟨_, .inr (.inr rfl), follows.mapping, follows.settings⟩, ?_,
      after.shown grows census inhabited several (.inr (.inr rfl)) follows.mapping
        follows.settings fun _ hb => mem_appendNew.mpr (.inr hb)⟩
    rintro w rfl
    refine after.write grows (.inr (.inr rfl)) follows.mapping follows.settings fun same b hb => ?_
    -- a key that the newcomer writes here has the owners that it had
    have foreign : s.newcomer ∉ s.newOwners key :=
      fun mine => sparing mine i _ mapping w announces listed same
    have owners : s.newOwners key = s.oldOwners key :=
      grows.adds.locate_eq_of_not_mem (Ring.sound_ofMembers grows.before)
        (Ring.sound_ofMembers grows.after) foreign
    show b ∈ s.newOwners key
    rcases mem_appendNew.mp hb with old | new
    · rw [owners]
      exact old
    · exact new

omit sparing in
theorem keyAfter_leads_last :
    (callers script).Leads who sending (s.Fair key (s.KeyAfter key (.settled s.new)))
      (s.Fair key (s.KeyAfter key (.settled s.new))) := by
  refine stage_leads grows census fun i call listed ws nodes after => ?_
  have follows : (nodes call.issuer).Follows s.settings (.settled s.new) := by
    rcases admits i _ call listed with member | ⟨newcomer, -⟩
    · exact after.members _ member
    · exact newcomer ▸ after.newcomer
  exact ⟨(admits i _ call listed).imp_right And.left,
    ⟨_, .inr (.inr rfl), follows.mapping, follows.settings⟩,
    fun w _ => after.write grows (.inr (.inr rfl)) follows.mapping follows.settings fun _ _ => id,
    after.shown grows census inhabited several (.inr (.inr rfl)) follows.mapping
      follows.settings fun _ => id⟩

end

/-! ## From one stage to the next -/

section

variable {s : Scene ε} {key : String} {ws : List Write} {nodes : Address → Node} {n : Node}

theorem Heed.install {mapping : MemberMapping} (h : s.Heed mapping nodes) (next : MemberMapping)
    (absent : s.newcomer ∉ s.members) : s.Heed next (fun a => if a = s.newcomer then nodes a
      else (nodes a).install next) := by
  intro a ha
  dsimp only
  rw [if_neg fun same : a = s.newcomer => absent (same ▸ ha)]
  exact (h a ha).install next

theorem Heed.update {mapping : MemberMapping} (h : s.Heed mapping nodes)
    (absent : s.newcomer ∉ s.members) (n : Node) :
    s.Heed mapping (Function.update nodes s.newcomer n) := by
  intro a ha
  rw [Function.update_of_ne fun same : a = s.newcomer => absent (same ▸ ha)]
  exact h a ha

variable (grows : Ring.Grows s.strategy s.members s.newcomer s.old s.new)
include grows

theorem KeyBefore.update {newcomer newcomer' : Node → Prop}
    (h : s.KeyBefore key newcomer ws nodes) (hn : newcomer' n) :
    s.KeyBefore key newcomer' ws (Function.update nodes s.newcomer n) where
  members := h.members.update grows.absent n
  current := h.current.congr fun a ha => by
    rw [Function.update_of_ne fun same : a = s.newcomer =>
      newcomer_not_oldOwner grows key (same ▸ ha)]
    exact ⟨rfl, rfl⟩
  newcomer := by
    rw [Function.update_self]
    exact hn

theorem KeyBefore.during (h : s.KeyBefore key (fun n => s.Taking n ∧
      ∀ w ∈ n.log.pending.flatMap (·.writes), w.key ≠ key) ws nodes) :
    s.KeyDuring key [] ws (fun a => if a = s.newcomer then nodes a
      else (nodes a).install (.moving s.old s.new)) := by
  obtain ⟨taking, clean⟩ := h.newcomer
  refine ⟨h.members.install _ grows.absent, h.current.congr fun a ha => ?_, ?_, fun _ => ?_⟩
  · rw [if_neg fun same : a = s.newcomer => newcomer_not_oldOwner grows key (same ▸ ha)]
    exact ⟨rfl, rfl⟩
  · rw [if_pos rfl]
    exact taking
  · refine ⟨ws, [], (List.append_nil _).symm, fun value => ?_, fun _ _ hc => by cases hc⟩
    rw [Scene.logged, if_pos rfl]
    exact valueAfter_of_untouched clean

omit grows in
theorem KeyDuring.pull {chunks : List (Address × List Entry)} {source : Address}
    (mem : source ∈ s.members) (address : (nodes source).address = source)
    (h : s.KeyDuring key chunks ws nodes) :
    s.KeyDuring key (chunks ++ [(source, (nodes source).stateFor s.newcomer s.new)]) ws nodes := by
  refine ⟨h.members, h.current, h.newcomer, fun mine => ?_⟩
  obtain ⟨before, since, rfl, same, right⟩ := h.gathered mine
  refine ⟨before, since, rfl, same, fun untouched chunk hc => ?_⟩
  rw [List.mem_append, List.mem_singleton] at hc
  rcases hc with hc | rfl
  · exact right untouched chunk hc
  · refine chunkRight_of_source (h.members source mem) address mine fun owner => ?_
    rw [(h.current source owner).2, valueAfter_append, valueAfter_of_untouched untouched]

/-- All chunks have been merged, the log has been replayed, and the newcomer has gone
over to the new ring. -/
theorem KeyDuring.after {chunks : List (Address × List Entry)} (h : s.KeyDuring key chunks ws nodes)
    (all : chunks.map Prod.fst = s.new.providers s.newcomer s.settings.owners)
    (inhabited : s.members ≠ []) :
    s.KeyAfter key (.moving s.old s.new) ws (Function.update nodes s.newcomer
      ((Rehash.merging s.new s.newcomer s.settings.owners chunks
        (nodes s.newcomer)).finishTransition.install (.settled s.new))) := by
  have follows := follows_finished h.newcomer.blank chunks
  refine ⟨h.members.update grows.absent _, fun a ha => ?_, ?_⟩
  · by_cases same : a = s.newcomer
    · subst same
      rw [Function.update_self]
      refine ⟨follows.closed, ?_⟩
      have mine := (mem_appendNew.mp ha).resolve_left (newcomer_not_oldOwner grows key)
      obtain ⟨before, since, rfl, logged, right⟩ := h.gathered mine
      rw [value?_finished h.newcomer.blank.opened]
      show valueAfter (s.logged nodes) key _ = _
      rw [logged, valueAfter_append]
      by_cases touched : ∃ w ∈ since, w.key = key
      · exact valueAfter_of_touched touched _
      · rw [(value?_merging grows before h.newcomer.blank.store all inhabited key).1 mine
          (right fun w hw same => touched ⟨w, hw, same⟩)]
    · rw [Function.update_of_ne same]
      refine h.current a ((mem_appendNew.mp ha).elim id fun new => ?_)
      exact (newOwner_cases grows new).resolve_left same
  · rw [Function.update_self]
    exact follows

omit grows in
theorem KeyAfter.settled (absent : s.newcomer ∉ s.members)
    (h : s.KeyAfter key (.moving s.old s.new) ws nodes) :
    s.KeyAfter key (.settled s.new) ws (fun a => if a = s.newcomer then nodes a
      else (nodes a).install (.settled s.new)) where
  members := h.members.install _ absent
  current := (h.current.subset fun a ha => mem_appendNew.mpr (.inr ha)).congr fun a _ => by
    split <;> exact ⟨rfl, rfl⟩
  newcomer := by
    rw [if_pos rfl]
    exact h.newcomer

end

/-! ## The run -/

section

variable {s : Scene Logbook} {key : String} {who : Census} {script : Nat → Sending → List Call}
  {w : World Logbook} {now : Nat} {rehash : Serial}

theorem Fair.map {stage stage' : List Write → (Address → Node) → Prop}
    {nodes nodes' : Address → Node} {o : Logbook} (h : s.Fair key stage nodes o)
    (next : ∀ ws, stage ws nodes → stage' ws nodes') :
    s.Fair key stage' nodes' o :=
  ⟨⟨next _ h.1.1, h.1.2⟩, h.2⟩

/-- All reads of a key that the newcomer does not write at an announcement, or does not
come to own, are right. -/
theorem reads_right (grows : Ring.Grows s.strategy s.members s.newcomer s.old s.new)
    (census : who.members = s.members ++ [s.newcomer]) (inhabited : s.members ≠ [])
    (enabled : s.settings.rehashEnabled = true) (counted : s.settings.deadline.CountedFrom now)
    (several : s.settings.owners ≠ 0)
    (admits : Admits s.members s.newcomer script)
    (sparing : s.newcomer ∈ s.newOwners key → Sparing s.newcomer key script)
    (h : w.Holds who (s.Fair key (s.KeyBefore key fun n => s.Fresh n ∧ n.address = s.newcomer))) :
    (Rehash.run (callers script) rehash (who.serial s.newcomer) .join).Ends now w fun w' r =>
      r = .ok s.new ∧ w'.outside.Acknowledged ∧ w'.outside.Right (s.initial key) key := by
  obtain ⟨coordinator, listed⟩ := exists_listed census inhabited
  refine (run_ends (S := s.Fair key (s.KeyBefore key fun n => s.Fresh n ∧ n.address = s.newcomer))
    (P := s.Fair key (s.KeyBefore key fun n => s.Ready n ∧ n.address = s.newcomer))
    (F := s.Fair key (s.KeyBefore key fun n => s.Ready n ∧ n.address = s.newcomer))
    (A := s.Fair key (s.KeyBefore key fun n => s.Taking n ∧
      ∀ w ∈ n.log.pending.flatMap (·.writes), w.key ≠ key))
    (I := fun chunks => s.Fair key (s.KeyDuring key chunks))
    (D := s.Fair key (s.KeyAfter key (.moving s.old s.new)))
    (B := s.Fair key (s.KeyAfter key (.settled s.new)))
    (Q := s.Fair key (s.KeyAfter key (.settled s.new)))
    (T := fun _ o => o.Acknowledged ∧ o.Right (s.initial key) key)
    (silent_callers script) grows.enters listed enabled counted h ?ready ?fetch ?opened ?union
    ?pulled ?finished ?final ?report ?last).mono ?_
  case ready =>
    intro nodes o fair
    obtain ⟨fresh, address⟩ := fair.1.1.newcomer
    exact ⟨fresh.idle, fresh.settings, fresh.strategy, fair.map fun ws before =>
      before.update grows ⟨⟨fresh.log, fresh.store, fresh.settings, fresh.strategy⟩, address⟩⟩
  case fetch =>
    refine (keyBefore_leads grows census inhabited several admits _ rfl).mono
      fun nodes o _ fair => ⟨?_, fair⟩
    exact (fair.1.1.members coordinator listed.member).mapping
  case opened =>
    intro nodes o fair
    obtain ⟨ready, address⟩ := fair.1.1.newcomer
    obtain ⟨taking, clean⟩ := ready.taking address
    refine ⟨by rw [ready.log]; rfl, fair.map fun ws before => before.update grows ⟨taking, ?_⟩⟩
    rw [clean]
    exact fun w hw => absurd hw List.not_mem_nil
  case union =>
    exact (keyBefore_leads_union grows census inhabited several admits sparing rfl).mono
      fun nodes o _ fair => fair.map fun ws before => before.during grows
  case pulled =>
    intro source asked chunks
    have mem := grows.enters.mem_of_provider asked
    exact (keyDuring_leads grows census inhabited several admits chunks).mono
      fun nodes o address fair => fair.map fun ws during =>
        during.pull mem (address source (listed.members source mem))
  case finished =>
    exact fun chunks nodes o fair all => fair.map fun ws during =>
      during.after grows all inhabited
  case final =>
    exact (keyAfter_leads_new grows census inhabited several admits sparing rfl).mono
      fun nodes o _ fair => fair.map fun ws after => after.settled grows.absent
  case report => exact keyAfter_leads_last grows census inhabited several admits
  case last => exact fun nodes o fair => ⟨fair.1.2, fair.2⟩
  · rintro w' r ⟨nodes, -, rfl, told⟩
    exact ⟨rfl, told⟩

end

/-! ## A read that is wrong -/

/-- While the union is announced, a key is put through the newcomer and then through a
member; while the new ring is announced, it is read through the newcomer. -/
def crossing (newcomer member : Address) (key : String) (first second : List UInt8) :
    Nat → Sending → List Call := fun _ sending =>
  match sending.command with
  | .installMapping (.moving _ _) =>
    [.write newcomer (.put key first), .write member (.put key second)]
  | .installMapping (.settled _) => [.read newcomer key]
  | _ => []

theorem admits_crossing {members : List Address} {newcomer m : Address} (key : String)
    (first second : List UInt8) (member : m ∈ members) :
    Admits members newcomer (crossing newcomer m key first second) := by
  intro i sending call listed
  unfold crossing at listed
  split at listed
  · next announced =>
    rcases List.mem_cons.mp listed with rfl | listed
    · exact .inr ⟨rfl, fun _ asks => by rw [announced] at asks; cases asks⟩
    · rw [List.mem_singleton.mp listed]
      exact .inl member
  · next announced =>
    rw [List.mem_singleton.mp listed]
    exact .inr ⟨rfl, fun _ asks => by rw [announced] at asks; cases asks⟩
  · cases listed

/-- The newcomer makes its log's value of the key. -/
structure Straying (s : Scene ε) (key : String) (first second : List UInt8)
    (nodes : Address → Node) (o : Logbook) : Prop where
  newcomer : s.Taking (nodes s.newcomer)
  logged (value : Option (List UInt8)) : valueAfter (s.logged nodes) key value = some first
  acknowledged : o.Acknowledged
  last (value : Option (List UInt8)) : valueAfter o.writes key value = some second

/-- How far things have come when some of the two puts have been made. -/
def Crossed (s : Scene ε) (key : String) (first second : List UInt8) :
    List Call → (Address → Node) → Logbook → Prop
  | [], nodes, o => (s.Heed (.settled s.old) nodes ∧ s.Taking (nodes s.newcomer) ∧
      s.logged nodes = []) ∧ o.records = []
  | [_], nodes, o => s.Heed (.settled s.old) nodes ∧ s.Taking (nodes s.newcomer) ∧
      (∀ value, valueAfter (s.logged nodes) key value = some first) ∧ o.Acknowledged
  | _, nodes, o => s.Straying key first second nodes o

section

variable {s : Scene Logbook} {key : String} {who : Census} {first second : List UInt8} {m : Address}

theorem leads_straying (grows : Ring.Grows s.strategy s.members s.newcomer s.old s.new)
    (census : who.members = s.members ++ [s.newcomer]) (member : m ∈ s.members)
    (mine : s.newcomer ∈ s.newOwners key) (sending : Sending)
    (announces : sending.command = .installMapping (.moving s.old s.new)) :
    (callers (crossing s.newcomer m key first second)).Leads who sending
      (fun nodes o => (s.Heed (.settled s.old) nodes ∧ s.Taking (nodes s.newcomer) ∧
        s.logged nodes = []) ∧ o.records = [])
      (s.Straying key first second) := by
  have script (i : Nat) : crossing s.newcomer m key first second i sending =
      [.write s.newcomer (.put key first), .write m (.put key second)] := by
    rw [crossing, announces]
  have put (value : List UInt8) (initial : Option (List UInt8)) :
      valueAfter [.put key value] key initial = some value := if_pos rfl
  refine callers_lead (s.Crossed key first second) (fun nodes o h => h) ?_ ?_
  · intro i done call rest split nodes o holds
    rw [script i] at split
    obtain _ | ⟨_, _ | ⟨_, done⟩⟩ := done
    · -- the first put
      obtain ⟨⟨members, taking, clean⟩, unwritten⟩ := holds
      obtain ⟨rfl, rfl⟩ := List.cons.inj split
      have goes := taking.mapping
      have settings := taking.blank.settings
      have known : s.Known (.moving s.old s.new) := .inr (.inl rfl)
      refine ⟨⟨by simp [Call.issuer, census], nodup_serving grows known goes⟩, ?_⟩
      rintro nodes' record (⟨told⟩ | _)
      obtain ⟨taking', logged⟩ := taking.write (nodes s.newcomer).serving (.put key first)
      refine ⟨members.write, taking', fun value => ?_,
        acknowledged_wrote grows census known goes settings ?_ told⟩
      · rw [logged, clean, List.nil_append, valueAfter_share, if_pos]
        · exact put first value
        · exact (mem_serving_iff grows known goes settings).mpr (mem_appendNew.mpr (.inr mine))
      · intro issuer w outcome recorded
        rw [unwritten] at recorded
        cases recorded
    · -- the second put
      obtain ⟨members, taking, logged, before⟩ := holds
      obtain ⟨-, split⟩ := List.cons.inj split
      obtain ⟨rfl, rfl⟩ := List.cons.inj split
      have follows := members m member
      have known : s.Known (.settled s.old) := .inl rfl
      have same : spread (nodes m).serving (.single (.put key second)) nodes s.newcomer =
          nodes s.newcomer := spread_of_not_serving fun key hs =>
        newcomer_not_oldOwner grows key
          ((mem_serving_iff grows known follows.mapping follows.settings).mp hs)
      refine ⟨⟨by simp [Call.issuer, census, member],
        nodup_serving grows known follows.mapping⟩, ?_⟩
      rintro nodes' record (⟨told⟩ | _)
      refine ⟨by rw [same]; exact taking, fun value => ?_,
        acknowledged_wrote grows census known follows.mapping follows.settings before told,
        fun value => ?_⟩
      · rw [Scene.logged, same]
        exact logged value
      · rw [Logbook.writes_note, valueAfter_append]
        exact put second _
    · exact absurd (congrArg List.length split) (by simp)
  · intro i nodes o holds
    rw [script i] at holds
    exact holds

theorem Straying.congr {nodes nodes' : Address → Node} {o : Logbook}
    (h : s.Straying key first second nodes o) (same : nodes' s.newcomer = nodes s.newcomer) :
    s.Straying key first second nodes' o where
  newcomer := same ▸ h.newcomer
  logged value := by
    rw [Scene.logged, same]
    exact h.logged value
  acknowledged := h.acknowledged
  last := h.last

theorem leads_wrong (grows : Ring.Grows s.strategy s.members s.newcomer s.old s.new)
    (census : who.members = s.members ++ [s.newcomer]) (mine : s.newcomer ∈ s.newOwners key)
    (differ : first ≠ second) (sending : Sending)
    (announces : sending.command = .installMapping (.settled s.new)) :
    (callers (crossing s.newcomer m key first second)).Leads who sending
      (fun nodes o => ((nodes s.newcomer).Follows s.settings (.settled s.new) ∧
        (nodes s.newcomer).store.value? key = some first) ∧ o.Acknowledged ∧
        ∀ value, valueAfter o.writes key value = some second)
      fun _ o => ¬ o.Right (s.initial key) key := by
  have script (i : Nat) : crossing s.newcomer m key first second i sending =
      [.read s.newcomer key] := by
    rw [crossing, announces]
  have known : s.Known (.settled s.new) := .inr (.inr rfl)
  refine callers_lead (fun done nodes o => done = [] ∧
    ((nodes s.newcomer).Follows s.settings (.settled s.new) ∧
      (nodes s.newcomer).store.value? key = some first) ∧ o.Acknowledged ∧
      (∀ value, valueAfter o.writes key value = some second) ∨
    done ≠ [] ∧ ¬ o.Right (s.initial key) key) (fun nodes o h => .inl ⟨rfl, h⟩) ?_ ?_
  · intro i done call rest split nodes o holds
    rw [script i] at split
    obtain ⟨rfl, ⟨follows, holds⟩, acked, last⟩ | ⟨some, -⟩ := holds
    · obtain ⟨rfl, rfl⟩ := List.cons.inj split
      refine ⟨⟨by simp [Call.issuer, census], nodup_serving grows known follows.mapping⟩, ?_⟩
      rintro nodes' record (_ | ⟨seen⟩)
      refine .inr ⟨List.cons_ne_nil _ _, fun right => ?_⟩
      have answer := seen.own ⟨(mem_serving_iff grows known follows.mapping follows.settings).mpr
        mine, by simp [census], Node.isUncertain_of_closed follows.closed⟩
      rw [Node.localValue_of_closed follows.closed, holds] at answer
      have expected := (Logbook.right_note.mp right).2 _ _ rfl acked
      rw [answer, last] at expected
      exact differ (Option.some.inj (Except.ok.inj expected))
    · rcases List.append_eq_singleton_iff.mp split with ⟨none, -⟩ | ⟨-, none⟩
      · exact absurd none some
      · cases none
  · intro i nodes o holds
    rw [script i] at holds
    exact (holds.resolve_left fun none => List.cons_ne_nil _ _ none.1).2

/-- The members go by the old ring, the newcomer is as `newcomer` says, and nobody has
called yet. -/
def Waits (s : Scene Logbook) (newcomer : Node → Prop) (nodes : Address → Node) (o : Logbook) :
    Prop :=
  (s.Heed (.settled s.old) nodes ∧ newcomer (nodes s.newcomer)) ∧ o.records = []

theorem read_wrong {w : World Logbook} {now : Nat} {rehash : Serial}
    (grows : Ring.Grows s.strategy s.members s.newcomer s.old s.new)
    (census : who.members = s.members ++ [s.newcomer])
    (enabled : s.settings.rehashEnabled = true) (counted : s.settings.deadline.CountedFrom now)
    (member : m ∈ s.members)
    (mine : s.newcomer ∈ s.newOwners key) (differ : first ≠ second)
    (h : w.Holds who fun nodes o => (s.Heed (.settled s.old) nodes ∧ s.Fresh (nodes s.newcomer) ∧
      (nodes s.newcomer).address = s.newcomer) ∧ o.records = []) :
    (Rehash.run (callers (crossing s.newcomer m key first second)) rehash
      (who.serial s.newcomer) .join).Ends now w fun w' _ =>
        ¬ w'.outside.Right (s.initial key) key := by
  obtain ⟨coordinator, listed⟩ := exists_listed census (List.ne_nil_of_mem member)
  refine (run_ends (s := s) (S := s.Waits fun n => s.Fresh n ∧ n.address = s.newcomer)
    (P := s.Waits fun n => s.Ready n ∧ n.address = s.newcomer)
    (F := s.Waits fun n => s.Ready n ∧ n.address = s.newcomer)
    (A := fun nodes o => (s.Heed (.settled s.old) nodes ∧ s.Taking (nodes s.newcomer) ∧
      s.logged nodes = []) ∧ o.records = [])
    (I := fun _ => s.Straying key first second)
    (D := fun nodes o => ((nodes s.newcomer).Follows s.settings (.settled s.new) ∧
      (nodes s.newcomer).store.value? key = some first) ∧ o.Acknowledged ∧
      ∀ value, valueAfter o.writes key value = some second)
    (B := fun _ o => ¬ o.Right (s.initial key) key) (Q := fun _ o => ¬ o.Right (s.initial key) key)
    (T := fun _ o => ¬ o.Right (s.initial key) key) (silent_callers _) grows.enters listed enabled
    counted h ?ready ?fetch ?opened ?union ?pulled ?finished ?final ?report ?last).mono ?_
  case ready =>
    rintro nodes o ⟨⟨members, fresh, address⟩, empty⟩
    refine ⟨fresh.idle, fresh.settings, fresh.strategy, ⟨members.update grows.absent _, ?_⟩, empty⟩
    rw [Function.update_self]
    exact ⟨⟨fresh.log, fresh.store, fresh.settings, fresh.strategy⟩, address⟩
  case fetch =>
    refine (callers_lead_idle (fun _ => rfl) fun _ _ h => h).mono fun nodes o _ h => ⟨?_, h⟩
    exact (h.1.1 coordinator listed.member).mapping
  case opened =>
    rintro nodes o ⟨⟨members, ready, address⟩, empty⟩
    obtain ⟨taking, clean⟩ := ready.taking address
    refine ⟨by rw [ready.log]; rfl, ⟨members.update grows.absent _, ?_, ?_⟩, empty⟩
    · rw [Function.update_self]
      exact taking
    · rw [Scene.logged, Function.update_self, clean]
      rfl
  case union =>
    exact (leads_straying grows census member mine _ rfl).mono
      fun nodes o _ h => h.congr (if_pos rfl)
  case pulled =>
    exact fun source _ chunks => callers_lead_idle (fun _ => rfl)
      fun nodes o h => ⟨h.newcomer, h.logged, h.acknowledged, h.last⟩
  case finished =>
    intro chunks nodes o h _
    rw [Function.update_self, value?_finished h.newcomer.blank.opened]
    exact ⟨⟨follows_finished h.newcomer.blank chunks, h.logged _⟩, h.acknowledged, h.last⟩
  case final => exact leads_wrong grows census mine differ _ rfl
  case report => exact callers_lead_idle (fun _ => rfl) fun _ _ h => h
  case last => exact fun _ _ h => h
  · rintro w' r ⟨nodes, -, -, wrong⟩
    exact wrong

end

end Scene

/-- The newcomer's run goes through with these calls beside it, all writes are
acknowledged, and all reads of the key are right. -/
def JoinsReading (c : Cluster) (rehash self : Serial) (now : Nat) (new : MemberRing)
    (key : String) (initial : Option (List UInt8)) (script : Nat → Sending → List Call) : Prop :=
  ∃ w', Rehash.run (callers script) rehash self .join now { cluster := c, outside := {} } =
      .done w' (.ok new) ∧
    w'.outside.Acknowledged ∧ w'.outside.Right initial key

/-- A newcomer joins a settled cluster in which nobody moves for it, while clients put,
remove and get keys through the members and, once it goes by the union, through the
newcomer.  Reads of a key return what was last written, whatever the clients do, just
when the newcomer does not come to own it.  If it does, they return it as long as the
key is not written through the newcomer while a mapping is announced. -/
theorem reads_during_join_iff {members : List Address} {x : Address}
    {serial : Address → Serial} {errands : Option (List Errand)} {settings : Settings}
    {strategy : Strategy} {old new : MemberRing} {initial : String → Option (List UInt8)}
    {c : Cluster} {nodes : Address → Node} (rehash : Serial) (now : Nat)
    (inhabited : members ≠ []) (hosts : c.Hosts ⟨members ++ [x], serial, errands⟩ nodes)
    (named : settings.strategy = .ok strategy) (enabled : settings.rehashEnabled = true)
    (counted : settings.deadline.CountedFrom now) (grows : Ring.Grows strategy members x old new)
    (settled : ∀ a ∈ members, (nodes a).Follows settings (.settled old))
    (agree : Agree (old.locate · settings.owners) initial nodes)
    (fresh : Node.create x settings [x] = .ok (nodes x)) (key : String) :
    ((∀ script, Admits members x script →
        JoinsReading c rehash (serial x) now new key (initial key) script) ↔
      x ∉ new.locate key settings.owners) ∧
    ∀ script, Admits members x script → Sparing x key script →
      JoinsReading c rehash (serial x) now new key (initial key) script := by
  let scene : Scene Logbook := {
    members, newcomer := x, settings, strategy, old, new, initial
    wrote := Logbook.writes
    kept := fun _ _ => True }
  obtain ⟨valid, strategy', ring, named', -, made⟩ := Node.create_eq_ok_iff.mp fresh
  have several : settings.owners ≠ 0 := by
    intro none
    rw [Settings.validate, if_pos none] at valid
    cases valid
  have blank : scene.Fresh (nodes x) ∧ (nodes x).address = x := by
    rw [made]
    exact ⟨⟨rfl, rfl, rfl, Except.ok.inj (named'.symm.trans named), rfl⟩, rfl⟩
  have start : scene.KeyBefore key (fun n => scene.Fresh n ∧ n.address = x) [] nodes := by
    refine ⟨settled, fun a ha => ⟨?_, agree key a ha⟩, blank⟩
    exact (settled a (Scene.mem_of_oldOwner grows ha)).closed
  have good (script : Nat → Sending → List Call) (admits : Admits members x script)
      (sparing : x ∈ new.locate key settings.owners → Sparing x key script) :
      JoinsReading c rehash (serial x) now new key (initial key) script := by
    have fair : World.Holds ⟨members ++ [x], serial, errands⟩
        (scene.Fair key (scene.KeyBefore key fun n => scene.Fresh n ∧ n.address = x))
        { cluster := c, outside := {} } :=
      ⟨nodes, hosts, ⟨start, fun _ _ _ h => by cases h⟩, Logbook.right_empty _ _⟩
    obtain ⟨w', r, run, rfl, told⟩ :=
      scene.reads_right grows rfl inhabited enabled counted several admits sparing fair
    exact ⟨w', run, told⟩
  refine ⟨⟨fun all mine => ?_, fun foreign script admits => good script admits
    fun mine => absurd mine foreign⟩, fun script admits sparing => good script admits
      fun _ => sparing⟩
  obtain ⟨m, member⟩ := List.exists_mem_of_ne_nil _ inhabited
  have waits : World.Holds ⟨members ++ [x], serial, errands⟩
      (fun nodes (o : Logbook) => (scene.Heed (.settled old) nodes ∧ scene.Fresh (nodes x) ∧
        (nodes x).address = x) ∧ o.records = []) { cluster := c, outside := {} } :=
    ⟨nodes, hosts, ⟨settled, blank⟩, rfl⟩
  obtain ⟨w', r, run, wrong⟩ :=
    scene.read_wrong grows rfl enabled counted member mine (show [1] ≠ [2] by decide) waits
  obtain ⟨w'', run', -, right⟩ := all _ (Scene.admits_crossing key [1] [2] member)
  rw [run] at run'
  cases run'
  exact wrong right

theorem reads_during_join_iff_of_one :
    let c := (Cluster.founded {} ["A"]).start "C" {} ["C"]
    ∃ self new, c.nodes.serial? "C" = some self ∧ ∀ key,
      ((∀ script, Admits ["A"] "C" script → JoinsReading c 0 self 0 new key none script) ↔
        "C" ∉ Ring.locate new key 2) ∧
      ∀ script, Admits ["A"] "C" script → Sparing "C" key script →
        JoinsReading c 0 self 0 new key none script := by
  obtain ⟨serial, nodes, old, new, self, hosts, grows, settled, blank, fresh⟩ := exists_join_of_one
  have agree := agree_of_empty blank (old.locate · (Settings.owners {}))
  exact ⟨_, new, self, reads_during_join_iff 0 0 (List.cons_ne_nil _ _) hosts
    (show Settings.strategy {} = .ok .sip24 by decide +kernel) rfl (by decide) grows settled agree
    fresh⟩

/-- `k0` is put through `C` and then through `A` while `C` announces the union, and read
through `C` while it announces the new ring: it has the earlier value there. -/
def logOvertakes : List Scenario.Step :=
  [.node "A" ["A", "D"] {} true, .node "D" ["A", "D"] {} true, .put "A" "k0" [0],
    .node "C" ["C"] {} true, .join "C" "of C",
    .hook (some "C") none .installMapping 1 [.put "C" "k0" [1], .put "A" "k0" [2]],
    .hook (some "C") none .installMapping 2 [.get "C" "k0", .get "A" "k0"], .run "of C"]

theorem read_goes_back_during_join :
    (Scenario.run logOvertakes).flatMap (fun answer => answer.events.filterMap fun event =>
      match event.2 with
      | .hooked (.get _ _) (.value value) => some value
      | _ => none) = [some [1], some [2]] := by
  decide +kernel

end SlotRing
