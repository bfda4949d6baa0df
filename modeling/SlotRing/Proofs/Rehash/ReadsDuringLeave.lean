/-
# Reads while a survivor hands over

A member has left, and a survivor does its part: it announces the union of both rings and
hands to the others what they gain.  Until it is done with that, whoever owned a key before
and stays has all that was acknowledged of it (`Farewell.Kept`), and reads ask these
members first.  So they are right, with one exception (`reads_during_leave_iff`).

While a member gains a key it must not answer for it, and the log is what says so.  But
only the survivor whose turn it is opens its log.  The others go by the union as soon as
they hear of it, serve what they gain under it, and answer from their own copy, which is
still to come (`Farewell.AnswersEarly`).
-/
import SlotRing.Proofs.Cluster.Calls
import SlotRing.Proofs.Rehash.LossyLeave
import SlotRing.Scenario.Run

namespace SlotRing

/-! ## What a survivor answers -/

theorem Node.Stands.localValue {n : Node} {settings : Settings} {strategy : Strategy}
    {mapping : MemberMapping} {opened : Bool} (h : n.Stands settings strategy mapping opened)
    (key : String) : n.localValue key = n.replayed.value? key := by
  cases opened with
  | false => rw [h.replayed, Node.localValue_of_closed h.disabled]
  | true => rw [Node.localValue_of_open h.enabled, Node.replayed, Store.value?_writeAll]

namespace Farewell

variable (f : Farewell)

/-- The members have values for exactly the keys that they own, the same as the other
owners. -/
def Stocked (initial : String → Option (List UInt8)) (D : Address → Store) : Prop :=
  ∀ key, ∀ a ∈ f.members, (D a).value? key = if a ∈ f.oldOwners key then initial key else none

def Gains (key : String) (a : Address) : Prop := a ∈ f.newOwners key ∧ a ∉ f.oldOwners key

def HandsOver (initial : String → Option (List UInt8)) (x : Address) : Prop :=
  ∃ key, (initial key).isSome ∧ x ∈ f.oldOwners key ∧ ∃ b, b ≠ x ∧ f.Gains key b

/-- While `x` hands over, `r` serves the key without having taken part in all that was
acknowledged: it gains the key, and there is a value that it does not have yet, or could be
one by a write that it did not see. -/
def AnswersEarly (initial : String → Option (List UInt8)) (x : Address) (key : String)
    (r : Address) : Prop :=
  f.Gains key r ∧ r ≠ x ∧ f.HandsOver initial x ∧
    ((initial key).isSome ∨ f.leaver ∉ f.oldOwners key)

/-- The run of a survivor, which goes by the union, knows where it comes from. -/
structure Aware (x : Address) (n : Node) : Prop where
  source : n.movingFrom = some f.old
  address : n.address = x

/-- The owners that stay have what was last written, and so do the members that gain the
key if there was nothing to be had and no write can have passed them by. -/
structure Kept (initial : String → Option (List UInt8)) (key : String)
    (D : Address → Store) (ws : List Write) : Prop where
  owners : ∀ a ∈ f.members, a ∈ f.oldOwners key →
    (D a).value? key = valueAfter ws key (initial key)
  gainers : initial key = none → f.leaver ∈ f.oldOwners key → ∀ a, f.Gains key a →
    (D a).value? key = valueAfter ws key none

/-! ## Whom a read asks -/

section

variable {f : Farewell} (sound : f.Sound) {x : Address} {nodes : Address → Node} {key : String}
  {others : Going}

theorem Run.localValue {opened : Bool} {mine mapping : MemberMapping}
    (run : f.Run x opened mine mapping nodes) {a : Address} (ha : a ∈ f.members) :
    (nodes a).localValue key = (replayed nodes a).value? key := by
  by_cases same : a = x
  · exact same ▸ run.self.localValue key
  · exact (run.others a ha same).1.localValue key

/-- Whoever hands over is certain of what it owned before. -/
theorem Run.isUncertain_eq_false_iff {mine mapping : MemberMapping}
    (run : f.Run x true mine mapping nodes) (aware : f.Aware x (nodes x)) :
    (nodes x).isUncertain key = false ↔ x ∈ f.oldOwners key := by
  rw [Node.isUncertain, run.self.log, Bool.true_and, aware.source, aware.address]
  simp only [Node.copies, run.self.settings, Bool.not_eq_false', Ring.isOwner,
    List.contains_iff_mem]
  rfl

include sound

theorem contains_target (g : Going) {a : Address} (ha : a ∈ f.members) :
    (f.mapping g).target.contains a = true := by
  cases g with
  | before => exact sound.before.contains_iff.mpr (sound.mem_old.mpr (.inl ha))
  | between => exact (sound_new sound).contains_iff.mpr ((mem_new sound).mpr ha)
  | after => exact (sound_new sound).contains_iff.mpr ((mem_new sound).mpr ha)

omit sound in
theorem prefix_recipients {g : Going} (early : g ≠ .after) (key : String) :
    (f.oldOwners key).filter (f.mapping g).target.contains <+: f.recipients g key := by
  cases g with
  | before => exact List.prefix_rfl
  | between => exact (prefix_appendNew _ _).filter _
  | after => exact absurd rfl early

/-- A read is right if the owners that stay have the value, and if the reader has it where
it takes itself for an owner. -/
theorem Run.shown (run : f.Run x true (f.mapping .between) (f.mapping others) nodes)
    (aware : f.Aware x (nodes x)) (early : others ≠ .after) (survives : f.Survives key)
    {value : Option (List UInt8)}
    (owners : ∀ a ∈ f.members, a ∈ f.oldOwners key → (replayed nodes a).value? key = value)
    {r : Address} (mem : r ∈ f.members)
    (gained : others = .between → f.Gains key r → r ≠ x → (replayed nodes r).value? key = value) :
    Shown f.members nodes r key value := by
  obtain ⟨g, going, serving⟩ : ∃ g, g = (if r = x then .between else others) ∧
      (nodes r).serving = f.recipients g := ⟨_, rfl, run.serving_eq mem⟩
  refine ⟨fun own => ?_, ?_⟩
  · rw [run.localValue mem]
    by_cases old : r ∈ f.oldOwners key
    · exact owners r mem old
    have listed := own.serves
    rw [serving, going] at listed
    by_cases self : r = x
    · subst self
      exact absurd ((run.isUncertain_eq_false_iff aware).mp own.certain) old
    · rw [if_neg self] at listed
      cases others with
      | before => exact absurd ((mem_recipients_before sound).mp listed) old
      | between =>
        have gains := ((mem_recipients_between sound).mp listed).1.resolve_left old
        exact gained rfl ⟨gains, old⟩ self
      | after => exact absurd rfl early
  · have soon : g ≠ .after := by
      rw [going]
      split
      · exact Going.noConfusion
      · exact early
    obtain ⟨back, split⟩ := prefix_recipients soon key
    refine ⟨_, back, serving ▸ split.symm, ?_, fun b listed answers => ?_⟩
    · obtain ⟨b, stays, old⟩ := survives
      have listed := List.mem_filter.mpr ⟨old, contains_target sound g stays⟩
      refine ⟨b, listed, ?_, stays, ?_⟩
      · rw [serving]
        exact split ▸ List.mem_append_left _ listed
      · by_cases self : b = x
        · subst self
          exact (run.isUncertain_eq_false_iff aware).mpr old
        · exact Node.isUncertain_of_closed (run.others b stays self).1.disabled
    · rw [run.localValue answers.member]
      exact owners b answers.member (List.mem_filter.mp listed).1

end

/-! ## What is kept until all is handed over -/

section

variable {f : Farewell} (sound : f.Sound) {initial : String → Option (List UInt8)}
  {key : String} {x : Address} {nodes : Address → Node} {D D' : Address → Store}
  {ws : List Write}

theorem value?_share (s : Store) {serving : String → List Address} {w : Write} {a : Address}
    (reached : w.key = key → a ∈ serving key) :
    (s.writeAll (share serving (.single w) a)).value? key = valueAfter [w] key (s.value? key) := by
  rw [Store.value?_writeAll, valueAfter_share]
  split
  · rfl
  · next passed => exact (Write.upon_of_ne fun own => passed (reached own)).symm

theorem Stocked.replayed (rest : f.Rest (.settled f.old) nodes)
    (h : f.Stocked initial fun a => (nodes a).store) : f.Stocked initial (replayed nodes) := by
  intro key a ha
  rw [SlotRing.replayed, (rest a ha).1.replayed]
  exact h key a ha

theorem Stocked.value?_gainer (h : f.Stocked initial D) {a : Address} (ha : a ∈ f.members)
    (gains : f.Gains key a) : (D a).value? key = none :=
  (h key a ha).trans (if_neg gains.2)

include sound

theorem Stocked.kept (h : f.Stocked initial D) (key : String) : f.Kept initial key D [] where
  owners a ha owner := (h key a ha).trans (if_pos owner)
  gainers _ _ _ gains := h.value?_gainer (mem_of_newOwner sound gains.1) gains

/-- A write that is acknowledged reaches the owners that stay, and who gains a key that the
leaver owned. -/
theorem Kept.write (h : f.Kept initial key D ws) {g : Going} (early : g ≠ .after) {w : Write}
    (acked : ∀ a ∈ f.recipients g w.key, a ∈ f.members)
    (written : ∀ a ∈ f.members, D' a = (D a).writeAll (share (f.recipients g) (.single w) a)) :
    f.Kept initial key D' (ws ++ [w]) where
  owners a ha owner := by
    rw [written a ha, value?_share, h.owners a ha owner, valueAfter_append]
    intro _
    cases g with
    | before => exact (mem_recipients_before sound).mpr owner
    | between => exact (mem_recipients_between sound).mpr ⟨.inl owner, ha⟩
    | after => exact absurd rfl early
  gainers dead left a gains := by
    have ha := mem_of_newOwner sound gains.1
    rw [written a ha, value?_share, h.gainers dead left a gains, valueAfter_append]
    rintro rfl
    cases g with
    | before => exact absurd (acked _ ((mem_recipients_before sound).mpr left)) sound.left
    | between => exact (mem_recipients_between sound).mpr ⟨.inr gains.1, ha⟩
    | after => exact absurd rfl early

omit sound in
/-- A row changes nothing for who owned the key before, and holds nothing of a key that has
no value. -/
theorem Kept.handed (h : f.Kept initial key D ws) {held : List Entry}
    {rows : List (Address × List Entry)} (spec : f.Rows x held rows)
    (live : ∀ e ∈ held, (initial e.key).isSome) {row : Address × List Entry} (listed : row ∈ rows) :
    f.Kept initial key (Function.update D row.1 ((D row.1).merge row.2).1) ws where
  owners a ha owner := by
    refine (sameAt_row fun here e he own => ?_).value?.trans (h.owners a ha owner)
    obtain ⟨-, -, fresh⟩ := (spec.mem listed).mp he
    rw [own, ← here] at fresh
    exact fresh owner
  gainers dead left a gains := by
    refine (sameAt_row fun here e he own => ?_).value?.trans (h.gainers dead left a gains)
    have some := live e ((spec.mem listed).mp he).1
    rw [own, dead] at some
    cases some

end

/-! ## Calls during the part of a survivor -/

section

variable (f : Farewell)

/-- Clients call the members that stay, and read the key until it has been handed over. -/
def Asks (key : String) (script : Nat → Sending → List Call) : Prop :=
  ∀ i sending, ∀ call ∈ script i sending, call.issuer ∈ f.members ∧
    ∀ issuer, call = .read issuer key → sending.command ≠ .installMapping (.settled f.new)

/-- Nobody who answers early is asked for the key while entries are handed over. -/
def Spares (initial : String → Option (List UInt8)) (x : Address) (key : String)
    (script : Nat → Sending → List Call) : Prop :=
  ∀ i sending entries r, sending.command = .pushState entries →
    .read r key ∈ script i sending → ¬ f.AnswersEarly initial x key r

/-- The part of a survivor goes through with these calls beside it, and all reads of the
key are right. -/
def LeavesReading (c : Cluster) (rehash self : Serial) (now : Nat) (key : String)
    (initial : Option (List UInt8)) (script : Nat → Sending → List Call) : Prop :=
  ∃ w', Rehash.run (callers script) rehash self (.leave f.leaver f.old) now
      { cluster := c, outside := {} } = .done w' (.ok f.new) ∧
    w'.outside.Right initial key

end

section

variable {f : Farewell} (sound : f.Sound) {who : Census} (census : who.members = f.members)
  {x : Address} {initial : String → Option (List UInt8)} {key : String}
  {script : Nat → Sending → List Call} {sending : Sending}
include sound census

/-- What the calls of a sending lead to, on the node that carries out its part and on the
stores; `I done` is what holds after the calls of `done`. -/
theorem callers_watch {opened : Bool} (mine others : Going)
    {K L : Node → (Address → Store) → Logbook → Prop}
    (I : List Call → Node → (Address → Store) → Logbook → Prop)
    (issuers : ∀ i, ∀ call ∈ script i sending, call.issuer ∈ f.members)
    (count : ∀ n D o, K n D o → I [] n D o.count)
    (write : ∀ i done issuer w rest, done ++ .write issuer w :: rest = script i sending →
      ∀ n D o, I done n D o → ∀ g, g = (if issuer = x then mine else others) → ∀ outcome,
      (outcome = .ok () ↔ ∀ a ∈ f.recipients g w.key, a ∈ f.members) →
      ∀ n' D', (opened = true → ∃ log, n' = { n with log }) →
        (∀ a ∈ f.members, D' a = (D a).writeAll (share (f.recipients g) (.single w) a)) →
        I (done ++ [.write issuer w]) n' D' (o.note (.wrote issuer w outcome)))
    (read : ∀ i done issuer key rest, done ++ .read issuer key :: rest = script i sending →
      ∀ nodes o, f.Run x opened (f.mapping mine) (f.mapping others) nodes →
        I done (nodes x) (replayed nodes) o → ∀ r, Seen f.members nodes issuer key r →
        I (done ++ [.read issuer key]) (nodes x) (replayed nodes) (o.note (.read issuer key r)))
    (last : ∀ i n D o, I (script i sending) n D o → L n D o) :
    (callers script).Leads who sending
      (f.Watches x opened (f.mapping mine) (f.mapping others) K)
      (f.Watches x opened (f.mapping mine) (f.mapping others) L) := by
  refine callers_lead
    (fun done => f.Watches x opened (f.mapping mine) (f.mapping others) (I done)) ?_ ?_ ?_
  · rintro nodes o ⟨run, k⟩
    exact ⟨run, count _ _ _ k⟩
  · rintro i done call rest split nodes o ⟨run, k⟩
    have issuer := issuers i call (split ▸ List.mem_append_right _ List.mem_cons_self)
    rw [census]
    refine ⟨⟨issuer, fun key => run.serving_eq issuer ▸ nodup_recipients sound _ key⟩, ?_⟩
    intro nodes' record does
    cases does with
    | @write issuer' w outcome told =>
      have serving : (nodes issuer').serving = _ := run.serving_eq issuer
      rw [serving] at told ⊢
      refine ⟨run.spread _ _, write i done _ w rest split _ _ o k _ rfl outcome told _ _ ?_
        fun a ha => run.replayed_spread _ _ ha⟩
      rintro rfl
      obtain ⟨kept, -, eq⟩ := spread_of_open (f.recipients _) (.single w) run.self.enabled
      exact ⟨_, eq⟩
    | read seen => exact ⟨run, read i done _ _ rest split nodes o run k _ seen⟩
  · rintro i nodes o ⟨run, k⟩
    exact ⟨run, last i _ _ _ k⟩

/-- Calls until the survivor is done with handing over: what is acknowledged is kept, and
reads are right; `E` is what else is known of the store of the survivor. -/
theorem callers_keep (others : Going) (early : others ≠ .after) (survives : f.Survives key)
    {E : Store → Prop} (issuers : ∀ i, ∀ call ∈ script i sending, call.issuer ∈ f.members)
    (ready : others = .between → ∀ s, E s → ∀ i r, .read r key ∈ script i sending →
      f.Gains key r → r ≠ x → initial key = none ∧ f.leaver ∈ f.oldOwners key) :
    let K := fun n D (o : Logbook) => (f.Aware x n ∧ E n.store) ∧
      (o.Acknowledged → f.Kept initial key D o.writes) ∧ o.Right (initial key) key
    (callers script).Leads who sending
      (f.Watches x true (f.mapping .between) (f.mapping others) K)
      (f.Watches x true (f.mapping .between) (f.mapping others) K) := by
  intro K
  refine callers_watch sound census .between others (fun _ => K) issuers (fun _ _ _ k => k)
    ?_ ?_ fun _ _ _ _ k => k
  · rintro i done issuer w rest split n D o ⟨⟨aware, extra⟩, kept, right⟩ g going outcome told
      n' D' same written
    obtain ⟨log, rfl⟩ := same rfl
    refine ⟨⟨⟨aware.source, aware.address⟩, extra⟩, fun acked => ?_,
      Logbook.right_note.mpr ⟨right, fun _ _ => Record.noConfusion⟩⟩
    obtain ⟨before, ok⟩ := Logbook.acknowledged_note.mp acked
    have soon : g ≠ .after := by
      rw [going]
      split
      · exact Going.noConfusion
      · exact early
    rw [Logbook.writes_note]
    exact (kept before).write sound soon (told.mp (ok _ _ _ rfl)) written
  · rintro i done issuer key' rest split nodes o run ⟨known, kept, right⟩ r seen
    have listed : .read issuer key' ∈ script i sending :=
      split ▸ List.mem_append_right _ List.mem_cons_self
    refine ⟨known, fun acked => ?_, Logbook.right_note.mpr ⟨right, ?_⟩⟩
    · rw [Logbook.writes_note]
      exact (List.append_nil o.writes).symm ▸ kept (Logbook.acknowledged_note.mp acked).1
    · rintro _ _ ⟨⟩ acked
      have now_ := kept acked
      refine seen.eq_of_shown (run.shown sound known.1 early survives now_.owners
        (issuers i _ listed) fun union gains other => ?_)
      obtain ⟨dead, left⟩ := ready union _ known.2 i issuer listed gains other
      rw [now_.gainers dead left issuer gains, dead]

section

variable (f) (x) (initial)

/-- A survivor has what it owned at the beginning. -/
def StockedAt (s : Store) : Prop :=
  ∀ key, s.value? key = if x ∈ f.oldOwners key then initial key else none

/-- What a survivor holds are keys of its own that had a value at the beginning. -/
def HeldLive (held : List Entry) : Prop :=
  ∀ e ∈ held, (initial e.key).isSome ∧ x ∈ f.oldOwners e.key

/-- What is acknowledged of the key is kept, and reads of it are right; `E` is what is
known of the store of the survivor. -/
def Fair (key : String) (E : Store → Prop) (n : Node) (D : Address → Store) (o : Logbook) :
    Prop :=
  (f.Aware x n ∧ E n.store) ∧ (o.Acknowledged → f.Kept initial key D o.writes) ∧
    o.Right (initial key) key

end

theorem reads_right {w : World Logbook} {now : Nat} {rehash : Serial} (mem : x ∈ f.members)
    (counted : f.settings.deadline.CountedFrom now)
    (survives : f.Survives key) (asks : f.Asks key script) (spares : f.Spares initial x key script)
    (h : w.Holds who fun nodes o => f.Rest (.settled f.old) nodes ∧
      f.Stocked initial (replayed nodes) ∧ o.records = []) :
    (Rehash.run (callers script) rehash (who.serial x) (.leave f.leaver f.old)).Ends now w
      fun w' r => r = .ok f.new ∧ w'.outside.Right (initial key) key := by
  have issuers (sending : Sending) : ∀ i, ∀ call ∈ script i sending, call.issuer ∈ f.members :=
    fun i call hc => (asks i sending call hc).1
  refine (watched_part_ends sound (silent_callers script) census mem counted (f.mapping .before)
    (fun D o => f.Stocked initial D ∧ o.records = [])
    (f.Fair x initial key (f.StockedAt x initial)) (f.Fair x initial key (f.StockedAt x initial))
    (fun held _ => f.Fair x initial key fun _ => f.HeldLive x initial held)
    (fun _ o => o.Right (initial key) key)
    (fun _ o => o.Right (initial key) key) (fun _ o => o.Right (initial key) key)
    h ?opened ?union ?start ?step ?finish ?final ?drop).mono ?_
  case opened =>
    rintro n D o address store ⟨stocked, empty⟩
    have unwritten : o.writes = [] := by
      rw [Logbook.writes, empty]
      rfl
    refine ⟨⟨⟨rfl, address⟩, fun key => ?_⟩, fun _ => unwritten ▸ stocked.kept sound key, ?_⟩
    · exact store ▸ stocked key x mem
    · intro earlier issuer r later split
      rw [empty] at split
      cases earlier <;> cases split
  case union =>
    refine (callers_keep sound census .before Going.noConfusion survives (issuers _)
      fun union => Going.noConfusion union).mono ?_
    rintro nodes o - ⟨run, k⟩
    exact ⟨run, k⟩
  case start =>
    rintro n D o keyed ⟨⟨aware, stock⟩, k⟩
    refine ⟨⟨aware, fun e he => ?_⟩, k⟩
    obtain ⟨found, owner⟩ := (Store.mem_select_iff keyed).mp he
    have owns : x ∈ f.oldOwners e.key := List.contains_iff_mem.mp owner
    have value := stock e.key
    rw [if_pos owns, Store.value?, found] at value
    exact ⟨value ▸ rfl, owns⟩
  case step =>
    intro held rows done row rest spec some split
    have listed : row ∈ rows := split ▸ List.mem_append_right _ List.mem_cons_self
    refine (callers_keep sound census .between Going.noConfusion survives
      (issuers _) (E := fun _ => f.HeldLive x initial held) ?_).mono ?_
    · intro _ _ live i r asked gains other
      obtain ⟨e, he⟩ := List.exists_mem_of_ne_nil _ some
      obtain ⟨mem, mine, fresh⟩ := (spec.mem listed).mp he
      have hands : f.HandsOver initial x :=
        ⟨e.key, (live e mem).1, (live e mem).2, row.1, (spec.target listed).2, mine, fresh⟩
      have calm := spares i _ row.2 r rfl asked
      constructor
      · by_contra alive
        exact calm ⟨gains, other, hands, .inl (Option.isSome_iff_ne_none.mpr alive)⟩
      · by_contra stays
        exact calm ⟨gains, other, hands, .inr stays⟩
    · rintro nodes o - ⟨run, known, kept, right⟩
      exact ⟨run, known, fun acked =>
        (kept acked).handed spec (fun e he => (known.2 e he).1) listed, right⟩
  case finish => exact fun held rows n D o _ k => k.2.2
  case final =>
    refine callers_watch sound census .after .between (fun _ _ _ o => o.Right (initial key) key)
      (issuers _) (fun _ _ _ k => k) ?_ ?_ fun _ _ _ _ k => k
    · intro i done issuer w rest _ n D o right g _ outcome _ n' D' _ _
      exact Logbook.right_note.mpr ⟨right, fun _ _ => Record.noConfusion⟩
    · intro i done issuer key' rest split nodes o _ right r _
      refine Logbook.right_note.mpr ⟨right, ?_⟩
      rintro _ _ ⟨⟩
      have listed := split ▸ List.mem_append_right done List.mem_cons_self
      exact absurd rfl ((asks i _ _ listed).2 issuer rfl)
  case drop => exact fun D o k => k
  · rintro w' r ⟨rfl, errands, nodes, -, -, right⟩
    exact ⟨rfl, right⟩

end

/-! ## The read that misses a key -/

/-- If there is no value of the key yet, it is put through `r` when the union is announced;
and it is read through `r` whenever something is handed over. -/
def hasty (key : String) (absent : Bool) (r : Address) : Nat → Sending → List Call :=
  fun _ sending =>
    match sending.command with
    | .installMapping (.moving _ _) => if absent then [.write r (.put key [])] else []
    | .pushState _ => [.read r key]
    | _ => []

theorem mem_hasty {key : String} {absent : Bool} {r : Address} {i : Nat} {sending : Sending}
    {call : Call} (h : call ∈ hasty key absent r i sending) :
    call = .write r (.put key []) ∨
      call = .read r key ∧ ∃ entries, sending.command = .pushState entries := by
  unfold hasty at h
  split at h
  · split at h
    · exact .inl (List.mem_singleton.mp h)
    · cases h
  · next entries hands => exact .inr ⟨List.mem_singleton.mp h, entries, hands⟩
  · cases h

theorem issuer_of_mem_hasty {key : String} {absent : Bool} {r : Address} {i : Nat}
    {sending : Sending} {issuer : Address}
    (h : .read issuer key ∈ hasty key absent r i sending) : issuer = r := by
  rcases mem_hasty h with same | ⟨same, -⟩
  · cases same
  · exact (Call.read.inj same).1

theorem asks_hasty {f : Farewell} (key : String) (absent : Bool) {r : Address}
    (mem : r ∈ f.members) : f.Asks key (hasty key absent r) := by
  intro i sending call listed
  rcases mem_hasty listed with rfl | ⟨rfl, entries, hands⟩
  · exact ⟨mem, fun _ => Call.noConfusion⟩
  · exact ⟨mem, fun _ _ final => Command.noConfusion (hands.symm.trans final)⟩

structure Missing (initial : Option (List UInt8)) (key : String) (r : Address)
    (D : Address → Store) (o : Logbook) : Prop where
  lacks : (D r).value? key = none
  acknowledged : o.Acknowledged
  live : valueAfter o.writes key initial ≠ none

section

variable {f : Farewell} (sound : f.Sound) {who : Census} (census : who.members = f.members)
  {x r : Address} {initial : String → Option (List UInt8)} {key moved : String}
include sound census

theorem callers_miss (initial : Option (List UInt8)) (absent : Bool) (gains : f.Gains key r)
    (other : r ≠ x) (dead : absent = true → f.leaver ∉ f.oldOwners key)
    (alive : absent = false → initial ≠ none) {sending : Sending}
    (announces : sending.command = .installMapping (.moving f.old f.new)) (E : Store → Prop) :
    (callers (hasty key absent r)).Leads who sending
      (f.Watches x true (f.mapping .between) (f.mapping .before) fun n D o =>
        E n.store ∧ (D r).value? key = none ∧ o.records = [])
      (f.Watches x true (f.mapping .between) (f.mapping .before) fun n D o =>
        E n.store ∧ Missing initial key r D o) := by
  have mem : r ∈ f.members := mem_of_newOwner sound gains.1
  have script (i : Nat) : hasty key absent r i sending =
      if absent then [.write r (.put key [])] else [] := by
    rw [hasty, announces]
  refine callers_watch sound census .between .before (fun done n D o => E n.store ∧
    (D r).value? key = none ∧ o.Acknowledged ∧
    valueAfter o.writes key initial = if done = [] then initial else some []) ?issuers ?count
    ?write ?read ?last
  case issuers =>
    intro i call hc
    rw [script] at hc
    split at hc
    · rw [List.mem_singleton.mp hc]
      exact mem
    · cases hc
  case count =>
    rintro n D o ⟨extra, lacks, empty⟩
    refine ⟨extra, lacks, fun issuer w outcome recorded => ?_, ?_⟩
    · rw [show o.count.records = [] from empty] at recorded
      cases recorded
    · rw [Logbook.writes_count, Logbook.writes, empty]
      rfl
  case write =>
    rintro i done issuer w rest split n D o ⟨extra, lacks, before, -⟩ g going outcome told
      n' D' same written
    obtain ⟨log, rfl⟩ := same rfl
    cases absent with
    | false =>
      rw [script] at split
      exact absurd split (by simp)
    | true =>
      have listed : Call.write issuer w ∈ done ++ .write issuer w :: rest :=
        List.mem_append_right _ List.mem_cons_self
      rw [split, script, if_pos rfl, List.mem_singleton] at listed
      cases listed
      rw [if_neg other] at going
      subst going
      refine ⟨extra, ?_, Logbook.acknowledged_note.mpr ⟨before, ?_⟩, ?_⟩
      · rw [written r mem, share_single_of_not_mem (.put key []) fun listed =>
          gains.2 ((mem_recipients_before sound).mp listed)]
        exact lacks
      · rintro _ _ _ ⟨⟩
        refine told.mpr fun a ha => ?_
        have old := (mem_recipients_before sound).mp ha
        exact mem_of_oldOwner sound old fun left => dead rfl (left ▸ old)
      · rw [if_neg (by simp), Logbook.writes_note, valueAfter_append]
        exact if_pos rfl
  case read =>
    intro i done issuer key' rest split
    have listed := split ▸ List.mem_append_right done List.mem_cons_self
    rw [script] at listed
    cases absent <;> simp at listed
  case last =>
    rintro i n D o ⟨extra, lacks, acked, value⟩
    refine ⟨extra, lacks, acked, ?_⟩
    rw [value, script]
    cases absent with
    | false => simpa using alive rfl
    | true => simp

theorem callers_err (initial : Option (List UInt8)) (absent : Bool) (gains : f.Gains key r)
    (other : r ≠ x) {sending : Sending}
    {entries : List Entry} (hands : sending.command = .pushState entries) {E : Prop}
    {K : Node → (Address → Store) → Logbook → Prop}
    (start : ∀ n D o, K n D o →
      E ∧ (Missing initial key r D o ∨ ¬ o.Right initial key)) :
    (callers (hasty key absent r)).Leads who sending
      (f.Watches x true (f.mapping .between) (f.mapping .between) K)
      (f.Watches x true (f.mapping .between) (f.mapping .between) fun _ _ o =>
        E ∧ ¬ o.Right initial key) := by
  have mem : r ∈ f.members := mem_of_newOwner sound gains.1
  have script (i : Nat) : hasty key absent r i sending = [.read r key] := by
    rw [hasty, hands]
  refine callers_watch sound census .between .between (fun done _ D o =>
    E ∧ (done = [] ∧ Missing initial key r D o ∨ ¬ o.Right initial key)) ?issuers ?count ?write
    ?read ?last
  case issuers =>
    intro i call hc
    rw [script, List.mem_singleton] at hc
    exact hc ▸ mem
  case count =>
    intro n D o k
    exact (start n D o k).imp_right fun h => h.imp_left fun missing => ⟨rfl,
      missing.lacks, missing.acknowledged, missing.live⟩
  case write =>
    intro i done issuer w rest split
    have listed := split ▸ List.mem_append_right done List.mem_cons_self
    rw [script, List.mem_singleton] at listed
    cases listed
  case read =>
    rintro i done issuer key' rest split nodes o run ⟨extra, before⟩ result seen
    have listed := split ▸ List.mem_append_right done List.mem_cons_self
    rw [script, List.mem_singleton] at listed
    cases listed
    refine ⟨extra, .inr fun right => ?_⟩
    obtain ⟨before', told⟩ := Logbook.right_note.mp right
    rcases before with ⟨-, missing⟩ | wrong
    · have stands := (run.others r mem other).1
      have answers : Answers f.members nodes r key r := by
        refine ⟨?_, mem, Node.isUncertain_of_closed stands.disabled⟩
        rw [run.serving_eq mem, if_neg other]
        exact (mem_recipients_between sound).mpr ⟨.inr gains.1, mem⟩
      have expected := told _ _ rfl missing.acknowledged
      rw [seen.own answers, run.localValue mem, missing.lacks] at expected
      exact missing.live (Except.ok.inj expected).symm
    · exact wrong before'
  case last =>
    rintro i n D o ⟨extra, ⟨none, -⟩ | wrong⟩
    · rw [script] at none
      cases none
    · exact ⟨extra, wrong⟩

theorem read_wrong {w : World Logbook} {now : Nat} {rehash : Serial} (mem : x ∈ f.members)
    (counted : f.settings.deadline.CountedFrom now)
    (early : f.AnswersEarly initial x key r)
    (h : w.Holds who fun nodes o => f.Rest (.settled f.old) nodes ∧
      f.Stocked initial (replayed nodes) ∧ o.records = []) :
    (Rehash.run (callers (hasty key (initial key).isNone r)) rehash (who.serial x)
      (.leave f.leaver f.old)).Ends now w fun w' _ => ¬ w'.outside.Right (initial key) key := by
  obtain ⟨gains, other, ⟨moved, live, owns, b, apart, mine, fresh⟩, cause⟩ := early
  let holds (s : Store) : Prop := (s.value? moved).isSome
  let has (held : List Entry) : Prop := ∃ e ∈ held, e.key = moved
  refine (watched_part_ends sound (silent_callers _) census mem counted (f.mapping .before)
    (fun D o => f.Stocked initial D ∧ o.records = [])
    (fun n D o => holds n.store ∧ (D r).value? key = none ∧ o.records = [])
    (fun n D o => holds n.store ∧ Missing (initial key) key r D o)
    (fun held done _ D o => has held ∧ (done = [] ∧ Missing (initial key) key r D o ∨
      ¬ o.Right (initial key) key))
    (fun _ o => ¬ o.Right (initial key) key) (fun _ o => ¬ o.Right (initial key) key)
    (fun _ o => ¬ o.Right (initial key) key) h ?opened ?union ?start ?step ?finish ?final
    ?drop).mono ?_
  case opened =>
    rintro n D o address store ⟨stocked, empty⟩
    refine ⟨?_, stocked.value?_gainer (mem_of_newOwner sound gains.1) gains, empty⟩
    show (n.store.value? moved).isSome
    rw [← store, stocked moved x mem, if_pos owns]
    exact live
  case union =>
    refine (callers_miss sound census (initial key) _ gains other ?_ ?_ rfl holds).mono ?_
    · intro absent
      rw [Option.isNone_iff_eq_none] at absent
      exact cause.resolve_left (by simp [absent])
    · intro present
      exact Option.isSome_iff_ne_none.mp (by simpa using present)
    · rintro nodes o - ⟨run, k⟩
      exact ⟨run, k⟩
  case start =>
    rintro n D o keyed ⟨holds, missing⟩
    refine ⟨?_, .inl ⟨rfl, missing⟩⟩
    obtain ⟨e, found⟩ := Option.isSome_iff_exists.mp ((Option.isSome_map ..).symm.trans holds)
    have own := keyed moved e found
    subst own
    exact ⟨e, (Store.mem_select_iff keyed).mpr ⟨found, List.contains_iff_mem.mpr owns⟩, rfl⟩
  case step =>
    intro held rows done row rest spec some split
    refine (callers_err sound census (initial key) _ gains other rfl (E := has held) ?_).mono ?_
    · exact fun n D o k => k.imp_right fun h => h.imp_left And.right
    · rintro nodes o - ⟨run, has, wrong⟩
      exact ⟨run, has, .inr wrong⟩
  case finish =>
    rintro held rows n D o spec ⟨⟨e, he, rfl⟩, ⟨rfl, -⟩ | wrong⟩
    · obtain ⟨es, listed⟩ := spec.complete he apart mine fresh
      cases listed
    · exact wrong
  case final =>
    refine callers_watch sound census .after .between
      (fun _ _ _ o => ¬ o.Right (initial key) key) ?_ (fun _ _ _ k => k) ?_ ?_
      fun _ _ _ _ k => k
    · exact fun i call hc => absurd hc List.not_mem_nil
    · exact fun i done issuer w rest split => absurd split (by simp [hasty])
    · exact fun i done issuer key' rest split => absurd split (by simp [hasty])
  case drop => exact fun D o k => k
  · rintro w' r' ⟨-, errands, nodes, -, -, wrong⟩
    exact wrong

end

end Farewell

/-- A member has left, and a survivor `x` does its part, while clients put, remove and get
keys through the survivors.  Until `x` has handed over what it has, a read of a key that one
of its owners stays with returns what was last acknowledged, if it is not made while
entries are handed over through a member that answers early; and for members that do, this
cannot be said. -/
theorem reads_during_leave_iff {f : Farewell} (sound : f.Sound) {c : Cluster} {who : Census}
    {nodes : Address → Node} {initial : String → Option (List UInt8)} {x : Address}
    (hosts : c.Hosts who nodes) (census : who.members = f.members)
    (rest : f.Rest (.settled f.old) nodes)
    (stocked : f.Stocked initial fun a => (nodes a).store) (mem : x ∈ f.members)
    (rehash : Serial) (now : Nat) (counted : f.settings.deadline.CountedFrom now)
    {key : String} (survives : f.Survives key) :
    (∀ r ∈ f.members, (∀ script, f.Asks key script →
        (∀ i sending issuer, .read issuer key ∈ script i sending → issuer = r) →
        f.LeavesReading c rehash (who.serial x) now key (initial key) script) ↔
      ¬ f.AnswersEarly initial x key r) ∧
    ∀ script, f.Asks key script → f.Spares initial x key script →
      f.LeavesReading c rehash (who.serial x) now key (initial key) script := by
  have start : World.Holds who (fun nodes (o : Logbook) => f.Rest (.settled f.old) nodes ∧
      f.Stocked initial (replayed nodes) ∧ o.records = []) { cluster := c, outside := {} } :=
    ⟨nodes, hosts, rest, stocked.replayed rest, rfl⟩
  have good (script : Nat → Sending → List Call) (asks : f.Asks key script)
      (spares : f.Spares initial x key script) :
      f.LeavesReading c rehash (who.serial x) now key (initial key) script := by
    obtain ⟨w', r, run, rfl, right⟩ :=
      Farewell.reads_right sound census mem counted survives asks spares start
    exact ⟨w', run, right⟩
  refine ⟨fun r stays => ⟨fun all early => ?_, fun calm script asks only => ?_⟩, good⟩
  · obtain ⟨w', r', run, wrong⟩ := Farewell.read_wrong sound census mem counted early start
    obtain ⟨w'', run', right⟩ := all _ (Farewell.asks_hasty key (initial key).isNone stays)
      fun i sending issuer listed => Farewell.issuer_of_mem_hasty listed
    rw [run] at run'
    cases run'
    exact wrong right
  · refine good script asks fun i sending entries issuer _ listed => ?_
    exact only i sending issuer listed ▸ calm

theorem reads_during_leave_iff_of_three :
    ∃ old new self, Ring.ofMembers Strategy.sip24 ["A", "C", "D"] = .ok old ∧
      Ring.ofMembers Strategy.sip24 ["A", "C"] = .ok new ∧
      let f : Farewell := ⟨["A", "C"], "D", {}, .sip24, old, new⟩
      let c := ((Cluster.founded {} ["A", "C", "D"]).stocked "C" ⟨"k0", [1], 1⟩).unregister "D"
      let initial := fun key => if key = "k0" then some [1] else none
      c.nodes.serial? "C" = some self ∧
      (∀ r ∈ f.members, (∀ script, f.Asks "k0" script →
          (∀ i sending issuer, .read issuer "k0" ∈ script i sending → issuer = r) →
          f.LeavesReading c 0 self 0 "k0" (initial "k0") script) ↔
        ¬ f.AnswersEarly initial "C" "k0" r) ∧
      (∀ script, f.Asks "k0" script → f.Spares initial "C" "k0" script →
        f.LeavesReading c 0 self 0 "k0" (initial "k0") script) ∧
      f.AnswersEarly initial "C" "k0" "A" := by
  obtain ⟨old, new, serial, nodes, before, after, sound, hosts, opening, oldOwners, newOwners⟩ :=
    Farewell.exists_of_three
  let f : Farewell := ⟨["A", "C"], "D", {}, .sip24, old, new⟩
  have member : "C" ∈ f.members := show "C" ∈ ["A", "C"] by decide
  have stocked : f.Stocked (fun key => if key = "k0" then some [1] else none)
      fun a => (nodes a).store := by
    intro key a ha
    rw [Store.value?, opening.held key a ha]
    split
    · by_cases same : key = "k0" <;> simp [same]
    · rfl
  have owns : "C" ∈ f.oldOwners "k0" := by
    rw [show f.oldOwners "k0" = _ from oldOwners]
    decide
  have gains : f.Gains "k0" "A" := by
    refine ⟨newOwners, ?_⟩
    rw [show f.oldOwners "k0" = _ from oldOwners]
    decide
  have gone := hosts.unregister "D"
  obtain ⟨exact_, spared⟩ := reads_during_leave_iff sound gone rfl opening.rest stocked member 0 0
    (show Duration.CountedFrom 0 (Settings.deadline {}) by decide) ⟨"C", member, owns⟩
  refine ⟨old, new, serial "C", before, after, ?_, exact_, spared, gains, by decide, ?_, .inl rfl⟩
  · exact gone.named (show "C" ∈ ["A", "C"] by decide)
  · exact ⟨"k0", rfl, owns, "A", by decide, gains⟩

/-- `A` comes to own `k0` and is read while `C` hands it over. -/
def gainerAnswers : List Scenario.Step :=
  let members := ["A", "C", "D"]
  [.node "A" members {} true, .node "C" members {} true, .node "D" members {} true,
    .put "A" "k0" [1], .unregister "D", .leave "C" "D" "of C",
    .hook (some "C") (some "A") .pushState 1 [.get "A" "k0", .get "C" "k0"], .run "of C"]

theorem read_misses_during_leave :
    (Scenario.run gainerAnswers).flatMap (fun answer => answer.events.filterMap fun event =>
      match event.2 with
      | .hooked (.get _ _) (.value value) => some value
      | _ => none) = [none, some [1]] := by
  decide +kernel

end SlotRing
