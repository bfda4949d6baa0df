/-
# Newcomers, one after another

Several newcomers join a cluster, each of them from beginning to end and with nothing
beside it.  The members go over to the new ring and keep what they hold, and the newcomer
has, of each key that it comes to own, the newest of the copies of those owners that it
asks (`Influx.Pulled`).  Nothing is said of how the rings grow: members may move for a
newcomer, and then one that has never held a key may come to own it.
-/
import SlotRing.Proofs.Rehash.Farewell
import SlotRing.Proofs.Rehash.LosslessJoin
import SlotRing.Proofs.Store.Versions

namespace SlotRing

/-- A cluster that newcomers come to: who is there, and the ring when some have come. -/
structure Influx where
  members : List Address
  settings : Settings
  strategy : Strategy
  ring : List Address → MemberRing

namespace Influx

variable (f : Influx)

def owners (came : List Address) (key : String) : List Address :=
  (f.ring came).locate key f.settings.owners

/-- The owners of a key that the next newcomer asks for it. -/
def asked (came : List Address) (x : Address) (key : String) : List Address :=
  ((f.ring (came ++ [x])).providers x f.settings.owners).filter (f.owners came key).contains

/-- What holds of the rings, whichever newcomers have come. -/
structure Sound (newcomers : List Address) : Prop where
  enabled : f.settings.rehashEnabled = true
  inhabited : f.members ≠ []
  apart : (f.members ++ newcomers).Nodup
  made : ∀ came, came.Nodup → (∀ x ∈ came, x ∈ newcomers) →
    Ring.ofMembers f.strategy (f.members ++ came) = .ok (f.ring came)

structure Waiting (n : Node) : Prop where
  log : n.log = .closed
  store : n.store = .empty
  settings : n.settings = f.settings
  strategy : n.strategy = f.strategy
  idle : n.rehashing = false

/-- Some newcomers have come, and the members hold these stores; nothing goes on. -/
structure At (newcomers came : List Address) (D : Address → Store) (nodes : Address → Node) :
    Prop where
  follows : ∀ a ∈ f.members ++ came, (nodes a).Follows f.settings (.settled (f.ring came))
  stores : ∀ a ∈ f.members ++ came, (nodes a).store = D a
  waiting : ∀ x ∈ newcomers, x ∉ came → f.Waiting (nodes x)

/-- What a newcomer has when it has joined. -/
structure Pulled (came : List Address) (x : Address) (D : Address → Store) (s : Store) :
    Prop where
  foreign : ∀ key, x ∉ f.owners (came ++ [x]) key → s.get? key = none
  newest : ∀ key, x ∈ f.owners (came ++ [x]) key →
    (s.get? key = none ∧ ∀ p ∈ f.asked came x key, (D p).get? key = none) ∨
    ∃ p ∈ f.asked came x key, ∃ e, (D p).get? key = some e ∧ s.get? key = some e ∧
      ∀ q ∈ f.asked came x key, ∀ d, (D q).get? key = some d → d.version ≤ e.version

/-! ## One newcomer -/

section

variable {f : Influx} {newcomers came : List Address} {x : Address} {D : Address → Store}

theorem Sound.mem_of_owner (sound : f.Sound newcomers) (distinct : came.Nodup)
    (listed : ∀ y ∈ came, y ∈ newcomers) {key : String} {a : Address}
    (h : a ∈ f.owners came key) : a ∈ f.members ++ came := by
  have made := sound.made came distinct listed
  exact (Ring.mem_members_ofMembers made).mp
    ((Ring.sound_ofMembers made).mem_members_of_mem_locate h)

theorem Sound.mem_of_first_owner (sound : f.Sound newcomers) {key : String} {a : Address}
    (h : a ∈ f.owners [] key) : a ∈ f.members := by
  have := sound.mem_of_owner List.nodup_nil (fun y hy => absurd hy List.not_mem_nil) h
  rwa [List.append_nil] at this

/-- Preconditions of a join: the newcomer is one of those that are still to come. -/
structure Next (newcomers came : List Address) (x : Address) : Prop where
  distinct : came.Nodup
  listed : ∀ y ∈ came, y ∈ newcomers
  newcomer : x ∈ newcomers
  fresh : x ∉ came

theorem Next.enters (sound : f.Sound newcomers) (next : Next newcomers came x) :
    Ring.Enters f.strategy (f.members ++ came) x (f.ring came) (f.ring (came ++ [x])) where
  before := sound.made came next.distinct next.listed
  after := by
    rw [List.append_assoc]
    refine sound.made _ ?_ ?_
    · rw [List.nodup_append_comm]
      exact List.nodup_cons.mpr ⟨next.fresh, next.distinct⟩
    · intro y hy
      rcases List.mem_append.mp hy with hy | hy
      · exact next.listed y hy
      · exact List.mem_singleton.mp hy ▸ next.newcomer
  absent := by
    intro listed
    rcases List.mem_append.mp listed with member | past
    · exact List.disjoint_of_nodup_append sound.apart member next.newcomer
    · exact next.fresh past

/-- What has been pulled from the providers is what a newcomer has in the end. -/
theorem pulled_of_chunks {chunks : List (Address × List Entry)}
    (keyed : ∀ p ∈ (f.ring (came ++ [x])).providers x f.settings.owners, (D p).Keyed)
    (all : chunks.map Prod.fst = (f.ring (came ++ [x])).providers x f.settings.owners)
    (right : ∀ chunk ∈ chunks, ∀ e, e ∈ chunk.2 ↔ (D chunk.1).get? e.key = some e ∧
      x ∈ f.owners (came ++ [x]) e.key ∧ chunk.1 ∈ f.owners came e.key) :
    f.Pulled came x D (Store.empty.merge
      (Rehash.pulled (f.ring (came ++ [x])) x f.settings.owners chunks)).1 := by
  have offered {e : Entry} : e ∈ Rehash.pulled (f.ring (came ++ [x])) x f.settings.owners chunks ↔
      x ∈ f.owners (came ++ [x]) e.key ∧ ∃ p ∈ f.asked came x e.key, (D p).get? e.key = some e := by
    rw [Rehash.mem_pulled_iff all right]
    refine and_congr_right fun _ => exists_congr fun p => ?_
    rw [asked, List.mem_filter, List.contains_iff_mem, and_assoc]
    rfl
  have own {key : String} {p : Address} (hp : p ∈ f.asked came x key) {e : Entry}
      (found : (D p).get? key = some e) : e.key = key :=
    keyed p (List.mem_filter.mp hp).1 key e found
  constructor
  · intro key foreign
    rcases Store.get?_merge_empty _ key with ⟨none, -⟩ | ⟨e, he, rfl, -⟩
    · exact none
    · exact absurd (offered.mp he).1 foreign
  · intro key mine
    rcases Store.get?_merge_empty _ key with ⟨none, nothing⟩ | ⟨e, he, rfl, found, newest⟩
    · refine .inl ⟨none, fun p hp => ?_⟩
      by_contra live
      obtain ⟨e, found⟩ := Option.ne_none_iff_exists'.mp live
      obtain rfl := own hp found
      exact nothing e (offered.mpr ⟨mine, p, hp, found⟩) rfl
    · obtain ⟨-, p, hp, held⟩ := offered.mp he
      refine .inr ⟨p, hp, e, held, found, fun q hq d held' => ?_⟩
      have same := own hq held'
      refine newest d (offered.mpr ⟨same ▸ mine, q, ?_, ?_⟩) same
      · exact same ▸ hq
      · exact same ▸ held'

/-- While `x` joins: the members go by one mapping and hold what they held, and the
newcomer is as `own` says. -/
structure Under (newcomers came : List Address) (x : Address) (D : Address → Store)
    (mapping : MemberMapping) (own : Node → Prop) (nodes : Address → Node) : Prop where
  follows : ∀ a ∈ f.members ++ came, (nodes a).Follows f.settings mapping
  stores : ∀ a ∈ f.members ++ came, (nodes a).store = D a
  others : ∀ y ∈ newcomers, y ∉ came → y ≠ x → f.Waiting (nodes y)
  newcomer : own (nodes x)

section

variable {mapping : MemberMapping} {own own' : Node → Prop} {nodes : Address → Node}

theorem At.handed (h : f.At newcomers came D nodes) (apart : (f.members ++ newcomers).Nodup)
    {a : Address} (mem : a ∈ f.members) (tx : Transaction) (ws : List Write) :
    f.At newcomers came (Function.update D a ((D a).writeAll ws))
      (Function.update nodes a ((nodes a).acceptWrite (tx.withWrites ws))) := by
  have follows := h.follows a (List.mem_append_left _ mem)
  have taken : (nodes a).acceptWrite (tx.withWrites ws) =
      { nodes a with store := (nodes a).store.writeAll ws } := by
    rw [Node.acceptWrite, (WriteLog.append?_eq_none_iff _ _).mpr follows.closed]
    rfl
  rw [taken]
  refine ⟨fun b hb => ?_, fun b hb => ?_, fun y hy late => ?_⟩
  · by_cases same : b = a
    · subst same
      rw [Function.update_self]
      exact ⟨follows.mapping, follows.settings, follows.closed, follows.keyed.writeAll _⟩
    · rw [Function.update_of_ne same]
      exact h.follows b hb
  · by_cases same : b = a
    · subst same
      rw [Function.update_self, Function.update_self, h.stores b hb]
    · rw [Function.update_of_ne same, Function.update_of_ne same]
      exact h.stores b hb
  · rw [Function.update_of_ne fun same : y = a =>
      List.disjoint_of_nodup_append apart mem (same ▸ hy)]
    exact h.waiting y hy late

theorem At.under (h : f.At newcomers came D nodes) (next : Next newcomers came x) :
    f.Under newcomers came x D (.settled (f.ring came)) f.Waiting nodes :=
  ⟨h.follows, h.stores, fun y hy late _ => h.waiting y hy late,
    h.waiting x next.newcomer next.fresh⟩

theorem Under.update (h : f.Under newcomers came x D mapping own nodes)
    (absent : x ∉ f.members ++ came) {n : Node} (hn : own' n) :
    f.Under newcomers came x D mapping own' (Function.update nodes x n) where
  follows a ha := by
    rw [Function.update_of_ne fun same : a = x => absent (same ▸ ha)]
    exact h.follows a ha
  stores a ha := by
    rw [Function.update_of_ne fun same : a = x => absent (same ▸ ha)]
    exact h.stores a ha
  others y hy late other := by
    rw [Function.update_of_ne other]
    exact h.others y hy late other
  newcomer := by
    rw [Function.update_self]
    exact hn

theorem Under.announce (h : f.Under newcomers came x D mapping own nodes)
    (absent : x ∉ f.members ++ came) (next : MemberMapping) :
    f.Under newcomers came x D next own
      (fun a => if a = x then nodes a else (nodes a).install next) where
  follows a ha := by
    rw [if_neg fun same : a = x => absent (same ▸ ha)]
    exact (h.follows a ha).install next
  stores a ha := by
    rw [if_neg fun same : a = x => absent (same ▸ ha)]
    exact h.stores a ha
  others y hy late other := by
    rw [if_neg other]
    obtain ⟨log, store, settings, strategy, idle⟩ := h.others y hy late other
    exact ⟨log, store, settings, strategy, idle⟩
  newcomer := by
    rw [if_pos rfl]
    exact h.newcomer

theorem Under.at (h : f.Under newcomers came x D (.settled (f.ring (came ++ [x])))
      (fun n => n.Follows f.settings (.settled (f.ring (came ++ [x])))) nodes)
    (absent : x ∉ f.members ++ came) :
    f.At newcomers (came ++ [x]) (Function.update D x (nodes x).store) nodes where
  follows a ha := by
    rw [← List.append_assoc, List.mem_append, List.mem_singleton] at ha
    rcases ha with ha | rfl
    · exact h.follows a ha
    · exact h.newcomer
  stores a ha := by
    rw [← List.append_assoc, List.mem_append, List.mem_singleton] at ha
    rcases ha with ha | rfl
    · rw [Function.update_of_ne fun same : a = x => absent (same ▸ ha)]
      exact h.stores a ha
    · rw [Function.update_self]
  waiting y hy late := by
    rw [List.mem_append, List.mem_singleton, not_or] at late
    exact h.others y hy late.1 late.2

end

def HandsOver (came : List Address) (x : Address) (D : Address → Store)
    (chunk : Address × List Entry) : Prop :=
  ∀ e, e ∈ chunk.2 ↔ (D chunk.1).get? e.key = some e ∧
    x ∈ f.owners (came ++ [x]) e.key ∧ chunk.1 ∈ f.owners came e.key

def joining (f : Influx) (ε : Type) (came : List Address) (x : Address) : Scene ε where
  members := f.members ++ came
  newcomer := x
  settings := f.settings
  strategy := f.strategy
  old := f.ring came
  new := f.ring (came ++ [x])
  initial := fun _ => none
  wrote := fun _ => []
  kept := fun _ _ => True

/-- The newcomer has opened its log, and nothing has come. -/
structure Opened (f : Influx) (ε : Type) (came : List Address) (x : Address) (n : Node) :
    Prop where
  blank : (f.joining ε came x).Blank n
  pending : n.log.pending = []

/-- The newcomer has gone over to the new ring, with what it has pulled. -/
structure Settled (f : Influx) (came : List Address) (x : Address) (D : Address → Store)
    (n : Node) : Prop where
  follows : n.Follows f.settings (.settled (f.ring (came ++ [x])))
  pulled : f.Pulled came x D n.store

theorem Next.exists_listed {ε : Type} {who : Census}
    (census : who.members = f.members ++ newcomers) (sound : f.Sound newcomers)
    (next : Next newcomers came x) :
    ∃ coordinator, (f.joining ε came x).Listed who coordinator := by
  obtain ⟨coordinator, head⟩ : ∃ c, f.members.head? = some c :=
    Option.isSome_iff_exists.mp (List.isSome_head?.mpr sound.inhabited)
  refine ⟨coordinator, fun a ha => ?_, ?_, ?_,
    List.mem_append_left _ (List.mem_of_mem_head? head)⟩
  · rw [census]
    rcases List.mem_append.mp ha with member | past
    · exact List.mem_append_left _ member
    · exact List.mem_append_right _ (next.listed a past)
  · exact census ▸ List.mem_append_right _ next.newcomer
  · rw [census, List.head?_append, head]
    rfl

section

variable {ε : Type} {mapping : MemberMapping} {nodes : Address → Node}

theorem Under.opened (h : f.Under newcomers came x D mapping (f.joining ε came x).Ready nodes)
    (absent : x ∉ f.members ++ came) :
    f.Under newcomers came x D mapping (f.Opened ε came x) (Function.update nodes x
      ((Rehash.logging (f.ring came) (nodes x)).install
        (.moving (f.ring came) (f.ring (came ++ [x]))))) := by
  obtain ⟨log, store, settings, strategy⟩ := h.newcomer
  refine h.update absent ⟨⟨?_, store, settings, strategy⟩, ?_⟩
  · exact fun closed => by cases closed
  · show (nodes x).log.pending = []
    rw [log]
    rfl

theorem Under.handsOver {own : Node → Prop} (sound : f.Sound newcomers)
    (next : Next newcomers came x)
    (h : f.Under newcomers came x D (.moving (f.ring came) (f.ring (came ++ [x]))) own nodes)
    {source : Address} (address : (nodes source).address = source)
    (asked : source ∈ (f.ring (came ++ [x])).providers x f.settings.owners) :
    f.HandsOver came x D (source, (nodes source).stateFor x (f.ring (came ++ [x]))) := by
  have mem := (next.enters sound).mem_of_provider asked
  intro e
  rw [(h.follows source mem).mem_stateFor_iff, h.stores source mem, address]
  rfl

/-- The newcomer merges what it has pulled, and goes over to the new ring. -/
theorem Under.settled (sound : f.Sound newcomers) (next : Next newcomers came x)
    (h : f.Under newcomers came x D mapping (f.Opened ε came x) nodes)
    {chunks : List (Address × List Entry)} (right : ∀ chunk ∈ chunks, f.HandsOver came x D chunk)
    (all : chunks.map Prod.fst = (f.ring (came ++ [x])).providers x f.settings.owners) :
    f.Under newcomers came x D mapping (f.Settled came x D) (Function.update nodes x
      ((Rehash.merging (f.ring (came ++ [x])) x f.settings.owners chunks
        (nodes x)).finishTransition.install (.settled (f.ring (came ++ [x]))))) := by
  have enters := next.enters sound
  obtain ⟨blank, pending⟩ := h.newcomer
  refine h.update enters.absent ⟨Scene.follows_finished blank chunks, ?_⟩
  have opened : (Rehash.merging (f.ring (came ++ [x])) x f.settings.owners chunks
      (nodes x)).log.state ≠ .disabled := blank.opened
  have store := Rehash.merging_store blank.store (f.ring (came ++ [x])) x f.settings.owners chunks
  rw [Rehash.finishTransition_eq opened]
  show f.Pulled came x D (Store.writeAll _ ((nodes x).log.pending.flatMap _))
  rw [pending, store]
  refine pulled_of_chunks (fun p asked => ?_) all right
  have mem := enters.mem_of_provider asked
  exact h.stores p mem ▸ (h.follows p mem).keyed

end

theorem join_ends {ε : Type} {J : ε → Prop} {who : Census} {w : World ε} {now : Nat}
    (rehash : Serial) (census : who.members = f.members ++ newcomers)
    (errands : who.errands = none) (sound : f.Sound newcomers) (next : Next newcomers came x)
    (counted : f.settings.deadline.CountedFrom now)
    (h : w.Holds who fun nodes o => f.At newcomers came D nodes ∧ J o) :
    (Rehash.run .quiet rehash (who.serial x) .join).Ends now w fun w' r =>
      r = .ok (f.ring (came ++ [x])) ∧ w'.Holds who fun nodes o =>
        J o ∧ ∃ s, f.Pulled came x D s ∧
          f.At newcomers (came ++ [x]) (Function.update D x s) nodes := by
  have enters := next.enters sound
  have absent := enters.absent
  obtain ⟨coordinator, listed⟩ := next.exists_listed (ε := ε) census sound
  let stage (mapping : MemberMapping) (own : Node → Prop) (nodes : Address → Node) (o : ε) :=
    f.Under newcomers came x D mapping own nodes ∧ J o
  let moving := Mapping.moving (f.ring came) (f.ring (came ++ [x]))
  refine ((f.joining ε came x).run_ends (S := stage (.settled (f.ring came)) f.Waiting)
    (P := stage (.settled (f.ring came)) (f.joining ε came x).Ready)
    (F := stage (.settled (f.ring came)) (f.joining ε came x).Ready)
    (A := stage (.settled (f.ring came)) (f.Opened ε came x))
    (I := fun chunks nodes o => stage moving (f.Opened ε came x) nodes o ∧
      ∀ chunk ∈ chunks, f.HandsOver came x D chunk)
    (D := stage moving (f.Settled came x D))
    (B := stage (.settled (f.ring (came ++ [x]))) (f.Settled came x D))
    (Q := stage (.settled (f.ring (came ++ [x]))) (f.Settled came x D))
    (T := stage (.settled (f.ring (came ++ [x]))) (f.Settled came x D))
    Surroundings.silent_quiet enters listed
    sound.enabled counted (h.mono fun nodes o k => ⟨k.1.under next, k.2⟩)
    ?ready ?fetch ?opened ?union ?pulled ?finished ?final ?report ?last).mono ?_
  case ready =>
    rintro nodes o ⟨under, j⟩
    obtain ⟨log, store, settings, strategy, idle⟩ := under.newcomer
    exact ⟨idle, settings, strategy, under.update absent ⟨log, store, settings, strategy⟩, j⟩
  case fetch =>
    refine Surroundings.leads_quiet fun nodes o k => ⟨?_, k⟩
    exact (k.1.follows coordinator listed.member).mapping
  case opened =>
    rintro nodes o ⟨under, j⟩
    refine ⟨?_, under.opened absent, j⟩
    show (nodes x).log.state = .disabled
    rw [under.newcomer.log]
    rfl
  case union =>
    exact Surroundings.leads_quiet fun nodes o k =>
      ⟨⟨k.1.announce absent moving, k.2⟩, fun chunk hc => absurd hc List.not_mem_nil⟩
  case pulled =>
    intro source asked chunks
    refine (Surroundings.leads_quiet fun nodes o k => k).mono fun nodes o address k => ?_
    refine ⟨k.1, fun chunk hc => ?_⟩
    rw [List.mem_append, List.mem_singleton] at hc
    rcases hc with hc | rfl
    · exact k.2 chunk hc
    · have mem := enters.mem_of_provider asked
      exact k.1.1.handsOver sound next (address source (listed.members source mem)) asked
  case finished =>
    rintro chunks nodes o ⟨⟨under, j⟩, right⟩ all
    exact ⟨under.settled sound next right all, j⟩
  case final => exact Surroundings.leads_quiet fun nodes o k => ⟨k.1.announce absent _, k.2⟩
  case report => exact Surroundings.leads_quiet fun nodes o k => k
  case last =>
    rintro nodes o ⟨under, j⟩
    obtain ⟨⟨mapping, settings, closed, keyed⟩, pulled⟩ := under.newcomer
    exact ⟨under.update absent ⟨⟨mapping, settings, closed, keyed⟩, pulled⟩, j⟩
  · intro w' r holds
    rw [Census.leaving_of_uncounted errands] at holds
    obtain ⟨nodes, hosts, rfl, under, j⟩ := holds
    obtain ⟨follows, pulled⟩ := under.newcomer
    exact ⟨rfl, nodes, hosts, j, _, pulled,
      Under.at ⟨under.follows, under.stores, under.others, follows⟩ absent⟩

end

end Influx

end SlotRing
