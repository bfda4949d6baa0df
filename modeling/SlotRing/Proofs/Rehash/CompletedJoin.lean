/-
# A join that completes has moved all state

Whatever is lost or held back, and whoever misses an announcement: while nobody
writes, the members differ from what they were at most in the mapping they go by
(`Informed`), and for what a provider hands over that makes no difference, as its
state is complete under the old ring in any case.  When all providers have answered,
the newcomer has every entry that it is to own from one of its former owners
(`get?_gathered`).
-/
import SlotRing.Proofs.Cluster.Accounts
import SlotRing.Proofs.Cluster.Registration
import SlotRing.Proofs.Rehash.Following
import SlotRing.Proofs.Rehash.Relapse
import SlotRing.Proofs.Ring.Newcomer
import SlotRing.Proofs.Store.Versions

namespace SlotRing

open Picture World

/-! ## Members that hear of mappings -/

/-- The second node is the first one, but it may go by another mapping, if that is
`known`. -/
def Node.Informed (known : MemberMapping → Prop) (n n' : Node) : Prop :=
  ∃ accepted, n' = { n with accepted } ∧ (accepted = n.accepted ∨ known accepted.mapping)

namespace Node.Informed

variable {known known' : MemberMapping → Prop} {n n' : Node}

theorem refl (n : Node) : n.Informed known n := ⟨n.accepted, rfl, .inl rfl⟩

theorem mono (h : n.Informed known n') (more : ∀ mapping, known mapping → known' mapping) :
    n.Informed known' n' := by
  obtain ⟨accepted, same, goes⟩ := h
  exact ⟨accepted, same, goes.imp_right (more _)⟩

theorem install (h : n.Informed known n') {mapping : MemberMapping} (new : known mapping) :
    n.Informed known (n'.install mapping) := by
  obtain ⟨accepted, rfl, -⟩ := h
  exact ⟨accepted.install mapping, rfl, .inr new⟩

/-- What is done to the node that does not depend on the mapping it goes by. -/
theorem map (h : n.Informed known n') {f : Node → Node}
    (blind : ∀ n accepted, f { n with accepted } = { f n with accepted })
    (keeps : (f n).accepted = n.accepted) : (f n).Informed known (f n') := by
  obtain ⟨accepted, rfl, goes⟩ := h
  exact ⟨accepted, blind n accepted, keeps ▸ goes⟩

/-- A member that goes by the old ring, or by the union, hands the same state over. -/
theorem stateFor_eq {old new : MemberRing} (h : n.Informed (· = .moving old new) n')
    (settled : n.mapping = .settled old) (requester : Address) (ring : MemberRing) :
    n'.stateFor requester ring = n.stateFor requester ring := by
  obtain ⟨accepted, rfl, goes⟩ := h
  have stable : ({ n with accepted } : Node).stableRing = n.stableRing := by
    rw [stableRing, stableRing, settled]
    rcases goes with rfl | goes
    · exact congrArg Mapping.stable settled
    · exact (congrArg Mapping.stable goes :)
  show n.store.select _ = n.store.select _
  rw [stable]
  rfl

end Node.Informed

/-- The members are those of `nodes`, but for mappings of a kind that they may have
heard of. -/
def Informed (crew : Crew) (known : MemberMapping → Prop) (nodes : Address → Node)
    (p : Picture Diary) : Prop :=
  ∀ a ∈ crew.who.members, (nodes a).Informed known (p.nodes a)

namespace Informed

variable {crew : Crew} {known known' : MemberMapping → Prop} {nodes : Address → Node}
  {p q : Picture Diary}

theorem congr (h : Informed crew known nodes p) (same : q.nodes = p.nodes) :
    Informed crew known nodes q :=
  fun a ha => (congrFun same a).symm ▸ h a ha

theorem mono (h : Informed crew known nodes p) (more : ∀ mapping, known mapping → known' mapping) :
    Informed crew known' nodes p :=
  fun a ha => (h a ha).mono more

theorem withNode (h : Informed crew known nodes p) {a : Address} {f : Node → Node}
    (blind : ∀ n accepted, f { n with accepted } = { f n with accepted })
    (keeps : (f (nodes a)).accepted = (nodes a).accepted) :
    Informed crew known (Function.update nodes a (f (nodes a))) (p.withNode a (f (p.nodes a))) := by
  intro b hb
  by_cases same : b = a
  · subst same
    rw [Function.update_self, Picture.withNode_self]
    exact (h b hb).map blind keeps
  · rw [Function.update_of_ne same, Picture.withNode_of_ne _ _ same]
    exact h b hb

theorem advance {a : Address} {n : Node} (h : Informed crew known (Function.update nodes a n) p)
    {f : Node → Node} (blind : ∀ n accepted, f { n with accepted } = { f n with accepted })
    (keeps : (f n).accepted = n.accepted) :
    Informed crew known (Function.update nodes a (f n)) (p.withNode a (f (p.nodes a))) := by
  have step := h.withNode (a := a) blind (by rw [Function.update_self]; exact keeps)
  rwa [Function.update_self, Function.update_idem] at step

theorem install (h : Informed crew known nodes p) {mapping : MemberMapping} (new : known mapping)
    (a : Address) : Informed crew known nodes (p.withNode a ((p.nodes a).install mapping)) := by
  intro b hb
  by_cases same : b = a
  · subst same
    rw [Picture.withNode_self]
    exact (h b hb).install new
  · rw [Picture.withNode_of_ne _ _ same]
    exact h b hb

variable {script : Nat → Sending → List Deed} {w : World Diary} {now : Nat}
  {plan : Rehash.Plan}
  (asks : ∀ i sending target command, .hand target command ∈ script i sending → command.Asks)
include asks

/-- Traffic that asks only has no effect. -/
theorem minds {sending : Sending} (sender : sending.sender ∈ crew.who.members)
    {E₀ N₀ : Picture Diary → Picture Diary → Prop}
    (room : Room E₀ N₀ (Preserving (Informed crew known nodes))
      (Preserving (Informed crew known nodes)))
    (sent : ∀ p, N₀ p (p.sending sending)) :
    (traffic script).Minds crew E₀ N₀ sending (Informed crew known nodes)
      (Informed crew known nodes) :=
  traffic_minds room sender (fun p holds => ⟨sent p, holds.congr rfl⟩) (fun _ _ step => step)
    fun i target command listed _ p _ holds =>
      holds.congr (Picture.handed_of_asks (asks i _ target command listed) p)

theorem announce_abides (self : plan.By crew.who) {mapping : MemberMapping} (new : known mapping)
    (h : w.Has crew (Informed crew known nodes)) :
    (Rehash.announce (traffic script) plan mapping).Abides (Steps crew Eq) (Steps crew Any) now w
      fun w' _ => w'.Has crew (Informed crew known nodes) :=
  have room : Room Eq Any (Preserving (Informed crew known nodes))
      (Preserving (Informed crew known nodes)) := (flow_preserving _).alone
  Rehash.announce_abides room self h (fun _ holds => ⟨trivial, holds.install new _⟩)
    (minds asks self.mem room fun _ => trivial) (fun _ _ step => step)
    fun target _ _ _ _ _ holds => holds.install new target

theorem settle_abides (self : plan.By crew.who) {ring : MemberRing} (new : known (.settled ring))
    (h : w.Has crew (Informed crew known nodes)) :
    (Rehash.settle (traffic script) plan ring).Abides (Steps crew Eq) (Steps crew Any) now w
      fun w' _ => w'.Has crew (Informed crew known nodes) := by
  unfold Rehash.settle
  exact (Rehash.enter_abides flow_any _ _ h).bind (drift_steps crew flow_any) fun _ _ _ h' =>
    announce_abides asks self new h'

end Informed

/-! ## What the newcomer gathers -/

namespace Rehash

/-- The newcomer's node when it has merged the chunks that it has pulled, and closed
its log. -/
def gathered (old new : MemberRing) (a : Address) (copies : Nat)
    (chunks : List (Address × List Entry)) (n : Node) : Node :=
  (merging new a copies chunks (logging old n)).finishTransition

section

variable {members : List Address} {x : Address} {settings : Settings} {strategy : Strategy}
  {old new : MemberRing} {entry : String → Option Entry} {base : Address → Node}
  {chunks : List (Address × List Entry)}

theorem gathered_store (log : (base x).log = .closed) (blank : (base x).store = .empty) :
    (gathered old new x settings.owners chunks (base x)).store =
      (Store.empty.merge (pulled new x settings.owners chunks)).1 := by
  rw [gathered, finishTransition_eq (by exact nofun)]
  show Store.writeAll (merging _ _ _ _ _).store (List.flatMap _ (base x).log.pending) = _
  rw [log, merging_store (show (logging old (base x)).store = .empty from blank)]
  rfl

theorem mem_pulled_settled (grows : Ring.Grows strategy members x old new)
    (settled : ∀ a ∈ members, (base a).Follows settings (.settled old))
    (named : ∀ a ∈ members, (base a).address = a)
    (all : chunks.map Prod.fst = new.providers x settings.owners)
    (right : ∀ chunk ∈ chunks, chunk.2 = (base chunk.1).stateFor x new) {e : Entry} :
    e ∈ pulled new x settings.owners chunks ↔ x ∈ new.locate e.key settings.owners ∧
      ∃ p ∈ new.providers x settings.owners, p ∈ old.locate e.key settings.owners ∧
        (base p).store.get? e.key = some e := by
  refine mem_pulled_iff (D := fun a => (base a).store) all fun chunk hc e => ?_
  have mem : chunk.1 ∈ members := grows.enters.mem_of_provider (all ▸ List.mem_map_of_mem hc)
  rw [right chunk hc, (settled _ mem).mem_stateFor_iff, named _ mem]
  rfl

theorem exists_provider_of_stored (inhabited : members ≠ [])
    (grows : Ring.Grows strategy members x old new)
    (settled : ∀ a ∈ members, (base a).Follows settings (.settled old))
    (copies : ∀ key, ∀ a ∈ members, (base a).store.get? key =
      if a ∈ old.locate key settings.owners then entry key else none) {key : String} {e : Entry}
    (gained : x ∈ new.locate key settings.owners) (stored : entry key = some e) :
    e.key = key ∧ ∃ p ∈ new.providers x settings.owners, p ∈ old.locate key settings.owners ∧
      (base p).store.get? key = some e := by
  have some : old.members ≠ [] := by
    obtain ⟨a, ha⟩ := List.exists_mem_of_ne_nil _ inhabited
    exact List.ne_nil_of_mem ((Ring.mem_members_ofMembers grows.before).mpr ha)
  obtain ⟨p, asked, -, owner⟩ := grows.adds.exists_provider (Ring.sound_ofMembers grows.before)
    (Ring.sound_ofMembers grows.after) some gained
  have mem := grows.enters.mem_of_provider asked
  have found : (base p).store.get? key = .some e := by
    rw [copies key p mem, if_pos owner, stored]
  exact ⟨(settled p mem).keyed key e found, p, asked, owner, found⟩

/-- When all providers have handed over what they own under the old ring, the newcomer
has what it owns under the new one, and nothing else. -/
theorem get?_gathered (inhabited : members ≠ []) (grows : Ring.Grows strategy members x old new)
    (settled : ∀ a ∈ members, (base a).Follows settings (.settled old))
    (named : ∀ a ∈ members, (base a).address = a)
    (copies : ∀ key, ∀ a ∈ members, (base a).store.get? key =
      if a ∈ old.locate key settings.owners then entry key else none)
    (log : (base x).log = .closed) (blank : (base x).store = .empty)
    (all : chunks.map Prod.fst = new.providers x settings.owners)
    (right : ∀ chunk ∈ chunks, chunk.2 = (base chunk.1).stateFor x new) (key : String) :
    (gathered old new x settings.owners chunks (base x)).store.get? key =
      if x ∈ new.locate key settings.owners then entry key else none := by
  have offered {e : Entry} := mem_pulled_settled grows settled named all right (e := e)
  rw [gathered_store log blank]
  rcases Store.get?_merge_empty (pulled new x settings.owners chunks) key with
    ⟨none, nothing⟩ | ⟨e, he, rfl, found, -⟩
  · rw [none]
    split
    · next gained =>
      by_contra live
      obtain ⟨e, stored⟩ := Option.ne_none_iff_exists'.mp (Ne.symm live)
      obtain ⟨rfl, held⟩ := exists_provider_of_stored inhabited grows settled copies gained stored
      exact nothing e (offered.mpr ⟨gained, held⟩) rfl
    · rfl
  · obtain ⟨gained, p, asked, owner, held⟩ := offered.mp he
    rw [copies e.key p (grows.enters.mem_of_provider asked), if_pos owner] at held
    rw [found, if_pos gained, held]

end

/-- All that is left of a join that has completed: chunks have come from all providers,
as these were at the beginning, and the newcomer has merged them. -/
def Gathered (crew : Crew) (x : Address) (copies : Nat) (old new : MemberRing)
    (base : Address → Node) (p : Picture Diary) : Prop :=
  ∃ chunks : List (Address × List Entry), chunks.map Prod.fst = new.providers x copies ∧
    (∀ chunk ∈ chunks, chunk.2 = (base chunk.1).stateFor x new) ∧
    Informed crew (fun _ => True)
      (Function.update base x (gathered old new x copies chunks (base x))) p

section

variable {script : Nat → Sending → List Deed} {crew : Crew} {w : World Diary} {now : Nat}
  {plan : Plan} {members : List Address} {old new : MemberRing} {base : Address → Node}
  (asks : ∀ i sending target command, .hand target command ∈ script i sending → command.Asks)
  (self : plan.By crew.who)
include asks self

theorem transfer_gathers (grows : Ring.Grows plan.strategy members plan.node old new)
    (settled : ∀ a ∈ members, (base a).mapping = .settled old)
    (h : w.Has crew (Informed crew (fun _ => False) base)) :
    (transfer (traffic script) plan old new (pullState (traffic script) plan new)).Abides
      (Steps crew Eq) (Steps crew Any) now w fun w' r => (r = .ok () → w'.Has crew
        (Gathered crew plan.node plan.settings.owners old new base)) ∧
      ∀ cause, r = .error cause → w'.Has crew fun _ => True := by
  let I := Informed crew (· = .moving old new)
    (Function.update base plan.node (logging old (base plan.node)))
  refine transfer_abides flow_any self h (A := I) (U := I) (F := fun _ => True)
    (V := fun p => ∃ chunks : List (Address × List Entry),
      chunks.map Prod.fst = new.providers plan.node plan.settings.owners ∧
      (∀ chunk ∈ chunks, chunk.2 = (base chunk.1).stateFor plan.node new) ∧
      Informed crew (· = .moving old new) (Function.update base plan.node
        (merging new plan.node plan.settings.owners chunks (logging old (base plan.node)))) p)
    (fun _ _ _ => trivial) ?_ (fun now w h => Informed.announce_abides asks self rfl h) ?_ ?_
    fun now w h => abort_any self h
  · exact fun p quiet _ =>
      ⟨trivial, (quiet.withNode (fun _ _ => rfl) rfl).mono fun _ => False.elim⟩
  · intro now w h
    have room : Room Eq Any (Preserving I) (Preserving I) := (flow_preserving I).alone
    refine (pullState_abides room self
      (T := fun source chunk => chunk = (base source).stateFor plan.node new)
      (fun source _ => Informed.minds asks self.mem room.fits.room fun _ holds => holds) h
      (fun _ _ step => step) ?_ ?_).mono fun w' r came =>
        ⟨came.1, fun cause failed => (came.2 cause failed).mono fun _ _ => trivial⟩
    · intro source asked mem now p holds
      refine ⟨fun holds => holds.congr (Picture.answered_of_asks (by exact trivial) p), ?_⟩
      have member := grows.enters.mem_of_provider asked
      have informed := holds source mem
      rw [Function.update_of_ne (fun same : source = plan.node => grows.absent (same ▸ member))]
        at informed
      exact informed.stateFor_eq (settled source member) plan.node new
    · exact fun chunks all right p holds =>
        ⟨trivial, chunks, all, right, holds.advance (fun _ _ => rfl) rfl⟩
  · rintro p ⟨chunks, all, right, holds⟩
    exact ⟨trivial, chunks, all, right,
      (holds.advance (f := Node.finishTransition) (fun _ _ => rfl) rfl).mono fun _ _ => trivial⟩

/-- A join that completes has gone over to the new ring, and the newcomer has gathered
its state. -/
theorem arrive_gathers (grows : Ring.Grows plan.strategy members plan.node old new)
    (enabled : plan.settings.rehashEnabled = true) (census : crew.who.members =
      members ++ [plan.node]) (inhabited : members ≠ [])
    (settled : ∀ a ∈ members, (base a).mapping = .settled old)
    (h : w.Has crew (Informed crew (fun _ => False) base)) :
    (arrive (traffic script) plan).Abides (Steps crew Eq) (Steps crew Any) now w fun w' r =>
      w'.Has crew fun p => ∀ ring, r = .ok ring → ring = new ∧
        Gathered crew plan.node plan.settings.owners old new base p := by
  have mine := drift_steps crew (flow_any (ε := Diary))
  let quiet := Informed crew (fun _ => False) base
  let done := Gathered crew plan.node plan.settings.owners old new base
  obtain ⟨coordinator, first⟩ : ∃ a, members.head? = some a :=
    Option.isSome_iff_exists.mp (List.isSome_head?.mpr inhabited)
  have head : crew.who.members.head? = some coordinator := by
    rw [census, List.head?_append, first]
    rfl
  refine arrive_abides flow_any old (Z := quiet)
    (D := fun ring p => ring = new ∧ done p) h ?_ (fun _ _ _ => nofun) ?_ ?_ ?_
  · intro now w h
    have room : Room Eq Any (Preserving quiet) (Preserving quiet) := (flow_preserving _).alone
    refine (fetchRing_abides room.fits head
      (Informed.minds asks self.mem room.fits.room fun _ holds => holds) h (fun _ _ step => step)
      ?_ ?_).inside room
    · intro p holds
      obtain ⟨accepted, same, goes⟩ := holds coordinator (List.mem_of_mem_head? head)
      have still : accepted = (base coordinator).accepted := goes.resolve_right id
      rw [same, still]
      exact settled coordinator (List.mem_of_mem_head? first)
    · exact fun now p _ holds => holds.congr (Picture.answered_of_asks (by exact trivial) p)
  · intro ring extended stays
    obtain rfl : new = ring := Except.ok.inj (grows.enters.extend_eq.symm.trans extended)
    rw [grows.enters.beq_eq_false, enabled] at stays
    cases stays
  · intro ring extended moves now w h
    obtain rfl : new = ring := Except.ok.inj (grows.enters.extend_eq.symm.trans extended)
    exact (transfer_gathers asks self grows settled h).mono fun w' r came =>
      ⟨fun ok => (came.1 ok).mono fun p here => ⟨rfl, here⟩,
        fun cause failed => (came.2 cause failed).mono fun _ _ => nofun⟩
  · rintro ring now w ⟨p, shows_, rfl, chunks, all, right, holds⟩
    have h : w.Has crew (Informed crew (fun _ => True) _) := ⟨p, shows_, holds⟩
    refine (Informed.settle_abides asks self trivial h).bind mine fun now₁ w₁ _ h₁ => ?_
    have room : Room Eq Any (Preserving (Informed crew (fun _ => True) _))
        (Preserving (Informed crew (fun _ => True) (Function.update base plan.node
          (gathered old ring plan.node plan.settings.owners chunks (base plan.node))))) :=
      (flow_preserving _).alone
    refine (reportArrival_abides room head (Informed.minds asks self.mem room fun _ => trivial) h₁
      (fun _ _ step => step) fun now p holds => ?_).bind mine fun now₂ w₂ _ h₂ => ?_
    · exact fun holds => holds.congr (Picture.answered_of_asks (by exact trivial) p)
    · refine leaveHints_abides flow_any h₂ fun p holds errands _ => ⟨trivial, fun ring' ok => ?_⟩
      exact ⟨(Except.ok.inj ok).symm, chunks, all, right, holds.congr rfl⟩

end

/-- A run that completes has gone over to the new ring, and apart from what the newcomer
has gathered nothing has changed in the stores of members. -/
theorem run_gathers {members : List Address} {x : Address} {serial : Address → Serial}
    {errands : Option (List Errand)} {settings : Settings} {strategy : Strategy}
    {old new : MemberRing} {c : Cluster} {nodes : Address → Node}
    {script : Nat → Sending → List Deed} {rehash : Serial} {now : Nat}
    (inhabited : members ≠ []) (staffs : c.Staffs ⟨members ++ [x], serial, errands⟩ nodes)
    (enabled : settings.rehashEnabled = true) (grows : Ring.Grows strategy members x old new)
    (settled : ∀ a ∈ members, (nodes a).mapping = .settled old)
    (set : (nodes x).settings = settings) (placed : (nodes x).strategy = strategy)
    (asks : ∀ i sending target command, .hand target command ∈ script i sending → command.Asks)
    {tick : Nat} {w' : World Diary} {ring : MemberRing}
    (completed : (run (traffic script) rehash (serial x) .join now
      { cluster := c, outside := {} }).run now = (tick, w', .ok ring)) :
    ring = new ∧ ∃ nodes', w'.cluster.Staffs ⟨members ++ [x], serial, errands⟩ nodes' ∧
      ∃ chunks : List (Address × List Entry),
        chunks.map Prod.fst = new.providers x settings.owners ∧
        (∀ chunk ∈ chunks, chunk.2 = (nodes chunk.1).stateFor x new) ∧
        (nodes' x).store = (gathered old new x settings.owners chunks (nodes x)).store ∧
        ∀ a ∈ members, (nodes' a).store = (nodes a).store := by
  let who : Census := ⟨members ++ [x], serial, errands⟩
  let crew := c.crew who nodes
  have mem : x ∈ who.members := List.mem_append_right _ (List.mem_singleton.mpr rfl)
  let base := Function.update nodes x (taken (nodes x))
  have apart {a : Address} (ha : a ∈ members) : a ≠ x := fun same => grows.absent (same ▸ ha)
  have other {a : Address} (ha : a ∈ members) : base a = nodes a :=
    Function.update_of_ne (apart ha) _ _
  have self : base x = taken (nodes x) := Function.update_self ..
  have whole : (run (traffic script) rehash (serial x) .join).Abides (Steps crew Eq)
      (Steps crew Any) now { cluster := c, outside := {} } fun w' r => w'.Has crew fun p =>
        ∀ ring, r = .ok ring → ring = new ∧ ∃ q,
          Gathered crew x settings.owners old new base q ∧
          p = q.withNode x (givenBack (q.nodes x)) := by
    refine run_abides (P := (· = ⟨nodes, c.errands, {}⟩))
      (Q := Informed crew (fun _ => False) base)
      (T := fun r p => ∀ ring, r = .ok ring → ring = new ∧
        Gathered crew x settings.owners old new base p)
      mem flow_any settings strategy ⟨_, shows_crew staffs _, rfl⟩ ?_ (fun _ _ _ _ => nofun) ?_ ?_
      (fun _ _ _ => nofun) (fun _ => trivial) fun r p came ring ok =>
        ⟨(came ring ok).1, p, (came ring ok).2, rfl⟩
    · rintro p rfl
      exact ⟨set, placed⟩
    · rintro p rfl -
      exact ⟨trivial, fun a _ => Node.Informed.refl (base a)⟩
    · intro now' w' plan by_ node equipped hashing h
      subst node equipped hashing
      refine carryOut_abides flow_any (arrive_gathers asks by_ grows enabled rfl inhabited
        (fun a ha => (congrArg Node.mapping (other ha)).trans (settled a ha)) h)
  have ended := whole.run_alone now
  rw [completed] at ended
  obtain ⟨p, shows_, result⟩ := ended
  obtain ⟨rfl, q, ⟨chunks, all, right, holds⟩, rfl⟩ := result ring rfl
  refine ⟨rfl, _, shows_.staffs, chunks, all, fun chunk hc => ?_, ?_, fun a ha => ?_⟩
  · rw [right chunk hc, other (grows.enters.mem_of_provider (all ▸ List.mem_map_of_mem hc))]
  · obtain ⟨accepted, same, -⟩ := holds x mem
    rw [Function.update_self, self] at same
    rw [Picture.withNode_self]
    exact (congrArg Node.store same :)
  · obtain ⟨accepted, same, -⟩ := holds a (List.mem_append_left _ ha)
    rw [Function.update_of_ne (apart ha), other ha] at same
    rw [Picture.withNode_of_ne _ _ (apart ha)]
    exact (congrArg Node.store same :)

end Rehash

/-- Whatever is lost or held back, and whoever misses an announcement: when a join
completes while nobody writes, every owner of a key under the new ring holds the entry
that the owners under the old one held, and the newcomer holds no other. -/
theorem completed_join_moves_all_state {members : List Address} {x : Address}
    {serial : Address → Serial} {errands : Option (List Errand)} {settings : Settings}
    {strategy : Strategy} {old new : MemberRing} {entry : String → Option Entry} {c : Cluster}
    {nodes : Address → Node} {script : Nat → Sending → List Deed} (rehash : Serial) (now : Nat)
    (inhabited : members ≠ []) (staffs : c.Staffs ⟨members ++ [x], serial, errands⟩ nodes)
    (named : settings.strategy = .ok strategy) (enabled : settings.rehashEnabled = true)
    (grows : Ring.Grows strategy members x old new)
    (settled : ∀ a ∈ members, (nodes a).Follows settings (.settled old))
    (copies : ∀ key, ∀ a ∈ members, (nodes a).store.get? key =
      if a ∈ old.locate key settings.owners then entry key else none)
    (fresh : Node.create x settings [x] = .ok (nodes x))
    (asks : ∀ i sending target command, .hand target command ∈ script i sending → command.Asks)
    {tick : Nat} {w' : World Diary} {ring : MemberRing}
    (completed : (Rehash.run (traffic script) rehash (serial x) .join now
      { cluster := c, outside := {} }).run now = (tick, w', .ok ring)) :
    ring = new ∧
      (∀ key, ∀ a ∈ new.locate key settings.owners, ∃ n, w'.cluster.nodes.find? a = some n ∧
        n.store.get? key = entry key) ∧
      ∃ n, w'.cluster.nodes.find? x = some n ∧
        ∀ key, x ∉ new.locate key settings.owners → n.store.get? key = none := by
  obtain ⟨-, strategy', alone, named', -, made⟩ := Node.create_eq_ok_iff.mp fresh
  obtain rfl : strategy' = strategy := Except.ok.inj (named'.symm.trans named)
  have blank : (nodes x).log = .closed ∧ (nodes x).store = .empty ∧
      (nodes x).settings = settings ∧ (nodes x).strategy = strategy' := by
    rw [made]
    exact ⟨rfl, rfl, rfl, rfl⟩
  obtain ⟨log, empty, set, placed⟩ := blank
  obtain ⟨rfl, nodes', staffs', chunks, all, right, gathers, keeps⟩ := Rehash.run_gathers inhabited
    staffs enabled grows (fun a ha => (settled a ha).mapping)
    set placed asks completed
  have mine (key : String) : (nodes' x).store.get? key =
      if x ∈ ring.locate key settings.owners then entry key else none := by
    rw [gathers]
    exact Rehash.get?_gathered inhabited grows settled
      (fun a ha => staffs.address (List.mem_append_left _ ha)) copies log empty all right key
  have before := Ring.sound_ofMembers grows.before
  have after := Ring.sound_ofMembers grows.after
  refine ⟨rfl, fun key a ha => ?_, nodes' x, staffs'.find? (List.mem_append_right _
    (List.mem_singleton.mpr rfl)), fun key foreign => (mine key).trans (if_neg foreign)⟩
  have listed : a ∈ members ++ [x] := (Ring.mem_members_ofMembers grows.after).mp
    (after.mem_members_of_mem_locate ha)
  refine ⟨nodes' a, staffs'.find? listed, ?_⟩
  by_cases own : a = x
  · subst own
    exact (mine key).trans (if_pos ha)
  · have member : a ∈ members :=
      (List.mem_append.mp listed).resolve_right fun last => own (List.mem_singleton.mp last)
    have owner := grows.adds.mem_locate_of_ne before after ha own
    rw [keeps a member, copies key a member, if_pos owner]

/-- Node `A`, which holds `k0`, and `C` that is to join; announcements are lost, and
state takes a while to get through. -/
def deafened : Cluster :=
  { ((Cluster.founded hasty ["A"]).stocked "A" ⟨"k0", [1], 1⟩).start "C" hasty ["C"] with
    faults := { forKind := [(.installMapping, { lost := true }),
      (.pullState, { delay := some (.ofMillis 1) })] } }

theorem completed_join_moves_all_state_of_deafened :
    ∃ self tick w' ring, deafened.nodes.serial? "C" = some self ∧
      (Rehash.run (traffic fun _ _ => []) 0 self .join 0
        { cluster := deafened, outside := {} }).run 0 = (tick, w', .ok ring) ∧
      (∀ key, ∀ a ∈ ring.locate key 2, ∃ n, w'.cluster.nodes.find? a = some n ∧
        n.store.get? key = if key = "k0" then some ⟨"k0", [1], 1⟩ else none) ∧
      ∃ n, w'.cluster.nodes.find? "C" = some n ∧
        ∀ key, "C" ∉ ring.locate key 2 → n.store.get? key = none := by
  obtain ⟨old, new, grows⟩ : ∃ old new, Ring.Grows Strategy.sip24 ["A"] "C" old new :=
    Ring.exists_grows (by decide) (by decide) (by decide +kernel)
  have before := grows.before
  obtain ⟨alone, apart⟩ : ∃ r, Ring.ofMembers Strategy.sip24 ["C"] = .ok r :=
    Ring.exists_ofMembers _ (by decide)
  have fresh := Node.create_hasty apart "C"
  obtain ⟨serial, founded⟩ := Cluster.exists_hosts_hasty (List.nodup_singleton "A") before
  let e : Entry := ⟨"k0", [1], 1⟩
  let stocked : Node := { Node.made "A" hasty .sip24 old with store := Store.empty.insert e }
  let nodes := Function.update (Function.update (fun a => Node.made a hasty .sip24 old) "A"
    stocked) "C" (Node.made "C" hasty .sip24 alone)
  have hosts := (founded.stocked (show "A" ∈ ["A"] by decide) e).start (a := "C")
    (show "C" ∉ ["A"] by decide) fresh
  have idle : (((Cluster.founded hasty ["A"]).stocked "A" e).start "C" hasty
      ["C"]).approached = [] := by decide +kernel
  have staffs : deafened.Staffs _ nodes := (hosts.staffs idle).weather _
  have one : deafened.nodes.serial? "C" = some 1 := by decide +kernel
  have self := staffs.named (show "C" ∈ ["A"] ++ ["C"] by decide)
  rw [one, Option.some.injEq] at self
  have settled : ∀ a ∈ ["A"], (nodes a).Follows hasty (.settled old) := by
    intro a ha
    obtain rfl : a = "A" := by simpa using ha
    exact ⟨rfl, rfl, rfl, Store.keyed_empty.insert e⟩
  have copies : ∀ key, ∀ a ∈ ["A"], (nodes a).store.get? key =
      if a ∈ old.locate key hasty.owners then if key = "k0" then some e else none else none := by
    intro key a ha
    obtain rfl : a = "A" := by simpa using ha
    have size : old.size = 1 := Ring.apply_eq_of_ofMembers before (·.size) (by decide +kernel)
    have owned : "A" ∈ old.locate key hasty.owners :=
      ((Ring.sound_ofMembers before).mem_locate_iff_of_size_le (size ▸ by decide)).mpr
        ((Ring.mem_members_ofMembers before).mpr ha)
    rw [if_pos owned]
    exact Store.get?_empty_insert e key
  -- What the run comes to is computed, but only this much of it matters.
  have works : ((Rehash.run (traffic fun _ _ => []) 0 1 .join 0
      { cluster := deafened, outside := {} }).run 0).2.2.toOption.isSome = true := by
    decide +kernel
  generalize result : (Rehash.run (traffic fun _ _ => []) 0 1 .join 0
    { cluster := deafened, outside := {} }).run 0 = run at works
  obtain ⟨tick, w', cause | ring⟩ := run
  · cases works
  · obtain ⟨rfl, entries, foreign⟩ := completed_join_moves_all_state 0 0 (List.cons_ne_nil _ _)
      staffs (show hasty.strategy = .ok .sip24 by decide +kernel) rfl grows settled copies fresh
      (fun _ _ _ _ listed => absurd listed List.not_mem_nil) (self ▸ result)
    exact ⟨1, tick, w', ring, one, result, entries, foreign⟩

end SlotRing
