/-
# Turns

One thing happens to a cluster after the other, each of them from beginning to
end: a client writes, a member joins, a member leaves, an errand is run.
Between two of them the cluster is tidy (`Tidy`): all members go by one ring,
nothing goes on, and a member holds the keys that it owns, with the last value,
and no others.  Writes, joins and errands leave it tidy (`Tidy.write_ends`,
`Tidy.join_ends`, `Tidy.errand_ends`); departures are another matter
(`SlotRing.Proofs.Rehash.Obstruction`).

After a join former owners still hold what they have lost.  The newcomer holds
every key that has left a member, as it is the newcomer that the key has come
to, so that all of it is dropped when the newcomer has told them (`Telling`).
-/
import SlotRing.Proofs.Rehash.Errands
import SlotRing.Proofs.Rehash.Farewell
import SlotRing.Proofs.Rehash.LosslessJoin

namespace SlotRing

inductive Turn where
  /-- A client writes through a member. -/
  | write (issuer : Address) (w : Write)
  /-- A new member joins, and the errand that its run leaves is run. -/
  | join (a : Address)
  /-- A member is taken out of the view, and the others do their parts, in an
  order. -/
  | leave (a : Address) (order : List Address)
  /-- An errand that some rehash has left is run. -/
  | errand (n : Nat)

namespace Turn

def runErrand (n : Nat) : Procedure (World Unit) Unit := do
  match ← World.read (·.errands[n]?) with
  | none => return
  | some left => Rehash.runErrand .quiet n left

/-- A node is made and registered and joins; the errand that it leaves is the
next one on the list. -/
def joining (settings : Settings) (a : Address) : Procedure (World Unit) Unit := do
  World.modify (·.start a settings [a])
  let next ← World.read (·.errands.length)
  match ← Rehash.prepare (fun _ => .join) a with
  | none => return
  | some p =>
    discard (Rehash.run .quiet p.rehash p.node p.change)
    runErrand next

def carryOut (settings : Settings) : Turn → Procedure (World Unit) Unit
  | .write issuer w => discard (Request.carryOut ⟨issuer, .single w⟩)
  | .join a => joining settings a
  | .leave a order => discard (Rehash.departure .quiet a order)
  | .errand n => runErrand n

end Turn

/-- All members go by one ring, nothing goes on, and every member holds the keys
that it owns, with the values they have, and no others. -/
structure Tidy (settings : Settings) (strategy : Strategy) (members : List Address)
    (ring : MemberRing) (value : String → Option (List UInt8)) (nodes : Address → Node) :
    Prop where
  rest : ∀ a ∈ members, (nodes a).Stands settings strategy (.settled ring) false ∧
    (nodes a).rehashing = false
  values : ∀ key, ∀ a ∈ members, (nodes a).store.value? key =
    if a ∈ ring.locate key settings.owners then value key else none

section

variable {settings : Settings} {strategy : Strategy} {members : List Address}
  {ring : MemberRing} {value : String → Option (List UInt8)} {nodes : Address → Node}
  {who : Census} {w : World Unit} {now : Nat}

theorem Node.Stands.invalidate {n : Node} {mapping : MemberMapping}
    (h : n.Stands settings strategy mapping false) (keys : List String) :
    (n.invalidate keys).Stands settings strategy mapping false :=
  ⟨h.mapping, h.settings, h.strategy, h.log, h.pending, h.keyed.foldl_drop _⟩

theorem Node.Stands.isOwner_eq {n : Node} {opened : Bool}
    (h : n.Stands settings strategy (.settled ring) opened) {a : Address}
    (address : n.address = a) (key : String) :
    n.isOwner key = (ring.locate key settings.owners).contains a := by
  rw [Node.isOwner, h.mapping, address, Node.copies, h.settings]
  rfl

theorem Store.value?_eq_none_iff {s : Store} {key : String} :
    s.value? key = none ↔ s.get? key = none := by
  rw [Store.value?, Option.map_eq_none_iff]

/-! ## Writes -/

theorem Tidy.write_ends (built : Ring.ofMembers strategy members = .ok ring)
    (census : who.members = members) {r : Request} (mem : r.issuer ∈ members)
    (h : w.Holds who fun nodes _ => Tidy settings strategy members ring value nodes) :
    r.carryOut.Ends now w fun w' outcome => outcome = .ok () ∧
      w'.Holds who fun nodes _ => Tidy settings strategy members ring
        (fun key => valueAfter r.tx.writes key (value key)) nodes := by
  obtain ⟨nodes, hosts, tidy⟩ := h
  have sound := Ring.sound_ofMembers built
  have issuer := (tidy.rest _ mem).1
  have served {key : String} {a : Address} :
      a ∈ (nodes r.issuer).serving key ↔ a ∈ ring.locate key settings.owners := by
    rw [Node.mem_serving_settled sound issuer.mapping, Node.copies, issuer.settings]
  refine (r.carryOut_ends hosts (census ▸ mem)
    fun wr _ => Node.nodup_serving_settled sound issuer.mapping _).mono ?_
  rintro w' outcome ⟨acked, hosts', -⟩
  refine ⟨acked.mpr fun wr _ a ha => ?_, _, hosts', fun a ha => ?_, fun key a ha => ?_⟩
  · rw [census, ← Ring.mem_members_ofMembers built]
    exact sound.mem_members_of_mem_locate (served.mp ha)
  · obtain ⟨stands, idle⟩ := tidy.rest a ha
    refine ⟨stands.spread, ?_⟩
    rw [spread_of_closed stands.disabled]
    exact idle
  · rw [value?_spread (tidy.rest a ha).1.disabled, tidy.values key a ha]
    by_cases owner : a ∈ ring.locate key settings.owners
    · rw [if_pos (served.mpr owner), if_pos owner, if_pos owner]
    · rw [if_neg (mt served.mp owner), if_neg owner, if_neg owner]

/-! ## Errands -/

/-- A member that is told something keeps what it owns, and that is all it has. -/
theorem Tidy.told (h : Tidy settings strategy members ring value nodes) {target : Address}
    (mem : target ∈ members) (address : (nodes target).address = target) (keys : List String) :
    Tidy settings strategy members ring value
      (Function.update nodes target ((nodes target).invalidate keys)) := by
  refine ⟨fun a ha => ?_, fun key a ha => ?_⟩
  · by_cases same : a = target
    · subst same
      rw [Function.update_self]
      exact ⟨(h.rest a ha).1.invalidate keys, (h.rest a ha).2⟩
    · rw [Function.update_of_ne same]
      exact h.rest a ha
  · by_cases same : a = target
    · subst same
      have owns := (h.rest a ha).1.isOwner_eq address key
      rw [Function.update_self]
      split
      · next owner =>
        rw [Node.value?_invalidate fun _ => owns.trans (List.contains_iff_mem.mpr owner),
          h.values key a ha, if_pos owner]
      · next foreign =>
        have absent := h.values key a ha
        rw [if_neg foreign, Store.value?_eq_none_iff] at absent
        rw [Store.value?_eq_none_iff, Node.get?_invalidate, absent, ite_self]
    · rw [Function.update_of_ne same]
      exact h.values key a ha

theorem Tidy.errand_ends (census : who.members = members) (n : Nat)
    (h : w.Holds who fun nodes _ => Tidy settings strategy members ring value nodes) :
    (Turn.runErrand n).Ends now w fun w' _ => ∃ errands, w'.Holds { who with errands }
      fun nodes _ => Tidy settings strategy members ring value nodes := by
  unfold Turn.runErrand
  refine (Procedure.ends_read (Q := fun w' found => w' = w ∧ found = w.cluster.errands[n]?)
    ⟨rfl, rfl⟩).bind ?_
  rintro w' found ⟨rfl, rfl⟩
  cases w'.cluster.errands[n]? with
  | none => exact Procedure.ends_pure ⟨who.errands, h⟩
  | some errand =>
    refine Rehash.runErrand_ends who n (fun _ => h) fun node _ => ?_
    refine (Rehash.tell_ends Surroundings.silent_quiet (I := fun _ nodes _ =>
      Tidy settings strategy members ring value nodes) h ?_ ?_).mono fun _ _ holds => holds.2
    · intro done row rest _ mem
      refine (Surroundings.leads_quiet fun _ _ h => h).mono fun nodes _ address tidy => ?_
      exact tidy.told (census ▸ mem) (address _ mem) row.2
    · exact fun _ _ _ _ _ => Surroundings.leads_quiet fun _ _ h => h

/-! ## Joins -/

/-- A newcomer tells the former owners, and those of the rows `done` have been
told: who owns a key has its value, and nobody else has one but former owners
that are still to be told. -/
structure Telling (settings : Settings) (strategy : Strategy) (members : List Address)
    (x : Address) (old new : MemberRing) (value : String → Option (List UInt8))
    (done : List (Address × List String)) (nodes : Address → Node) : Prop where
  rest : ∀ a ∈ members ++ [x], (nodes a).Stands settings strategy (.settled new) false ∧
    (nodes a).rehashing = false
  owned : ∀ key, ∀ a ∈ new.locate key settings.owners, (nodes a).store.value? key = value key
  foreign : ∀ key, ∀ a ∈ members ++ [x], a ∉ new.locate key settings.owners →
    (nodes a).store.value? key = none ∨
      ((a ∈ members ∧ a ∈ old.locate key settings.owners) ∧
        (nodes a).store.value? key = value key ∧ ∀ row ∈ done, row.1 = a → key ∉ row.2)

section

variable {x : Address} {new : MemberRing} {done : List (Address × List String)}
  {row : Address × List String}

theorem Telling.step (h : Telling settings strategy members x ring new value done nodes)
    (mem : row.1 ∈ members ++ [x]) (address : (nodes row.1).address = row.1) :
    Telling settings strategy members x ring new value (done ++ [row])
      (Function.update nodes row.1 ((nodes row.1).invalidate row.2)) := by
  refine ⟨fun a ha => ?_, fun key a ha => ?_, fun key a ha other => ?_⟩
  · by_cases same : a = row.1
    · subst same
      rw [Function.update_self]
      exact ⟨(h.rest _ mem).1.invalidate row.2, (h.rest _ mem).2⟩
    · rw [Function.update_of_ne same]
      exact h.rest a ha
  · by_cases same : a = row.1
    · subst same
      have owns := (h.rest _ mem).1.isOwner_eq address key
      rw [Function.update_self, Node.value?_invalidate fun _ =>
        owns.trans (List.contains_iff_mem.mpr ha)]
      exact h.owned key _ ha
    · rw [Function.update_of_ne same]
      exact h.owned key a ha
  · by_cases same : a = row.1
    · subst same
      rw [Function.update_self]
      by_cases told : key ∈ row.2
      · have foreign : (nodes row.1).isOwner key = false := by
          rw [(h.rest _ mem).1.isOwner_eq address key, ← Bool.not_eq_true, List.contains_iff_mem]
          exact other
        refine .inl ?_
        rw [Store.value?_eq_none_iff, Node.get?_invalidate, if_pos ⟨told, foreign⟩]
      · rw [Node.value?_invalidate fun mine => absurd mine told]
        refine (h.foreign key _ mem other).imp_right ?_
        rintro ⟨former, kept, untold⟩
        exact ⟨former, kept, List.forall_mem_append.mpr
          ⟨untold, List.forall_mem_singleton.mpr fun _ => told⟩⟩
    · rw [Function.update_of_ne same]
      refine (h.foreign key a ha other).imp_right ?_
      rintro ⟨former, kept, untold⟩
      exact ⟨former, kept, List.forall_mem_append.mpr
        ⟨untold, List.forall_mem_singleton.mpr fun eq => absurd eq.symm same⟩⟩

theorem Telling.skip (h : Telling settings strategy members x ring new value done nodes)
    (absent : row.1 ∉ members ++ [x]) :
    Telling settings strategy members x ring new value (done ++ [row]) nodes := by
  refine ⟨h.rest, h.owned, fun key a ha other => (h.foreign key a ha other).imp_right ?_⟩
  rintro ⟨former, kept, untold⟩
  exact ⟨former, kept, List.forall_mem_append.mpr
    ⟨untold, List.forall_mem_singleton.mpr fun eq => absurd (eq ▸ ha) absent⟩⟩

/-- When all have been told, nobody holds what is not its own: a key that has
left a member has come to the newcomer, which holds it and tells of it. -/
theorem Telling.tidy (grows : Ring.Grows strategy members x ring new) {n : Node}
    (address : n.address = x) (follows : n.settings = settings)
    (held : ∀ key, x ∈ new.locate key settings.owners → n.store.value? key = value key)
    (h : Telling settings strategy members x ring new value
      (Rehash.hints n ⟨ring, new⟩) nodes) :
    Tidy settings strategy (members ++ [x]) new value nodes := by
  refine ⟨h.rest, fun key a ha => ?_⟩
  split
  · next owner => exact h.owned key a owner
  next other =>
  rcases h.foreign key a ha other with none | ⟨⟨mem, former⟩, kept, untold⟩
  · exact none
  rw [kept]
  by_contra live
  have mine : x ∈ new.locate key settings.owners := by
    by_contra foreign
    have same := grows.adds.locate_eq_of_not_mem (Ring.sound_ofMembers grows.before)
      (Ring.sound_ofMembers grows.after) foreign
    exact other (same ▸ former)
  have told : (a, key) ∈ Rehash.staleCopies n ⟨ring, new⟩ := by
    rw [Rehash.mem_staleCopies, Node.copies, follows, address]
    refine ⟨?_, ⟨former, other⟩, fun same => grows.absent (same ▸ mem), ?_⟩
    · rw [Option.isSome_iff_ne_none]
      exact fun absent => live ((held key mine).symm.trans (Store.value?_eq_none_iff.mpr absent))
    · exact (Ring.contains_ofMembers grows.after).mpr ha
  obtain ⟨keys, listed, told⟩ := Rehash.exists_hint told
  exact untold (a, keys) listed rfl told

/-- A join of `x` to a cluster that is tidy and stays as it is meanwhile. -/
def joinScene (settings : Settings) (strategy : Strategy) (members : List Address) (x : Address)
    (old new : MemberRing) (value : String → Option (List UInt8)) (before : Address → Node) :
    Scene Unit where
  members := members
  newcomer := x
  settings := settings
  strategy := strategy
  old := old
  new := new
  initial := value
  wrote _ := []
  kept a n := n.strategy = strategy ∧ n.log.pending = [] ∧ n.rehashing = false ∧
    n.store = (before a).store

section

variable {before : Address → Node} {newcomer : Node}

theorem Tidy.join_begins (grows : Ring.Grows strategy members x ring new)
    (tidy : Tidy settings strategy members ring value before)
    (fresh : (joinScene settings strategy members x ring new value before).Fresh newcomer) :
    (joinScene settings strategy members x ring new value before).Before
      (joinScene settings strategy members x ring new value before).Fresh
      (Function.update before x newcomer) () := by
  have other {a : Address} (ha : a ∈ members) : a ≠ x := fun same => grows.absent (same ▸ ha)
  refine ⟨fun a ha => ?_, fun key a ha => ?_, ?_⟩
  · rw [Function.update_of_ne (other ha)]
    obtain ⟨stands, idle⟩ := tidy.rest a ha
    exact ⟨⟨stands.mapping, stands.settings, stands.disabled, stands.keyed⟩, stands.strategy,
      stands.pending rfl, idle, rfl⟩
  · have mem : a ∈ members := Scene.mem_of_oldOwner
      (s := joinScene settings strategy members x ring new value before) grows ha
    rw [Function.update_of_ne (other mem), tidy.values key a mem]
    exact if_pos ha
  · show Scene.Fresh _ (Function.update before x newcomer x)
    rw [Function.update_self]
    exact fresh

theorem Tidy.telling (tidy : Tidy settings strategy members ring value before)
    (after : (joinScene settings strategy members x ring new value before).After
      (.settled new) nodes ()) (idle : (nodes x).rehashing = false) :
    Telling settings strategy members x ring new value [] nodes := by
  have log : (nodes x).log = .closed := after.log
  refine ⟨fun a ha => ?_, fun key a ha => after.agree key a ha, fun key a ha foreign => ?_⟩
  · rcases List.mem_append.mp ha with ha | ha
    · obtain ⟨follows, strategy', pending, idle', -⟩ := after.following a ha
      refine ⟨⟨follows.mapping, follows.settings, strategy', ?_, fun _ => pending,
        follows.keyed⟩, idle'⟩
      simp [WriteLog.isActive, follows.closed]
    · rw [List.mem_singleton.mp ha]
      refine ⟨⟨after.newcomer.mapping, after.newcomer.settings, after.strategy, ?_, fun _ => ?_,
        after.newcomer.keyed⟩, idle⟩
      · rw [log]
        rfl
      · rw [log]
        rfl
  · rcases List.mem_append.mp ha with ha | ha
    · obtain ⟨-, -, -, -, store⟩ := after.following a ha
      rw [store, tidy.values key a ha]
      split
      · next former =>
        exact .inr ⟨⟨ha, former⟩, rfl, fun row none => absurd none List.not_mem_nil⟩
      · exact .inl rfl
    · rw [List.mem_singleton.mp ha] at foreign ⊢
      exact .inl (after.lean key foreign)

end

/-- The newcomer runs the errand that its join has left. -/
theorem Telling.errand_ends (grows : Ring.Grows strategy members x ring new)
    (census : who.members = members ++ [x]) {n : Nat}
    (left : w.cluster.errands[n]? = some ⟨who.serial x, ⟨ring, new⟩, none⟩)
    (h : w.Holds who fun nodes _ => Telling settings strategy members x ring new value [] nodes) :
    (Turn.runErrand n).Ends now w fun w' _ => ∃ errands, w'.Holds { who with errands }
      fun nodes _ => Tidy settings strategy (members ++ [x]) new value nodes := by
  obtain ⟨nodes, hosts, telling⟩ := h
  have mem : x ∈ members ++ [x] := List.mem_append_right _ List.mem_cons_self
  have newcomer : x ∈ who.members := census ▸ mem
  have known := hosts.node newcomer
  unfold Turn.runErrand
  refine (Procedure.ends_read (Q := fun w' found => w' = w ∧
    found = some ⟨who.serial x, ⟨ring, new⟩, none⟩) ⟨rfl, left⟩).bind ?_
  rintro _ _ ⟨rfl, rfl⟩
  refine Rehash.runErrand_ends who
    (Q := fun nodes _ => Tidy settings strategy (members ++ [x]) new value nodes) _
    (fun gone => ?_) fun node found => ?_
  · exact absurd (known.symm.trans gone) (by simp)
  obtain rfl : nodes x = node := Option.some.inj (known.symm.trans found)
  refine (Rehash.tell_ends Surroundings.silent_quiet (I := fun done nodes _ =>
    Telling settings strategy members x ring new value done nodes) ⟨nodes, hosts, telling⟩
    ?_ ?_).mono fun w' _ holds => holds.2.mono fun nodes' _ told => ?_
  · intro done row rest _ mem
    refine (Surroundings.leads_quiet fun _ _ h => h).mono fun nodes' _ address told => ?_
    exact told.step (census ▸ mem) (address _ mem)
  · exact fun done row rest _ absent => Surroundings.leads_quiet fun _ _ told =>
      told.skip fun mem => absent (census.symm ▸ mem)
  · exact told.tidy grows (hosts.address newcomer) (telling.rest x mem).1.settings
      fun key mine => telling.owned key x mine

/-- A join leaves a tidy cluster tidy, once the former owners have been told. -/
theorem Tidy.join_ends (grows : Ring.Grows strategy members x ring new)
    (census : who.members = members) (inhabited : members ≠ [])
    (valid : settings.validate = .ok ()) (named : settings.strategy = .ok strategy)
    (enabled : settings.rehashEnabled = true) (tells : settings.invalidateStale = true)
    (counted : settings.deadline.CountedFrom now)
    (h : w.Holds who fun nodes _ => Tidy settings strategy members ring value nodes) :
    (Turn.joining settings x).Ends now w fun w' _ => ∃ who', who'.members = members ++ [x] ∧
      w'.Holds who' fun nodes _ => Tidy settings strategy (members ++ [x]) new value nodes := by
  obtain ⟨before, hosts, tidy⟩ := h
  obtain ⟨alone, single⟩ : ∃ r, Ring.ofMembers strategy [x] = .ok r :=
    Ring.exists_ofMembers _ (show 1 ≤ ringSize by decide)
  have made : Node.create x settings [x] = .ok (Node.made x settings strategy alone) :=
    Node.create_eq_ok_iff.mpr ⟨valid, strategy, alone, named, single, rfl⟩
  have hosts₁ := hosts.counted.start (show x ∉ who.members from census ▸ grows.absent) made
  let who₁ := { who with errands := some w.cluster.errands : Census }.add x w.cluster.nodes.next
  have census₁ : who₁.members = members ++ [x] := congrArg (· ++ [x]) census
  have newcomer : x ∈ who₁.members := census₁ ▸ List.mem_append_right _ List.mem_cons_self
  let scene := joinScene settings strategy members x ring new value before
  unfold Turn.joining
  refine (Procedure.ends_modify (Q := fun w' _ => w'.cluster.Hosts who₁
    (Function.update before x (Node.made x settings strategy alone))) hosts₁).bind ?_
  intro w₁ _ h₁
  refine (Procedure.ends_read (Q := fun w' next => w' = w₁ ∧ next = w.cluster.errands.length)
    ⟨rfl, congrArg List.length (h₁.errands_eq rfl)⟩).bind ?_
  rintro _ _ ⟨rfl, rfl⟩
  refine (Rehash.prepare_ends newcomer h₁
    (tidy.join_begins grows ⟨rfl, rfl, rfl, rfl, rfl⟩)).bind ?_
  rintro w₂ _ ⟨⟨rehash, rfl⟩, h₂⟩
  have joined : (Rehash.run .quiet rehash (who₁.serial x) .join).Ends now w₂ _ :=
    scene.join_ends Surroundings.silent_quiet
      (Surroundings.onlyWrites_quiet who₁ scene.wrote) (fun _ none => none.elim)
      (fun _ none => none.elim) (fun a n m kept => kept) grows census₁ inhabited enabled
      counted (h₂.mono fun _ _ k => k.2)
  refine (Procedure.Ends.discard (T := fun w' _ => w'.Holds (who₁.leaving [⟨who₁.serial x,
    ⟨ring, new⟩, none⟩]) fun nodes o => scene.After (.settled new) nodes o ∧
      (nodes x).rehashing = false) (joined.mono fun w' r holds => ?_)).bind ?_
  · rw [Rehash.hintsLeft, if_pos (show scene.settings.invalidateStale = true from tells)] at holds
    exact holds.mono fun nodes o k => k.2
  rintro w₃ _ ⟨nodes, hosts₃, after, idle⟩
  let who₂ := who₁.leaving [⟨who₁.serial x, ⟨ring, new⟩, none⟩]
  have left : w₃.cluster.errands[w.cluster.errands.length]? =
      some ⟨who₂.serial x, ⟨ring, new⟩, none⟩ := by
    rw [hosts₃.errands_eq rfl]
    exact List.getElem?_concat_length
  refine (Telling.errand_ends grows (show who₂.members = members ++ [x] from census₁) left
    ⟨nodes, hosts₃, tidy.telling after idle⟩).mono ?_
  rintro w' _ ⟨errands, holds⟩
  exact ⟨{ who₂ with errands }, census₁, holds⟩

end

end

end SlotRing
