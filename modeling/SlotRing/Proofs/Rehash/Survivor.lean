/-
# A survivor's part in a departure, seen through the stores

While survivors hand over, each of them has its entries in a store and its
latest writes, perhaps, in a log.  What counts is what the two come to
(`Node.replayed`): a write changes it in one way, whether the log is open or
not; installing a mapping, opening the log and closing it do not change it at
all.  So a survivor's run can be followed on these stores alone, and
`Farewell.part_ends` is the rule for that.
-/
import SlotRing.Proofs.Cluster.Clients
import SlotRing.Proofs.Rehash.Departure

namespace SlotRing

/-! ## Stores and logs together -/

/-- The store as it is once the log has been replayed. -/
def Node.replayed (n : Node) : Store := n.store.writeAll (n.log.pending.flatMap (·.writes))

def replayed (nodes : Address → Node) : Address → Store := fun a => (nodes a).replayed

/-- The node goes by a mapping, and its log is open or not. -/
structure Node.Stands (n : Node) (settings : Settings) (strategy : Strategy)
    (mapping : MemberMapping) (opened : Bool) : Prop where
  mapping : n.mapping = mapping
  settings : n.settings = settings
  strategy : n.strategy = strategy
  log : n.log.isActive = opened
  pending : opened = false → n.log.pending = []
  keyed : n.store.Keyed

section

variable {n : Node} {settings : Settings} {strategy : Strategy} {mapping : MemberMapping}
  {opened : Bool} {nodes : Address → Node}

theorem Node.Stands.replayed (h : n.Stands settings strategy mapping false) :
    n.replayed = n.store := by
  rw [Node.replayed, h.pending rfl]
  rfl

theorem Node.Stands.disabled (h : n.Stands settings strategy mapping false) :
    n.log.state = .disabled := by
  simpa [WriteLog.isActive] using h.log

theorem Node.Stands.enabled (h : n.Stands settings strategy mapping true) :
    n.log.state ≠ .disabled := by
  simpa [WriteLog.isActive] using h.log

theorem Node.Stands.install (h : n.Stands settings strategy mapping opened)
    (next : MemberMapping) : (n.install next).Stands settings strategy next opened :=
  ⟨rfl, h.settings, h.strategy, h.log, h.pending, h.keyed⟩

theorem Node.Stands.logging (h : n.Stands settings strategy mapping false) (old : MemberRing) :
    (Rehash.logging old n).Stands settings strategy mapping true :=
  ⟨h.mapping, h.settings, h.strategy, rfl, fun closed => (Bool.noConfusion closed), h.keyed⟩

theorem Node.Stands.finishTransition (h : n.Stands settings strategy mapping true) :
    n.finishTransition.Stands settings strategy mapping false := by
  rw [Rehash.finishTransition_eq h.enabled]
  exact ⟨h.mapping, h.settings, h.strategy, rfl, fun _ => rfl, h.keyed.writeAll _⟩

theorem Node.Stands.takingOver (h : n.Stands settings strategy mapping opened)
    (entries : List Entry) :
    (Rehash.takingOver entries n).Stands settings strategy mapping opened :=
  ⟨h.mapping, h.settings, h.strategy, h.log, h.pending, h.keyed.merge entries⟩

theorem Node.Stands.acceptWrite (h : n.Stands settings strategy mapping opened)
    (tx : Transaction) : (n.acceptWrite tx).Stands settings strategy mapping opened := by
  cases opened with
  | true =>
    rw [Node.acceptWrite, WriteLog.append?, if_pos h.log]
    exact ⟨h.mapping, h.settings, h.strategy, h.log, fun closed => (Bool.noConfusion closed),
      h.keyed⟩
  | false =>
    rw [Node.acceptWrite, (WriteLog.append?_eq_none_iff _ _).mpr h.disabled]
    exact ⟨h.mapping, h.settings, h.strategy, h.log, h.pending, h.keyed.writeAll _⟩

theorem Node.Stands.dropUnowned (h : n.Stands settings strategy mapping false)
    (ring : MemberRing) : (n.dropUnowned ring).Stands settings strategy mapping false :=
  ⟨h.mapping, h.settings, h.strategy, h.log, h.pending, h.keyed.foldl_drop _⟩

theorem replayed_finishTransition (opened : n.log.state ≠ .disabled) :
    n.finishTransition.replayed = n.replayed := by
  rw [Rehash.finishTransition_eq opened]
  rfl

theorem replayed_takingOver (h : n.Stands settings strategy mapping false)
    (entries : List Entry) :
    (Rehash.takingOver entries n).replayed = (n.replayed.merge entries).1 := by
  rw [(h.takingOver entries).replayed, h.replayed]
  rfl

theorem replayed_dropUnowned (h : n.Stands settings strategy mapping false) (ring : MemberRing) :
    (n.dropUnowned ring).replayed =
      n.replayed.retain fun key => ring.isOwner n.address key settings.owners := by
  rw [(h.dropUnowned ring).replayed, h.replayed, ← h.settings]
  rfl

theorem replayed_spread {serving : String → List Address} {tx : Transaction} {a : Address}
    (h : (nodes a).Stands settings strategy mapping opened) :
    (spread serving tx nodes a).replayed =
      (nodes a).replayed.writeAll (share serving tx a) := by
  cases opened with
  | true =>
    obtain ⟨kept, part, eq⟩ := spread_of_open serving tx h.enabled
    rw [eq, ← part, Node.replayed, Node.replayed, List.flatMap_append, Store.writeAll,
      Store.writeAll, Store.writeAll, List.foldl_append]
  | false =>
    rw [spread_of_closed h.disabled, h.replayed, Node.replayed]
    show Store.writeAll _ ((nodes a).log.pending.flatMap (·.writes)) = _
    rw [h.pending rfl]
    rfl

theorem Node.Stands.spread {serving : String → List Address} {tx : Transaction} {a : Address}
    (h : (nodes a).Stands settings strategy mapping opened) :
    (spread serving tx nodes a).Stands settings strategy mapping opened := by
  rw [SlotRing.spread]
  split
  · exact h
  · exact h.acceptWrite _

theorem replayed_update (nodes : Address → Node) (a : Address) (n : Node) :
    replayed (Function.update nodes a n) = Function.update (replayed nodes) a n.replayed := by
  funext b
  by_cases same : b = a
  · rw [same, Function.update_self, replayed, Function.update_self]
  · rw [Function.update_of_ne same, replayed, Function.update_of_ne same]
    rfl

theorem replayed_update_self {nodes : Address → Node} {a : Address} {n : Node}
    (same : n.replayed = (nodes a).replayed) :
    replayed (Function.update nodes a n) = replayed nodes := by
  rw [replayed_update, same]
  exact Function.update_eq_self a (replayed nodes)

theorem replayed_installed (nodes : Address → Node) (x : Address) (next : MemberMapping) :
    replayed (fun a => if a = x then nodes a else (nodes a).install next) = replayed nodes := by
  funext a
  show (if a = x then nodes a else (nodes a).install next).replayed = _
  split <;> rfl

end

/-! ## The survivors -/

/-- A departure: who is left and who leaves, and the rings of before and
after. -/
structure Farewell where
  members : List Address
  leaver : Address
  settings : Settings
  strategy : Strategy
  old : MemberRing
  new : MemberRing

namespace Farewell

variable (f : Farewell)

/-- What holds of the rings when a member leaves. -/
structure Sound : Prop where
  enabled : f.settings.rehashEnabled = true
  after : Ring.ofMembers f.strategy f.members = .ok f.new
  before : f.old.Sound
  mem_old {m : Address} : m ∈ f.old.members ↔ m ∈ f.members ∨ m = f.leaver
  left : f.leaver ∉ f.members

/-- Nothing goes on, and all go by one mapping. -/
def Rest (mapping : MemberMapping) (nodes : Address → Node) : Prop :=
  ∀ a ∈ f.members, (nodes a).Stands f.settings f.strategy mapping false ∧
    (nodes a).rehashing = false

/-- A rehash runs on `x`, which goes by `mine`, while the others go by
`mapping`. -/
structure Run (x : Address) (opened : Bool) (mine mapping : MemberMapping)
    (nodes : Address → Node) : Prop where
  self : (nodes x).Stands f.settings f.strategy mine opened
  others : ∀ a ∈ f.members, a ≠ x →
    (nodes a).Stands f.settings f.strategy mapping false ∧ (nodes a).rehashing = false

def oldOwners (key : String) : List Address := f.old.locate key f.settings.owners

def newOwners (key : String) : List Address := f.new.locate key f.settings.owners

/-- How far the members have come with a departure. -/
inductive Going where
  | before
  | between
  | after

def mapping : Going → MemberMapping
  | .before => .settled f.old
  | .between => .moving f.old f.new
  | .after => .settled f.new

def recipients (g : Going) (key : String) : List Address :=
  ((f.mapping g).writeOwners key f.settings.owners).filter (f.mapping g).target.contains

/-- What a survivor that holds some entries hands over: to every other member
the entries that it gains. -/
structure Rows (x : Address) (held : List Entry) (rows : List (Address × List Entry)) :
    Prop where
  distinct : (rows.map Prod.fst).Nodup
  target {row : Address × List Entry} : row ∈ rows → row.1 ∈ f.members ∧ row.1 ≠ x
  mem {row : Address × List Entry} {e : Entry} : row ∈ rows →
    (e ∈ row.2 ↔ e ∈ held ∧ row.1 ∈ f.newOwners e.key ∧ row.1 ∉ f.oldOwners e.key)
  complete {e : Entry} {target : Address} : e ∈ held → target ≠ x →
    target ∈ f.newOwners e.key → target ∉ f.oldOwners e.key → ∃ es, (target, es) ∈ rows

def heldBy (x : Address) (s : Store) : List Entry :=
  s.select fun key => f.old.isOwner x key f.settings.owners

def keptBy (x : Address) (s : Store) : Store :=
  s.retain fun key => f.new.isOwner x key f.settings.owners

theorem Sound.of_built {f : Farewell} {ms : List Address}
    (enabled : f.settings.rehashEnabled = true) (before : Ring.ofMembers f.strategy ms = .ok f.old)
    (after : Ring.ofMembers f.strategy f.members = .ok f.new) (mem : f.leaver ∈ ms)
    (stay : f.members = ms.filter (· != f.leaver)) : f.Sound where
  enabled := enabled
  after := after
  before := Ring.sound_ofMembers before
  mem_old {m} := by
    rw [Ring.mem_members_ofMembers before, stay, List.mem_filter, bne_iff_ne]
    by_cases same : m = f.leaver
    · exact ⟨fun _ => .inr same, fun _ => same ▸ mem⟩
    · exact ⟨fun listed => .inl ⟨listed, same⟩, fun stays => (stays.resolve_right same).1⟩
  left listed := by
    rw [stay, List.mem_filter, bne_iff_ne] at listed
    exact listed.2 rfl

section

variable {f : Farewell} (sound : f.Sound)
include sound

theorem mem_new {m : Address} : m ∈ f.new.members ↔ m ∈ f.members :=
  Ring.mem_members_ofMembers sound.after

theorem sound_new : f.new.Sound := Ring.sound_ofMembers sound.after

theorem mem_of_newOwner {key : String} {a : Address} (h : a ∈ f.newOwners key) : a ∈ f.members :=
  (mem_new sound).mp ((sound_new sound).mem_members_of_mem_locate h)

theorem mem_of_oldOwner {key : String} {a : Address} (h : a ∈ f.oldOwners key)
    (stays : a ≠ f.leaver) : a ∈ f.members :=
  (sound.mem_old.mp (sound.before.mem_members_of_mem_locate h)).resolve_right stays

theorem without_eq : f.old.without f.strategy f.leaver = .ok f.new := by
  rw [← sound.after, Ring.without]
  refine Ring.ofMembers_congr _ fun m => ?_
  rw [List.mem_filter, sound.mem_old, bne_iff_ne]
  constructor
  · rintro ⟨stays | left, other⟩
    · exact stays
    · exact absurd left other
  · exact fun stays => ⟨.inl stays, fun left => sound.left (left ▸ stays)⟩

theorem mem_recipients_before {key : String} {a : Address} :
    a ∈ f.recipients .before key ↔ a ∈ f.oldOwners key := by
  rw [recipients, List.mem_filter]
  exact and_iff_left_of_imp fun owner =>
    sound.before.contains_iff.mpr (sound.before.mem_members_of_mem_locate owner)

theorem mem_recipients_between {key : String} {a : Address} :
    a ∈ f.recipients .between key ↔
      (a ∈ f.oldOwners key ∨ a ∈ f.newOwners key) ∧ a ∈ f.members := by
  rw [recipients, List.mem_filter, ← mem_new sound]
  exact and_congr mem_appendNew (sound_new sound).contains_iff

theorem mem_recipients_after {key : String} {a : Address} :
    a ∈ f.recipients .after key ↔ a ∈ f.newOwners key := by
  rw [recipients, List.mem_filter]
  exact and_iff_left_of_imp fun owner => (sound_new sound).contains_iff.mpr
    ((sound_new sound).mem_members_of_mem_locate owner)

theorem nodup_recipients (g : Going) (key : String) : (f.recipients g key).Nodup := by
  cases g with
  | before => exact (sound.before.nodup_locate _ _).filter _
  | between => exact (nodup_appendNew (sound.before.nodup_locate _ _)).filter _
  | after => exact ((sound_new sound).nodup_locate _ _).filter _

omit sound in
theorem serving_eq {n : Node} {g : Going} {opened : Bool}
    (h : n.Stands f.settings f.strategy (f.mapping g) opened) : n.serving = f.recipients g := by
  funext key
  rw [Node.serving, Node.copies, h.mapping, h.settings]
  rfl

theorem rows_gains {plan : Rehash.Plan} {x : Address} (node : plan.node = x)
    (settings : plan.settings = f.settings) (held : List Entry) :
    f.Rows x held (Rehash.gains plan f.old f.new held) := by
  have spec {row : Address × List Entry} (listed : row ∈ Rehash.gains plan f.old f.new held)
      {e : Entry} : e ∈ row.2 ↔ e ∈ held ∧ row.1 ≠ x ∧ row.1 ∈ f.newOwners e.key ∧
        row.1 ∉ f.oldOwners e.key := by
    rw [Rehash.mem_row (sound_new sound) listed, node, settings]
    rfl
  have other {row : Address × List Entry} (listed : row ∈ Rehash.gains plan f.old f.new held) :
      row.1 ≠ x := by
    obtain ⟨e, he⟩ := List.exists_mem_of_ne_nil _ (mem_perMember_iff.mp listed).2
    exact ((spec listed).mp he).2.1
  refine ⟨nodup_perMember _, fun listed => ⟨?_, other listed⟩, fun listed => ?_, ?_⟩
  · exact (mem_new sound).mp (Rehash.mem_members_of_row (sound_new sound) listed)
  · rw [spec listed, and_iff_right (other listed)]
  · intro e target mem apart mine fresh
    refine Rehash.exists_row (sound_new sound) mem (node.symm ▸ apart) ?_ ?_
    · rw [settings]
      exact mine
    · rw [settings]
      exact fresh

end

/-! ## The part of one survivor -/

section

variable {f : Farewell} {ε : Type} {around : Surroundings ε} {who : Census} {w : World ε}
  {now : Nat} {rehash : Serial} {x : Address}

/-- Where a run of `x` stands, together with what is known of the node and of the
stores. -/
def Watches (f : Farewell) (x : Address) (opened : Bool) (mine mapping : MemberMapping)
    (K : Node → (Address → Store) → ε → Prop) (nodes : Address → Node) (o : ε) : Prop :=
  f.Run x opened mine mapping nodes ∧ K (nodes x) (replayed nodes) o

/-- Where a run of `x` stands, together with what is known of the stores; the
first of them is what `x` has in its store proper. -/
def Sees (f : Farewell) (x : Address) (opened : Bool) (mine mapping : MemberMapping)
    (K : Store → (Address → Store) → ε → Prop) (nodes : Address → Node) (o : ε) : Prop :=
  f.Run x opened mine mapping nodes ∧ K (nodes x).store (replayed nodes) o

theorem Rest.run {mapping : MemberMapping} {nodes : Address → Node} (h : f.Rest mapping nodes)
    (mem : x ∈ f.members) :
    f.Run x false mapping mapping (Function.update nodes x (Rehash.taken (nodes x))) where
  self := by
    rw [Function.update_self]
    obtain ⟨stands, -⟩ := h x mem
    exact ⟨stands.mapping, stands.settings, stands.strategy, stands.log, stands.pending,
      stands.keyed⟩
  others a ha other := by
    rw [Function.update_of_ne other]
    exact h a ha

theorem Run.rest {mapping : MemberMapping} {nodes : Address → Node}
    (h : f.Run x false mapping mapping nodes) :
    f.Rest mapping (Function.update nodes x (Rehash.givenBack (nodes x))) := by
  intro a ha
  by_cases same : a = x
  · subst same
    rw [Function.update_self]
    exact ⟨⟨h.self.mapping, h.self.settings, h.self.strategy, h.self.log, h.self.pending,
      h.self.keyed⟩, rfl⟩
  · rw [Function.update_of_ne same]
    exact h.others a ha same

theorem Run.install {opened : Bool} {mine mapping : MemberMapping} {nodes : Address → Node}
    (h : f.Run x opened mine mapping nodes) (next : MemberMapping) :
    f.Run x opened mine next fun a => if a = x then nodes a else (nodes a).install next where
  self := by
    rw [if_pos rfl]
    exact h.self
  others a ha other := by
    rw [if_neg other]
    obtain ⟨stands, idle⟩ := h.others a ha other
    exact ⟨stands.install next, idle⟩

theorem Run.update {opened opened' : Bool} {mine mine' mapping : MemberMapping}
    {nodes : Address → Node} (h : f.Run x opened mine mapping nodes) {n : Node}
    (self : n.Stands f.settings f.strategy mine' opened') :
    f.Run x opened' mine' mapping (Function.update nodes x n) where
  self := by
    rw [Function.update_self]
    exact self
  others a ha other := by
    rw [Function.update_of_ne other]
    exact h.others a ha other

theorem Run.takingOver {opened : Bool} {mine mapping : MemberMapping} {nodes : Address → Node}
    (h : f.Run x opened mine mapping nodes) {target : Address} (other : target ≠ x)
    (mem : target ∈ f.members) (entries : List Entry) :
    f.Run x opened mine mapping
      (Function.update nodes target (Rehash.takingOver entries (nodes target))) where
  self := by
    rw [Function.update_of_ne other.symm]
    exact h.self
  others a ha apart := by
    by_cases same : a = target
    · subst same
      rw [Function.update_self]
      obtain ⟨stands, idle⟩ := h.others a ha apart
      exact ⟨stands.takingOver entries, idle⟩
    · rw [Function.update_of_ne same]
      exact h.others a ha apart

theorem Run.serving_eq {opened : Bool} {mine others : Going} {nodes : Address → Node}
    (h : f.Run x opened (f.mapping mine) (f.mapping others) nodes) {a : Address}
    (ha : a ∈ f.members) :
    (nodes a).serving = f.recipients (if a = x then mine else others) := by
  by_cases same : a = x
  · rw [if_pos same, same]
    exact Farewell.serving_eq h.self
  · rw [if_neg same]
    exact Farewell.serving_eq (h.others a ha same).1

theorem Run.spread {opened : Bool} {mine mapping : MemberMapping} {nodes : Address → Node}
    (h : f.Run x opened mine mapping nodes) (serving : String → List Address) (tx : Transaction) :
    f.Run x opened mine mapping (spread serving tx nodes) where
  self := h.self.spread
  others a ha other := by
    obtain ⟨stands, idle⟩ := h.others a ha other
    refine ⟨stands.spread, ?_⟩
    rw [spread_of_closed stands.disabled]
    exact idle

theorem Run.replayed_spread {opened : Bool} {mine mapping : MemberMapping}
    {nodes : Address → Node} (h : f.Run x opened mine mapping nodes)
    (serving : String → List Address) (tx : Transaction) {a : Address} (ha : a ∈ f.members) :
    replayed (SlotRing.spread serving tx nodes) a =
      (replayed nodes a).writeAll (share serving tx a) := by
  by_cases same : a = x
  · subst same
    exact SlotRing.replayed_spread h.self
  · exact SlotRing.replayed_spread (h.others a ha same).1

/-- The survivor hands its rows over: `I held done` holds while the rows `done`, none of
them empty, have been handed over. -/
theorem push_ends (sound : f.Sound) (silent : around.Silent) (census : who.members = f.members)
    {plan : Rehash.Plan} (self : plan.By who) (node : plan.node = x)
    (settings : plan.settings = f.settings) {K₂ : Node → (Address → Store) → ε → Prop}
    {I : List Entry → List (Address × List Entry) → Node → (Address → Store) → ε → Prop}
    {K₃ : (Address → Store) → ε → Prop}
    (h : w.Holds who (f.Watches x true (.moving f.old f.new) (.moving f.old f.new) K₂))
    (start : ∀ n D o, n.store.Keyed → K₂ n D o → I (f.heldBy x n.store) [] n D o)
    (step : ∀ held rows done row rest, f.Rows x held rows → row.2 ≠ [] →
      done ++ row :: rest = rows →
      around.Leads who { sender := x, targets := [row.1], command := .pushState row.2 }
        (f.Watches x true (.moving f.old f.new) (.moving f.old f.new) (I held done))
        (f.Watches x true (.moving f.old f.new) (.moving f.old f.new) fun n D =>
          I held (done ++ [row]) n
            (Function.update D row.1 ((D row.1).merge row.2).1)))
    (finish : ∀ held rows n D o, f.Rows x held rows → I held rows n D o → K₃ D o) :
    (Rehash.pushState around plan f.old f.new).Ends now w fun w' r => r = .ok () ∧
      w'.Holds who (f.Watches x true (.moving f.old f.new) (.moving f.old f.new) fun _ => K₃) := by
  subst node
  have rows (held : List Entry) := rows_gains sound rfl settings held
  refine Rehash.pushState_ends (I := fun held done => f.Watches plan.node true
    (.moving f.old f.new) (.moving f.old f.new) (I held done)) silent self ?_ h ?_ ?_ ?_
  · intro held row listed
    rw [census]
    exact ((rows held).target listed).1
  · rintro nodes o ⟨run, k⟩
    rw [settings]
    exact ⟨run, start _ _ _ run.self.keyed k⟩
  · intro held done row rest split
    have listed : row ∈ Rehash.gains plan f.old f.new held :=
      split ▸ List.mem_append_right _ List.mem_cons_self
    obtain ⟨target, other⟩ := (rows held).target listed
    refine (step held _ done row rest (rows held) (mem_perMember_iff.mp listed).2 split).mono ?_
    rintro nodes o - ⟨run, k⟩
    refine ⟨run.takingOver other target _, ?_⟩
    rw [replayed_update, replayed_takingOver (run.others _ target other).1,
      Function.update_of_ne other.symm]
    exact k
  · rintro held nodes o ⟨run, k⟩
    exact ⟨run, finish held _ _ _ _ (rows held) k⟩

/-- The run of one survivor, on its node and on the stores: opened with `K₀`, the union
is announced between `K₁` and `K₂`, `I held done` holds while the rows `done`, none of
them empty, have been handed over, and the new ring is announced between `K₃` and `K₄`. -/
theorem watched_part_ends (sound : f.Sound) (silent : around.Silent)
    (census : who.members = f.members) (mem : x ∈ f.members)
    (counted : f.settings.deadline.CountedFrom now) (base : MemberMapping)
    (K₀ : (Address → Store) → ε → Prop) (K₁ K₂ : Node → (Address → Store) → ε → Prop)
    (I : List Entry → List (Address × List Entry) → Node → (Address → Store) → ε → Prop)
    (K₃ K₄ K₅ : (Address → Store) → ε → Prop)
    (h : w.Holds who fun nodes o => f.Rest base nodes ∧ K₀ (replayed nodes) o)
    (opened : ∀ n D o, n.address = x → D x = n.store → K₀ D o →
      K₁ ((Rehash.logging f.old n).install (.moving f.old f.new)) D o)
    (union : around.Leads who
      { sender := x, targets := who.members.filter (· != x),
        command := .installMapping (.moving f.old f.new) }
      (f.Watches x true (.moving f.old f.new) base K₁)
      (f.Watches x true (.moving f.old f.new) base K₂))
    (start : ∀ n D o, n.store.Keyed → K₂ n D o → I (f.heldBy x n.store) [] n D o)
    (step : ∀ held rows done row rest, f.Rows x held rows → row.2 ≠ [] →
      done ++ row :: rest = rows →
      around.Leads who { sender := x, targets := [row.1], command := .pushState row.2 }
        (f.Watches x true (.moving f.old f.new) (.moving f.old f.new) (I held done))
        (f.Watches x true (.moving f.old f.new) (.moving f.old f.new) fun n D =>
          I held (done ++ [row]) n
            (Function.update D row.1 ((D row.1).merge row.2).1)))
    (finish : ∀ held rows n D o, f.Rows x held rows → I held rows n D o → K₃ D o)
    (final : around.Leads who
      { sender := x, targets := who.members.filter (· != x),
        command := .installMapping (.settled f.new) }
      (f.Watches x false (.settled f.new) (.moving f.old f.new) fun _ => K₃)
      (f.Watches x false (.settled f.new) (.moving f.old f.new) fun _ => K₄))
    (drop : ∀ D o, K₄ D o → K₅ (Function.update D x (f.keptBy x (D x))) o) :
    (Rehash.run around rehash (who.serial x) (.leave f.leaver f.old)).Ends now w fun w' r =>
      r = .ok f.new ∧ ∃ errands, w'.Holds (who.leaving errands) fun nodes o =>
        f.Rest (.settled f.new) nodes ∧ K₅ (replayed nodes) o := by
  have mem' : x ∈ who.members := census ▸ mem
  refine (Rehash.run_ends (a := x) mem'
    (Rehash.hintsLeft f.settings (who.serial x) f.old f.new) h
    (fun nodes o rest => (rest.1 x mem).2)
    (fun nodes o rest => (rest.1 x mem).1.settings ▸ counted)
    (T := fun nodes o r => r = .ok f.new ∧ f.Rest (.settled f.new) nodes ∧
      K₅ (replayed nodes) o) ?_).mono ?_
  · intro w' plan self node holds
    have settings : plan.settings = f.settings ∧ plan.strategy = f.strategy := by
      obtain ⟨nodes, -, set, strategy, nodes', rest, rfl⟩ := holds
      rw [Function.update_self] at set strategy
      exact ⟨set.symm.trans (rest.1 x mem).1.settings,
        strategy.symm.trans (rest.1 x mem).1.strategy⟩
    have begun : w'.Holds who fun nodes o => (nodes x).address = x ∧
        f.Run x false base base nodes ∧ K₀ (replayed nodes) o := by
      obtain ⟨_, hosts, -, -, nodes', ⟨rest, k⟩, rfl⟩ := holds
      refine ⟨_, hosts, hosts.address mem', rest.run mem, ?_⟩
      rw [replayed_update_self (n := Rehash.taken (nodes' x)) rfl]
      exact k
    have departed : (Rehash.depart around plan f.leaver f.old).Ends now w' fun w'' r =>
        r = .ok f.new ∧
        w''.Holds (who.leaving (Rehash.hintsLeft plan.settings plan.self f.old f.new))
          fun nodes o => f.Run x false (.settled f.new) (.settled f.new) nodes ∧
            K₅ (replayed nodes) o := by
      refine Rehash.depart_ends
        (A := f.Watches x true (.moving f.old f.new) base K₁)
        (U := f.Watches x true (.moving f.old f.new) (.moving f.old f.new) K₂)
        (V := f.Watches x true (.moving f.old f.new) (.moving f.old f.new) fun _ => K₃)
        (D := f.Watches x false (.settled f.new) (.moving f.old f.new) fun _ => K₃)
        (B := fun nodes o => (nodes x).address = x ∧
          f.Watches x false (.settled f.new) (.settled f.new) (fun _ => K₄) nodes o)
        silent self ?other ?member ?without ?enabled begun ?opened ?union ?moved ?finished ?final
        ?dropped
      case other =>
        rw [node]
        exact fun same => sound.left (same ▸ mem)
      case member => exact sound.before.contains_iff.mpr (sound.mem_old.mpr (.inr rfl))
      case without =>
        rw [settings.2]
        exact without_eq sound
      case enabled =>
        rw [settings.1]
        exact sound.enabled
      case opened =>
        rintro nodes o ⟨address, run, k⟩
        rw [node]
        refine ⟨run.self.disabled, run.update ((run.self.logging _).install _), ?_⟩
        rw [replayed_update_self (n := (Rehash.logging f.old (nodes x)).install _) rfl,
          Function.update_self]
        exact opened _ _ _ address run.self.replayed k
      case union =>
        rw [node]
        refine union.mono ?_
        rintro nodes o - ⟨run, k⟩
        refine ⟨run.install _, ?_⟩
        rw [replayed_installed]
        beta_reduce
        rw [if_pos rfl]
        exact k
      case moved =>
        exact fun w'' holds'' => push_ends sound silent census self node settings.1 holds'' start
          step finish
      case finished =>
        rintro nodes o ⟨run, k⟩
        rw [node]
        refine ⟨run.update (run.self.finishTransition.install _), ?_⟩
        rw [replayed_update_self (n := (nodes x).finishTransition.install (.settled f.new))
          (replayed_finishTransition run.self.enabled)]
        exact k
      case final =>
        rw [node]
        refine final.mono ?_
        rintro nodes o address ⟨run, k⟩
        refine ⟨?_, run.install _, ?_⟩
        · beta_reduce
          rw [if_pos rfl]
          exact address x mem'
        · rw [replayed_installed]
          exact k
      case dropped =>
        rintro nodes o ⟨address, run, k⟩
        rw [node]
        refine ⟨run.update (run.self.dropUnowned _), ?_⟩
        rw [replayed_update, replayed_dropUnowned run.self, address]
        exact drop _ _ k
    rw [settings.1, self.self, node] at departed
    have carried : (Rehash.carryOut around plan (.leave f.leaver f.old)).Ends now w' _ :=
      Rehash.carryOut_ends departed
    refine carried.mono ?_
    rintro w'' r ⟨rfl, holds''⟩
    refine holds''.mono ?_
    rintro nodes o ⟨run, k⟩
    refine ⟨rfl, run.rest, ?_⟩
    rw [replayed_update_self (n := Rehash.givenBack (nodes x)) rfl]
    exact k
  · rintro w' r ⟨nodes, hosts, rfl, rest, k⟩
    exact ⟨rfl, _, nodes, hosts, rest, k⟩

/-- The run of one survivor, on the stores: opened with `K₀`, the union is
announced between `K₁` and `K₂`, `I held done` holds while the rows `done` have
been handed over, and the new ring is announced between `K₃` and `K₄`. -/
theorem part_ends (sound : f.Sound) (silent : around.Silent) (census : who.members = f.members)
    (mem : x ∈ f.members) (counted : f.settings.deadline.CountedFrom now)
    {base : MemberMapping} (K₀ : (Address → Store) → ε → Prop)
    (K₁ K₂ : Store → (Address → Store) → ε → Prop)
    (I : List Entry → List (Address × List Entry) → (Address → Store) → ε → Prop)
    (K₃ K₄ K₅ : (Address → Store) → ε → Prop)
    (h : w.Holds who fun nodes o => f.Rest base nodes ∧ K₀ (replayed nodes) o)
    (opened : ∀ D o, K₀ D o → K₁ (D x) D o)
    (union : around.Leads who
      { sender := x, targets := who.members.filter (· != x),
        command := .installMapping (.moving f.old f.new) }
      (f.Sees x true (.moving f.old f.new) base K₁)
      (f.Sees x true (.moving f.old f.new) base K₂))
    (start : ∀ s D o, s.Keyed → K₂ s D o → I (f.heldBy x s) [] D o)
    (step : ∀ held rows done row rest, f.Rows x held rows → done ++ row :: rest = rows →
      around.Leads who { sender := x, targets := [row.1], command := .pushState row.2 }
        (f.Sees x true (.moving f.old f.new) (.moving f.old f.new) fun _ => I held done)
        (f.Sees x true (.moving f.old f.new) (.moving f.old f.new) fun _ D =>
          I held (done ++ [row])
            (Function.update D row.1 ((D row.1).merge row.2).1)))
    (finish : ∀ held rows D o, f.Rows x held rows → I held rows D o → K₃ D o)
    (final : around.Leads who
      { sender := x, targets := who.members.filter (· != x),
        command := .installMapping (.settled f.new) }
      (f.Sees x false (.settled f.new) (.moving f.old f.new) fun _ => K₃)
      (f.Sees x false (.settled f.new) (.moving f.old f.new) fun _ => K₄))
    (drop : ∀ D o, K₄ D o → K₅ (Function.update D x (f.keptBy x (D x))) o) :
    (Rehash.run around rehash (who.serial x) (.leave f.leaver f.old)).Ends now w fun w' r =>
      r = .ok f.new ∧ ∃ errands, w'.Holds (who.leaving errands) fun nodes o =>
        f.Rest (.settled f.new) nodes ∧ K₅ (replayed nodes) o := by
  exact watched_part_ends sound silent census mem counted _ K₀ (fun n => K₁ n.store)
    (fun n => K₂ n.store) (fun held done _ => I held done) K₃ K₄ K₅ h
    (fun n D o _ store k => store ▸ opened D o k) union (fun n => start n.store)
    (fun held rows done row rest spec _ => step held rows done row rest spec)
    (fun held rows _ => finish held rows) final drop

/-- What the requests of a sending lead to, on the stores.  A request goes to
the recipients under the mapping of the member that it is made to. -/
theorem clients_see (sound : f.Sound) (census : who.members = f.members)
    {script : Nat → Sending → List Request} {sending : Sending} {opened : Bool}
    (mine others : Going) {K L : Store → (Address → Store) → Chronicle → Prop}
    (I : List Request → Store → (Address → Store) → Chronicle → Prop)
    (issuers : ∀ i, ∀ r ∈ script i sending, r.issuer ∈ f.members)
    (count : ∀ s D o, K s D o → I [] s D o.count)
    (step : ∀ i done r rest, done ++ r :: rest = script i sending →
      ∀ s D o, I done s D o → ∀ g, g = (if r.issuer = x then mine else others) → ∀ outcome,
      (outcome = .ok () ↔ ∀ wr ∈ r.tx.writes, ∀ a ∈ f.recipients g wr.key, a ∈ f.members) →
      ∀ s' D', (opened = true → s' = s) →
        (∀ a ∈ f.members, D' a = (D a).writeAll (share (f.recipients g) r.tx a)) →
        I (done ++ [r]) s' D' (o.note r outcome))
    (last : ∀ i s D o, I (script i sending) s D o → L s D o) :
    (clients script).Leads who sending (f.Sees x opened (f.mapping mine) (f.mapping others) K)
      (f.Sees x opened (f.mapping mine) (f.mapping others) L) := by
  refine clients_lead
    (fun done => f.Sees x opened (f.mapping mine) (f.mapping others) (I done)) ?_ ?_ ?_
  · rintro nodes o ⟨run, k⟩
    exact ⟨run, count _ _ _ k⟩
  · rintro i done r rest split nodes o ⟨run, k⟩
    have issuer := issuers i r (split ▸ List.mem_append_right _ List.mem_cons_self)
    obtain ⟨g, going, serving⟩ : ∃ g, g = (if r.issuer = x then mine else others) ∧
        (nodes r.issuer).serving = f.recipients g := ⟨_, rfl, run.serving_eq issuer⟩
    rw [serving, census]
    refine ⟨⟨issuer, fun wr _ => nodup_recipients sound g wr.key⟩, fun outcome acked =>
      ⟨run.spread _ r.tx, step i done r rest split _ _ o k g going outcome acked _ _ ?_
        fun a ha => run.replayed_spread _ r.tx ha⟩⟩
    intro isOpen
    subst isOpen
    obtain ⟨kept, -, eq⟩ := spread_of_open (f.recipients g) r.tx run.self.enabled
    rw [eq]
  · rintro i nodes o ⟨run, k⟩
    exact ⟨run, last i _ _ _ k⟩

theorem clients_see_nothing {script : Nat → Sending → List Request} {sending : Sending}
    {opened : Bool} {mine others : MemberMapping}
    {K : Store → (Address → Store) → Chronicle → Prop} (nothing : ∀ i, script i sending = [])
    (count : ∀ s D o, K s D o → K s D o.count) :
    (clients script).Leads who sending (f.Sees x opened mine others K)
      (f.Sees x opened mine others K) := by
  refine clients_lead (fun _ => f.Sees x opened mine others K) ?_ ?_ fun _ _ _ holds => holds
  · rintro nodes o ⟨run, k⟩
    exact ⟨run, count _ _ _ k⟩
  · intro i done r rest split
    rw [nothing i] at split
    exact absurd split (by simp)

end

end Farewell

end SlotRing
