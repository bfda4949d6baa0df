/-
# Histories

A cluster is founded, and then one turn comes after the other, in any order and
number.  As long as no departure is obstructed, all owners of every key have its
last value after every turn; and at the first departure that is obstructed one
of them loses it (`histories_keep_up_to_date_iff`).  So a history in which
nobody leaves, or nothing is removed, keeps everything up to date.
-/
import Mathlib.Data.List.Induction
import SlotRing.Proofs.Rehash.Obstruction
import SlotRing.Scenario.Run

namespace SlotRing

namespace Turn

def members (ms : List Address) : Turn → List Address
  | .join a => ms ++ [a]
  | .leave a _ => ms.filter (· != a)
  | .write .. | .errand _ => ms

def writes : Turn → List Write
  | .write _ w => [w]
  | .join _ | .leave .. | .errand _ => []

def lastValue (h : List Turn) (key : String) : Option (List UInt8) :=
  valueAfter (h.flatMap writes) key none

theorem lastValue_snoc (h : List Turn) (t : Turn) (key : String) :
    lastValue (h ++ [t]) key = valueAfter t.writes key (lastValue h key) := by
  rw [lastValue, List.flatMap_append, List.flatMap_singleton, valueAfter_append]
  rfl

/-- What members can do: write, take in somebody for whom nobody moves, and let
one of them go, but not the last one. -/
def Fits (strategy : Strategy) (ms : List Address) : Turn → Prop
  | .write issuer _ => issuer ∈ ms
  | .join a => ∃ old new, Ring.Grows strategy ms a old new
  | .leave a order => a ∈ ms ∧ order ≠ [] ∧ order.Perm (ms.filter (· != a))
  | .errand _ => True

def AllFit (strategy : Strategy) : (ms : List Address) → List Turn → Prop
  | _, [] => True
  | ms, t :: ts => t.Fits strategy ms ∧ AllFit strategy (t.members ms) ts

theorem AllFit.fits {strategy : Strategy} {ms : List Address} {p rest : List Turn} {t : Turn}
    (all : AllFit strategy ms (p ++ t :: rest)) : t.Fits strategy (p.foldl members ms) := by
  induction p generalizing ms with
  | nil => exact all.1
  | cons s p ih => exact ih all.2

def carryOutAll (settings : Settings) : List Turn → Procedure (World Unit) Unit
  | [] => return
  | t :: ts => do
    t.carryOut settings
    carryOutAll settings ts

theorem carryOutAll_snoc (settings : Settings) (h : List Turn) (t : Turn) :
    carryOutAll settings (h ++ [t]) = carryOutAll settings h >>= fun _ => t.carryOut settings := by
  induction h with
  | nil =>
    show (t.carryOut settings >>= fun _ => pure ()) = (pure () >>= fun _ => t.carryOut settings)
    rw [pure_bind]
    exact bind_pure _
  | cons s h ih =>
    show (s.carryOut settings >>= fun _ => carryOutAll settings (h ++ [t])) = _
    rw [ih]
    exact (bind_assoc _ _ _).symm

end Turn

structure Founding where
  settings : Settings
  strategy : Strategy
  members : List Address

namespace Founding

/-- The settings are fit for a rehash that moves state and tells former owners, by a
deadline that the clock counts to, with more than one copy of every key; and there are
some members, but not too many. -/
structure Sound (f : Founding) : Prop where
  valid : f.settings.validate = .ok ()
  named : f.settings.strategy = .ok f.strategy
  copies : 2 ≤ f.settings.owners
  enabled : f.settings.rehashEnabled = true
  tells : f.settings.invalidateStale = true
  counted : f.settings.deadline.CountedFrom 0
  inhabited : f.members ≠ []
  distinct : f.members.Nodup
  room : f.members.length ≤ ringSize

variable (f : Founding)

def membersAfter (h : List Turn) : List Address := h.foldl Turn.members f.members

def Reaches (h : List Turn) (w : World Unit) : Prop :=
  Turn.carryOutAll f.settings h 0
    { cluster := Cluster.founded f.settings f.members, outside := () } = .done w ()

/-- All members go by the ring of the members, and every owner of a key has the
value that was put last, if no remove came later, and else nothing. -/
def UpToDate (h : List Turn) (w : World Unit) : Prop :=
  ∃ ring, Ring.ofMembers f.strategy (f.membersAfter h) = .ok ring ∧
    ∀ a ∈ f.membersAfter h, ∃ n, w.cluster.nodes.find? a = some n ∧ n.mapping = .settled ring ∧
      ∀ key, a ∈ ring.locate key f.settings.owners → n.store.value? key = Turn.lastValue h key

/-- The departure of a member would be obstructed now. -/
def Obstructed (h : List Turn) (leaver : Address) (w : World Unit) : Prop :=
  ∃ old new, Ring.ofMembers f.strategy (f.membersAfter h) = .ok old ∧
    Ring.ofMembers f.strategy ((f.membersAfter h).filter (· != leaver)) = .ok new ∧
    w.cluster.Obstructed f.settings.owners old new leaver

/-- The cluster is tidy. -/
structure Kept (h : List Turn) (w : World Unit) (ring : MemberRing) (who : Census) : Prop where
  inhabited : f.membersAfter h ≠ []
  census : who.members = f.membersAfter h
  built : Ring.ofMembers f.strategy (f.membersAfter h) = .ok ring
  tidy : w.Holds who fun nodes _ =>
    Tidy f.settings f.strategy (f.membersAfter h) ring (Turn.lastValue h) nodes

section

variable {f : Founding} {h : List Turn} {t : Turn} {w w' : World Unit} {ring : MemberRing}
  {who : Census}

theorem membersAfter_snoc : f.membersAfter (h ++ [t]) = t.members (f.membersAfter h) := by
  rw [membersAfter, List.foldl_append]
  rfl

theorem Reaches.unique (reached : f.Reaches h w) (reached' : f.Reaches h w') : w = w' := by
  rw [Reaches, reached] at reached'
  cases reached'
  rfl

theorem Reaches.snoc (reached : f.Reaches h w) {Q : World Unit → Unit → Prop}
    (ends : (t.carryOut f.settings).Ends 0 w Q) : ∃ w', f.Reaches (h ++ [t]) w' ∧ Q w' () := by
  obtain ⟨w', ⟨⟩, run, q⟩ := ends
  refine ⟨w', ?_, q⟩
  rw [Reaches, Turn.carryOutAll_snoc]
  show (Turn.carryOutAll f.settings h 0 _).bind 0 _ = _
  rw [reached]
  exact run

theorem Kept.upToDate (kept : f.Kept h w ring who) : f.UpToDate h w := by
  obtain ⟨nodes, hosts, tidy⟩ := kept.tidy
  refine ⟨ring, kept.built, fun a ha => ⟨nodes a, hosts.find? (kept.census ▸ ha),
    (tidy.rest a ha).1.mapping, fun key owner => ?_⟩⟩
  rw [tidy.values key a ha, if_pos owner]

theorem exists_kept_nil (sound : f.Sound) :
    ∃ w, f.Reaches [] w ∧ ∃ ring who, f.Kept [] w ring who := by
  obtain ⟨ring, built⟩ : ∃ r, Ring.ofMembers f.strategy f.members = .ok r :=
    Ring.exists_ofMembers _ sound.room
  let made := fun a => Node.made a f.settings f.strategy ring
  obtain ⟨serial, hosts⟩ : ∃ serial,
      (Cluster.founded f.settings f.members).Hosts ⟨f.members, serial, some []⟩ made :=
    Cluster.exists_hosts_founded sound.distinct fun a _ =>
      Node.create_eq_ok_iff.mpr ⟨sound.valid, f.strategy, ring, sound.named, built, rfl⟩
  refine ⟨_, rfl, ring, _, sound.inhabited, rfl, built, made, hosts, fun a _ => ?_,
    fun key a _ => ?_⟩
  · exact ⟨⟨rfl, rfl, rfl, rfl, fun _ => rfl, Store.keyed_empty⟩, rfl⟩
  · refine (Store.value?_eq_none_iff.mpr (Store.get?_empty key)).trans ?_
    split <;> rfl

theorem Kept.snoc {members : List Address} (after : t.members (f.membersAfter h) = members)
    (inhabited : members ≠ []) (census : who.members = members)
    (built : Ring.ofMembers f.strategy members = .ok ring)
    (tidy : w.Holds who fun nodes _ => Tidy f.settings f.strategy members ring
      (fun key => valueAfter t.writes key (Turn.lastValue h key)) nodes) :
    f.Kept (h ++ [t]) w ring who := by
  rw [← membersAfter_snoc] at after
  subst after
  refine ⟨inhabited, census, built, ?_⟩
  rw [show Turn.lastValue (h ++ [t]) = _ from funext (Turn.lastValue_snoc h t)]
  exact tidy

theorem Kept.stays (sound : f.Sound) (fits : t.Fits f.strategy (f.membersAfter h))
    (alone : ∀ a order, t ≠ .leave a order) (kept : f.Kept h w ring who) :
    (t.carryOut f.settings).Ends 0 w fun w' _ =>
      ∃ ring' who', f.Kept (h ++ [t]) w' ring' who' := by
  cases t with
  | write issuer wr =>
    have written : (Request.carryOut ⟨issuer, .single wr⟩).Ends 0 w _ :=
      Tidy.write_ends kept.built kept.census fits kept.tidy
    refine Procedure.Ends.discard (written.mono ?_)
    rintro w' _ ⟨-, tidy⟩
    exact ⟨ring, who, .snoc rfl kept.inhabited kept.census kept.built tidy⟩
  | join a =>
    obtain ⟨old, new, grows⟩ := fits
    obtain rfl : ring = old := Except.ok.inj (kept.built.symm.trans grows.before)
    refine (Tidy.join_ends grows kept.census kept.inhabited sound.valid sound.named sound.enabled
      sound.tells sound.counted kept.tidy).mono ?_
    rintro w' _ ⟨who', census, tidy⟩
    have inhabited : f.membersAfter h ++ [a] ≠ [] :=
      List.append_ne_nil_of_right_ne_nil _ (List.cons_ne_nil a [])
    exact ⟨new, who', .snoc rfl inhabited census grows.after tidy⟩
  | leave a order => exact absurd rfl (alone a order)
  | errand n =>
    refine (Tidy.errand_ends kept.census n kept.tidy).mono ?_
    rintro w' _ ⟨errands, tidy⟩
    exact ⟨ring, ⟨who.members, who.serial, errands⟩,
      .snoc rfl kept.inhabited kept.census kept.built tidy⟩

/-- What a departure does to a tidy cluster: it stays tidy, unless the departure is
obstructed, and then it is not up to date any more. -/
theorem Kept.leave_ends (sound : f.Sound) {a : Address} {order : List Address}
    (fits : (Turn.leave a order).Fits f.strategy (f.membersAfter h))
    (kept : f.Kept h w ring who) :
    ((Turn.leave a order).carryOut f.settings).Ends 0 w fun w' _ =>
      (¬ f.Obstructed h a w → ∃ ring' who', f.Kept (h ++ [.leave a order]) w' ring' who') ∧
      (f.Obstructed h a w → ¬ f.UpToDate (h ++ [.leave a order]) w') := by
  obtain ⟨mem, inhabited, perm⟩ := fits
  obtain ⟨new, left⟩ := Ring.exists_ofMembers_of_subset kept.built
    fun m hm => (List.mem_filter.mp hm).1
  have obstructed : f.Obstructed h a w ↔ w.cluster.Obstructed f.settings.owners ring new a := by
    constructor
    · rintro ⟨old', new', before, after, stuck⟩
      obtain rfl := Except.ok.inj (kept.built.symm.trans before)
      obtain rfl := Except.ok.inj (left.symm.trans after)
      exact stuck
    · exact fun stuck => ⟨ring, new, kept.built, left, stuck⟩
  refine Procedure.Ends.discard ((Tidy.leave_ends kept.built left kept.census mem perm inhabited
    sound.copies sound.enabled sound.counted kept.tidy).mono ?_)
  rintro w' _ ⟨who', census, nodes, hosts, stays, loses⟩
  constructor
  · intro free
    obtain ⟨b, hb⟩ := List.exists_mem_of_ne_nil _ inhabited
    exact ⟨new, who', .snoc rfl (List.ne_nil_of_mem (perm.subset hb)) census left
      ⟨nodes, hosts, stays fun stuck => free (obstructed.mpr stuck)⟩⟩
  · rintro stuck ⟨ring', built', right⟩
    have fewer : f.membersAfter (h ++ [.leave a order]) = (f.membersAfter h).filter (· != a) :=
      membersAfter_snoc
    rw [fewer] at built' right
    obtain rfl := Except.ok.inj (left.symm.trans built')
    obtain ⟨key, g, gains, wrong⟩ := loses (obstructed.mp stuck)
    have remains : g ∈ (f.membersAfter h).filter (· != a) :=
      (Ring.mem_members_ofMembers left).mp
        ((Ring.sound_ofMembers left).mem_members_of_mem_locate gains)
    obtain ⟨n, found, -, values⟩ := right g remains
    obtain rfl := Option.some.inj ((hosts.find? (census ▸ remains)).symm.trans found)
    exact wrong ((values key gains).trans (Turn.lastValue_snoc h _ key))

/-- What a turn does to a tidy cluster: it stays tidy, unless the turn is a
departure that is obstructed, and then it is not up to date any more. -/
theorem Kept.turn_ends (sound : f.Sound) (fits : t.Fits f.strategy (f.membersAfter h))
    (kept : f.Kept h w ring who) :
    (t.carryOut f.settings).Ends 0 w fun w' _ =>
      ((∀ a order, t = .leave a order → ¬ f.Obstructed h a w) →
        ∃ ring' who', f.Kept (h ++ [t]) w' ring' who') ∧
      ∀ a order, t = .leave a order → f.Obstructed h a w → ¬ f.UpToDate (h ++ [t]) w' := by
  by_cases leaves : ∃ a order, t = .leave a order
  · obtain ⟨a, order, rfl⟩ := leaves
    refine (kept.leave_ends sound fits).mono ?_
    rintro w' _ ⟨stays, loses⟩
    refine ⟨fun free => stays (free a order rfl), ?_⟩
    rintro _ _ ⟨⟩ stuck
    exact loses stuck
  · have alone : ∀ a order, t ≠ .leave a order := fun a order is => leaves ⟨a, order, is⟩
    refine (kept.stays sound fits alone).mono fun w' _ next => ⟨fun _ => next, ?_⟩
    exact fun a order is => absurd is (alone a order)

theorem fits_then {p : List Turn} (fits : Turn.AllFit f.strategy f.members h)
    (part : p ++ [t] <+: h) : t.Fits f.strategy (f.membersAfter p) := by
  obtain ⟨rest, rfl⟩ := part
  rw [List.append_assoc] at fits
  exact fits.fits

theorem exists_kept (sound : f.Sound) (fits : Turn.AllFit f.strategy f.members h)
    (free : ∀ p a order w ring who, p ++ [.leave a order] <+: h → f.Reaches p w →
      f.Kept p w ring who → ¬ f.Obstructed p a w) :
    ∀ p, p <+: h → ∃ w, f.Reaches p w ∧ ∃ ring who, f.Kept p w ring who := by
  intro p
  induction p using List.reverseRecOn with
  | nil => exact fun _ => exists_kept_nil sound
  | append_singleton p t ih =>
    intro part
    obtain ⟨w, reached, ring, who, kept⟩ := ih ((List.prefix_append p [t]).trans part)
    obtain ⟨w', reached', next, -⟩ := reached.snoc (kept.turn_ends sound (fits_then fits part))
    exact ⟨w', reached', next fun a order leaves =>
      free p a order w ring who (leaves ▸ part) reached kept⟩

end

end Founding

/-- A cluster is founded, and one turn comes after the other: clients put and
remove keys, members join, members leave, and errands that rehashes have left
are run at any time.  The cluster is up to date after every turn if and only if
no departure is obstructed: no member that comes to own a key by it remembers a
removal of the key at a version that the remaining copies have not got
beyond. -/
theorem histories_keep_up_to_date_iff {f : Founding} (sound : f.Sound) {h : List Turn}
    (fits : Turn.AllFit f.strategy f.members h) :
    (∀ p, p <+: h → ∃ w, f.Reaches p w ∧ f.UpToDate p w) ↔
      ∀ p a order, p ++ [.leave a order] <+: h → ∃ w, f.Reaches p w ∧ ¬ f.Obstructed p a w := by
  constructor
  · intro right
    have free (p : List Turn) (a : Address) (order : List Address) (w : World Unit)
        (ring : MemberRing) (who : Census) (part : p ++ [.leave a order] <+: h)
        (reached : f.Reaches p w) (kept : f.Kept p w ring who) : ¬ f.Obstructed p a w := by
      intro stuck
      obtain ⟨w', reached', -, stale⟩ :=
        reached.snoc (kept.turn_ends sound (Founding.fits_then fits part))
      obtain ⟨w'', again, fresh⟩ := right _ part
      exact stale a order rfl stuck (reached'.unique again ▸ fresh)
    intro p a order part
    obtain ⟨w, reached, ring, who, kept⟩ :=
      Founding.exists_kept sound fits free p ((List.prefix_append p _).trans part)
    exact ⟨w, reached, free p a order w ring who part reached kept⟩
  · intro free p part
    obtain ⟨w, reached, ring, who, kept⟩ := Founding.exists_kept sound fits
      (fun p a order w ring who part reached _ => by
        obtain ⟨w', again, clear⟩ := free p a order part
        exact reached.unique again ▸ clear) p part
    exact ⟨w, reached, kept.upToDate⟩

theorem histories_keep_up_to_date_iff_of_three_turns :
    let f : Founding := ⟨{}, .sip24, ["A", "B"]⟩
    let h : List Turn := [.write "A" (.put "k7" [1]), .join "C", .leave "B" ["C", "A"]]
    ((∀ p, p <+: h → ∃ w, f.Reaches p w ∧ f.UpToDate p w) ↔
      ∀ p a order, p ++ [.leave a order] <+: h → ∃ w, f.Reaches p w ∧ ¬ f.Obstructed p a w) ∧
    ∃ w, f.Reaches (h.take 2) w ∧ f.UpToDate (h.take 2) w := by
  intro f h
  have sound : f.Sound := by
    refine ⟨?_, ?_, ?_, rfl, rfl, ?_, ?_, ?_, ?_⟩ <;> decide +kernel
  have grows : ∃ old new, Ring.Grows Strategy.sip24 ["A", "B"] "C" old new :=
    Ring.exists_grows (by decide) (by decide) (by decide +kernel)
  have writes : Turn.Fits f.strategy f.members (.write "A" (.put "k7" [1])) :=
    show "A" ∈ ["A", "B"] by decide
  have leaves : Turn.Fits f.strategy ["A", "B", "C"] (.leave "B" ["C", "A"]) :=
    ⟨by decide, List.cons_ne_nil _ _, show List.Perm ["C", "A"] ["A", "C"] from .swap _ _ _⟩
  refine ⟨histories_keep_up_to_date_iff sound ⟨writes, grows, leaves, trivial⟩, ?_⟩
  -- up to there nobody leaves
  refine (histories_keep_up_to_date_iff (h := h.take 2) sound ⟨writes, grows, trivial⟩).mpr ?_ _
    (List.prefix_refl _)
  rintro p a order ⟨rest, eq⟩
  have listed : Turn.leave a order ∈ h.take 2 := by
    rw [← eq]
    simp
  simp [h] at listed

/-- A key is removed, put anew when another member has come to own it, and
handed back to a member that has seen it removed: that owner does not take
it. -/
def refusedCopy : List Scenario.Step :=
  let members := ["A", "B"]
  [.node "A" members {} true, .node "B" members {} true, .put "A" "k7" [1], .remove "A" "k7",
    .node "C" ["C"] {} true, .join "C" "of C", .run "of C", .put "A" "k7" [2],
    .unregister "B", .leave "A" "B" "leave A", .leave "C" "B" "leave C", .run "leave A",
    .run "leave C", .store "C" (.get "k7"), .store "A" (.get "k7")]

theorem put_lost_after_removal :
    (Scenario.run refusedCopy).filterMap (fun answer => match answer.outcome with
      | .store (.entry e) => some (e.map (·.value))
      | _ => none) = [some [2], none] := by
  decide +kernel

end SlotRing
