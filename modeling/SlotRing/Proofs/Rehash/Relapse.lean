/-
# Going back to the old ring

A rehash that cannot move its state goes back to the ring it comes from.  What that
comes to for its own node, and for any other that is watched, is told by the diary
(`Relapse`): until the union is announced the node writes through, then it logs, and
when the old ring is announced again, its store is what it was when the log was
opened, and the log is gone with all that was in it.

Who was in the middle of it does not matter: state that was pulled is merged only
when all of it is there, and writes that got to the node were logged.
-/
import SlotRing.Proofs.Cluster.Accounts
import SlotRing.Proofs.Cluster.Registration
import SlotRing.Proofs.Rehash.Hindered

namespace SlotRing

open Picture World

/-- All members but one, to which that one announces mappings. -/
abbrev Census.beside (who : Census) (a : Address) : List Address :=
  who.members.filter (· != a)

/-- A rehash on the node of `x` was to move from `old` to `new`, and went back: `first`
is the node before that and `last` after it, `opened` is the node when the union is
announced to `targets`, and `dropped` when the old ring is announced again.  The notes
are those that are made before, between and after the two announcements. -/
structure Relapse (x : Address) (targets : List Address) (old new : MemberRing)
    (first last : Node) (notes before during after : List Note) (opened dropped : Node) :
    Prop where
  notes_eq : notes =
    before ++ .sent ⟨x, targets, .installMapping (.moving old new)⟩ (some opened) ::
      (during ++ .sent ⟨x, targets, .installMapping (.settled old)⟩ (some dropped) :: after)
  once : ∀ note ∈ before ++ (during ++ after), ¬ note.Announces
  logs : opened.log.state = .enabled
  begins : opened.store = first.store.writeAll (acks x before)
  kept : dropped.store = opened.store
  closes : dropped.log = .closed
  ends : last.store = dropped.store.writeAll (acks x after)
  closed : last.log = .closed
  back : last.mapping = .settled old

namespace Rehash

section

variable (watched : Address → Prop) (x : Address) (targets : List Address) (old new : MemberRing)
  (start : Picture Diary)

abbrev Still : Picture Diary → Picture Diary → Prop :=
  Serving watched (fun note => ¬ note.Announces) none

abbrev Since (mapping : MemberMapping) : Picture Diary → Picture Diary → Prop :=
  Serving watched (fun note => ¬ note.Announces) (some mapping)

def Opened (p : Picture Diary) : Prop :=
  ∃ q, Still watched start q ∧ p = q.withNode x (logging old (q.nodes x))

def United (p : Picture Diary) : Prop :=
  ∃ q, Still watched start q ∧
    p = q.withNode x ((logging old (q.nodes x)).install (.moving old new))

def During (p : Picture Diary) : Prop :=
  ∃ q, United watched x old new start q ∧
    Since watched (.moving old new)
      (q.sending ⟨x, targets, .installMapping (.moving old new)⟩) p

def Dropped (p : Picture Diary) : Prop :=
  ∃ q, During watched x targets old new start q ∧ p = q.withNode x (q.nodes x).abortTransition

def Returned (p : Picture Diary) : Prop :=
  ∃ q, During watched x targets old new start q ∧
    p = q.withNode x ((q.nodes x).abortTransition.install (.settled old))

def Undone (p : Picture Diary) : Prop :=
  ∃ q, Returned watched x targets old new start q ∧
    Since watched (.settled old) (q.sending ⟨x, targets, .installMapping (.settled old)⟩) p

end

/-! ## What the diary says then -/

section

variable {watched : Address → Prop} {x : Address} {targets : List Address}
  {old new : MemberRing} {start p : Picture Diary}

/-- The rehash has relapsed, and a node that is watched beside has carried out what it
has acknowledged; whoever has heard of the old ring goes by it. -/
theorem relapse_of_undone (seen : watched x) (blank : start.outside.notes = [])
    (closed : (start.nodes x).log.state = .disabled)
    (h : Undone watched x targets old new start p) :
    ∃ before during after opened dropped, Relapse x targets old new (start.nodes x) (p.nodes x)
      p.outside.notes before during after opened dropped ∧
      ∀ a, watched a → a ≠ x → (start.nodes a).log.state = .disabled →
        (p.nodes a).store = (start.nodes a).store.writeAll (acks a p.outside.notes) ∧
        ((∃ note ∈ after, note.Heard a) → (p.nodes a).mapping = .settled old) := by
  obtain ⟨-, ⟨d, ⟨-, ⟨s, ⟨before, noted₀, quiet₀, first⟩, rfl⟩, during, noted₁, quiet₁, next⟩, rfl⟩,
    after, noted₂, quiet₂, last⟩ := h
  rw [blank, List.nil_append] at noted₀
  let opened := (logging old (s.nodes x)).install (.moving old new)
  let dropped := (d.nodes x).abortTransition.install (.settled old)
  have notes_eq : p.outside.notes =
      before ++ .sent ⟨x, targets, .installMapping (.moving old new)⟩ (some opened) ::
        (during ++ .sent ⟨x, targets, .installMapping (.settled old)⟩ (some dropped) :: after) := by
    have sent₁ : d.outside.notes = (before ++ [.sent ⟨x, targets,
        .installMapping (.moving old new)⟩ (some opened)]) ++ during := by
      rw [noted₁, ← noted₀]
      simp only [Picture.sending, withNode_self]
      rfl
    rw [noted₂]
    simp only [Picture.sending, withNode_self]
    show d.outside.notes ++ [_] ++ after = _
    rw [sent₁]
    simp only [List.append_assoc, List.cons_append, List.nil_append, dropped]
  have once : ∀ note ∈ before ++ (during ++ after), ¬ note.Announces := by
    intro note h
    rcases List.mem_append.mp h with h | h
    · exact quiet₀ note h
    · exact (List.mem_append.mp h).elim (quiet₁ note) (quiet₂ note)
  have first_x := (first x seen).of_closed closed
  have next_x : Account x (some (.moving old new)) during opened (d.nodes x) := by
    have := next x seen
    rwa [show ((s.withNode x opened).sending _).nodes x = opened from withNode_self ..] at this
  have last_x : Account x (some (.settled old)) after dropped (p.nodes x) := by
    have := last x seen
    rwa [show ((d.withNode x dropped).sending _).nodes x = dropped from withNode_self ..] at this
  have between := next_x.of_open (by exact nofun)
  have ending := last_x.of_closed rfl
  refine ⟨before, during, after, opened, dropped,
    ⟨notes_eq, once, rfl, first_x.1, between.1, rfl, ending.1, ending.2.1, ?_⟩, ?_⟩
  · rcases last_x.goes with ⟨still, -⟩ | ⟨mapping, new, goes⟩
    · exact congrArg Accepted.mapping still
    · exact goes.trans (Option.some.inj new).symm
  · intro a seen other closed
    have next_a : Account a (some (.moving old new)) during (s.nodes a) (d.nodes a) := by
      have := next a seen
      rwa [show ((s.withNode x opened).sending _).nodes a = s.nodes a from
        withNode_of_ne _ _ other] at this
    have last_a : Account a (some (.settled old)) after (d.nodes a) (p.nodes a) := by
      have := last a seen
      rwa [show ((d.withNode x dropped).sending _).nodes a = d.nodes a from
        withNode_of_ne _ _ other] at this
    obtain ⟨store₀, log₀, -⟩ := (first a seen).of_closed closed
    obtain ⟨store₁, log₁, -⟩ := next_a.of_closed (log₀ ▸ closed)
    obtain ⟨store₂, -, -⟩ := last_a.of_closed (log₁ ▸ log₀ ▸ closed)
    refine ⟨?_, fun ⟨note, noted, heard⟩ => ?_⟩
    · rw [store₂, store₁, store₀, notes_eq, acks_append, acks_cons_of_none rfl, acks_append,
        acks_cons_of_none rfl]
      simp only [Store.writeAll, List.foldl_append]
    · obtain ⟨mapping, new, goes⟩ := last_a.mapping_of_heard noted heard
      exact goes.trans (Option.some.inj new).symm

end

/-! ## Where nothing is to be kept -/

section

variable {script : Nat → Sending → List Deed} {crew : Crew} {w : World Diary} {now : Nat}
  {plan : Plan} {new : MemberRing}

theorem announce_any (self : plan.By crew.who) {mapping : MemberMapping}
    (h : w.Has crew fun _ => True) :
    (announce (traffic script) plan mapping).Abides (Steps crew Eq) (Steps crew Any) now w
      fun w' _ => w'.Has crew fun _ => True :=
  announce_abides flow_any.alone self (A := fun _ => True) h (fun _ _ => ⟨trivial, trivial⟩)
    (traffic_minds flow_any.alone self.mem (fun _ _ => ⟨trivial, trivial⟩)
      (fun _ _ _ _ => trivial) fun _ _ _ _ _ _ _ => trivial)
    (fun _ _ _ _ => trivial) fun _ _ _ _ _ _ => trivial

theorem settle_any (self : plan.By crew.who) (h : w.Has crew fun _ => True) :
    (settle (traffic script) plan new).Abides (Steps crew Eq) (Steps crew Any) now w
      fun w' _ => w'.Has crew fun _ => True := by
  unfold settle
  exact (enter_abides flow_any _ _ h).bind (drift_steps _ flow_any) fun now' w' _ h' =>
    announce_any self h'

theorem abort_any (self : plan.By crew.who) (h : w.Has crew fun _ => True) :
    (abort (traffic script) plan new).Abides (Steps crew Eq) (Steps crew Any) now w
      fun w' _ => w'.Has crew fun _ => True := by
  unfold abort
  refine Procedure.Abides.bind (drift_steps _ flow_any) (Q := fun w' _ => w'.Has crew fun _ => True)
    ?_ fun now' w' _ h' => announce_any self h'
  rw [self.self]
  exact World.abides_modifyNode self.mem h (fun _ => rfl) fun _ _ => ⟨trivial, trivial⟩

end

/-! ## How it comes to that -/

section

variable {watched : Address → Prop} {script : Nat → Sending → List Deed} {crew : Crew}
  {w : World Diary} {now : Nat} {plan : Plan} {old new : MemberRing} {start : Picture Diary}
  {moveState : Procedure (World Diary) (Except RehashError Unit)}

/-- When state cannot be moved, and nothing but what is usual has happened meanwhile,
the rehash is undone. -/
theorem transfer_relapses (usual : Usual watched (fun note => ¬ note.Announces) script)
    (self : plan.By crew.who) (seen : watched plan.node)
    (closed : (start.nodes plan.node).log.state = .disabled)
    (h : w.Has crew (Still watched start))
    (moved : ∀ now w, w.Has crew (During watched plan.node
      (crew.who.beside plan.node) old new start) →
      moveState.Abides (Steps crew Eq) (Steps crew Any) now w fun w' r => w'.Has crew fun p =>
        ∀ cause, r = .error cause → During watched plan.node
          (crew.who.beside plan.node) old new start p) :
    (transfer (traffic script) plan old new moveState).Abides (Steps crew Eq) (Steps crew Any)
      now w fun w' r => (r = .ok () → w'.Has crew fun _ => True) ∧
        ∀ cause, r = .error cause → w'.Has crew (Undone watched plan.node
          (crew.who.beside plan.node) old new start) := by
  refine transfer_abides flow_any self h (V := fun _ => True) (Q := fun _ => True)
    (A := Opened watched plan.node old start) ?_ (fun p still _ => ⟨trivial, p, still, rfl⟩) ?_
    (fun now w h => (moved now w h).mono
      fun w' r came => ⟨fun _ => came.mono fun _ _ => trivial,
        fun cause failed => came.mono fun p here => here cause failed⟩)
    (fun _ _ => ⟨trivial, trivial⟩) ?_
  · rintro p ⟨more, noted, fine, each⟩ busy
    have log := ((each plan.node seen).of_closed closed).2.1
    exact absurd (log ▸ closed) busy
  · intro now w h
    have room : Room Eq Any (Since watched (.moving old new)) (Since watched (.moving old new)) :=
      Serving.flow.alone
    refine announce_abides room self (A := United watched plan.node old new start) h
      ?_ (usual.minds self.mem room ?_ ?_) ?_ ?_
    · rintro p ⟨q, still, rfl⟩
      refine ⟨trivial, q, still, ?_⟩
      rw [withNode_self]
      exact congrArg (Picture.mk · _ _) (Function.update_idem ..)
    · exact fun p united => ⟨trivial, p, united, Serving.flow.refl _⟩
    · exact fun p q step ⟨u, united, since⟩ => ⟨u, united, Serving.flow.trans since step⟩
    · exact fun p q step ⟨u, united, since⟩ => ⟨u, united, Serving.flow.trans since step⟩
    · exact fun target _ _ now p _ => Serving.heard rfl (usual.answered _)
  · intro now w h
    have room : Room Eq Any (Since watched (.settled old)) (Since watched (.settled old)) :=
      Serving.flow.alone
    refine abort_abides room self h
      (Q := Dropped watched plan.node (crew.who.beside plan.node) old new start)
      (A := Returned watched plan.node (crew.who.beside plan.node) old new start) ?_ ?_
      (usual.minds self.mem room ?_ ?_) ?_ ?_
    · exact fun p during => ⟨trivial, p, during, rfl⟩
    · rintro p ⟨q, during, rfl⟩
      refine ⟨trivial, q, during, ?_⟩
      rw [withNode_self]
      exact congrArg (Picture.mk · _ _) (Function.update_idem ..)
    · exact fun p back => ⟨trivial, p, back, Serving.flow.refl _⟩
    · exact fun p q step ⟨u, back, since⟩ => ⟨u, back, Serving.flow.trans since step⟩
    · exact fun p q step ⟨u, back, since⟩ => ⟨u, back, Serving.flow.trans since step⟩
    · exact fun target _ _ now p _ => Serving.heard rfl (usual.answered _)

end

/-! ## Runs that fail -/

/-- A rehash that fails has announced nothing, or it has relapsed from a ring that it
was to go over to. -/
def Failed (watched : Address → Prop) (x : Address) (targets : List Address)
    (goal : MemberRing → Prop) (old : MemberRing) (start : Picture Diary)
    (r : Except RehashError MemberRing) (p : Picture Diary) : Prop :=
  ∀ cause, r = .error cause → Still watched start p ∨
    ∃ new, goal new ∧ Undone watched x targets old new start p

/-- What is seen when a run has taken the node of `x`. -/
def begun (c : Cluster) (nodes : Address → Node) (x : Address) : Picture Diary :=
  Picture.withNode ⟨nodes, c.errands, {}⟩ x (taken (nodes x))

section

variable {c : Cluster} {who : Census} {nodes : Address → Node} {x : Address}

theorem begun_of_ne {a : Address} (other : a ≠ x) : (begun c nodes x).nodes a = nodes a :=
  withNode_of_ne _ _ other

theorem begun_eq (a : Address) : ((begun c nodes x).nodes a).log = (nodes a).log ∧
    ((begun c nodes x).nodes a).mapping = (nodes a).mapping ∧
    ((begun c nodes x).nodes a).store = (nodes a).store := by
  by_cases same : a = x
  · subst same
    rw [show (begun c nodes a).nodes a = taken (nodes a) from withNode_self ..]
    exact ⟨rfl, rfl, rfl⟩
  · rw [begun_of_ne same]
    exact ⟨rfl, rfl, rfl⟩

/-- A run that fails has announced nothing, and who is watched is what it was but for
the writes that it has acknowledged; or it has relapsed, and then whoever is watched
beside has carried out what it has acknowledged and goes by the old ring if it has
heard of it again. -/
theorem run_fails (watched : Address → Prop) (goal : MemberRing → Prop)
    {script : Nat → Sending → List Deed} {change : Change} {old : MemberRing} {rehash : Serial}
    {now : Nat}
    (staffs : c.Staffs who nodes) (mem : x ∈ who.members) (seen : watched x)
    (closed : (nodes x).log.state = .disabled)
    (carried : ∀ now (w : World Diary) (plan : Plan), plan.By who → plan.node = x →
      plan.strategy = (nodes x).strategy →
      w.Has (c.crew who nodes) (Still watched (begun c nodes x)) →
      (carryOut (traffic script) plan change).Abides (Steps (c.crew who nodes) Eq)
        (Steps (c.crew who nodes) Any) now w fun w' r => w'.Has (c.crew who nodes)
          (Failed watched x (who.beside x) goal old (begun c nodes x) r))
    {tick : Nat} {w' : World Diary} {cause : RehashError}
    (failed : (run (traffic script) rehash (who.serial x) change now
      { cluster := c, outside := {} }).run now = (tick, w', .error cause)) :
    ∃ nodes', w'.cluster.Staffs who nodes' ∧
      (((∀ note ∈ w'.outside.notes, ¬ note.Announces) ∧
          ∀ a, watched a → (nodes a).log.state = .disabled → nodes' a =
            { nodes a with store := (nodes a).store.writeAll (acks a w'.outside.notes) }) ∨
        ∃ new, goal new ∧ ∃ before during after opened dropped,
          Relapse x (who.beside x) old new (nodes x) (nodes' x) w'.outside.notes before during
            after opened dropped ∧
          ∀ a, watched a → a ≠ x → (nodes a).log.state = .disabled →
            (nodes' a).store = (nodes a).store.writeAll (acks a w'.outside.notes) ∧
            ((∃ note ∈ after, note.Heard a) → (nodes' a).mapping = .settled old)) := by
  let crew := c.crew who nodes
  let p₀ : Picture Diary := ⟨nodes, c.errands, {}⟩
  have whole : (run (traffic script) rehash (who.serial x) change).Abides (Steps crew Eq)
      (Steps crew Any) now { cluster := c, outside := {} } fun w' r => w'.Has crew fun p =>
        ∀ cause, r = .error cause → p = p₀ ∨ ∃ q, (nodes x).rehashing = false ∧
          Failed watched x (who.beside x) goal old (begun c nodes x) r q ∧
          p = q.withNode x (givenBack (q.nodes x)) := by
    refine run_abides (P := (· = p₀))
      (Q := fun p => p = begun c nodes x ∧ (nodes x).rehashing = false)
      (T := fun r p => (nodes x).rehashing = false ∧
        Failed watched x (who.beside x) goal old (begun c nodes x) r p)
      mem flow_any (nodes x).settings (nodes x).strategy ⟨p₀, shows_crew staffs _, rfl⟩
      ?_ ?_ ?_ ?_ ?_ (fun _ => trivial) ?_
    · rintro p rfl
      exact ⟨rfl, rfl⟩
    · rintro p rfl - cause -
      exact .inl rfl
    · rintro p rfl idle
      exact ⟨trivial, rfl, idle⟩
    · intro now' w' plan self node _ strategy h
      have idle : (nodes x).rehashing = false := h.choose_spec.2.2
      refine (carried now' w' plan self node strategy (h.mono fun p same => ?_)).mono
        fun w'' r came => came.mono fun p failed => ⟨idle, failed⟩
      rw [same.1]
      exact Serving.flow.refl _
    · rintro p ⟨rfl, idle⟩
      exact ⟨idle, fun _ _ => .inl (Serving.flow.refl _)⟩
    · rintro r p ⟨idle, failed⟩ cause -
      exact .inr ⟨p, idle, failed, rfl⟩
  have ended := whole.run_alone now
  rw [failed] at ended
  obtain ⟨p, shows_, result⟩ := ended
  refine ⟨p.nodes, shows_.staffs, ?_⟩
  rw [shows_.outside]
  rcases result cause rfl with rfl | ⟨q, idle, failed, rfl⟩
  · exact .inl ⟨fun _ h => absurd h List.not_mem_nil, fun a _ _ => rfl⟩
  have still_shut {a : Address} (shut : (nodes a).log.state = .disabled) :
      ((begun c nodes x).nodes a).log.state = .disabled :=
    (congrArg WriteLog.state (begun_eq a).1).trans shut
  have other {a : Address} (different : a ≠ x) :
      (q.withNode x (givenBack (q.nodes x))).nodes a = q.nodes a := withNode_of_ne _ _ different
  rcases failed cause rfl with ⟨more, noted, quiet, each⟩ | ⟨new, aim, undone⟩
  · rw [show (begun c nodes x).outside.notes = [] from rfl, List.nil_append] at noted
    refine .inl ⟨fun note h => quiet note (noted ▸ h), fun a watching shut => ?_⟩
    have same := (each a watching).eq_of_closed (still_shut shut)
    show (q.withNode x (givenBack (q.nodes x))).nodes a =
      { nodes a with store := (nodes a).store.writeAll (acks a q.outside.notes) }
    rw [noted]
    by_cases self : a = x
    · subst self
      rw [withNode_self, same, show (begun c nodes a).nodes a = taken (nodes a) from
        withNode_self .., givenBack, taken, ← idle]
    · rw [other self, same, begun_of_ne self]
  · obtain ⟨before, during, after, opened, dropped, relapse, beside⟩ :=
      relapse_of_undone seen rfl (still_shut closed) undone
    have self : (q.withNode x (givenBack (q.nodes x))).nodes x = givenBack (q.nodes x) :=
      withNode_self ..
    refine .inr ⟨new, aim, before, during, after, opened, dropped, ?_, fun a watching different
      shut => ?_⟩
    · refine ⟨relapse.notes_eq, relapse.once, relapse.logs, ?_, relapse.kept, relapse.closes,
        ?_, ?_, ?_⟩
      · rw [relapse.begins, (begun_eq x).2.2]
      · rw [self]
        exact relapse.ends
      · rw [self]
        exact relapse.closed
      · rw [self]
        exact relapse.back
    · obtain ⟨carried, heard⟩ := beside a watching different (still_shut shut)
      rw [other different]
      exact ⟨carried.trans (congrArg (Store.writeAll · _) (begun_eq a).2.2), heard⟩

end

end Rehash

/-- Settings of a node that tries to move state for three milliseconds. -/
def hasty : Settings where
  rpcTimeout := .ofMillis 2
  retryMin := .ofMillis 1
  retryMax := .ofMillis 1
  rehashDeadline := some (.ofMillis 3)

theorem Node.create_hasty {members : List Address} {ring : MemberRing}
    (placed : Ring.ofMembers Strategy.sip24 members = .ok ring) (a : Address) :
    Node.create a hasty members = .ok (Node.made a hasty .sip24 ring) :=
  Node.create_eq_ok_iff.mpr ⟨by decide +kernel, .sip24, ring, by decide +kernel, placed, rfl⟩

/-- The nodes of a cluster that is founded with these settings are hosted, and all of
them go by the ring of its members. -/
theorem Cluster.exists_hosts_hasty {members : List Address} {ring : MemberRing}
    (distinct : members.Nodup) (placed : Ring.ofMembers Strategy.sip24 members = .ok ring) :
    ∃ serial, (Cluster.founded hasty members).Hosts ⟨members, serial, some []⟩
      fun a => Node.made a hasty .sip24 ring :=
  Cluster.exists_hosts_founded distinct fun a _ => Node.create_hasty placed a

end SlotRing
