/-
# Joins that overlap

A newcomer reads the ring, adds itself, and has everybody go over to the result, and
another one may do the same meanwhile.  As long as a union is in force nobody gets to
read the ring, and so one join cannot take place inside of what another does with its
union.  But between the answer that tells a newcomer of the ring and its own first
announcement nothing keeps the others off: who joins just then is lost, as what is
announced next was made without it.  There is no other such moment
(`overlapping_joins_keep_both_iff`).
-/
import SlotRing.Proofs.Cluster.Registration
import SlotRing.Proofs.Rehash.Relapse
import SlotRing.Proofs.Rehash.Routing
import SlotRing.Scenario.Run

namespace SlotRing

def Sending.announces (s : Sending) : Bool := s.command.kind == .installMapping

/-- What is known of a run inside of which another one takes place. -/
structure Overlap where
  /-- What the outer run has sent, in that order. -/
  sent : List Sending := []
  /-- How the inner run has ended, if it has. -/
  inner : Option (Except RehashError MemberRing) := none

namespace Overlap

variable (o : Overlap)

def note (s : Sending) : Overlap := { o with sent := o.sent ++ [s] }

def close (result : Except RehashError MemberRing) : Overlap := { o with inner := some result }

/-- The number of the first sending that announces a mapping. -/
def firstAnnouncement : Nat := o.sent.findIdx (·.announces)

def Joined : Prop := ∃ ring, o.inner = some (.ok ring)

/-- Nothing has been sent but one question. -/
def Asked : Prop := ∃ s, s.announces = false ∧ o.sent = [s]

/-- If the inner run has joined its newcomer, that is a member of the ring. -/
def Counts (newcomer : Address) (ring : MemberRing) : Prop := o.Joined → newcomer ∈ ring.members

/-- The second sending was the first to announce a mapping. -/
def Told : Prop :=
  ∃ s t rest, s.announces = false ∧ t.announces = true ∧ o.sent = s :: t :: rest

variable {o} {s : Sending}

theorem Asked.note (asked : o.Asked) (announces : s.announces = true) : (o.note s).Told := by
  obtain ⟨first, silent, sent⟩ := asked
  exact ⟨first, s, [], silent, announces, congrArg (· ++ [s]) sent⟩

theorem Told.note (told : o.Told) (s : Sending) : (o.note s).Told := by
  obtain ⟨first, second, rest, silent, announces, sent⟩ := told
  exact ⟨first, second, rest ++ [s], silent, announces, congrArg (· ++ [s]) sent⟩

theorem Asked.length (asked : o.Asked) : o.sent.length = 1 := by
  obtain ⟨first, -, sent⟩ := asked
  rw [sent]
  rfl

theorem Told.length_ne (told : o.Told) {i : Nat} (early : i < 2) : o.sent.length ≠ i := by
  obtain ⟨first, second, rest, -, -, sent⟩ := told
  rw [sent, List.length_cons, List.length_cons]
  omega

theorem Told.firstAnnouncement (told : o.Told) : o.firstAnnouncement = 1 := by
  obtain ⟨first, second, rest, silent, announces, sent⟩ := told
  rw [Overlap.firstAnnouncement, sent, List.findIdx_cons, silent, List.findIdx_cons, announces]
  rfl

theorem not_joined_close (cause : RehashError) : ¬ (o.close (.error cause)).Joined := by
  rintro ⟨ring, ended⟩
  cases ended

end Overlap

/-- Surroundings in which a run takes place at the `i`-th sending, from its beginning to its
end and before anything is delivered. -/
def inside (i : Nat) (inner : Procedure (World Overlap) (Except RehashError MemberRing)) :
    Surroundings Overlap where
  atSend sending := do
    let k ← Procedure.change fun w =>
      ({ w with outside := w.outside.note sending }, w.outside.sent.length)
    if k = i then
      let result ← inner
      Procedure.modify fun w => { w with outside := w.outside.close result }
  noteAnswer _ _ outside := outside

section Inside

variable {i : Nat} {inner : Procedure (World Overlap) (Except RehashError MemberRing)}
variable {who : Census} {J : World Overlap → Prop} {sending : Sending} {P Q : Routing Overlap}

theorem silent_inside : (inside i inner).Silent := fun _ _ _ => rfl

theorem allows_inside
    (aside : ∀ ms o, P ms o → o.sent.length ≠ i → Q ms (o.note sending))
    (within : ∀ now w, w.Holds who (Routed fun ms o => ∃ before, P ms before ∧
        before.sent.length = i ∧ o = before.note sending) →
      inner.Keeps J now w fun w' r => w'.Holds who (Routed fun ms o => Q ms (o.close r))) :
    (inside i inner).Allows who J sending (Routed P) (Routed Q) := by
  rintro now w ⟨nodes, hosts, holds⟩
  refine (Procedure.ends_change (Q := fun w' k => k = w.outside.sent.length ∧
    w' = { w with outside := w.outside.note sending }) ⟨rfl, rfl⟩).keeps.bind ?_
  rintro now' _ _ ⟨rfl, rfl⟩
  by_cases here : w.outside.sent.length = i
  · simp only [here, if_true]
    refine (within now' { w with outside := w.outside.note sending }
      ⟨nodes, hosts, w.outside, holds, here, rfl⟩).bind ?_
    rintro now'' w' r ⟨nodes', hosts', holds'⟩
    exact (Procedure.ends_modify
      (f := fun w : World Overlap => { w with outside := w.outside.close r })
      (Q := fun w' _ => w'.Holds who (Routed Q)) ⟨nodes', hosts', holds'⟩).keeps
  · simp only [here, if_false]
    exact Procedure.keeps_pure ⟨nodes, hosts, aside _ _ holds here⟩

theorem leads_inside (aside : ∀ ms o, P ms o → o.sent.length ≠ i ∧ Q ms (o.note sending)) :
    (inside i inner).Leads who sending (Routed P) (Routed Q) := by
  refine fun now w h => Procedure.ends_iff_keeps.mpr (allows_inside (J := fun _ => False)
    (fun ms o holds _ => (aside ms o holds).2) ?_ now w h)
  rintro now w ⟨nodes, -, before, holds, here, -⟩
  exact absurd here (aside _ _ holds).1

end Inside

namespace Rehash

/-- The coordinator goes by a ring, and nothing has been sent yet. -/
def Settled (coordinator : Address) (old : MemberRing) : Routing Overlap :=
  fun ms o => ms coordinator = .settled old ∧ o = {}

/-- The coordinator goes by a union, and the inner run has not got to join. -/
def Barred (coordinator : Address) : Routing Overlap :=
  fun ms o => (∀ ring, ms coordinator ≠ .settled ring) ∧ o.Told ∧ ¬ o.Joined

/-- If the inner run has ended with a ring, then both are members to everybody unless it took
place at the first announcement. -/
def Reckoned (who : Census) (x y : Address) (i : Nat) : Routing Overlap := fun ms o =>
  o.Told ∧ (o.Joined → ((∀ m ∈ who.members, ∃ ring, ms m = .settled ring ∧ x ∈ ring.members ∧
    y ∈ ring.members) ↔ i ≠ 1))

section

variable {who : Census} {x y coordinator : Address} {old new : MemberRing} {w : World Overlap}
  {now i : Nat} {rehash rehash' : Serial} {ms : Address → MemberMapping} {o : Overlap}

theorem Barred.note (barred : Barred coordinator ms o) (s : Sending) :
    Barred coordinator ms (o.note s) := by
  obtain ⟨unsettled, told, alone⟩ := barred
  exact ⟨unsettled, told.note s, alone⟩

theorem Barred.update (barred : Barred coordinator ms o) (apart : coordinator ≠ x)
    (mapping : MemberMapping) : Barred coordinator (Function.update ms x mapping) o := by
  obtain ⟨unsettled, rest⟩ := barred
  refine ⟨?_, rest⟩
  intro ring
  rw [Function.update_of_ne apart]
  exact unsettled ring

theorem Reckoned.of_both (told : o.Told) (other : i ≠ 1)
    (both : o.Joined → ∃ ring, (∀ m, ms m = .settled ring) ∧ x ∈ ring.members ∧ y ∈ ring.members) :
    Reckoned who x y i ms o := by
  refine ⟨told, ?_⟩
  intro joined
  obtain ⟨ring, goes, members⟩ := both joined
  constructor
  · exact fun _ => other
  · intro _ m _
    exact ⟨ring, goes m, members⟩

theorem Reckoned.of_alone (told : o.Told) (other : i ≠ 1) (alone : ¬ o.Joined) :
    Reckoned who x y i ms o :=
  .of_both told other fun joined => absurd joined alone

/-- What the outer run has made of the ring it came upon is without the inner newcomer. -/
theorem Reckoned.of_lost (told : o.Told) (mem : coordinator ∈ who.members)
    (going : ms coordinator = .settled new)
    (extended : ∃ strategy, old.extend strategy [x] = .ok new) (absent : y ∉ old.members)
    (distinct : x ≠ y) : Reckoned who x y 1 ms o := by
  refine ⟨told, ?_⟩
  intro _
  constructor
  · intro all
    obtain ⟨ring, same, -, member⟩ := all coordinator mem
    obtain ⟨strategy, extended⟩ := extended
    obtain rfl := Mapping.settled.inj (going.symm.trans same)
    rcases (mem_members_extend extended).mp member with before | rfl
    · exact absurd before absent
    · exact absurd rfl distinct
  · intro other
    exact absurd rfl other

/-! ## The inner run at one of the sendings -/

variable {P Q : Routing Overlap} {sending : Sending}

section

variable (hy : y ∈ who.members) (uncounted : who.errands = none)
  (head : who.members.head? = some coordinator)
include hy uncounted head

theorem allows_joining (listed : ∀ m ∈ old.members, m ∈ who.members) {J : World Overlap → Prop}
    {K : Overlap → Prop}
    (aside : ∀ ms o, P ms o → o.sent.length ≠ i → Q ms (o.note sending))
    (here : ∀ ms o, P ms o → o.sent.length = i →
      ms coordinator = .settled old ∧ K (o.note sending))
    (within : ∀ ms o ring, (∃ strategy, old.extend strategy [y] = .ok ring) →
      (∀ m, ms m = .settled ring) → K o → Q ms (o.close (.ok ring)))
    (refused : ∀ ms o cause, ms coordinator = .settled old → K o → Q ms (o.close (.error cause))) :
    (inside i (run .quiet rehash' (who.serial y) .join)).Allows who J sending (Routed P)
      (Routed Q) := by
  refine allows_inside aside ?_
  intro now w h
  have going : w.Holds who (Routed fun ms o => ms coordinator = .settled old ∧ K o) := by
    refine h.mono ?_
    rintro nodes o ⟨before, holds, counted, rfl⟩
    exact here _ before holds counted
  refine (join_unhindered hy uncounted head listed going).keeps.mono ?_
  intro w' r ended
  refine ended.mono ?_
  intro nodes o
  cases r with
  | error cause =>
    rintro ⟨settled, kept⟩
    exact refused _ o cause settled kept
  | ok ring =>
    rintro ⟨extended, goes, kept⟩
    exact within _ o ring extended goes kept

omit uncounted in
theorem allows_barred
    (here : ∀ ms o, P ms o → o.sent.length = i → Barred coordinator ms (o.note sending))
    (aside : ∀ ms o, P ms o → Q ms (o.note sending))
    (refused : ∀ ms o cause, Barred coordinator ms o → Q ms (o.close (.error cause))) :
    (inside i (run .quiet rehash' (who.serial y) .join)).Allows who
      (World.Holds who (Routed (Barred coordinator))) sending (Routed P) (Routed Q) := by
  refine allows_inside (fun ms o holds _ => aside ms o holds) ?_
  intro now w h
  have barred : w.Holds who (Routed (Barred coordinator)) := by
    refine h.mono ?_
    rintro nodes o ⟨before, holds, counted, rfl⟩
    exact here _ before holds counted
  refine (join_blocked hy head (fun _ _ barred => barred.1) barred).mono ?_
  intro w' r ended
  refine ended.mono ?_
  intro nodes o
  cases r with
  | error cause => exact refused (fun a => (nodes a).mapping) o cause
  | ok ring => exact False.elim

end

/-! ## The outer run -/

section

variable (hx : x ∈ who.members) (hy : y ∈ who.members) (uncounted : who.errands = none)
  (head : who.members.head? = some coordinator) (apart : coordinator ≠ x)
  (listed : ∀ m ∈ old.members, m ∈ who.members)

include hx hy uncounted head listed in
/-- The outer run fetches what the inner one has made of the ring. -/
theorem joins_first (h : w.Holds who (Routed (Settled coordinator old))) :
    (run (inside 0 (run .quiet rehash' (who.serial y) .join)) rehash (who.serial x) .join).Keeps
      (World.Holds who (Routed (Barred coordinator))) now w
      fun w' r => w'.Holds who (Routed (Outcome (fun _ => Reckoned who x y 0)
        (fun _ _ => True) r)) := by
  refine run_routed hx h (fun _ _ _ => trivial)
    (fun w barred => barred.still hx fun _ _ => ⟨rfl, rfl⟩) ?_
  rintro now w plan self rfl h
  have enters {from_ new : MemberRing} {o : Overlap} (right : o.Counts y from_)
      (extended : from_.extend plan.strategy [plan.node] = .ok new) :
      plan.node ∈ new.members ∧ o.Counts y new :=
    ⟨(mem_members_extend extended).mpr (.inr rfl), fun joined =>
      (mem_members_extend extended).mpr (.inl (right joined))⟩
  refine arrive_routed silent_inside self uncounted head
    (F := fun from_ _ o => (∀ m ∈ from_.members, m ∈ who.members) ∧ o.Counts y from_ ∧ o.Asked)
    (A := fun from_ _ _ o => (∀ m ∈ from_.members, m ∈ who.members) ∧ o.Counts y from_ ∧ o.Asked)
    (U := fun from_ _ _ o => (∀ m ∈ from_.members, m ∈ who.members) ∧ o.Counts y from_ ∧ o.Told)
    (V := fun from_ _ _ o => (∀ m ∈ from_.members, m ∈ who.members) ∧ o.Counts y from_ ∧ o.Told)
    (X := fun _ _ _ => False)
    (D := fun new ms o => (plan.node ∈ new.members ∧ o.Counts y new) ∧
      ms plan.node = .settled new ∧ (o.Asked ∨ o.Told))
    (B := fun new ms o => (plan.node ∈ new.members ∧ o.Counts y new) ∧
      (∀ m, ms m = .settled new) ∧ o.Told) h ?fetch ?refused ?opened ?union ?moved ?relapse
      ?finished ?final ?report ?alone
  case fetch =>
    -- the inner run takes place before the coordinator is asked
    refine fun now w h => Procedure.ends_iff_keeps.mpr (allows_joining
      (P := Settled coordinator old) (J := fun _ => False) (K := Overlap.Asked) hy uncounted head
      listed ?_ ?_ ?_ ?_ now w h)
    · rintro ms o ⟨-, rfl⟩ counted
      exact absurd rfl counted
    · rintro ms o ⟨going, rfl⟩ -
      exact ⟨going, _, rfl, rfl⟩
    · rintro ms o ring ⟨strategy, extended⟩ goes asked
      refine ⟨ring, goes coordinator, fun m mem => ?_, fun _ =>
        (mem_members_extend extended).mpr (.inr rfl), asked⟩
      rcases (mem_members_extend extended).mp mem with mine | rfl
      · exact listed m mine
      · exact hy
    · intro ms o cause going asked
      refine ⟨old, going, listed, ?_, asked⟩
      intro joined
      exact absurd joined (Overlap.not_joined_close cause)
  case refused =>
    intro _ _ _ _
    trivial
  case opened =>
    intro _ _ _ _ holds
    exact holds
  case union =>
    intro from_ new
    refine Surroundings.Leads.allows (leads_inside ?_)
    rintro ms o ⟨whole, right, asked⟩
    exact ⟨by simp [asked.length], whole, right, asked.note rfl⟩
  case moved =>
    intro from_ new extended now w holds
    obtain ⟨_, _, whole, -⟩ := id holds
    refine pullState_routed silent_inside self (fun source => mem_of_provider self whole extended)
      holds ?_
    intro source
    refine leads_inside ?_
    rintro ms o ⟨whole, right, told⟩
    exact ⟨told.length_ne (by decide), whole, right, told.note _⟩
  case relapse =>
    intro from_
    refine Surroundings.Leads.allows (leads_inside ?_)
    rintro ms o ⟨_, never, _⟩
    exact never.elim
  case finished =>
    rintro from_ new extended ms o (⟨-, right, asked⟩ | ⟨-, right, told⟩)
    · exact ⟨enters right extended, Function.update_self .., .inl asked⟩
    · exact ⟨enters right extended, Function.update_self .., .inr told⟩
  case final =>
    intro new
    refine Surroundings.Leads.allows (leads_inside ?_)
    rintro ms o ⟨enters, goes, heard⟩
    have everybody (m : Address) :
        (if m = plan.node then ms m else .settled new) = .settled new := by
      split
      · next same => exact same ▸ goes
      · rfl
    rcases heard with asked | told
    · exact ⟨by simp [asked.length], enters, everybody, asked.note rfl⟩
    · exact ⟨told.length_ne (by decide), enters, everybody, told.note _⟩
  case report =>
    intro new
    refine Surroundings.Leads.allows (leads_inside ?_)
    rintro ms o ⟨⟨mine, right⟩, goes, told⟩
    refine ⟨told.length_ne (by decide), .of_both (told.note _) (by decide) ?_⟩
    intro joined
    exact ⟨new, goes, mine, right joined⟩
  case alone =>
    rintro new ms o ⟨⟨mine, right⟩, goes, told⟩
    refine .of_both told (by decide) ?_
    intro joined
    exact ⟨new, goes, mine, right joined⟩

include hx hy uncounted head apart listed in
/-- The outer run announces what it has made of the ring that it fetched before. -/
theorem joins_at_announcement (absent : y ∉ old.members) (distinct : x ≠ y)
    (h : w.Holds who (Routed (Settled coordinator old))) :
    (run (inside 1 (run .quiet rehash' (who.serial y) .join)) rehash (who.serial x) .join).Keeps
      (World.Holds who (Routed (Barred coordinator))) now w
      fun w' r => w'.Holds who (Routed (Outcome (fun _ => Reckoned who x y 1)
        (fun _ _ => True) r)) := by
  refine run_routed hx h (fun _ _ _ => trivial)
    (fun w barred => barred.still hx fun _ _ => ⟨rfl, rfl⟩) ?_
  rintro now w plan self rfl h
  -- The inner run may come to what it likes: whatever it announces is overwritten.
  have overtaken {P : Routing Overlap} {fact : Prop} {sending : Sending}
      (announces : sending.announces = true)
      (asked : ∀ ms o, P ms o →
        fact ∧ (o.Told ∨ (o.Asked ∧ ms coordinator = .settled old))) :
      (inside 1 (run .quiet rehash' (who.serial y) .join)).Allows who
        (World.Holds who (Routed (Barred coordinator))) sending (Routed P)
        (Routed fun _ o => fact ∧ o.Told) := by
    refine allows_joining (K := fun o => fact ∧ o.Told) hy uncounted head listed ?_ ?_ ?_ ?_
    · intro ms o holds counted
      obtain ⟨holds, told | ⟨asked, -⟩⟩ := asked ms o holds
      · exact ⟨holds, told.note _⟩
      · exact absurd asked.length counted
    · intro ms o holds counted
      obtain ⟨holds, told | ⟨asked, going⟩⟩ := asked ms o holds
      · exact absurd counted (told.length_ne (by decide))
      · exact ⟨going, holds, asked.note announces⟩
    · intro _ _ _ _ _ told
      exact told
    · intro _ _ _ _ told
      exact told
  have first := List.mem_of_mem_head? head
  refine arrive_routed silent_inside self uncounted head
    (F := fun from_ ms o => from_ = old ∧ o.Asked ∧ ms coordinator = .settled old)
    (A := fun from_ _ ms o => from_ = old ∧ o.Asked ∧ ms coordinator = .settled old)
    (U := fun from_ _ _ o => from_ = old ∧ o.Told) (V := fun from_ _ _ o => from_ = old ∧ o.Told)
    (X := fun _ _ _ => False)
    (D := fun new ms o => (∃ strategy, old.extend strategy [plan.node] = .ok new) ∧
      (o.Told ∨ (o.Asked ∧ ms coordinator = .settled old)))
    (B := fun new ms o => (∃ strategy, old.extend strategy [plan.node] = .ok new) ∧
      ms coordinator = .settled new ∧ o.Told) h ?fetch ?refused ?opened ?union ?moved ?relapse
      ?finished ?final ?report ?alone
  case fetch =>
    refine leads_inside ?_
    rintro ms o ⟨going, rfl⟩
    exact ⟨by decide, old, going, rfl, ⟨_, rfl, rfl⟩, going⟩
  case refused =>
    intro _ _ _ _
    trivial
  case opened =>
    rintro from_ new ms o ⟨rfl, asked, going⟩
    exact ⟨rfl, asked, (Function.update_of_ne apart ..).trans going⟩
  case union =>
    intro from_ new
    refine overtaken rfl ?_
    rintro ms o ⟨same, asked⟩
    exact ⟨same, .inr asked⟩
  case moved =>
    intro from_ new extended now w holds
    obtain ⟨_, _, rfl, -⟩ := id holds
    refine pullState_routed silent_inside self (fun source => mem_of_provider self listed extended)
      holds ?_
    intro source
    refine leads_inside ?_
    rintro ms o ⟨same, told⟩
    exact ⟨told.length_ne (by decide), same, told.note _⟩
  case relapse =>
    intro from_
    refine Surroundings.Leads.allows (leads_inside ?_)
    rintro ms o ⟨_, never, _⟩
    exact never.elim
  case finished =>
    rintro from_ new extended ms o (⟨rfl, asked, going⟩ | ⟨rfl, told⟩)
    · exact ⟨⟨_, extended⟩, .inr ⟨asked, (Function.update_of_ne apart ..).trans going⟩⟩
    · exact ⟨⟨_, extended⟩, .inl told⟩
  case final =>
    intro new now w holds
    refine (overtaken rfl (fun _ _ => id) now w holds).mono ?_
    intro w' _ told
    refine told.mono ?_
    rintro nodes o ⟨extended, told⟩
    exact ⟨extended, if_neg apart, told⟩
  case report =>
    intro new
    refine Surroundings.Leads.allows (leads_inside ?_)
    rintro ms o ⟨extended, going, told⟩
    refine ⟨told.length_ne (by decide), ?_⟩
    exact .of_lost (told.note _) first going extended absent distinct
  case alone =>
    rintro new ms o ⟨extended, going, told⟩
    exact .of_lost told first going extended absent distinct

include hx hy uncounted head apart listed in
/-- The inner run does not get to join before the outer one is done with its union, and then
it fetches what that has made of the ring. -/
theorem joins_later (later : 2 ≤ i) (h : w.Holds who (Routed (Settled coordinator old))) :
    (run (inside i (run .quiet rehash' (who.serial y) .join)) rehash (who.serial x) .join).Keeps
      (World.Holds who (Routed (Barred coordinator))) now w
      fun w' r => w'.Holds who (Routed (Outcome (fun _ => Reckoned who x y i)
        (fun _ _ => True) r)) := by
  refine run_routed hx h (fun _ _ _ => trivial)
    (fun w barred => barred.still hx fun _ _ => ⟨rfl, rfl⟩) ?_
  rintro now w plan self rfl h
  have early {o : Overlap} (asked : o.Asked) : o.sent.length ≠ i := by
    rw [asked.length]
    omega
  refine arrive_routed silent_inside self uncounted head
    (F := fun from_ _ o => from_ = old ∧ o.Asked ∧ ¬ o.Joined)
    (A := fun from_ _ _ o => from_ = old ∧ o.Asked ∧ ¬ o.Joined)
    (U := fun from_ _ ms o => from_ = old ∧ Barred coordinator ms o)
    (V := fun from_ _ ms o => from_ = old ∧ Barred coordinator ms o)
    (X := fun _ => Barred coordinator)
    (D := fun new ms o => (∃ strategy, old.extend strategy [plan.node] = .ok new) ∧
      (Barred coordinator ms o ∨ (o.Asked ∧ ¬ o.Joined)))
    (B := fun new ms o => (∃ strategy, old.extend strategy [plan.node] = .ok new) ∧
      ms coordinator = .settled new ∧ o.Told ∧ ¬ o.Joined) h ?fetch ?refused ?opened ?union ?moved
      ?relapse ?finished ?final ?report ?alone
  case fetch =>
    refine leads_inside ?_
    rintro ms o ⟨going, rfl⟩
    refine ⟨fun counted => ?_, old, going, rfl, ⟨_, rfl, rfl⟩, nofun⟩
    exact absurd (counted ▸ later) (by decide)
  case refused =>
    intro _ _ _ _
    trivial
  case opened =>
    intro _ _ _ _ holds
    exact holds
  case union =>
    intro from_ new
    refine Surroundings.Leads.allows (leads_inside ?_)
    rintro ms o ⟨same, asked, alone⟩
    refine ⟨early asked, same, ?_, asked.note rfl, alone⟩
    intro ring
    show (if coordinator = plan.node then ms coordinator else .moving from_ new) ≠ _
    rw [if_neg apart]
    exact nofun
  case moved =>
    rintro from_ new extended now w ⟨nodes, hosts, rfl, barred⟩
    refine (pullState_waits (U := Barred coordinator) silent_inside self
      (fun source => mem_of_provider self listed extended) ⟨nodes, hosts, barred⟩ ?_).mono ?_
    · intro source
      refine allows_barred hy head (fun ms o barred _ => barred.note _)
        (fun ms o barred => barred.note _) ?_
      rintro ms o cause ⟨going, told, -⟩
      exact ⟨going, told, Overlap.not_joined_close cause⟩
    · intro w' r pulled
      refine pulled.mono ?_
      intro nodes o barred
      cases r with
      | error cause => exact barred
      | ok _ => exact ⟨rfl, barred⟩
  case relapse =>
    intro from_
    refine allows_barred hy head ?_ (fun _ _ _ => trivial) fun _ _ _ _ => trivial
    rintro ms o ⟨ms', barred, rfl⟩ -
    exact (barred.note _).update apart _
  case finished =>
    rintro from_ new extended ms o (⟨rfl, asked⟩ | ⟨rfl, barred⟩)
    · exact ⟨⟨_, extended⟩, .inr asked⟩
    · exact ⟨⟨_, extended⟩, .inl (barred.update apart _)⟩
  case final =>
    rintro new now w ⟨nodes, hosts, extended, heard⟩
    refine (allows_barred (P := fun ms o => Barred coordinator ms o ∨ (o.Asked ∧ ¬ o.Joined))
      (Q := fun _ o => o.Told ∧ ¬ o.Joined) hy head ?_ ?_ ?_ now w ⟨nodes, hosts, heard⟩).mono ?_
    · rintro ms o (barred | ⟨asked, -⟩) counted
      · exact barred.note _
      · exact absurd counted (early asked)
    · rintro ms o (barred | ⟨asked, alone⟩)
      · exact (barred.note _).2
      · exact ⟨asked.note rfl, alone⟩
    · intro ms o cause barred
      exact ⟨barred.2.1, Overlap.not_joined_close cause⟩
    · intro w' _ told
      refine told.mono ?_
      intro nodes o told
      exact ⟨extended, if_neg apart, told⟩
  case report =>
    rintro new now w ⟨nodes, hosts, ⟨strategy, extended⟩, holds⟩
    have listed' : ∀ m ∈ new.members, m ∈ who.members := by
      intro m mem
      rcases (mem_members_extend extended).mp mem with mine | rfl
      · exact listed m mine
      · exact hx
    refine allows_joining (P := fun ms o => ms coordinator = .settled new ∧ o.Told ∧ ¬ o.Joined)
      (K := Overlap.Told) hy uncounted head listed' ?_ ?_ ?_ ?_ now w ⟨nodes, hosts, holds⟩
    · rintro ms o ⟨-, told, alone⟩ -
      exact .of_alone (told.note _) (by omega) alone
    · rintro ms o ⟨going, told, -⟩ -
      exact ⟨going, told.note _⟩
    · rintro ms o ring ⟨strategy', extended'⟩ goes told
      refine .of_both told (by omega) fun _ => ⟨ring, goes, ?_, ?_⟩
      · have mine := (mem_members_extend extended).mpr (.inr rfl)
        exact (mem_members_extend extended').mpr (.inl mine)
      · exact (mem_members_extend extended').mpr (.inr rfl)
    · intro ms o cause _ told
      exact .of_alone told (by omega) (Overlap.not_joined_close cause)
  case alone =>
    rintro new ms o ⟨-, -, told, alone⟩
    exact .of_alone told (by omega) alone

end

end

end Rehash

/-- One newcomer's join takes place inside of another's, at one of its sendings and before that
is delivered, in a cluster in which nothing goes wrong.  When both have ended with a ring,
all members go by rings with both newcomers if and only if it was not the sending by which
the outer join first announced a mapping. -/
theorem overlapping_joins_keep_both_iff {members all : List Address} {x y : Address}
    {serial : Address → Serial} {errands : Option (List Errand)} {c : Cluster}
    {nodes : Address → Node} {old : MemberRing} (i : Nat) (rehash rehash' : Serial) (now : Nat)
    (hosts : c.Hosts ⟨all, serial, errands⟩ nodes) (registered : all.Perm (members ++ [x, y]))
    (first : ∀ a, all.head? = some a → a ∈ members)
    (ring : ∀ a, a ∈ old.members ↔ a ∈ members)
    (settled : ∀ a ∈ members, (nodes a).mapping = .settled old)
    {tick : Nat} {w' : World Overlap} {new : MemberRing}
    (ran : (Rehash.run (inside i (Rehash.run .quiet rehash' (serial y) .join)) rehash (serial x)
      .join now { cluster := c, outside := {} }).run now = (tick, w', .ok new))
    (joined : w'.outside.Joined) :
    (∀ a ∈ members ++ [x, y], ∃ n ring, w'.cluster.nodes.find? a = some n ∧
        n.mapping = .settled ring ∧ x ∈ ring.members ∧ y ∈ ring.members) ↔
      i ≠ w'.outside.firstAnnouncement := by
  let who : Census := ⟨all, serial, none⟩
  have member {a : Address} : a ∈ who.members ↔ a ∈ members ++ [x, y] := registered.mem_iff
  have distinct := registered.nodup_iff.mp hosts.nodup
  obtain ⟨-, pair, strangers⟩ := List.nodup_append.mp distinct
  have hx : x ∈ who.members := member.mpr (by simp)
  have hy : y ∈ who.members := member.mpr (by simp)
  obtain ⟨coordinator, head⟩ : ∃ a, all.head? = some a :=
    Option.isSome_iff_exists.mp (List.isSome_head?.mpr (List.ne_nil_of_mem hx))
  have among := first coordinator head
  have apart : coordinator ≠ x := strangers coordinator among x (by simp)
  have absent : y ∉ old.members := fun mem => strangers y ((ring y).mp mem) y (by simp) rfl
  have listed : ∀ m ∈ old.members, m ∈ who.members := fun m mem =>
    member.mpr (List.mem_append_left _ ((ring m).mp mem))
  have start : World.Holds who (Routed (Rehash.Settled coordinator old))
      { cluster := c, outside := {} } :=
    ⟨nodes, ⟨hosts.members_eq, hosts.nodup, hosts.faultless, hosts.reached, hosts.named,
      hosts.node, hosts.address, nofun⟩, settled coordinator among, rfl⟩
  have keeps : (Rehash.run (inside i (Rehash.run .quiet rehash' (who.serial y) .join)) rehash
      (who.serial x) .join).Keeps (World.Holds who (Routed (Rehash.Barred coordinator))) now
      { cluster := c, outside := {} } fun w' r => w'.Holds who (Routed
        (Outcome (fun _ => Rehash.Reckoned who x y i) (fun _ _ => True) r)) := by
    rcases Nat.lt_or_ge i 2 with early | later
    · obtain rfl | rfl : i = 0 ∨ i = 1 := by omega
      · exact Rehash.joins_first hx hy rfl head listed start
      · exact Rehash.joins_at_announcement hx hy rfl head apart listed absent (by simp_all) start
    · exact Rehash.joins_later hx hy rfl head apart listed later start
  have ended := Task.Keeps.run (fun _ _ holds => holds) keeps now
  have same : ((Rehash.run (inside i (Rehash.run .quiet rehash' (who.serial y) .join)) rehash
    (who.serial x) .join now { cluster := c, outside := {} }).run now) = (tick, w', .ok new) := ran
  rw [same] at ended
  obtain ⟨nodes', hosts', told, together⟩ := ended
  rw [told.firstAnnouncement, ← together joined]
  refine ⟨fun all m mem => ?_, fun all a mem => ?_⟩
  · obtain ⟨n, ring, found, goes⟩ := all m (member.mp mem)
    obtain rfl := Option.some.inj ((hosts'.find? mem).symm.trans found)
    exact ⟨ring, goes⟩
  · obtain ⟨ring, goes⟩ := all a (member.mpr mem)
    exact ⟨nodes' a, ring, hosts'.find? (member.mpr mem), goes⟩

/-- Node `A`, and `C` and `D` that are to join. -/
def expectant : Cluster :=
  ((Cluster.founded hasty ["A"]).start "C" hasty ["C"]).start "D" hasty ["D"]

theorem overlapping_joins_keep_both_iff_of_expectant :
    ∃ outer inner, expectant.nodes.serial? "C" = some outer ∧
      expectant.nodes.serial? "D" = some inner ∧ ∀ i ∈ [0, 1, 4], ∃ tick w' new,
        (Rehash.run (inside i (Rehash.run .quiet 4 inner .join)) 3 outer .join 0
          { cluster := expectant, outside := {} }).run 0 = (tick, w', .ok new) ∧
        w'.outside.Joined ∧
        ((∀ a ∈ ["A", "C", "D"], ∃ n ring, w'.cluster.nodes.find? a = some n ∧
            n.mapping = .settled ring ∧ "C" ∈ ring.members ∧ "D" ∈ ring.members) ↔
          i ≠ w'.outside.firstAnnouncement) := by
  obtain ⟨old, placed⟩ : ∃ r, Ring.ofMembers Strategy.sip24 ["A"] = .ok r :=
    Ring.exists_ofMembers _ (by decide)
  obtain ⟨ringC, placedC⟩ : ∃ r, Ring.ofMembers Strategy.sip24 ["C"] = .ok r :=
    Ring.exists_ofMembers _ (by decide)
  obtain ⟨ringD, placedD⟩ : ∃ r, Ring.ofMembers Strategy.sip24 ["D"] = .ok r :=
    Ring.exists_ofMembers _ (by decide)
  obtain ⟨serial, founded⟩ := Cluster.exists_hosts_hasty (List.nodup_singleton "A") placed
  have hosts : expectant.Hosts _ _ :=
    (founded.start (show "C" ∉ ["A"] by decide) (Node.create_hasty placedC "C")).start
      (show "D" ∉ ["A", "C"] by decide) (Node.create_hasty placedD "D")
  have one : expectant.nodes.serial? "C" = some 1 := by decide +kernel
  have two : expectant.nodes.serial? "D" = some 2 := by decide +kernel
  have outer := hosts.named (show "C" ∈ ["A", "C", "D"] by decide)
  have inner := hosts.named (show "D" ∈ ["A", "C", "D"] by decide)
  rw [one, Option.some.injEq] at outer
  rw [two, Option.some.injEq] at inner
  -- What the runs come to is computed, but only that both end with a ring matters.
  have ends : ∀ i ∈ [0, 1, 4],
      ((Rehash.run (inside i (Rehash.run .quiet 4 2 .join)) 3 1 .join 0
        { cluster := expectant, outside := {} }).run 0).2.2.toOption.isSome = true ∧
      (((Rehash.run (inside i (Rehash.run .quiet 4 2 .join)) 3 1 .join 0
        { cluster := expectant, outside := {} }).run 0).2.1.outside.inner.bind
          (·.toOption)).isSome = true := by
    decide +kernel
  refine ⟨1, 2, one, two, ?_⟩
  intro i listed
  obtain ⟨ended, joined⟩ := ends i listed
  generalize result : (Rehash.run (inside i (Rehash.run .quiet 4 2 .join)) 3 1 .join 0
    { cluster := expectant, outside := {} }).run 0 = run at ended joined
  obtain ⟨tick, w', cause | new⟩ := run
  · cases ended
  obtain ⟨ring, joined⟩ := Option.isSome_iff_exists.mp joined
  obtain ⟨result', known, joined⟩ := Option.bind_eq_some_iff.mp joined
  have inner' : w'.outside.Joined := by
    rcases result' with cause | ring'
    · cases joined
    · exact ⟨ring', known⟩
  refine ⟨tick, w', new, rfl, inner', ?_⟩
  rw [outer, inner] at result
  have first : ∀ a, ["A", "C", "D"].head? = some a → a ∈ ["A"] := by
    intro a head
    obtain rfl : "A" = a := Option.some.inj head
    exact List.mem_singleton_self "A"
  have ring : ∀ a, a ∈ old.members ↔ a ∈ ["A"] := fun a => Ring.mem_members_ofMembers placed
  have settled : ∀ a ∈ ["A"], (Function.update (Function.update
      (fun a => Node.made a hasty .sip24 old) "C" (Node.made "C" hasty .sip24 ringC)) "D"
      (Node.made "D" hasty .sip24 ringD) a).mapping = .settled old := by
    intro a mem
    obtain rfl : a = "A" := by simpa using mem
    rfl
  exact overlapping_joins_keep_both_iff i 3 4 0 hosts (List.Perm.refl (["A"] ++ ["C", "D"])) first
    ring settled result inner'

/-- `D` joins when `C` is about to announce its union: both joins end with a ring, and in the
end `D` is a member to nobody. -/
def overtaking : List Scenario.Step :=
  [.node "A" ["A"] {} true, .node "C" ["C"] {} true, .node "D" ["D"] {} true,
    .join "C" "of C", .join "D" "of D", .hook (some "C") none .installMapping 1 [.run "of D"],
    .run "of C", .dump []]

theorem member_lost_by_overlapping_join :
    (Scenario.run overtaking).filterMap (fun answer => match answer.outcome with
      | .ran result _ _ => some (result.toOption.map (·.members))
      | _ => none) = [some ["A", "C"]] ∧
    (Scenario.run overtaking).flatMap (fun answer => answer.events.filterMap fun event =>
      match event.2 with
      | .hooked (.run _) (.ran result _ _) => some (result.toOption.map (·.members))
      | _ => none) = [some ["A", "D"]] ∧
    (Scenario.run overtaking).flatMap (fun answer => match answer.outcome with
      | .nodes ns => ns.map fun n => (n.address, n.mapping.settled?.map (·.members))
      | _ => []) =
      [("A", some ["A", "C"]), ("C", some ["A", "C"]), ("D", some ["A", "C"])] := by
  decide +kernel

end SlotRing
