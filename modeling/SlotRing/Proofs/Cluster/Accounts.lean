/-
# Nodes by the diary

Beside rehashes, members ask each other things and hand each other writes
(`Command.Routine`).  What that makes of a node can be told from the diary: the node
has taken over the writes that are noted, in their order, and nothing else about it
has changed, except that it may have gone over to a mapping that was announced
(`Account`).  With its log closed a node has carried the writes out, with its log
open it has logged them.
-/
import SlotRing.Proofs.Cluster.Traffic

namespace SlotRing

/-! ## Commands beside rehashes -/

def Command.Asks : Command → Prop
  | .getCurrentMapping _ | .pullState .. | .clusteredGet _ | .joinComplete _ => True
  | _ => False

/-- The command asks for something or hands over writes. -/
def Command.Routine (command : Command) : Prop :=
  command.Asks ∨ ∃ tx, command = .write tx

theorem Command.Asks.handle {command : Command} (asks : command.Asks) (n : Node) :
    (n.handle command).1 = n := by
  cases command <;> first | rfl | exact asks.elim

theorem Command.Asks.kind_ne {command : Command} (asks : command.Asks) :
    command.kind ≠ .installMapping := by
  cases command <;> first | exact asks.elim | exact fun same => CommandKind.noConfusion same

theorem Picture.answered_of_asks {ε : Type} {around : Surroundings ε} {now : Nat}
    {sender target : Address} {command : Command} (asks : command.Asks) (p : Picture ε) :
    (p.answered around now sender command target).nodes = p.nodes := by
  show Function.update p.nodes target ((p.nodes target).handle command).1 = p.nodes
  rw [asks.handle, Function.update_eq_self]

theorem Picture.handed_of_asks {target : Address} {command : Command} (asks : command.Asks)
    (p : Picture Diary) : (p.handed target command).nodes = p.nodes := by
  show Function.update p.nodes target ((p.nodes target).handle command).1 = p.nodes
  rw [asks.handle, Function.update_eq_self]

namespace Node

def acceptAll (n : Node) (txs : List Transaction) : Node := txs.foldl acceptWrite n

variable (n : Node)

theorem acceptAll_append (txs more : List Transaction) :
    n.acceptAll (txs ++ more) = (n.acceptAll txs).acceptAll more :=
  List.foldl_append

/-- What a node makes of writes does not depend on the mapping it goes by. -/
theorem acceptAll_accepted (txs : List Transaction) (accepted : Accepted) :
    { n with accepted }.acceptAll txs = { n.acceptAll txs with accepted } := by
  induction txs generalizing n with
  | nil => rfl
  | cons tx txs ih =>
    have one : { n with accepted }.acceptWrite tx = { n.acceptWrite tx with accepted } := by
      simp only [acceptWrite]
      split <;> rfl
    show ({ n with accepted }.acceptWrite tx).acceptAll txs = _
    rw [one, ih]
    rfl

variable {n}

theorem acceptAll_of_closed (closed : n.log.state = .disabled)
    (txs : List Transaction) :
    n.acceptAll txs = { n with store := n.store.writeAll (txs.flatMap (·.writes)) } := by
  induction txs generalizing n with
  | nil => rfl
  | cons tx txs ih =>
    have one : n.acceptWrite tx = { n with store := n.store.writeAll tx.writes } := by
      rw [acceptWrite, (n.log.append?_eq_none_iff tx).mpr closed]
    show (n.acceptWrite tx).acceptAll txs = _
    rw [one, ih (n := { n with store := n.store.writeAll tx.writes }) closed, List.flatMap_cons,
      Store.writeAll, Store.writeAll, Store.writeAll, List.foldl_append]

theorem acceptAll_of_open (opened : n.log.state ≠ .disabled)
    (txs : List Transaction) :
    n.acceptAll txs = { n with log := { n.log with pending := n.log.pending ++ txs } } := by
  induction txs generalizing n with
  | nil => rw [List.append_nil]; rfl
  | cons tx txs ih =>
    have one : n.acceptWrite tx =
        { n with log := { n.log with pending := n.log.pending ++ [tx] } } := by
      simp only [acceptWrite, WriteLog.append?, WriteLog.isActive, decide_not, Bool.not_eq_true',
        decide_eq_false_iff_not, opened, not_false_eq_true, if_true]
    show (n.acceptWrite tx).acceptAll txs = _
    rw [one, ih (n := { n with log := { n.log with pending := n.log.pending ++ [tx] } }) opened,
      List.append_assoc]
    rfl

end Node

/-! ## What the diary says -/

/-- The transaction that a member has acknowledged by a note. -/
def Note.accepted? (a : Address) : Note → Option Transaction
  | .handed target (.write tx) .ack => if target = a then some tx else none
  | _ => none

def accepted (a : Address) (notes : List Note) : List Transaction :=
  notes.filterMap (Note.accepted? a)

def acks (a : Address) (notes : List Note) : List Write :=
  (accepted a notes).flatMap (·.writes)

def Note.Announces : Note → Prop
  | .sent sending _ => sending.command.kind = .installMapping
  | _ => False

instance : DecidablePred Note.Announces
  | .sent sending _ => inferInstanceAs (Decidable (sending.command.kind = .installMapping))
  | .answered _ | .handed .. => inferInstanceAs (Decidable False)

def Note.Heard (a : Address) : Note → Prop
  | .answered reply => reply.target = a ∧ reply.kind = .installMapping
  | _ => False

theorem accepted_append (a : Address) (notes more : List Note) :
    accepted a (notes ++ more) = accepted a notes ++ accepted a more :=
  List.filterMap_append

theorem acks_append (a : Address) (notes more : List Note) :
    acks a (notes ++ more) = acks a notes ++ acks a more := by
  rw [acks, accepted_append, List.flatMap_append]
  rfl

theorem acks_cons_of_none {a : Address} {note : Note} (other : note.accepted? a = none)
    (notes : List Note) : acks a (note :: notes) = acks a notes := by
  rw [acks, accepted, List.filterMap_cons, other]
  rfl

/-- The node of a member comes from `n` to `n'` while `notes` are made and `news`
is what may be announced. -/
structure Account (a : Address) (news : Option MemberMapping) (notes : List Note)
    (n n' : Node) : Prop where
  same : { n' with accepted := n.accepted } = n.acceptAll (accepted a notes)
  goes : (n'.accepted = n.accepted ∧ ∀ note ∈ notes, ¬ note.Heard a) ∨
    ∃ mapping ∈ news, n'.mapping = mapping

namespace Account

variable {a : Address} {news : Option MemberMapping} {notes more : List Note} {n n' n'' : Node}

theorem refl : Account a news [] n n := ⟨rfl, .inl ⟨rfl, fun _ h => absurd h List.not_mem_nil⟩⟩

theorem trans (first : Account a news notes n n') (second : Account a news more n' n'') :
    Account a news (notes ++ more) n n'' := by
  refine ⟨?_, ?_⟩
  · have := second.same
    rw [accepted_append, Node.acceptAll_append, ← first.same, Node.acceptAll_accepted, ← this]
  · rcases second.goes with ⟨still, unheard⟩ | told
    · rcases first.goes with ⟨still', unheard'⟩ | ⟨mapping, new, goes⟩
      · exact .inl ⟨still.trans still',
          fun note h => (List.mem_append.mp h).elim (unheard' note) (unheard note)⟩
      · exact .inr ⟨mapping, new, (congrArg Accepted.mapping still).trans goes⟩
    · exact .inr told

theorem idle {note : Note} (other : note.accepted? a = none) (unheard : ¬ note.Heard a) :
    Account a news [note] n n := by
  refine ⟨?_, .inl ⟨rfl, List.forall_mem_singleton.mpr unheard⟩⟩
  rw [accepted, List.filterMap_cons, other]
  rfl

/-- A node that does not log, and hears of nothing, has carried out what it has
acknowledged and is the same otherwise. -/
theorem eq_of_closed (h : Account a none notes n n') (closed : n.log.state = .disabled) :
    n' = { n with store := n.store.writeAll (acks a notes) } := by
  have same := h.same
  rw [Node.acceptAll_of_closed closed] at same
  rcases h.goes with ⟨still, -⟩ | ⟨mapping, none, -⟩
  · rw [← still] at same
    exact same.trans (by rw [still]; rfl)
  · cases none

theorem of_closed (h : Account a news notes n n') (closed : n.log.state = .disabled) :
    n'.store = n.store.writeAll (acks a notes) ∧ n'.log = n.log ∧
      n'.movingFrom = n.movingFrom := by
  have same := h.same
  rw [Node.acceptAll_of_closed closed] at same
  exact ⟨(congrArg Node.store same :), (congrArg Node.log same :),
    (congrArg Node.movingFrom same :)⟩

theorem of_open (h : Account a news notes n n') (opened : n.log.state ≠ .disabled) :
    n'.store = n.store ∧
      n'.log = { n.log with pending := n.log.pending ++ accepted a notes } := by
  have same := h.same
  rw [Node.acceptAll_of_open opened] at same
  exact ⟨(congrArg Node.store same :), (congrArg Node.log same :)⟩

theorem mapping_of_heard (h : Account a news notes n n') {note : Note} (noted : note ∈ notes)
    (heard : note.Heard a) : ∃ mapping ∈ news, n'.mapping = mapping := by
  rcases h.goes with ⟨-, unheard⟩ | told
  · exact absurd heard (unheard note noted)
  · exact told

end Account

/-! ## Pictures by the diary -/

open Picture

/-- The members that are watched come from one picture to the next by what is
noted; the notes are all of a kind. -/
def Serving (watched : Address → Prop) (allowed : Note → Prop) (news : Option MemberMapping)
    (p q : Picture Diary) : Prop :=
  ∃ more, q.outside.notes = p.outside.notes ++ more ∧ (∀ note ∈ more, allowed note) ∧
    ∀ a, watched a → Account a news more (p.nodes a) (q.nodes a)

namespace Serving

variable {watched : Address → Prop} {allowed : Note → Prop} {news : Option MemberMapping}
  {p q : Picture Diary} {script : Nat → Sending → List Deed}

theorem flow : Flow (Serving watched allowed news) where
  refl p := ⟨[], (List.append_nil _).symm, fun _ h => absurd h List.not_mem_nil,
    fun _ _ => Account.refl⟩
  trans := by
    rintro p q r ⟨more, noted, fine, all⟩ ⟨more', noted', fine', all'⟩
    refine ⟨more ++ more', ?_, ?_, fun a seen => (all a seen).trans (all' a seen)⟩
    · rw [noted', noted, List.append_assoc]
    · exact fun note h => (List.mem_append.mp h).elim (fine note) (fine' note)

theorem of_note {note : Note} (noted : q.outside.notes = p.outside.notes ++ [note])
    (fine : allowed note)
    (each : ∀ a, watched a → Account a news [note] (p.nodes a) (q.nodes a)) :
    Serving watched allowed news p q :=
  ⟨[note], noted, List.forall_mem_singleton.mpr fine, each⟩

theorem sending {sending : Sending}
    (fine : allowed (.sent sending (some (p.nodes sending.sender)))) :
    Serving watched allowed news p (p.sending sending) :=
  of_note rfl fine fun _ _ => Account.idle rfl id

theorem of_note_at {note : Note} {target : Address} {n : Node}
    (noted : q.outside.notes = p.outside.notes ++ [note])
    (changed : q.nodes = Function.update p.nodes target n) (fine : allowed note)
    (here : watched target → Account target news [note] (p.nodes target) n)
    (apart : ∀ a, a ≠ target → Account a news [note] (p.nodes a) (p.nodes a)) :
    Serving watched allowed news p q := by
  refine of_note noted fine fun a seen => ?_
  rw [changed]
  by_cases same : a = target
  · subst same
    rw [Function.update_self]
    exact here seen
  · rw [Function.update_of_ne same]
    exact apart a same

theorem handed {target : Address} {command : Command}
    (routine : watched target → command.Routine)
    (fine : allowed (.handed target command ((p.nodes target).handle command).2)) :
    Serving watched allowed news p (p.handed target command) := by
  refine of_note_at (n := ((p.nodes target).handle command).1) rfl rfl fine (fun seen => ?_)
    fun a other => Account.idle ?_ id
  · rcases routine seen with asks | ⟨tx, rfl⟩
    · rw [asks.handle]
      refine Account.idle ?_ id
      cases command <;> first | rfl | exact asks.elim
    · refine ⟨?_, .inl ⟨?_, List.forall_mem_singleton.mpr id⟩⟩
      · have taken : accepted target
            [.handed target (.write tx) (((p.nodes target).handle (.write tx)).2)] = [tx] := by
          rw [accepted, List.filterMap_cons, Note.accepted?.eq_def]
          simp [Node.handle]
        rw [taken]
        show ({ (p.nodes target).acceptWrite tx with
          accepted := (p.nodes target).accepted } : Node) = (p.nodes target).acceptWrite tx
        simp only [Node.acceptWrite]
        split <;> rfl
      · show ((p.nodes target).acceptWrite tx).accepted = _
        simp only [Node.acceptWrite]
        split <;> rfl
  · cases command <;> try rfl
    simp only [Note.accepted?, Node.handle]
    exact if_neg (Ne.symm other)

section

variable {now : Nat} {sender target : Address} {command : Command}

theorem answered (asks : watched target → command.Asks)
    (fine : allowed (.answered
      { target, sender, kind := command.kind, reply := ((p.nodes target).handle command).2 })) :
    Serving watched allowed news p (p.answered (traffic script) now sender command target) := by
  refine of_note_at (n := ((p.nodes target).handle command).1) rfl rfl fine (fun seen => ?_)
    fun a other => ?_
  · rw [(asks seen).handle]
    exact Account.idle rfl fun heard => (asks seen).kind_ne heard.2
  · exact Account.idle rfl fun heard => other heard.1.symm

theorem heard {mapping : MemberMapping} (new : news = some mapping)
    (fine : allowed (.answered { target, sender, kind := .installMapping, reply := .ack })) :
    Serving watched allowed news p
      (p.answered (traffic script) now sender (.installMapping mapping) target) :=
  of_note_at rfl rfl fine (fun _ => ⟨rfl, .inr ⟨mapping, new, rfl⟩⟩) fun _ other =>
    Account.idle rfl fun heard => other heard.1.symm

end

end Serving

/-- What a script brings about is routine for the members that are watched, and of
the kind that is to be noted. -/
structure Usual (watched : Address → Prop) (allowed : Note → Prop)
    (script : Nat → Sending → List Deed) : Prop where
  routine (i : Nat) (sending : Sending) {target : Address} {command : Command} :
    .hand target command ∈ script i sending → watched target → command.Routine
  handed (i : Nat) (sending : Sending) {target : Address} {command : Command} (reply : Reply) :
    .hand target command ∈ script i sending → allowed (.handed target command reply)
  answered (answered : Answered) : allowed (.answered answered)
  sent {sending : Sending} (node : Option Node) :
    sending.command.kind ≠ .installMapping → allowed (.sent sending node)

namespace Usual

variable {watched : Address → Prop} {allowed : Note → Prop}
  {script : Nat → Sending → List Deed} (usual : Usual watched allowed script)
  {news : Option MemberMapping} {crew : Crew} {E₀ N₀ : Picture Diary → Picture Diary → Prop}
  {P I : Picture Diary → Prop} {sending : Sending}
include usual

theorem minds (sender : sending.sender ∈ crew.who.members)
    (room : Room E₀ N₀ (Serving watched allowed news) (Serving watched allowed news))
    (sent : ∀ p, P p → N₀ p (p.sending sending) ∧ I (p.sending sending))
    (stable : ∀ p q, Serving watched allowed news p q → I p → I q) :
    (traffic script).Minds crew E₀ N₀ sending P I :=
  traffic_minds room sender sent stable fun i _ _ listed _ _ _ =>
    Serving.handed (usual.routine i sending listed) (usual.handed i sending _ listed)

/-- At a sending that is no announcement, nothing else happens. -/
theorem minds_still (sender : sending.sender ∈ crew.who.members)
    (ordinary : sending.command.kind ≠ .installMapping)
    (stable : ∀ p q, Serving watched allowed news p q → I p → I q) :
    (traffic script).Minds crew (Serving watched allowed news) (Serving watched allowed news)
      sending I I :=
  usual.minds sender Serving.flow.fits.room
    (fun p holds => have step := Serving.sending (usual.sent _ ordinary)
      ⟨step, stable p _ step holds⟩) stable

end Usual

end SlotRing
