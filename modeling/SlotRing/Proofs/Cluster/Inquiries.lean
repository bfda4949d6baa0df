/-
# Reading while owners fail

A node that cannot answer a read itself asks the others that serve the key, one after the
other, and passes over whoever gives no answer.  What comes of that is said without the loop
(`reads_survive_failing_owners`): who is asked, in which order and up to whom, and what the
client gets, whatever comes back from each of them and whatever others do in the meantime.
-/
import SlotRing.Cluster.Client
import SlotRing.Proofs.Time.Endings

namespace SlotRing

structure Ask where
  owner : Address
  response : Except TransportError Reply

namespace Ask

/-- What the owner holds under the key, if it says so. -/
def answer? : Ask → Option (Option Entry)
  | ⟨_, .ok (.value entry)⟩ => some entry
  | _ => none

/-- Why the owner gives no answer, unless it is just uncertain. -/
def failure? : Ask → Option TransportError
  | ⟨_, .ok (.value _)⟩ | ⟨_, .ok .uncertain⟩ => none
  | ⟨owner, .ok reply⟩ => some (.rejected owner reply.text)
  | ⟨_, .error cause⟩ => some cause

theorem answer?_eq_some_iff {ask : Ask} {entry : Option Entry} :
    ask.answer? = some entry ↔ ask = ⟨ask.owner, .ok (.value entry)⟩ := by
  obtain ⟨owner, response⟩ := ask
  cases response with
  | error cause => simp [answer?]
  | ok reply => cases reply <;> simp [answer?]

theorem response_eq_uncertain_iff {ask : Ask} (none : ask.answer? = none) :
    ask.response = .ok .uncertain ↔ ask.failure? = .none := by
  obtain ⟨owner, response⟩ := ask
  cases response with
  | error cause => simp [failure?]
  | ok reply => cases reply <;> simp_all [failure?, answer?]

end Ask

def lastFailure? (asked : List Ask) : Option TransportError :=
  (asked.filterMap Ask.failure?).getLast?

/-- The entry of a key on the node of that number, with the writes that wait in its log. -/
def World.localEntry {ε : Type} (w : World ε) (self : Serial) (key : String) : Option Entry :=
  (w.cluster.nodes.get? self).bind (·.localEntry key)

/-- Owners are asked one after the other, from a tick and a state to another tick and
state; `sender` is the name of the node that asks them. -/
inductive Asks {ε : Type} (around : Surroundings ε) (sender : Address) (timeout : Duration)
    (key : String) : Nat → World ε → List Ask → Nat → World ε → Prop
  | nil {now w} : Asks around sender timeout key now w [] now w
  | cons {now w owner response asked now₁ w₁ now' w'}
      (sends : (sendTo around sender owner (.clusteredGet key) timeout).EndsUp now w now₁ w₁
        response)
      (rest : Asks around sender timeout key now₁ w₁ asked now' w') :
      Asks around sender timeout key now w (⟨owner, response⟩ :: asked) now' w'

/-- What a client gets that reads through the node `self`, when `owners` serve the key and
the node has `asked` others for it.  `own` is what the node itself holds in the end. -/
inductive ReadOutcome (owners : List Address) (self : Address) (own : Option Entry)
    (asked : List Ask) : Except TransportError (Option (List UInt8)) → Prop
  /-- The first owner that answers is the last one to be asked. -/
  | answered {silent : List Ask} {owner : Address} {entry : Option Entry} {spared : List Address}
      (inOrder : owners.filter (· != self) = silent.map Ask.owner ++ owner :: spared)
      (asks : asked = silent ++ [⟨owner, .ok (.value entry)⟩])
      (none : ∀ ask ∈ silent, ask.answer? = none) :
      ReadOutcome owners self own asked (.ok (entry.map (·.value)))
  /-- Nobody else answers, and the node serves the key itself. -/
  | own (all : asked.map Ask.owner = owners.filter (· != self))
      (none : ∀ ask ∈ asked, ask.answer? = none) (serves : self ∈ owners) :
      ReadOutcome owners self own asked (.ok (own.map (·.value)))
  /-- There is nobody to ask. -/
  | nobody (nobody : owners = []) (asks : asked = []) : ReadOutcome owners self own asked (.ok none)
  /-- Nobody answers, and not all of them are just uncertain. -/
  | failed {failure : TransportError} (all : asked.map Ask.owner = owners)
      (none : ∀ ask ∈ asked, ask.answer? = none) (elsewhere : self ∉ owners)
      (last : lastFailure? asked = some failure) :
      ReadOutcome owners self own asked (.error failure)
  /-- All of them are uncertain. -/
  | uncertain {first : Address} {others : List Address} (some : owners = first :: others)
      (all : asked.map Ask.owner = owners)
      (each : ∀ ask ∈ asked, ask.response = .ok .uncertain) (elsewhere : self ∉ owners) :
      ReadOutcome owners self own asked (.error (.unreachable first))

/-! ## The loop over the owners -/

/-- What is heard from owners up to the first answer, after a failure before them. -/
inductive Heard : Option TransportError → List Address → List Ask → Client.Inquiry → Prop
  | nothing {failure} : Heard failure [] [] (.unanswered failure)
  | answer {failure owner entry spared} :
      Heard failure (owner :: spared) [⟨owner, .ok (.value entry)⟩] (.answered entry)
  | silence {failure ask owners asked inquiry} (none : Ask.answer? ask = none)
      (more : Heard ((Ask.failure? ask).or failure) owners asked inquiry) :
      Heard failure (ask.owner :: owners) (ask :: asked) inquiry

section

variable {failure : Option TransportError} {owners : List Address} {asked : List Ask}

theorem lastFailure?_cons_or (ask : Ask) :
    (lastFailure? (ask :: asked)).or failure =
      (lastFailure? asked).or (ask.failure?.or failure) := by
  rw [lastFailure?, List.filterMap_cons, lastFailure?]
  cases ask.failure? with
  | none => rfl
  | some cause =>
    rw [List.getLast?_cons]
    cases (asked.filterMap Ask.failure?).getLast? <;> rfl

theorem heard_answered_iff {entry : Option Entry} :
    Heard failure owners asked (.answered entry) ↔
      ∃ silent owner spared, owners = silent.map Ask.owner ++ owner :: spared ∧
        asked = silent ++ [⟨owner, .ok (.value entry)⟩] ∧ ∀ ask ∈ silent, ask.answer? = none := by
  constructor
  · intro heard
    generalize eq : Client.Inquiry.answered entry = inquiry at heard
    induction heard with
    | nothing => cases eq
    | answer =>
      cases eq
      exact ⟨[], _, _, rfl, rfl, nofun⟩
    | @silence _ ask _ _ _ none _ ih =>
      obtain ⟨silent, owner, spared, rfl, rfl, each⟩ := ih eq
      exact ⟨ask :: silent, owner, spared, rfl, rfl, List.forall_mem_cons.mpr ⟨none, each⟩⟩
  · rintro ⟨silent, owner, spared, rfl, rfl, each⟩
    induction silent generalizing failure with
    | nil => exact .answer
    | cons ask silent ih =>
      obtain ⟨none, each⟩ := List.forall_mem_cons.mp each
      exact .silence none (ih each)

theorem heard_unanswered_iff {last : Option TransportError} :
    Heard failure owners asked (.unanswered last) ↔
      asked.map Ask.owner = owners ∧ (∀ ask ∈ asked, ask.answer? = none) ∧
        last = (lastFailure? asked).or failure := by
  constructor
  · intro heard
    generalize eq : Client.Inquiry.unanswered last = inquiry at heard
    induction heard with
    | nothing =>
      cases eq
      exact ⟨rfl, nofun, rfl⟩
    | answer => cases eq
    | @silence _ ask _ _ _ none _ ih =>
      obtain ⟨rfl, each, rfl⟩ := ih eq
      exact ⟨rfl, List.forall_mem_cons.mpr ⟨none, each⟩, (lastFailure?_cons_or ask).symm⟩
  · rintro ⟨rfl, each, rfl⟩
    induction asked generalizing failure with
    | nil => exact .nothing
    | cons ask asked ih =>
      obtain ⟨none, each⟩ := List.forall_mem_cons.mp each
      rw [lastFailure?_cons_or]
      exact .silence none (ih each)

end

section

variable {ε : Type} {around : Surroundings ε} {sender owner : Address} {timeout : Duration}
  {key : String} {failure : Option TransportError} {owners : List Address} {now now' : Nat}
  {w w' : World ε}

theorem inquire_cons :
    Client.inquire around sender timeout key failure (owner :: owners) = (do
      let ask := Ask.mk owner (← sendTo around sender owner (.clusteredGet key) timeout)
      match ask.answer? with
      | some entry => return .answered entry
      | none =>
        Client.inquire around sender timeout key (ask.failure?.or failure) owners) := by
  rw [Client.inquire]
  refine congrArg _ (funext fun response => ?_)
  cases response with
  | error cause => rfl
  | ok reply => cases reply <;> rfl

theorem endsUp_inquire_iff {inquiry : Client.Inquiry} :
    (Client.inquire around sender timeout key failure owners).EndsUp now w now' w' inquiry ↔
      ∃ asked, Asks around sender timeout key now w asked now' w' ∧
        Heard failure owners asked inquiry := by
  induction owners generalizing now w failure with
  | nil =>
    rw [Client.inquire, Procedure.endsUp_pure_iff]
    constructor
    · rintro ⟨rfl, rfl, rfl⟩
      exact ⟨[], .nil, .nothing⟩
    · rintro ⟨asked, asks, heard⟩
      cases heard
      cases asks
      exact ⟨rfl, rfl, rfl⟩
  | cons owner owners ih =>
    rw [inquire_cons, Procedure.endsUp_bind_iff]
    constructor
    · rintro ⟨now₁, w₁, response, sends, rest⟩
      cases answer : (⟨owner, response⟩ : Ask).answer? with
      | some entry =>
        simp only [answer] at rest
        obtain ⟨rfl, rfl, rfl⟩ := Procedure.endsUp_pure_iff.mp rest
        obtain ⟨-, rfl⟩ := Ask.mk.inj (Ask.answer?_eq_some_iff.mp answer)
        exact ⟨_, .cons sends .nil, .answer⟩
      | none =>
        simp only [answer] at rest
        obtain ⟨asked, asks, heard⟩ := ih.mp rest
        exact ⟨_, .cons sends asks, .silence answer heard⟩
    · rintro ⟨asked, asks, heard⟩
      cases heard with
      | answer =>
        obtain _ | ⟨sends, rest⟩ := asks
        cases rest
        exact ⟨_, _, _, sends, Procedure.endsUp_pure_iff.mpr ⟨rfl, rfl, rfl⟩⟩
      | silence answer more =>
        obtain _ | ⟨sends, rest⟩ := asks
        refine ⟨_, _, _, sends, ?_⟩
        simp only [answer]
        exact ih.mpr ⟨_, rest, more⟩

/-- What the client gets when nobody answers: the failure, or that the first of the owners
cannot be reached, if there are any. -/
def unheard : List Address → Option TransportError →
    Except TransportError (Option (List UInt8))
  | _, some failure => .error failure
  | owner :: _, none => .error (.unreachable owner)
  | [], none => .ok none

/-- What the node makes of what it has heard, when `owners` serve the key and it holds `own`
itself. -/
def conclude (owners : List Address) (self : Address) (own : Option Entry) :
    Client.Inquiry → Except TransportError (Option (List UInt8))
  | .answered entry => .ok (entry.map (·.value))
  | .unanswered failure =>
    if self ∈ owners then .ok (own.map (·.value)) else unheard owners failure

/-- A node that may answer itself does so at once, and sends nothing. -/
theorem get_of_certain {self : Serial} {n : Node} (serves : n.address ∈ n.serving key)
    (certain : n.isUncertain key = false) :
    Client.get around self n key now w = .done w (.ok ((n.localEntry key).map (·.value))) := by
  have here : ((n.serving key).contains n.address && !n.isUncertain key) = true := by
    rw [certain, List.contains_iff_mem.mpr serves]
    rfl
  rw [Client.get, if_pos here]
  rfl

/-- A node that may not answer itself asks the others, and makes something of that. -/
theorem get_of_uncertain {self : Serial} {n : Node}
    (elsewhere : ¬ (n.address ∈ n.serving key ∧ n.isUncertain key = false)) :
    Client.get around self n key = (do
      let inquiry ← Client.inquire around n.address n.settings.rpcTimeout key none
        ((n.serving key).filter (· != n.address))
      let own ← World.read fun c => (c.nodes.get? self).bind (·.localEntry key)
      return conclude (n.serving key) n.address own inquiry) := by
  have silent : ((n.serving key).contains n.address && !n.isUncertain key) ≠ true := by
    rw [Ne, Bool.and_eq_true, List.contains_iff_mem, Bool.not_eq_true']
    exact elsewhere
  rw [Client.get, if_neg silent]
  dsimp only
  refine congrArg _ (funext fun inquiry => funext fun now => funext fun w => ?_)
  cases inquiry with
  | answered entry => rfl
  | unanswered failure =>
    by_cases serves : n.address ∈ n.serving key
    · have held : ((w.cluster.nodes.get? self).map (·.localEntry key)).join =
          (w.cluster.nodes.get? self).bind (·.localEntry key) := by
        cases w.cluster.nodes.get? self <;> rfl
      simp only [List.contains_iff_mem, if_pos serves]
      show Task.done w (.ok (Option.map _ (Option.join _))) = Task.done w (conclude _ _ _ _)
      rw [held, conclude, if_pos serves]
    · simp only [List.contains_iff_mem, if_neg serves]
      show _ = Task.done w (conclude _ _ _ _)
      rw [conclude, if_neg serves]
      cases failure <;> cases n.serving key <;> rfl

theorem endsUp_get_iff {self : Serial} {n : Node}
    (elsewhere : ¬ (n.address ∈ n.serving key ∧ n.isUncertain key = false))
    {r : Except TransportError (Option (List UInt8))} :
    (Client.get around self n key).EndsUp now w now' w' r ↔
      ∃ asked inquiry, Asks around n.address n.settings.rpcTimeout key now w asked now' w' ∧
        Heard none ((n.serving key).filter (· != n.address)) asked inquiry ∧
        r = conclude (n.serving key) n.address (w'.localEntry self key) inquiry := by
  have ends (inquiry : Client.Inquiry) (now₁ : Nat) (w₁ : World ε) :
      Procedure.EndsUp (do
        let own ← World.read fun c => (c.nodes.get? self).bind (·.localEntry key)
        return conclude (n.serving key) n.address own inquiry) now₁ w₁ now' w' r ↔
        now' = now₁ ∧ w' = w₁ ∧
          r = conclude (n.serving key) n.address (w₁.localEntry self key) inquiry :=
    Task.endsUp_done_iff
  rw [get_of_uncertain elsewhere, Procedure.endsUp_bind_iff]
  constructor
  · rintro ⟨now₁, w₁, inquiry, asking, last⟩
    obtain ⟨asked, asks, heard⟩ := endsUp_inquire_iff.mp asking
    obtain ⟨rfl, rfl, rfl⟩ := (ends inquiry _ _).mp last
    exact ⟨asked, inquiry, asks, heard, rfl⟩
  · rintro ⟨asked, inquiry, asks, heard, rfl⟩
    exact ⟨_, _, inquiry, endsUp_inquire_iff.mpr ⟨asked, asks, heard⟩,
      (ends inquiry _ _).mpr ⟨rfl, rfl, rfl⟩⟩

end

/-! ## What the client gets -/

theorem filter_ne_of_notMem {self : Address} {owners : List Address} (elsewhere : self ∉ owners) :
    owners.filter (· != self) = owners := by
  rw [List.filter_eq_self]
  exact fun owner mem => bne_iff_ne.mpr fun same => elsewhere (same ▸ mem)

theorem lastFailure?_eq_none_iff {asked : List Ask} (none : ∀ ask ∈ asked, ask.answer? = none) :
    lastFailure? asked = .none ↔ ∀ ask ∈ asked, ask.response = .ok .uncertain := by
  rw [lastFailure?, List.getLast?_eq_none_iff, List.filterMap_eq_nil_iff]
  exact forall₂_congr fun ask mem => (Ask.response_eq_uncertain_iff (none ask mem)).symm

theorem readOutcome_iff {owners : List Address} {self : Address} {own : Option Entry}
    {asked : List Ask} {r : Except TransportError (Option (List UInt8))} :
    ReadOutcome owners self own asked r ↔
      ∃ inquiry, Heard none (owners.filter (· != self)) asked inquiry ∧
        r = conclude owners self own inquiry := by
  constructor
  case mp =>
    rintro (⟨inOrder, asks, silent⟩ | ⟨all, silent, serves⟩ | ⟨nobody, asks⟩ |
      ⟨all, silent, elsewhere, last⟩ | ⟨some, all, each, elsewhere⟩)
    · exact ⟨_, heard_answered_iff.mpr ⟨_, _, _, inOrder, asks, silent⟩, rfl⟩
    · refine ⟨_, heard_unanswered_iff.mpr ⟨all, silent, rfl⟩, ?_⟩
      rw [conclude, if_pos serves]
    · subst nobody asks
      exact ⟨_, .nothing, rfl⟩
    · refine ⟨_, heard_unanswered_iff.mpr ⟨?_, silent, rfl⟩, ?_⟩
      · rw [all, filter_ne_of_notMem elsewhere]
      · rw [conclude, if_neg elsewhere, last]
        rfl
    · have silent (ask : Ask) (mem : ask ∈ asked) : ask.answer? = none := by
        rw [show ask = ⟨ask.owner, .ok .uncertain⟩ from congrArg (Ask.mk ask.owner) (each ask mem)]
        rfl
      refine ⟨_, heard_unanswered_iff.mpr ⟨?_, silent, rfl⟩, ?_⟩
      · rw [all, filter_ne_of_notMem elsewhere]
      · rw [conclude, if_neg elsewhere, (lastFailure?_eq_none_iff silent).mpr each, some]
        rfl
  case mpr =>
    rintro ⟨inquiry, heard, rfl⟩
    cases inquiry with
    | answered entry =>
      obtain ⟨silent, owner, spared, inOrder, asks, each⟩ := heard_answered_iff.mp heard
      exact .answered inOrder asks each
    | unanswered failure =>
      obtain ⟨all, silent, rfl⟩ := heard_unanswered_iff.mp heard
      rw [Option.or_none, conclude]
      split
      · next serves => exact .own all silent serves
      · next elsewhere =>
        rw [filter_ne_of_notMem elsewhere] at all
        cases last : lastFailure? asked with
        | some failure => exact .failed all silent elsewhere last
        | none =>
          cases owners with
          | nil => exact .nobody rfl (List.map_eq_nil_iff.mp all)
          | cons first others =>
            exact .uncertain rfl all ((lastFailure?_eq_none_iff silent).mp last) elsewhere

/-- A client that reads through a node that does not serve the key gets nothing only if
there is nobody else who does, or from one who says so. -/
theorem ReadOutcome.exists_answer {owners : List Address} {self : Address} {own : Option Entry}
    {asked : List Ask} (outcome : ReadOutcome owners self own asked (.ok none))
    (elsewhere : self ∉ owners) (some : owners ≠ []) :
    ∃ silent owner, asked = silent ++ [⟨owner, .ok (.value none)⟩] := by
  generalize eq : (Except.ok none : Except TransportError (Option (List UInt8))) = r at outcome
  cases outcome with
  | @answered silent owner entry _ _ asks _ =>
    cases entry with
    | none => exact ⟨silent, owner, asks⟩
    | some entry => cases eq
  | own _ _ serves => exact absurd serves elsewhere
  | nobody nobody _ => exact absurd nobody some
  | failed => cases eq
  | uncertain => cases eq

/-- Those that serve a key are the owners to be written to, as far as they are on the ring
that the mapping ends with.  A node that serves it and is not uncertain of it answers itself,
and sends nothing.  Else it asks the others that serve it, one after the other and up to the
first that answers with what it holds; what the client gets then is said by `ReadOutcome`.  That
holds however the procedure goes on after its stops, and on its own it ends.  If the node
does not serve the key and others do, the client gets nothing only from one of them that says
so: neither failures nor uncertainty look like an absent key. -/
theorem reads_survive_failing_owners {ε : Type} (around : Surroundings ε) (self : Serial)
    (n : Node) (key : String) (now : Nat) (w : World ε) :
    n.serving key = (n.mapping.writeOwners key n.copies).filter n.mapping.target.contains ∧
      (n.address ∈ n.serving key → n.isUncertain key = false →
        Client.get around self n key now w =
          .done w (.ok ((n.localEntry key).map (·.value)))) ∧
      (¬ (n.address ∈ n.serving key ∧ n.isUncertain key = false) → ∀ now' w' r,
        (Client.get around self n key).EndsUp now w now' w' r ↔
          ∃ asked, Asks around n.address n.settings.rpcTimeout key now w asked now' w' ∧
            ReadOutcome (n.serving key) n.address (w'.localEntry self key) asked r) ∧
      (∃ now' w' r, ((Client.get around self n key) now w).run now = (now', w', r) ∧
        (Client.get around self n key).EndsUp now w now' w' r) ∧
      (n.address ∉ n.serving key → n.serving key ≠ [] → ∀ now' w',
        (Client.get around self n key).EndsUp now w now' w' (.ok none) →
          ∃ silent owner, Asks around n.address n.settings.rpcTimeout key now w
            (silent ++ [⟨owner, .ok (.value none)⟩]) now' w') := by
  have ends (elsewhere : ¬ (n.address ∈ n.serving key ∧ n.isUncertain key = false)) (now' : Nat)
      (w' : World ε) (r : Except TransportError (Option (List UInt8))) :
      (Client.get around self n key).EndsUp now w now' w' r ↔
        ∃ asked, Asks around n.address n.settings.rpcTimeout key now w asked now' w' ∧
          ReadOutcome (n.serving key) n.address (w'.localEntry self key) asked r := by
    simp only [endsUp_get_iff elsewhere, readOutcome_iff, exists_and_left]
  refine ⟨rfl, get_of_certain, ends, ⟨_, _, _, rfl, Task.endsUp_run _ now⟩, ?_⟩
  intro elsewhere some now' w' nothing
  obtain ⟨asked, asks, outcome⟩ := (ends (fun here => elsewhere here.1) now' w' _).mp nothing
  obtain ⟨silent, owner, rfl⟩ := outcome.exists_answer elsewhere some
  exact ⟨silent, owner, asks⟩

end SlotRing
