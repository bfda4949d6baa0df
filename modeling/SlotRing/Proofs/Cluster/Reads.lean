/-
# What a client's read does

A read is answered by the member itself if it serves the key and is not
uncertain of it, and else by the first of the others that serve it and are not.
So what a client gets is the entry of some node that answers for the key
(`Answers`), as long as there is one, and whoever reads at such a node gets the
entry of that node (`Seen`).
-/
import SlotRing.Proofs.Cluster.Writes

namespace SlotRing

/-- The value of a key on a node, with the writes that still wait in its log. -/
def Node.localValue (n : Node) (key : String) : Option (List UInt8) :=
  (n.localEntry key).map (·.value)

theorem map_value_foldl_overlay (key : String) {ws : List Write} (own : ∀ w ∈ ws, w.key = key)
    (e : Option Entry) : (ws.foldl Node.overlay e).map Entry.value =
      valueAfter ws key (e.map Entry.value) := by
  induction ws generalizing e with
  | nil => rfl
  | cons w ws ih =>
    rw [List.foldl_cons, ih (fun w' hw' => own w' (List.mem_cons_of_mem _ hw'))]
    have this : w.key = key := own w List.mem_cons_self
    have current : (Node.overlay e w).map Entry.value = w.upon key (e.map Entry.value) := by
      refine .trans ?_ (if_pos this).symm
      cases w <;> rfl
    rw [current]
    rfl

theorem map_value_foldl_overlay_filter (key : String) (ws : List Write) (e : Option Entry) :
    ((ws.filter (·.key == key)).foldl Node.overlay e).map Entry.value =
      valueAfter ws key (e.map Entry.value) := by
  rw [map_value_foldl_overlay key fun w mem => beq_iff_eq.mp (List.mem_filter.mp mem).2]
  exact valueAfter_filter fun w _ same => beq_iff_eq.mpr same

/-- A member that a read through `issuer` may get its answer from. -/
structure Answers (members : List Address) (nodes : Address → Node) (issuer : Address)
    (key : String) (b : Address) : Prop where
  serves : b ∈ (nodes issuer).serving key
  member : b ∈ members
  certain : (nodes b).isUncertain key = false

/-- What comes of a read: the entry of the member itself if it answers, and else that of
the first who does. -/
structure Seen (members : List Address) (nodes : Address → Node) (issuer : Address)
    (key : String) (r : Except TransportError (Option (List UInt8))) : Prop where
  own : Answers members nodes issuer key issuer → r = .ok ((nodes issuer).localValue key)
  first : ¬ Answers members nodes issuer key issuer → ∀ earlier b later,
    (nodes issuer).serving key = earlier ++ b :: later → Answers members nodes issuer key b →
    (∀ c ∈ earlier, ¬ Answers members nodes issuer key c) → r = .ok ((nodes b).localValue key)

/-- Among the members that are asked first somebody answers, and whoever does holds this
value, as does the reader if it answers itself. -/
structure Shown (members : List Address) (nodes : Address → Node) (issuer : Address)
    (key : String) (value : Option (List UInt8)) : Prop where
  own : Answers members nodes issuer key issuer → (nodes issuer).localValue key = value
  front : ∃ front back, (nodes issuer).serving key = front ++ back ∧
    (∃ b ∈ front, Answers members nodes issuer key b) ∧
    ∀ b ∈ front, Answers members nodes issuer key b → (nodes b).localValue key = value

theorem Seen.eq_of_shown {members : List Address} {nodes : Address → Node} {issuer : Address}
    {key : String} {r : Except TransportError (Option (List UInt8))} {value : Option (List UInt8)}
    (seen : Seen members nodes issuer key r) (shown : Shown members nodes issuer key value) :
    r = .ok value := by
  classical
  by_cases own : Answers members nodes issuer key issuer
  · rw [seen.own own, shown.own own]
  · obtain ⟨front, back, split, ⟨b, listed, answers⟩, same⟩ := shown.front
    obtain ⟨b, earlier, later, cut, answers, before⟩ : ∃ b earlier later,
        front = earlier ++ b :: later ∧ Answers members nodes issuer key b ∧
          ∀ c ∈ earlier, ¬ Answers members nodes issuer key c := by
      have found : (front.find? fun b => decide (Answers members nodes issuer key b)).isSome :=
        List.find?_isSome.mpr ⟨b, listed, decide_eq_true answers⟩
      obtain ⟨b, eq⟩ := Option.isSome_iff_exists.mp found
      obtain ⟨answers, earlier, later, cut, before⟩ := List.find?_eq_some_iff_append.mp eq
      exact ⟨b, earlier, later, cut, of_decide_eq_true answers,
        fun c hc => by simpa using before c hc⟩
    rw [seen.first own earlier b (later ++ back) (by rw [split, cut]; simp) answers before,
      same b (cut ▸ List.mem_append_right _ List.mem_cons_self) answers]

section

variable {n : Node} {key : String}

theorem Node.isUncertain_of_closed (closed : n.log.state = .disabled) :
    n.isUncertain key = false := by
  rw [isUncertain, WriteLog.isActive, closed]
  rfl

theorem Node.localValue_of_closed (closed : n.log.state = .disabled) :
    n.localValue key = n.store.value? key := by
  have settled : n.log.isUncertain key = false := by
    rw [WriteLog.isUncertain, WriteLog.isActive, closed]
    rfl
  rw [localValue, localEntry, settled]
  rfl

theorem Node.localEntry_of_open (opened : n.log.state ≠ .disabled) (key : String) :
    n.localEntry key = (n.log.pendingWrites key).foldl overlay (n.store.get? key) := by
  have active : n.log.isActive = true := by simpa [WriteLog.isActive] using opened
  rw [localEntry, WriteLog.isUncertain, active, Bool.true_and]
  split
  · rfl
  · next untouched =>
    have none : n.log.pendingWrites key = [] := by
      rw [WriteLog.pendingWrites, List.filter_eq_nil_iff]
      intro w mem own
      obtain ⟨tx, pending, mem⟩ := List.mem_flatMap.mp mem
      exact untouched (List.any_eq_true.mpr ⟨tx, pending, List.any_eq_true.mpr ⟨w, mem, own⟩⟩)
    rw [none]
    rfl

/-- The value is what all pending writes make of the one in the store. -/
theorem Node.localValue_of_open (opened : n.log.state ≠ .disabled) (key : String) :
    n.localValue key =
      valueAfter (n.log.pending.flatMap (·.writes)) key (n.store.value? key) := by
  rw [localValue, localEntry_of_open opened]
  exact map_value_foldl_overlay_filter key _ _

/-- It is enough to know the members that serve the key: each is uncertain or holds the
value in its store. -/
theorem shown_of_stores {members : List Address} {nodes : Address → Node} {issuer : Address}
    {key : String} {value : Option (List UInt8)}
    (someone : ∃ b ∈ (nodes issuer).serving key, b ∈ members ∧ (nodes b).log.state = .disabled)
    (each : ∀ b ∈ (nodes issuer).serving key, (nodes b).isUncertain key = true ∨
      (nodes b).log.state = .disabled ∧ (nodes b).store.value? key = value) :
    Shown members nodes issuer key value := by
  have same (b : Address) (answers : Answers members nodes issuer key b) :
      (nodes b).localValue key = value := by
    rcases each b answers.serves with uncertain | ⟨closed, holds⟩
    · rw [answers.certain] at uncertain
      cases uncertain
    · rw [Node.localValue_of_closed closed, holds]
  obtain ⟨b, serves, member, closed⟩ := someone
  exact ⟨same issuer, _, [], (List.append_nil _).symm,
    ⟨b, serves, serves, member, Node.isUncertain_of_closed closed⟩, fun b _ => same b⟩

end

section

variable {ε : Type} {who : Census} {w : World ε} {now : Nat} {nodes : Address → Node}

/-- What the first owner answers that is a member and certain. -/
def FirstAnswer (who : Census) (nodes : Address → Node) (key : String) (owners : List Address)
    (r : Client.Inquiry) : Prop :=
  ∀ earlier b later, owners = earlier ++ b :: later →
    (b ∈ who.members ∧ (nodes b).isUncertain key = false) →
    (∀ c ∈ earlier, ¬ (c ∈ who.members ∧ (nodes c).isUncertain key = false)) →
    r = .answered ((nodes b).localEntry key)

section

variable {key : String} {owner : Address} {owners : List Address} {r : Client.Inquiry}

theorem firstAnswer_nil : FirstAnswer who nodes key [] r := by
  intro earlier b later split
  cases earlier <;> cases split

theorem FirstAnswer.cons (h : FirstAnswer who nodes key owners r)
    (silent : ¬ (owner ∈ who.members ∧ (nodes owner).isUncertain key = false)) :
    FirstAnswer who nodes key (owner :: owners) r := by
  intro earlier b later split answers before
  cases earlier with
  | nil =>
    obtain ⟨rfl, rfl⟩ := List.cons.inj split
    exact absurd answers silent
  | cons c earlier =>
    obtain ⟨rfl, rfl⟩ := List.cons.inj split
    exact h earlier b later rfl answers fun c hc => before c (List.mem_cons_of_mem _ hc)

theorem firstAnswer_cons (member : owner ∈ who.members)
    (certain : (nodes owner).isUncertain key = false) :
    FirstAnswer who nodes key (owner :: owners) (.answered ((nodes owner).localEntry key)) := by
  intro earlier b later split answers before
  cases earlier with
  | nil =>
    obtain ⟨rfl, rfl⟩ := List.cons.inj split
    rfl
  | cons c earlier =>
    obtain ⟨rfl, -⟩ := List.cons.inj split
    exact absurd ⟨member, certain⟩ (before owner List.mem_cons_self)

end

/-- Owners are asked up to the first that is certain. -/
theorem inquire_ends (hosts : w.cluster.Hosts who nodes) {sender : Address} {timeout : Duration}
    {key : String} (failure : Option TransportError) (owners : List Address) :
    (Client.inquire .quiet sender timeout key failure owners).Ends now w fun w' r =>
      FirstAnswer who nodes key owners r ∧ w'.cluster.Hosts who nodes ∧
      w'.outside = w.outside := by
  induction owners generalizing w failure with
  | nil => exact Procedure.ends_pure ⟨firstAnswer_nil, hosts, rfl⟩
  | cons owner rest ih =>
    have later : ∀ {w' : World ε} (failure : Option TransportError), w'.cluster.Hosts who nodes →
        w'.outside = w.outside → ¬ (owner ∈ who.members ∧ (nodes owner).isUncertain key = false) →
        (Client.inquire .quiet sender timeout key failure rest).Ends now w' fun w'' r =>
          FirstAnswer who nodes key (owner :: rest) r ∧ w''.cluster.Hosts who nodes ∧
          w''.outside = w.outside := by
      intro w' failure hosts' outside silent
      refine (ih hosts' failure).mono ?_
      rintro w'' r ⟨answered, hosts'', outside'⟩
      exact ⟨answered.cons silent, hosts'', outside'.trans outside⟩
    rw [Client.inquire]
    by_cases member : owner ∈ who.members
    · refine (sendTo_quiet_ends hosts member (.clusteredGet key) timeout).bind ?_
      rintro w' r ⟨rfl, hosts', outside⟩
      rw [heeding_singleton, show ((nodes owner).handle (.clusteredGet key)).1 = nodes owner
        from rfl, Function.update_eq_self] at hosts'
      cases uncertain : (nodes owner).isUncertain key with
      | true =>
        simp only [Node.handle, uncertain, if_true]
        exact later failure hosts' outside (by simp [uncertain])
      | false =>
        simp only [Node.handle, uncertain, Bool.false_eq_true, if_false]
        exact Procedure.ends_pure ⟨firstAnswer_cons member uncertain, hosts', outside⟩
    · refine (sendTo_ends_unreachable member (P := fun ns o => ns = nodes ∧ o = w.outside)
        ⟨nodes, hosts, rfl, rfl⟩ (Surroundings.leads_quiet fun _ _ h => h)).bind ?_
      rintro w' r ⟨rfl, ns, hosts', rfl, outside⟩
      exact later _ hosts' outside fun answers => member answers.1

/-- A client's read through a member changes nothing. -/
theorem get_ends (hosts : w.cluster.Hosts who nodes) {issuer : Address}
    (mem : issuer ∈ who.members) (key : String) :
    (Client.get .quiet (who.serial issuer) (nodes issuer) key).Ends now w fun w' r =>
      Seen who.members nodes issuer key r ∧ w'.cluster.Hosts who nodes ∧
        w'.outside = w.outside := by
  rw [Client.get, hosts.address mem]
  cases local_ : ((nodes issuer).serving key).contains issuer &&
      !(nodes issuer).isUncertain key with
  | true =>
    rw [Bool.and_eq_true, Bool.not_eq_true', List.contains_iff_mem] at local_
    simp only [List.contains_iff_mem.mpr local_.1, if_true]
    exact Procedure.ends_pure ⟨⟨fun _ => rfl,
      fun elsewhere => absurd ⟨local_.1, mem, local_.2⟩ elsewhere⟩, hosts, rfl⟩
  | false =>
    -- the member itself gives no answer, so that asking the others misses nothing
    have elsewhere : ¬ Answers who.members nodes issuer key issuer := by
      intro own
      rw [own.certain, List.contains_iff_mem.mpr own.serves] at local_
      cases local_
    simp only [Bool.false_eq_true, if_false]
    refine (inquire_ends hosts none _).bind ?_
    rintro w' r ⟨answered, hosts', outside⟩
    have seen (result : Except TransportError (Option (List UInt8)))
        (same : ∀ entry, r = .answered entry → result = .ok (entry.map (·.value))) :
        Seen who.members nodes issuer key result := by
      refine ⟨fun own => absurd own elsewhere, fun _ earlier b later split answers before => ?_⟩
      have other : b ≠ issuer := fun eq => elsewhere (eq ▸ answers)
      refine same _ (answered (earlier.filter (· != issuer)) b (later.filter (· != issuer)) ?_
        ⟨answers.member, answers.certain⟩ fun c hc silent => ?_)
      · rw [split, List.filter_append, List.filter_cons_of_pos (by simpa using other)]
      · have listed := (List.mem_filter.mp hc).1
        exact before c listed ⟨split ▸ List.mem_append_left _ listed, silent.1, silent.2⟩
    cases r with
    | answered entry =>
      exact Procedure.ends_pure ⟨seen _ (by rintro _ ⟨⟩; rfl), hosts', outside⟩
    | unanswered failure =>
      have unseen (result : Except TransportError (Option (List UInt8))) :
          Seen who.members nodes issuer key result := seen result fun _ eq => by cases eq
      dsimp only
      split
      · refine (Procedure.ends_read (Q := fun w'' _ => w'' = w') rfl).bind ?_
        rintro w'' entry rfl
        exact Procedure.ends_pure ⟨unseen _, hosts', outside⟩
      · split <;> exact Procedure.ends_pure ⟨unseen _, hosts', outside⟩

end

end SlotRing
