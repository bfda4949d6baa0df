/-
# Clients that write and read beside a rehash

As in `SlotRing.Proofs.Cluster.Clients`, for clients that put, remove and get
single keys.  The logbook has a record of each call with what came of it, in the
order in which the calls were carried out, so that one can say of each read
whether it returned what was last written (`Logbook.Right`).
-/
import SlotRing.Proofs.Cluster.Reads

namespace SlotRing

inductive Call where
  | write (issuer : Address) (w : Write)
  | read (issuer : Address) (key : String)

def Call.issuer : Call → Address
  | .write issuer _ | .read issuer _ => issuer

/-- A call with what came of it. -/
inductive Record where
  | wrote (issuer : Address) (w : Write) (outcome : Except TransportError Unit)
  | read (issuer : Address) (key : String)
    (result : Except TransportError (Option (List UInt8)))

/-- What a record says to have been written. -/
def Record.write? : Record → Option Write
  | .wrote _ w _ => some w
  | .read .. => none

structure Logbook where
  /-- The number of sendings. -/
  sendings : Nat := 0
  /-- The calls that were carried out, in that order. -/
  records : List Record := []

namespace Logbook

variable (o : Logbook)

def writes : List Write := o.records.filterMap Record.write?

/-- Every write so far was acknowledged. -/
def Acknowledged : Prop :=
  ∀ issuer w outcome, .wrote issuer w outcome ∈ o.records → outcome = .ok ()

def note (record : Record) : Logbook := { o with records := o.records ++ [record] }

def count : Logbook := { o with sendings := o.sendings + 1 }

/-- Whoever read the key got the value that it had after the writes before, if these
had been acknowledged. -/
def Right (initial : Option (List UInt8)) (key : String) : Prop :=
  ∀ earlier issuer r later, o.records = earlier ++ .read issuer key r :: later →
    Acknowledged { records := earlier } →
    r = .ok (valueAfter (writes { records := earlier }) key initial)

variable {o}

@[simp] theorem writes_note (record : Record) :
    (o.note record).writes = o.writes ++ record.write?.toList := by
  simp only [writes, note, List.filterMap_append]
  cases record <;> rfl

@[simp] theorem writes_count : o.count.writes = o.writes := rfl

theorem acknowledged_note {record : Record} : (o.note record).Acknowledged ↔
    o.Acknowledged ∧ ∀ issuer w outcome, record = .wrote issuer w outcome → outcome = .ok () := by
  simp only [Acknowledged, note, List.mem_append, List.mem_singleton]
  constructor
  · intro h
    exact ⟨fun issuer w outcome mem => h issuer w outcome (.inl mem),
      fun issuer w outcome eq => h issuer w outcome (.inr eq.symm)⟩
  · rintro ⟨before, last⟩ issuer w outcome (mem | eq)
    · exact before issuer w outcome mem
    · exact last issuer w outcome eq.symm

theorem right_empty (initial : Option (List UInt8)) (key : String) : Right {} initial key := by
  intro earlier issuer r later split
  cases earlier <;> cases split

/-- A read that is noted is right if it has what was last written; the reads before
stay what they were. -/
theorem right_note {initial : Option (List UInt8)} {key : String} {record : Record} :
    (o.note record).Right initial key ↔ o.Right initial key ∧
      ∀ issuer r, record = .read issuer key r → o.Acknowledged →
        r = .ok (valueAfter o.writes key initial) := by
  constructor
  · intro h
    constructor
    · intro earlier issuer r later split
      exact h earlier issuer r (later ++ [record]) (by simp [note, split])
    · rintro issuer r rfl
      exact h o.records issuer r [] rfl
  · rintro ⟨before, last⟩ earlier issuer r later split
    rcases List.eq_nil_or_concat' later with rfl | ⟨later, end_, rfl⟩
    · obtain ⟨rfl, eq⟩ := List.append_inj' split rfl
      exact last issuer r (List.singleton_inj.mp eq)
    · refine before earlier issuer r later ?_
      rw [note, ← List.cons_append, ← List.append_assoc] at split
      exact (List.append_inj' split rfl).1

end Logbook

namespace Call

variable {ε : Type}

def carryOut (call : Call) : Procedure (World ε) Record := do
  match call, ← World.read fun c =>
    (c.nodes.serial? call.issuer).bind fun n => (c.nodes.get? n).map (n, ·) with
  | .write issuer w, none => return .wrote issuer w (.error (.unreachable issuer))
  | .read issuer key, none => return .read issuer key (.error (.unreachable issuer))
  | .write issuer w, some (n, node) =>
    return .wrote issuer w (← Client.write .quiet n node (.single w))
  | .read issuer key, some (n, node) => return .read issuer key (← Client.get .quiet n node key)

def carryOutAll : List Call → Procedure (World Logbook) Unit
  | [] => return
  | call :: calls => do
    let record ← call.carryOut
    Procedure.modify fun w => { w with outside := w.outside.note record }
    carryOutAll calls

end Call

/-- Surroundings in which clients write and read: when `sending` is sent as the `i`-th
one, the calls of `script i sending` are carried out. -/
def callers (script : Nat → Sending → List Call) : Surroundings Logbook where
  atSend sending := do
    let i ← Procedure.change fun w => ({ w with outside := w.outside.count }, w.outside.sendings)
    Call.carryOutAll (script i sending)
  noteAnswer _ _ outside := outside

theorem silent_callers (script : Nat → Sending → List Call) : (callers script).Silent :=
  fun _ _ _ => rfl

/-- What a call makes of the nodes, and what is recorded of it. -/
inductive Call.Does (members : List Address) (nodes : Address → Node) :
    Call → (Address → Node) → Record → Prop
  | write {issuer : Address} {w : Write} {outcome : Except TransportError Unit} :
    (outcome = .ok () ↔ ∀ a ∈ (nodes issuer).serving w.key, a ∈ members) →
    Does members nodes (.write issuer w) (spread (nodes issuer).serving (.single w) nodes)
      (.wrote issuer w outcome)
  | read {issuer : Address} {key : String}
    {r : Except TransportError (Option (List UInt8))} :
    Seen members nodes issuer key r →
    Does members nodes (.read issuer key) nodes (.read issuer key r)

section

variable {who : Census} {now : Nat} {nodes : Address → Node}

theorem Call.carryOut_ends {ε : Type} {w : World ε} (hosts : w.cluster.Hosts who nodes)
    {call : Call} (mem : call.issuer ∈ who.members)
    (distinct : ∀ key, ((nodes call.issuer).serving key).Nodup) :
    call.carryOut.Ends now w fun w' record => ∃ nodes',
      call.Does who.members nodes nodes' record ∧ w'.cluster.Hosts who nodes' ∧
        w'.outside = w.outside := by
  have found : (w.cluster.nodes.serial? call.issuer).bind (fun n =>
      (w.cluster.nodes.get? n).map (n, ·)) = some (who.serial call.issuer, nodes call.issuer) := by
    rw [hosts.named mem, Option.bind_some, hosts.node mem]
    rfl
  refine (Procedure.ends_read (Q := fun w' r => w' = w ∧
    r = some (who.serial call.issuer, nodes call.issuer)) ⟨rfl, found⟩).bind ?_
  rintro w' r ⟨rfl, rfl⟩
  cases call with
  | write issuer wr =>
    refine (write_ends hosts mem fun _ _ => distinct _).bind ?_
    rintro w'' outcome ⟨acked, hosts', outside⟩
    refine Procedure.ends_pure ⟨_, .write ?_, hosts', outside⟩
    rw [acked]
    exact List.forall_mem_singleton
  | read issuer key =>
    refine (get_ends hosts mem key).bind ?_
    rintro w'' r ⟨seen, hosts', outside⟩
    exact Procedure.ends_pure ⟨_, .read seen, hosts', outside⟩

/-- Calls are carried out one after the other; `I done` is what holds after those of
`done`. -/
theorem Call.carryOutAll_ends {I : List Call → (Address → Node) → Logbook → Prop}
    {calls : List Call}
    (step : ∀ done call rest, done ++ call :: rest = calls → ∀ nodes o, I done nodes o →
      (call.issuer ∈ who.members ∧ ∀ key, ((nodes call.issuer).serving key).Nodup) ∧
      ∀ nodes' record, call.Does who.members nodes nodes' record →
        I (done ++ [call]) nodes' (o.note record))
    {w : World Logbook} (h : w.Holds who (I [])) :
    (Call.carryOutAll calls).Ends now w fun w' _ => w'.Holds who (I calls) := by
  refine work_through (motive := fun done todo => ∀ w : World Logbook, w.Holds who (I done) →
    (Call.carryOutAll todo).Ends now w fun w' _ => w'.Holds who (I calls)) ?_ ?_ w h
  · exact fun w holds => Procedure.ends_pure holds
  · rintro done call todo split rest w ⟨nodes, hosts, holds⟩
    obtain ⟨⟨mem, distinct⟩, after⟩ := step done call todo split nodes _ holds
    refine (call.carryOut_ends hosts mem distinct).bind ?_
    rintro w' record ⟨nodes', does, hosts', outside⟩
    refine (Procedure.ends_modify (Q := fun w' _ => w'.Holds who (I (done ++ [call])))
      ⟨_, hosts', ?_⟩).bind fun w'' _ holds' => rest w'' holds'
    show I _ _ (w'.outside.note record)
    rw [outside]
    exact after nodes' record does

theorem callers_lead {script : Nat → Sending → List Call} {sending : Sending}
    {P Q : (Address → Node) → Logbook → Prop}
    (I : List Call → (Address → Node) → Logbook → Prop)
    (count : ∀ nodes o, P nodes o → I [] nodes o.count)
    (step : ∀ i done call rest, done ++ call :: rest = script i sending → ∀ nodes o,
      I done nodes o →
      (call.issuer ∈ who.members ∧ ∀ key, ((nodes call.issuer).serving key).Nodup) ∧
      ∀ nodes' record, call.Does who.members nodes nodes' record →
        I (done ++ [call]) nodes' (o.note record))
    (last : ∀ i nodes o, I (script i sending) nodes o → Q nodes o) :
    (callers script).Leads who sending P Q := by
  intro now w holds
  refine (Procedure.ends_change (Q := fun w' _ => w'.Holds who (I [])) ?_).bind fun w' i holds' =>
    (Call.carryOutAll_ends (step i) holds').mono fun w'' _ holds'' => holds''.mono (last i)
  obtain ⟨nodes, hosts, holds⟩ := holds
  exact ⟨nodes, hosts, count nodes _ holds⟩

theorem callers_lead_idle {script : Nat → Sending → List Call} {sending : Sending}
    {P : (Address → Node) → Logbook → Prop} (idle : ∀ i, script i sending = [])
    (count : ∀ nodes o, P nodes o → P nodes o.count) : (callers script).Leads who sending P P := by
  refine callers_lead (fun _ => P) count ?_ fun _ _ _ h => h
  intro i done call rest split
  rw [idle i, List.append_eq_nil_iff] at split
  cases split.2

/-- Reads stay right if those of a sending get what was last written, and what makes
sure of it outlasts the calls. -/
theorem callers_lead_right {script : Nat → Sending → List Call} {sending : Sending}
    {initial : Option (List UInt8)} {key : String} {P : (Address → Node) → Logbook → Prop}
    (count : ∀ nodes o, P nodes o → P nodes o.count)
    (step : ∀ i, ∀ call ∈ script i sending, ∀ nodes o, P nodes o →
      (call.issuer ∈ who.members ∧ ∀ key, ((nodes call.issuer).serving key).Nodup) ∧
      (∀ nodes' record, call.Does who.members nodes nodes' record → P nodes' (o.note record)) ∧
      ∀ issuer, call = .read issuer key → o.Acknowledged →
        Shown who.members nodes issuer key (valueAfter o.writes key initial)) :
    (callers script).Leads who sending (fun nodes o => P nodes o ∧ o.Right initial key)
      fun nodes o => P nodes o ∧ o.Right initial key := by
  refine callers_lead (fun _ nodes o => P nodes o ∧ o.Right initial key)
    (fun nodes o h => ⟨count nodes o h.1, h.2⟩) ?_ fun _ _ _ h => h
  rintro i done call rest split nodes o ⟨p, right⟩
  obtain ⟨allowed, stays, shown⟩ := step i call
    (split ▸ List.mem_append_right _ List.mem_cons_self) nodes o p
  refine ⟨allowed, fun nodes' record does =>
    ⟨stays nodes' record does, Logbook.right_note.mpr ⟨right, ?_⟩⟩⟩
  rintro issuer r rfl acked
  cases does with
  | read seen => exact seen.eq_of_shown (shown issuer rfl acked)

end

end SlotRing
