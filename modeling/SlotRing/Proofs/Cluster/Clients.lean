/-
# Clients beside a rehash

While a rehash runs, clients go on writing.  A script says for each sending of
the rehash, by its number and by what is sent, which requests are carried out
right then, before anything is delivered; a rehash is a determined sequence of
sendings as long as nobody interferes in another way, so that the scripts are
all that clients can do.  The
chronicle is what has come of it: the requests in the order in which they were
carried out, and what their clients were told.
-/
import SlotRing.Proofs.Cluster.Writes

namespace SlotRing

structure Request where
  issuer : Address
  tx : Transaction

structure Chronicle where
  /-- The number of sendings. -/
  sendings : Nat := 0
  /-- The requests that were carried out, in that order, each with what the
  client was told. -/
  requests : List (Request × Except TransportError Unit) := []

namespace Chronicle

def writes (o : Chronicle) : List Write := o.requests.flatMap (·.1.tx.writes)

/-- Every client was told that its request has been carried out. -/
def Acknowledged (o : Chronicle) : Prop := ∀ entry ∈ o.requests, entry.2 = .ok ()

def note (o : Chronicle) (r : Request) (outcome : Except TransportError Unit) : Chronicle :=
  { o with requests := o.requests ++ [(r, outcome)] }

def count (o : Chronicle) : Chronicle := { o with sendings := o.sendings + 1 }

@[simp] theorem writes_note (o : Chronicle) (r : Request) (outcome : Except TransportError Unit) :
    (o.note r outcome).writes = o.writes ++ r.tx.writes := by
  simp [writes, note]

@[simp] theorem writes_count (o : Chronicle) : o.count.writes = o.writes := rfl

end Chronicle

namespace Request

def carryOut {ε : Type} (r : Request) : Procedure (World ε) (Except TransportError Unit) := do
  match ← World.read fun c =>
    (c.nodes.serial? r.issuer).bind fun n => (c.nodes.get? n).map (n, ·) with
  | none => return .error (.unreachable r.issuer)
  | some (n, node) => Client.write .quiet n node r.tx

def carryOutAll : List Request → Procedure (World Chronicle) Unit
  | [] => return
  | r :: rs => do
    let outcome ← r.carryOut
    Procedure.modify fun w => { w with outside := w.outside.note r outcome }
    carryOutAll rs

end Request

/-- Surroundings in which clients write: when `sending` is sent as the `i`-th
one, the requests of `script i sending` are carried out. -/
def clients (script : Nat → Sending → List Request) : Surroundings Chronicle where
  atSend sending := do
    let i ← Procedure.change fun w => ({ w with outside := w.outside.count }, w.outside.sendings)
    Request.carryOutAll (script i sending)
  noteAnswer _ _ outside := outside

theorem silent_clients (script : Nat → Sending → List Request) : (clients script).Silent :=
  fun _ _ _ => rfl

section

variable {who : Census} {now : Nat} {nodes : Address → Node}

theorem Request.carryOut_ends {ε : Type} {w : World ε} (hosts : w.cluster.Hosts who nodes)
    {r : Request} (mem : r.issuer ∈ who.members)
    (distinct : ∀ wr ∈ r.tx.writes, ((nodes r.issuer).serving wr.key).Nodup) :
    r.carryOut.Ends now w fun w' outcome =>
      (outcome = .ok () ↔
        ∀ wr ∈ r.tx.writes, ∀ a ∈ (nodes r.issuer).serving wr.key, a ∈ who.members) ∧
      w'.cluster.Hosts who (spread (nodes r.issuer).serving r.tx nodes) ∧
      w'.outside = w.outside := by
  refine (Procedure.ends_read (Q := fun w' found => w' = w ∧
    found = some (who.serial r.issuer, nodes r.issuer)) ⟨rfl, ?_⟩).bind ?_
  · show (w.cluster.nodes.serial? r.issuer).bind _ = _
    rw [hosts.named mem, Option.bind_some, hosts.node mem]
    rfl
  · rintro w' found ⟨rfl, rfl⟩
    exact write_ends hosts mem distinct

/-- Requests are carried out one after the other; `I done` is what holds after
those of `done`. -/
theorem Request.carryOutAll_ends {I : List Request → (Address → Node) → Chronicle → Prop}
    {rs : List Request}
    (step : ∀ done r rest, done ++ r :: rest = rs → ∀ nodes o, I done nodes o →
      (r.issuer ∈ who.members ∧
        ∀ wr ∈ r.tx.writes, ((nodes r.issuer).serving wr.key).Nodup) ∧
      ∀ outcome, (outcome = .ok () ↔ ∀ wr ∈ r.tx.writes,
          ∀ a ∈ (nodes r.issuer).serving wr.key, a ∈ who.members) →
        I (done ++ [r]) (spread (nodes r.issuer).serving r.tx nodes) (o.note r outcome))
    {w : World Chronicle} (h : w.Holds who (I [])) :
    (Request.carryOutAll rs).Ends now w fun w' _ => w'.Holds who (I rs) := by
  refine work_through (motive := fun done todo => ∀ w : World Chronicle, w.Holds who (I done) →
    (Request.carryOutAll todo).Ends now w fun w' _ => w'.Holds who (I rs)) ?_ ?_ w h
  · exact fun w holds => Procedure.ends_pure holds
  · rintro done r todo split rest w ⟨nodes, hosts, holds⟩
    obtain ⟨⟨mem, distinct⟩, after⟩ := step done r todo split nodes _ holds
    refine (r.carryOut_ends hosts mem distinct).bind ?_
    rintro w' outcome ⟨acked, hosts', outside⟩
    refine (Procedure.ends_modify (Q := fun w' _ => w'.Holds who (I (done ++ [r])))
      ⟨_, hosts', ?_⟩).bind fun w'' _ holds' => rest w'' holds'
    show I _ _ (w'.outside.note r outcome)
    rw [outside]
    exact after outcome acked

theorem clients_lead {script : Nat → Sending → List Request} {sending : Sending}
    {P Q : (Address → Node) → Chronicle → Prop}
    (I : List Request → (Address → Node) → Chronicle → Prop)
    (count : ∀ nodes o, P nodes o → I [] nodes o.count)
    (step : ∀ i done r rest, done ++ r :: rest = script i sending → ∀ nodes o, I done nodes o →
      (r.issuer ∈ who.members ∧
        ∀ wr ∈ r.tx.writes, ((nodes r.issuer).serving wr.key).Nodup) ∧
      ∀ outcome, (outcome = .ok () ↔ ∀ wr ∈ r.tx.writes,
          ∀ a ∈ (nodes r.issuer).serving wr.key, a ∈ who.members) →
        I (done ++ [r]) (spread (nodes r.issuer).serving r.tx nodes) (o.note r outcome))
    (last : ∀ i nodes o, I (script i sending) nodes o → Q nodes o) :
    (clients script).Leads who sending P Q := by
  intro now w holds
  refine (Procedure.ends_change (Q := fun w' _ => w'.Holds who (I [])) ?_).bind fun w' i holds' =>
    (Request.carryOutAll_ends (step i) holds').mono fun w'' _ holds'' => holds''.mono (last i)
  obtain ⟨nodes, hosts, holds⟩ := holds
  exact ⟨nodes, hosts, count nodes _ holds⟩

end

end SlotRing
