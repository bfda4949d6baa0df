/-
# Members that go by one mapping, and clients that write

Between two sendings of a rehash clients write, and nothing else happens.  What
is said here of members that follow one mapping with their logs closed holds on
through that, and the owners of a key go on agreeing on its value as long as
they are among those that the mapping has its writes sent to.
-/
import SlotRing.Proofs.Cluster.Clients
import SlotRing.Proofs.Mapping.Serving

namespace SlotRing

/-! ## Only writes -/

namespace Surroundings

variable {ε : Type}

/-- The surroundings do nothing but carry out requests of a kind; `wrote` is
what they keep of it. -/
def OnlyWrites (around : Surroundings ε) (who : Census) (allowed : Request → Prop)
    (wrote : ε → List Write) : Prop :=
  ∀ (sending : Sending) (I : (Address → Node) → ε → Prop),
    (∀ nodes o o', wrote o' = wrote o → I nodes o → I nodes o') →
    (∀ nodes o r, allowed r → I nodes o →
      (∀ key, ((nodes r.issuer).serving key).Nodup) ∧
      ∀ o', wrote o' = wrote o ++ r.tx.writes →
        I (spread (nodes r.issuer).serving r.tx nodes) o') →
    around.Leads who sending I I

theorem onlyWrites_quiet (who : Census) (wrote : ε → List Write) :
    quiet.OnlyWrites who (fun _ => False) wrote :=
  fun _ _ _ _ => leads_quiet fun _ _ h => h

theorem onlyWrites_clients {who : Census} {allowed : Request → Prop}
    {script : Nat → Sending → List Request}
    (listed : ∀ i sending, ∀ r ∈ script i sending, allowed r)
    (mem : ∀ r, allowed r → r.issuer ∈ who.members) :
    (clients script).OnlyWrites who allowed Chronicle.writes := by
  intro sending I same step
  refine clients_lead (fun _ => I) (fun nodes o i => same nodes o _ (o.writes_count) i) ?_
    fun _ _ _ holds => holds
  intro i done r rest split nodes o inv
  have hr : allowed r :=
    listed i sending r (split ▸ List.mem_append_right _ List.mem_cons_self)
  obtain ⟨distinct, after⟩ := step nodes o r hr inv
  exact ⟨⟨mem r hr, fun w _ => distinct w.key⟩,
    fun outcome _ => after _ (o.writes_note r outcome)⟩

end Surroundings

/-! ## Following a mapping -/

/-- The node goes by a mapping and takes writes straight into its store. -/
structure Node.Follows (n : Node) (settings : Settings) (mapping : MemberMapping) : Prop where
  mapping : n.mapping = mapping
  settings : n.settings = settings
  closed : n.log.state = .disabled
  keyed : n.store.Keyed

/-- What a member hands over: what it holds and owns itself, if its state is complete
under a ring, and the requester is to own. -/
theorem Node.Follows.mem_stateFor_iff {n : Node} {settings : Settings} {mapping : MemberMapping}
    (h : n.Follows settings mapping) {requester : Address} {ring : MemberRing} {e : Entry} :
    e ∈ n.stateFor requester ring ↔ n.store.get? e.key = some e ∧
      requester ∈ ring.locate e.key settings.owners ∧
        n.address ∈ mapping.stable.locate e.key settings.owners := by
  rw [Node.stateFor, Store.mem_select_iff h.keyed, Bool.and_eq_true, Ring.isOwner, Ring.isOwner,
    List.contains_iff_mem, List.contains_iff_mem, Node.copies, h.settings, Node.stableRing,
    h.mapping]

/-- All owners of a key hold the same value under it, or none. -/
def Agree (owners : String → List Address) (value : String → Option (List UInt8))
    (nodes : Address → Node) : Prop :=
  ∀ key, ∀ a ∈ owners key, (nodes a).store.value? key = value key

theorem agree_of_empty {nodes : Address → Node} (empty : ∀ a, (nodes a).store = .empty)
    (owners : String → List Address) : Agree owners (fun _ => none) nodes := by
  intro key a _
  rw [empty a]
  rfl

section

variable {serving : String → List Address} {tx : Transaction} {nodes : Address → Node}

theorem Node.Follows.spread {a : Address} {settings : Settings} {mapping : MemberMapping}
    (h : (nodes a).Follows settings mapping) :
    (spread serving tx nodes a).Follows settings mapping := by
  rw [spread_of_closed h.closed]
  exact ⟨h.mapping, h.settings, h.closed, h.keyed.writeAll _⟩

theorem Node.Follows.install {n : Node} {settings : Settings} {mapping : MemberMapping}
    (h : n.Follows settings mapping) (next : MemberMapping) :
    (n.install next).Follows settings next :=
  ⟨rfl, h.settings, h.closed, h.keyed⟩

theorem Node.Follows.mem_serving_settled {n : Node} {settings : Settings} {ring : MemberRing}
    (h : n.Follows settings (.settled ring)) (sound : ring.Sound) {key : String} {a : Address} :
    a ∈ n.serving key ↔ a ∈ ring.locate key settings.owners := by
  rw [Node.mem_serving_settled sound h.mapping, Node.copies, h.settings]

theorem Node.Follows.mem_serving_moving {n : Node} {settings : Settings} {old new : MemberRing}
    (h : n.Follows settings (.moving old new)) (sound : new.Sound) {key : String} {a : Address} :
    a ∈ n.serving key ↔
      (a ∈ old.locate key settings.owners ∨ a ∈ new.locate key settings.owners) ∧
        a ∈ new.members := by
  rw [Node.mem_serving_moving sound h.mapping, Node.copies, h.settings]

theorem Agree.spread {owners : String → List Address} {value : String → Option (List UInt8)}
    (h : Agree owners value nodes)
    (closed : ∀ key, ∀ a ∈ owners key, (nodes a).log.state = .disabled)
    (served : ∀ key, ∀ a ∈ owners key, a ∈ serving key) :
    Agree owners (fun key => valueAfter tx.writes key (value key))
      (spread serving tx nodes) := by
  intro key a ha
  rw [value?_spread (closed key a ha), if_pos (served key a ha), h key a ha]

theorem Agree.congr {owners : String → List Address} {value : String → Option (List UInt8)}
    {nodes' : Address → Node} (h : Agree owners value nodes)
    (same : ∀ key, ∀ a ∈ owners key, (nodes' a).store = (nodes a).store) :
    Agree owners value nodes' :=
  fun key a ha => by rw [same key a ha]; exact h key a ha

end

end SlotRing
