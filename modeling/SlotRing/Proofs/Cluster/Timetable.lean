/-
# What clients write by when

A rehash that nothing happens to sends what it sends in a known order, so that one can
say of a script which writes have been carried out when the rehash has come to a
certain sending (`written`).  `Timed` ties that to what the chronicle has, and to a
property of the nodes that depends on those writes only: if every request preserves
it, it is there at the next sending (`clients_lead_timed`).
-/
import SlotRing.Proofs.Cluster.Clients

namespace SlotRing

variable {script : Nat → Sending → List Request}

/-- What clients write at the sendings of a rehash, in order, when these are its first
ones. -/
def written (script : Nat → Sending → List Request) (sendings : List Sending) : List Write :=
  sendings.zipIdx.flatMap fun (sending, i) => (script i sending).flatMap (·.tx.writes)

theorem written_concat (sendings : List Sending) (sending : Sending) :
    written script (sendings ++ [sending]) =
      written script sendings ++
        (script sendings.length sending).flatMap (·.tx.writes) := by
  simp [written, List.zipIdx_append]

theorem written_prefix (sendings more : List Sending) :
    written script sendings <+: written script (sendings ++ more) := by
  rw [written, written, List.zipIdx_append, List.flatMap_append]
  exact List.prefix_append _ _

theorem mem_written {sendings : List Sending} {w : Write} (h : w ∈ written script sendings) :
    ∃ i, ∃ sending ∈ sendings, ∃ r ∈ script i sending, w ∈ r.tx.writes := by
  simp only [written, List.mem_flatMap] at h
  obtain ⟨⟨sending, i⟩, at_, r, hr, hw⟩ := h
  exact ⟨i, sending, List.fst_mem_of_mem_zipIdx at_, r, hr, hw⟩

/-- The rehash has come to the end of `sendings`, and the nodes are as `G` says with what
has been written so far. -/
structure Timed (script : Nat → Sending → List Request) (sendings : List Sending)
    (G : List Write → (Address → Node) → Prop) (nodes : Address → Node) (o : Chronicle) :
    Prop where
  count : o.sendings = sendings.length
  writes : o.writes = written script sendings
  holds : G (written script sendings) nodes

variable {who : Census} {sendings : List Sending} {G H : List Write → (Address → Node) → Prop}

theorem Timed.mono {nodes nodes' : Address → Node} {o : Chronicle}
    (h : Timed script sendings G nodes o)
    (weaker : G (written script sendings) nodes → H (written script sendings) nodes') :
    Timed script sendings H nodes' o :=
  ⟨h.count, h.writes, weaker h.holds⟩

/-- As `Timed`, when a sending more has been noted and the requests `done` have been
carried out. -/
structure Halfway (script : Nat → Sending → List Request) (sendings : List Sending)
    (G : List Write → (Address → Node) → Prop) (done : List Request) (nodes : Address → Node)
    (o : Chronicle) : Prop where
  count : o.sendings = sendings.length + 1
  writes : o.writes = written script sendings ++ done.flatMap (·.tx.writes)
  holds : G (written script sendings ++ done.flatMap (·.tx.writes)) nodes

/-- What every request preserves is there when the next sending is delivered. -/
theorem clients_lead_timed
    (issuers : ∀ i sending, ∀ r ∈ script i sending, r.issuer ∈ who.members)
    (step : ∀ i sending, ∀ r ∈ script i sending, ∀ ws nodes, G ws nodes →
      (∀ key, ((nodes r.issuer).serving key).Nodup) ∧
        G (ws ++ r.tx.writes) (spread (nodes r.issuer).serving r.tx nodes))
    (sending : Sending) :
    (clients script).Leads who sending (Timed script sendings G)
      (Timed script (sendings ++ [sending]) G) := by
  intro now w h
  refine (Procedure.ends_change (Q := fun w' i => i = sendings.length ∧
    w'.Holds who (Halfway script sendings G [])) ?_).bind ?_
  · obtain ⟨nodes, hosts, timed⟩ := h
    refine ⟨timed.count, nodes, hosts, congrArg (· + 1) timed.count, ?_, ?_⟩
    · exact timed.writes.trans (List.append_nil _).symm
    · rw [List.flatMap_nil, List.append_nil]
      exact timed.holds
  rintro w' i ⟨rfl, begun⟩
  refine (Request.carryOutAll_ends (I := Halfway script sendings G)
    (fun done r rest split nodes o inv => ?_) begun).mono
    fun w'' _ ended => ended.mono fun nodes o inv => ⟨?_, ?_, ?_⟩
  · obtain ⟨count, writes, holds⟩ := inv
    have mem : r ∈ script sendings.length sending :=
      split ▸ List.mem_append_right _ List.mem_cons_self
    obtain ⟨distinct, after⟩ := step _ _ r mem _ nodes holds
    refine ⟨⟨issuers _ _ r mem, fun wr _ => distinct wr.key⟩, fun outcome _ => ⟨count, ?_, ?_⟩⟩
    · rw [Chronicle.writes_note, writes]
      simp
    · rw [List.append_assoc] at after
      simpa using after
  · rw [List.length_append]
    exact inv.count
  · rw [written_concat]
    exact inv.writes
  · rw [written_concat]
    exact inv.holds

end SlotRing
