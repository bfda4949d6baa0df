/-
# Errands

What a rehash leaves to be done on the side: the node tells former owners which
of their copies they may drop, one former owner after the other (`tell_ends`).
A member that is told drops what it does not own and keeps everything else, so
that an errand does no harm whenever it is run; and when it is over, whatever
the node holds itself is held by no former owner any more.
-/
import SlotRing.Proofs.Mapping.Serving
import SlotRing.Proofs.Rehash.Steps
import SlotRing.Proofs.Store.Values
import SlotRing.Proofs.Tables

namespace SlotRing

theorem Node.get?_invalidate (n : Node) (keys : List String) (key : String) :
    (n.invalidate keys).store.get? key =
      if key ∈ keys ∧ n.isOwner key = false then none else n.store.get? key := by
  simp only [Node.invalidate, Store.get?_foldl_drop, List.mem_filter, Bool.not_eq_true']

theorem Node.removed?_invalidate (n : Node) (keys : List String) (key : String) :
    (n.invalidate keys).store.removed? key = n.store.removed? key :=
  Store.removed?_foldl_drop ..

theorem Node.isOwner_eq_false_iff {n : Node} {key : String} :
    n.isOwner key = false ↔ n.address ∉ n.mapping.locate key n.copies := by
  rw [isOwner, Mapping.isOwner, List.contains_eq_mem, decide_eq_false_iff_not]

theorem Node.value?_invalidate {n : Node} {keys : List String} {key : String}
    (owned : key ∈ keys → n.isOwner key = true) :
    (n.invalidate keys).store.value? key = n.store.value? key := by
  rw [Store.value?, Store.value?, get?_invalidate, if_neg]
  rintro ⟨told, foreign⟩
  rw [owned told] at foreign
  cases foreign

namespace Rehash

variable {ε : Type} {around : Surroundings ε} {who : Census} {w : World ε} {now : Nat}
variable {Q : (Address → Node) → ε → Prop}

/-! ## Who is told what -/

def staleCopies (n : Node) (p : Passage) : List (Address × String) :=
  n.store.keys.flatMap fun key =>
    ((p.old.staleOwners p.new key n.copies).filter fun stale =>
      stale != n.address && p.new.contains stale).map (·, key)

theorem mem_staleCopies {n : Node} {p : Passage} {stale : Address} {key : String} :
    (stale, key) ∈ staleCopies n p ↔ (n.store.get? key).isSome ∧
      (stale ∈ p.old.locate key n.copies ∧ stale ∉ p.new.locate key n.copies) ∧
      stale ≠ n.address ∧ p.new.contains stale = true := by
  have listed (key : String) : stale ∈ ((p.old.staleOwners p.new key n.copies).filter fun stale =>
      stale != n.address && p.new.contains stale) ↔
      (stale ∈ p.old.locate key n.copies ∧ stale ∉ p.new.locate key n.copies) ∧
        stale ≠ n.address ∧ p.new.contains stale = true := by
    rw [List.mem_filter, Ring.staleOwners, mem_lost, Bool.and_eq_true, bne_iff_ne]
  rw [staleCopies, List.mem_flatMap]
  constructor
  · rintro ⟨_, live, told⟩
    obtain ⟨_, former, eq⟩ := List.mem_map.mp told
    obtain ⟨rfl, rfl⟩ := Prod.mk.inj eq
    exact ⟨Store.mem_keys_iff.mp live, (listed _).mp former⟩
  · rintro ⟨live, told⟩
    exact ⟨key, Store.mem_keys_iff.mpr live, List.mem_map.mpr ⟨stale, (listed key).mpr told, rfl⟩⟩

theorem mem_hints {n : Node} {p : Passage} {stale : Address} {keys : List String}
    (listed : (stale, keys) ∈ hints n p) {key : String} :
    key ∈ keys ↔ (stale, key) ∈ staleCopies n p := by
  rw [(mem_perMember_iff.mp listed).1, mem_itemsOf]
  rfl

theorem exists_hint {n : Node} {p : Passage} {stale : Address} {key : String}
    (told : (stale, key) ∈ staleCopies n p) : ∃ keys, (stale, keys) ∈ hints n p ∧ key ∈ keys := by
  rw [← mem_itemsOf] at told
  exact ⟨_, mem_perMember_iff.mpr ⟨rfl, List.ne_nil_of_mem told⟩, told⟩

theorem nodup_staleCopies {p : Passage} (sound : p.old.Sound) (n : Node) :
    (staleCopies n p).Nodup := by
  refine List.nodup_flatMap.mpr ⟨fun key _ => ?_, ?_⟩
  · refine List.Nodup.map (fun _ _ same => (Prod.mk.inj same).1) (.filter _ ?_)
    exact (sound.nodup_locate key _).filter _
  · refine (nodup_keys n.store.live).imp fun other pair here there => ?_
    obtain ⟨_, -, rfl⟩ := List.mem_map.mp here
    obtain ⟨_, -, same⟩ := List.mem_map.mp there
    exact other (Prod.mk.inj same).2.symm

/-! ## Telling them -/

/-- How many keys are told of, when those of `members` are there to be told. -/
def toldTo (members : List Address) (rows : List (Address × List String)) : Nat :=
  (pairsOf (rows.filter (·.1 ∈ members))).length

/-- Where all that are on the new ring are there to be told, a node tells of every stale
copy. -/
theorem toldTo_hints {members : List Address} {p : Passage} (sound : p.old.Sound) {n : Node}
    (there : ∀ a, p.new.contains a = true → a ∈ members) :
    toldTo members (hints n p) = (staleCopies n p).length := by
  have all : (hints n p).filter (·.1 ∈ members) = hints n p := by
    refine List.filter_eq_self.mpr fun ⟨stale, keys⟩ listed => decide_eq_true (there stale ?_)
    obtain ⟨-, some⟩ := mem_perMember_iff.mp listed
    obtain ⟨key, mem⟩ := List.exists_mem_of_ne_nil keys some
    exact (mem_staleCopies.mp ((mem_hints listed).mp mem)).2.2.2
  rw [toldTo, all]
  exact length_pairsOf_perMember (nodup_staleCopies sound n)

/-- Former owners are told one after the other; `I done` is what holds when
those of the rows `done` have been told, as far as they are members. -/
theorem tell_ends (silent : around.Silent) {sender : Address} {timeout : Duration}
    {rows : List (Address × List String)}
    {I : List (Address × List String) → (Address → Node) → ε → Prop} (h : w.Holds who (I []))
    (told : ∀ done row rest, done ++ row :: rest = rows → row.1 ∈ who.members →
      around.Leads who { sender, targets := [row.1], command := .invalidateHint row.2 } (I done)
        fun nodes o => I (done ++ [row])
          (Function.update nodes row.1 ((nodes row.1).invalidate row.2)) o)
    (missed : ∀ done row rest, done ++ row :: rest = rows → row.1 ∉ who.members →
      around.Leads who { sender, targets := [row.1], command := .invalidateHint row.2 } (I done)
        (I (done ++ [row]))) :
    (tell around sender timeout rows).Ends now w fun w' told =>
      told = toldTo who.members rows ∧ w'.Holds who (I rows) := by
  refine work_through (motive := fun done todo => ∀ w : World ε, w.Holds who (I done) →
    (tell around sender timeout todo).Ends now w fun w' told =>
      told = toldTo who.members todo ∧ w'.Holds who (I rows)) ?_ ?_ w h
  · exact fun w holds => Procedure.ends_pure ⟨rfl, holds⟩
  · intro done row todo split rest w holds
    rw [tell]
    by_cases member : row.1 ∈ who.members
    · refine (sendTo_ends silent member holds (Q := fun nodes o _ => I (done ++ [row]) nodes o)
        ?_).bind ?_
      · refine (told done row todo split member).mono fun nodes o _ holds' => ?_
        rw [heeding_singleton]
        exact holds'
      · rintro w' r ⟨reply, rfl, holds'⟩
        refine (rest w' holds').bind ?_
        rintro w'' _ ⟨rfl, holds''⟩
        refine Procedure.ends_pure ⟨?_, holds''⟩
        simp [toldTo, pairsOf, member]
    · refine (sendTo_ends_unreachable member holds (missed done row todo split member)).bind ?_
      rintro w' r ⟨rfl, holds'⟩
      rw [show toldTo who.members (row :: todo) = toldTo who.members todo by
        simp [toldTo, member]]
      exact rest w' holds'

theorem hosts_finishErrand {c : Cluster} {nodes : Address → Node} (h : c.Hosts who nodes)
    (n told : Nat) : ∃ errands, (c.finishErrand n told).Hosts { who with errands } nodes :=
  ⟨none, h.members_eq, h.nodup, h.faultless, h.reached, h.named, h.node, h.address, nofun⟩

/-- An errand is run: what its node tells the others is what counts. -/
theorem runErrand_ends (who : Census) {errand : Errand} (n : Nat)
    (gone : w.cluster.nodes.get? errand.node = none → w.Holds who Q)
    (tells : ∀ node, w.cluster.nodes.get? errand.node = some node →
      (tell around node.address node.settings.rpcTimeout (hints node errand.passage)).Ends now w
        fun w' _ => w'.Holds who Q) :
    (runErrand around n errand).Ends now w fun w' _ =>
      ∃ errands, w'.Holds { who with errands } Q := by
  have finish : ∀ (told : Nat) (w' : World ε), w'.Holds who Q →
      (World.modify (·.finishErrand n told) : Procedure (World ε) Unit).Ends now w' fun w'' _ =>
        ∃ errands, w''.Holds { who with errands } Q := by
    rintro told w' ⟨nodes, hosts, q⟩
    obtain ⟨errands, hosts'⟩ := hosts_finishErrand hosts n told
    exact Procedure.ends_modify ⟨errands, nodes, hosts', q⟩
  unfold runErrand
  refine (Procedure.ends_read (Q := fun w' found =>
    w' = w ∧ found = (w.cluster.nodes.get? errand.node).map id) ⟨rfl, rfl⟩).bind ?_
  rintro w' found ⟨rfl, rfl⟩
  cases known : w'.cluster.nodes.get? errand.node with
  | none => exact (Procedure.ends_pure (Q := fun (w'' : World ε) (_ : Nat) => w''.Holds who Q)
      (gone known)).bind fun w'' told => finish told w''
  | some node => exact (tells node known).bind fun w'' told => finish told w''

theorem told?_finishErrand {c : Cluster} {n : Nat} (listed : n < c.errands.length) (told : Nat) :
    (c.finishErrand n told).told? n = some told := by
  simp [Cluster.told?, Cluster.finishErrand, listed]

/-- When an errand has been run, the list of errands says of how many keys its node has
told the others. -/
theorem runErrand_counts {errand : Errand} {errands : List Errand} {n count : Nat} {node : Node}
    (known : w.cluster.nodes.get? errand.node = some node)
    (counted : who.errands = some errands) (listed : n < errands.length)
    (tells : (tell around node.address node.settings.rpcTimeout
      (hints node errand.passage)).Ends now w fun w' told => told = count ∧ w'.Holds who Q) :
    (runErrand around n errand).Ends now w fun w' _ =>
      w'.cluster.told? n = some count ∧ w'.cluster.errands.length = errands.length ∧
        ∃ errands, w'.Holds { who with errands } Q := by
  unfold runErrand
  refine (Procedure.ends_read (Q := fun w' found => w' = w ∧ found = some node)
    ⟨rfl, congrArg (Option.map id) known⟩).bind ?_
  rintro _ _ ⟨rfl, rfl⟩
  refine tells.bind ?_
  rintro w' told ⟨rfl, nodes, hosts, q⟩
  have same := hosts.errands_eq counted
  obtain ⟨_, hosts'⟩ := hosts_finishErrand hosts n told
  refine Procedure.ends_modify ⟨told?_finishErrand (same ▸ listed) _, ?_, _, nodes, hosts', q⟩
  rw [← same]
  exact List.length_modify ..

end Rehash

end SlotRing
