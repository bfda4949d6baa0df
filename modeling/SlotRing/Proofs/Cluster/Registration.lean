/-
# Members come and go

A node that is made, given an endpoint and registered is hosted from then on
(`Cluster.Hosts.enrol`), and who is taken out of the view is not
(`Cluster.Hosts.unregister`).  Nothing else changes with it.
-/
import SlotRing.Proofs.Cluster.Hosting
import SlotRing.Proofs.Tables

namespace SlotRing

def Cluster.enrol (c : Cluster) (a : Address) (node : Node) : Cluster :=
  ((c.addNode a node).addEndpoint a { node := some c.nodes.next }).register a c.endpoints.next

/-- Makes a node that goes by the ring of `members`, with an endpoint of its
own, and registers it, if the settings allow that. -/
def Cluster.start (c : Cluster) (a : Address) (settings : Settings) (members : List Address) :
    Cluster :=
  match Node.create a settings members with
  | .ok node => c.enrol a node
  | .error _ => c

def Census.add (who : Census) (a : Address) (n : Serial) : Census where
  members := who.members ++ [a]
  serial := Function.update who.serial a n
  errands := who.errands

def Census.without (who : Census) (a : Address) : Census where
  members := who.members.filter (· != a)
  serial := who.serial
  errands := who.errands

def Node.made (a : Address) (settings : Settings) (strategy : Strategy) (ring : MemberRing) :
    Node where
  address := a
  settings := settings
  strategy := strategy
  accepted := .initial (.settled ring)
  log := .closed
  movingFrom := none
  store := .empty
  rehashing := false

/-- What is made is an idle node with an empty store, settled on the ring of the
members that were given. -/
theorem Node.create_eq_ok_iff {a : Address} {settings : Settings} {members : List Address}
    {n : Node} :
    Node.create a settings members = .ok n ↔
      settings.validate = .ok () ∧ ∃ strategy ring, settings.strategy = .ok strategy ∧
        Ring.ofMembers strategy members = .ok ring ∧ n = Node.made a settings strategy ring := by
  rw [Node.create]
  cases valid : settings.validate with
  | error => simp [bind, Except.bind]
  | ok =>
    cases named : settings.strategy with
    | error => simp [bind, Except.bind]
    | ok strategy =>
      cases built : Ring.ofMembers strategy members with
      | error => simp [built, Except.mapError, bind, Except.bind]
      | ok ring =>
        simp only [built, Except.mapError, bind, Except.bind, pure, Except.pure, Except.ok.injEq,
          true_and]
        constructor
        · rintro rfl
          exact ⟨strategy, ring, rfl, built, rfl⟩
        · rintro ⟨strategy', ring', rfl, built', rfl⟩
          rw [built] at built'
          cases built'
          rfl

/-- A cluster of nodes that all go by the ring of the whole set. -/
def Cluster.founded (settings : Settings) (members : List Address) : Cluster :=
  members.foldl (fun c a => c.start a settings members) {}

/-- The cluster in which a member holds one more entry. -/
def Cluster.stocked (c : Cluster) (a : Address) (e : Entry) : Cluster :=
  c.updateNode ((c.nodes.serial? a).getD 0) fun n => { n with store := n.store.insert e }

theorem Census.mem_add {who : Census} {a b : Address} {n : Serial} :
    b ∈ (who.add a n).members ↔ b ∈ who.members ∨ b = a := by
  rw [Census.add, List.mem_append, List.mem_singleton]

theorem Census.serial_add_self (who : Census) (a : Address) (n : Serial) :
    (who.add a n).serial a = n :=
  Function.update_self _ _ _

theorem Census.serial_add_of_ne (who : Census) {a b : Address} (n : Serial) (other : a ≠ b) :
    (who.add a n).serial b = who.serial b :=
  Function.update_of_ne other.symm _ _

theorem Roster.lt_next_of_get? {α : Type} {r : Roster α} {n : Serial} {a : α}
    (h : r.get? n = some a) : n < r.next :=
  (List.getElem?_eq_some_iff.mp h).1

theorem Roster.serial?_add {α : Type} (r : Roster α) (name other : String) (a : α) :
    (r.add name a).serial? other = if name = other then some r.next else r.serial? other := by
  simp [serial?, add, Std.ExtTreeMap.getElem?_insert]

theorem Roster.get?_add_of_get? {α : Type} {r : Roster α} {n : Serial} {a : α}
    (h : r.get? n = some a) (name : String) (b : α) : (r.add name b).get? n = some a :=
  (r.get?_add_of_lt name b (lt_next_of_get? h)).trans h

theorem Roster.get?_add_eq_some_iff {α : Type} {r : Roster α} {n : Serial} {name : String}
    {a b : α} : (r.add name b).get? n = some a ↔ n = r.next ∧ b = a ∨ r.get? n = some a := by
  rcases Nat.lt_trichotomy n r.next with earlier | rfl | later
  · rw [r.get?_add_of_lt name b earlier]
    simp [Nat.ne_of_lt earlier]
  · have before : r.get? r.next = none := by simp [get?, next]
    rw [get?_add_next, before]
    simp
  · have before : r.get? n = none := List.getElem?_eq_none (Nat.le_of_lt later)
    have none : (r.add name b).get? n = none := by
      refine List.getElem?_eq_none ?_
      rw [add, List.length_append, List.length_singleton]
      exact later
    rw [none, before]
    simp [Nat.ne_of_gt later]

namespace Cluster

variable {c : Cluster} {who : Census} {nodes : Address → Node} {a : Address}

theorem hosts_empty (serial : Address → Serial) (nodes : Address → Node) :
    Cluster.Hosts {} ⟨[], serial, some []⟩ nodes where
  members_eq := rfl
  nodup := List.nodup_nil
  faultless _ _ := rfl
  reached h := absurd h List.not_mem_nil
  named h := absurd h List.not_mem_nil
  node h := absurd h List.not_mem_nil
  address h := absurd h List.not_mem_nil
  errands_eq := Option.some.inj

theorem Hosts.enrol (h : c.Hosts who nodes) {node : Node} (absent : a ∉ who.members)
    (address : node.address = a) :
    (c.enrol a node).Hosts (who.add a c.nodes.next) (Function.update nodes a node) := by
  have unregistered : (c.members.contains a) = false := by
    rw [h.members_eq, ← Bool.not_eq_true, List.contains_iff_mem]
    exact absent
  have enrolled : c.enrol a node =
      { c with
        view := c.view ++ [(a, c.endpoints.next)]
        endpoints := c.endpoints.add a { node := some c.nodes.next }
        nodes := c.nodes.add a node } := by
    simp only [Cluster.enrol, register]
    exact if_neg (by simpa [members, addNode, addEndpoint] using unregistered)
  have other {b : Address} (hb : b ∈ who.members) : a ≠ b := fun same => absent (same ▸ hb)
  rw [enrolled]
  refine ⟨?_, ?_, h.faultless, ?_, ?_, ?_, ?_, h.errands_eq⟩
  · show (c.view ++ _).map _ = who.members ++ [a]
    rw [List.map_append, ← h.members_eq]
    rfl
  · refine List.nodup_append.mpr ⟨h.nodup, List.pairwise_singleton _ _, ?_⟩
    intro b hb b' hb' same
    rw [List.mem_singleton] at hb'
    exact absent (hb' ▸ same ▸ hb)
  · intro b hb
    rcases Census.mem_add.mp hb with hb | rfl
    · obtain ⟨e, reach, endpoint⟩ := h.reached hb
      refine ⟨e, ?_, ?_⟩
      · rw [reach?, Option.filter_eq_some_iff] at reach ⊢
        rw [List.lookup_append, reach.1]
        exact ⟨rfl, by rw [Roster.serial?_add, if_neg (other hb)]; exact reach.2⟩
      · rw [Census.serial_add_of_ne _ _ (other hb)]
        exact Roster.get?_add_of_get? endpoint _ _
    · refine ⟨c.endpoints.next, ?_, ?_⟩
      · rw [reach?, Option.filter_eq_some_iff]
        refine ⟨?_, by rw [Roster.serial?_add, if_pos rfl]; simp⟩
        rw [List.lookup_append, h.lists.lookup_eq_none absent]
        simp
      · rw [Census.serial_add_self]
        exact Roster.get?_add_next _ _ _
  · intro b hb
    show (c.nodes.add a node).serial? b = _
    rw [Roster.serial?_add]
    rcases Census.mem_add.mp hb with hb | rfl
    · rw [if_neg (other hb), Census.serial_add_of_ne _ _ (other hb)]
      exact h.named hb
    · rw [if_pos rfl, Census.serial_add_self]
  · intro b hb
    show (c.nodes.add a node).get? _ = _
    rcases Census.mem_add.mp hb with hb | rfl
    · rw [Census.serial_add_of_ne _ _ (other hb), Function.update_of_ne (other hb).symm]
      exact Roster.get?_add_of_get? (h.node hb) _ _
    · rw [Census.serial_add_self, Function.update_self]
      exact Roster.get?_add_next _ _ _
  · intro b hb
    rcases Census.mem_add.mp hb with hb | rfl
    · rw [Function.update_of_ne (other hb).symm]
      exact h.address hb
    · rw [Function.update_self]
      exact address

theorem Hosts.start (h : c.Hosts who nodes) {settings : Settings} {members : List Address}
    {node : Node} (absent : a ∉ who.members) (made : Node.create a settings members = .ok node) :
    (c.start a settings members).Hosts (who.add a c.nodes.next) (Function.update nodes a node) := by
  rw [Cluster.start, made]
  obtain ⟨-, strategy, ring, -, -, rfl⟩ := Node.create_eq_ok_iff.mp made
  exact h.enrol absent rfl

theorem exists_hosts_founded {settings : Settings} {members : List Address}
    (distinct : members.Nodup) {made : Address → Node}
    (create : ∀ a ∈ members, Node.create a settings members = .ok (made a)) :
    ∃ serial, (founded settings members).Hosts ⟨members, serial, some []⟩ made := by
  have grow : ∀ (todo : List Address) (c : Cluster) (who : Census), c.Hosts who made →
      (who.members ++ todo).Nodup → (∀ a ∈ todo, a ∈ members) →
      ∃ serial, (todo.foldl (fun c a => c.start a settings members) c).Hosts
        ⟨who.members ++ todo, serial, who.errands⟩ made := by
    intro todo
    induction todo with
    | nil => exact fun c who h _ _ => ⟨who.serial, by rw [List.append_nil]; exact h⟩
    | cons a todo ih =>
      intro c who h distinct listed
      have absent : a ∉ who.members := fun ha =>
        List.disjoint_of_nodup_append distinct ha List.mem_cons_self
      have step := h.start absent (create a (listed a List.mem_cons_self))
      rw [Function.update_eq_self] at step
      obtain ⟨serial, hosts⟩ := ih _ _ step
        (by rw [Census.add, List.append_assoc]; exact distinct)
        fun b hb => listed b (List.mem_cons_of_mem _ hb)
      refine ⟨serial, ?_⟩
      rw [Census.add, List.append_assoc] at hosts
      exact hosts
  exact grow members {} ⟨[], fun _ => 0, some []⟩ (hosts_empty _ _) distinct fun _ h => h

theorem Hosts.stocked (h : c.Hosts who nodes) {a : Address} (mem : a ∈ who.members) (e : Entry) :
    (c.stocked a e).Hosts who
      (Function.update nodes a { nodes a with store := (nodes a).store.insert e }) := by
  rw [Cluster.stocked, h.named mem]
  exact h.updateNode (f := fun n => { n with store := n.store.insert e }) mem (h.address mem)

theorem Hosts.unregister (h : c.Hosts who nodes) (a : Address) :
    (c.unregister a).Hosts (who.without a) nodes := by
  have mem {b : Address} (hb : b ∈ (who.without a).members) : b ∈ who.members ∧ b ≠ a := by
    rw [Census.without, List.mem_filter] at hb
    exact ⟨hb.1, by simpa using hb.2⟩
  refine ⟨?_, h.nodup.filter _, h.faultless, ?_, fun hb => h.named (mem hb).1,
    fun hb => h.node (mem hb).1, fun hb => h.address (mem hb).1, h.errands_eq⟩
  · show (c.view.filter _).map _ = _
    rw [Census.without, ← h.members_eq, members, List.filter_map]
    rfl
  · intro b hb
    obtain ⟨e, reach, endpoint⟩ := h.reached (mem hb).1
    refine ⟨e, ?_, endpoint⟩
    rw [reach?, Option.filter_eq_some_iff] at reach ⊢
    refine ⟨?_, reach.2⟩
    rw [← reach.1]
    show (c.view.filter _).lookup b = _
    exact lookup_filter_ne c.view (mem hb).2

theorem Hosts.addRehash (h : c.Hosts who nodes) (id : String) (rehash : Rehash) :
    (c.addRehash id rehash).Hosts who nodes :=
  ⟨h.members_eq, h.nodup, h.faultless, h.reached, h.named, h.node, h.address, h.errands_eq⟩

end Cluster

end SlotRing
