/-
# A departure, survivor by survivor

When a member has left, every survivor prepares its part, and then the parts
are carried out one after the other (`Rehash.departure`).  What each of them
preserves or moves on holds of the whole (`Farewell.departure_ends`).
-/
import SlotRing.Proofs.Cluster.Registration
import SlotRing.Proofs.Rehash.Survivor

namespace SlotRing

namespace Rehash

variable {ε : Type}

structure Prepared where
  rehash : Serial
  node : Serial
  change : Change

/-- Prepares the rehash in which a member carries out a change, which may depend
on what the member is like now. -/
def prepare (change : Node → Change) (a : Address) : Procedure (World ε) (Option Prepared) :=
  .change fun w =>
    match (w.cluster.nodes.serial? a).bind fun n => (w.cluster.nodes.get? n).map (n, ·) with
    | none => (w, none)
    | some (n, node) =>
      let change := change node
      ({ w with cluster := w.cluster.addRehash a { node := n, address := node.address, change } },
        some ⟨w.cluster.rehashes.next, n, change⟩)

/-- A member is to take the leaver out of the ring that its state is complete
under. -/
def leaving (leaver : Address) (n : Node) : Change := .leave leaver n.stableRing

def prepareAll (leaver : Address) : List Address → Procedure (World ε) (List Prepared)
  | [] => return []
  | a :: rest => do
    match ← prepare (leaving leaver) a with
    | none => prepareAll leaver rest
    | some p => return p :: (← prepareAll leaver rest)

def runAll (around : Surroundings ε) :
    List Prepared → Procedure (World ε) (List (Except RehashError MemberRing))
  | [] => return []
  | p :: rest => do
    let result ← run around p.rehash p.node p.change
    return result :: (← runAll around rest)

/-- A member is taken out of the view, all parts are prepared, and then they are
carried out, one after the other. -/
def departure (around : Surroundings ε) (leaver : Address) (order : List Address) :
    Procedure (World ε) (List (Except RehashError MemberRing)) := do
  World.modify (·.unregister leaver)
  runAll around (← prepareAll leaver order)

theorem prepare_ends {who : Census} {w : World ε} {now : Nat} {a : Address}
    {change : Node → Change} {P : (Address → Node) → ε → Prop}
    (mem : a ∈ who.members) {nodes : Address → Node} (hosts : w.cluster.Hosts who nodes)
    (h : P nodes w.outside) :
    (prepare change a).Ends now w fun w' p =>
      (∃ rehash, p = some ⟨rehash, who.serial a, change (nodes a)⟩) ∧
        w'.Holds who fun nodes' o => nodes' = nodes ∧ P nodes' o := by
  have found : ((w.cluster.nodes.serial? a).bind fun n =>
      (w.cluster.nodes.get? n).map (n, ·)) = some (who.serial a, nodes a) := by
    rw [hosts.named mem, Option.bind_some, hosts.node mem]
    rfl
  refine Procedure.ends_change ?_
  rw [found]
  exact ⟨⟨w.cluster.rehashes.next, rfl⟩, nodes, hosts.addRehash _ _, rfl, h⟩

end Rehash

namespace Farewell

variable {f : Farewell} {ε : Type} {around : Surroundings ε} {who : Census} {w : World ε}
  {now : Nat}

/-- How far the members have come when some parts are done. -/
def reached : (done : List Address) → Going
  | [] => .before
  | _ :: _ => .after

theorem reached_snoc (done : List Address) (x : Address) : reached (done ++ [x]) = .after := by
  cases done with
  | nil => rfl
  | cons => rfl

theorem nodup_order {c : Cluster} {nodes : Address → Node} {order : List Address}
    (hosts : c.Hosts who nodes) (census : (who.without f.leaver).members = f.members)
    (perm : order.Perm f.members) : order.Nodup := by
  rw [perm.nodup_iff, ← census]
  exact hosts.nodup.filter _

theorem prepareAll_ends {order : List Address} {P : (Address → Node) → ε → Prop}
    (mem : ∀ a ∈ order, a ∈ who.members)
    (stable : ∀ nodes o, P nodes o → ∀ a ∈ order, (nodes a).stableRing = f.old)
    (h : w.Holds who P) :
    (Rehash.prepareAll f.leaver order).Ends now w fun w' parts =>
      parts.map (fun p => (p.node, p.change)) =
        order.map (fun a => (who.serial a, .leave f.leaver f.old)) ∧ w'.Holds who P := by
  induction order generalizing w with
  | nil => exact Procedure.ends_pure ⟨rfl, h⟩
  | cons a order ih =>
    obtain ⟨nodes, hosts, p⟩ := h
    refine (Rehash.prepare_ends (mem a List.mem_cons_self) hosts p).bind ?_
    rintro w' _ ⟨⟨rehash, rfl⟩, prepared⟩
    have holds : w'.Holds who P := prepared.mono fun _ _ k => k.2
    have change : Rehash.leaving f.leaver (nodes a) = .leave f.leaver f.old :=
      congrArg (Change.leave f.leaver) (stable nodes _ p a List.mem_cons_self)
    rw [change]
    refine (ih (fun b hb => mem b (List.mem_cons_of_mem _ hb))
      (fun nodes o p b hb => stable nodes o p b (List.mem_cons_of_mem _ hb)) holds).bind ?_
    rintro w'' parts ⟨all, holds'⟩
    refine Procedure.ends_pure ⟨?_, holds'⟩
    rw [List.map_cons, List.map_cons, all]

/-- The parts are carried out one after the other; `J done` is what holds when
the parts of `done` are over. -/
theorem runAll_ends {J : List Address → (Address → Store) → ε → Prop} {order : List Address}
    (each : ∀ done x rest, done ++ x :: rest = order → ∀ (who : Census) (w : World ε) rehash,
      who.members = f.members →
      (w.Holds who fun nodes o =>
        f.Rest (f.mapping (reached done)) nodes ∧ J done (replayed nodes) o) →
      (Rehash.run around rehash (who.serial x) (.leave f.leaver f.old)).Ends now w fun w' r =>
        r = .ok f.new ∧ ∃ errands, w'.Holds (who.leaving errands) fun nodes o =>
          f.Rest (.settled f.new) nodes ∧ J (done ++ [x]) (replayed nodes) o)
    (census : who.members = f.members) {parts : List Rehash.Prepared}
    (listed : parts.map (fun p => (p.node, p.change)) =
      order.map (fun a => (who.serial a, Change.leave f.leaver f.old)))
    (h : w.Holds who fun nodes o =>
      f.Rest (f.mapping (reached [])) nodes ∧ J [] (replayed nodes) o) :
    (Rehash.runAll around parts).Ends now w fun w' rs =>
      rs = order.map (fun _ => .ok f.new) ∧ ∃ errands, w'.Holds (who.leaving errands)
        fun nodes o => f.Rest (f.mapping (reached order)) nodes ∧ J order (replayed nodes) o := by
  refine work_through (motive := fun done todo => ∀ (parts : List Rehash.Prepared)
    (who : Census) (w : World ε), who.members = f.members →
    parts.map (fun p => (p.node, p.change)) =
      todo.map (fun a => (who.serial a, Change.leave f.leaver f.old)) →
    (w.Holds who fun nodes o =>
      f.Rest (f.mapping (reached done)) nodes ∧ J done (replayed nodes) o) →
    (Rehash.runAll around parts).Ends now w fun w' rs =>
      rs = todo.map (fun _ => .ok f.new) ∧ ∃ errands, w'.Holds (who.leaving errands)
        fun nodes o => f.Rest (f.mapping (reached order)) nodes ∧ J order (replayed nodes) o)
    ?_ ?_ parts who w census listed h
  · intro parts who w _ listed holds
    obtain rfl : parts = [] := List.map_eq_nil_iff.mp listed
    refine Procedure.ends_pure ⟨rfl, [], ?_⟩
    rw [Census.leaving_nil]
    exact holds
  · intro done x todo split rest parts who w members listed holds
    cases parts with
    | nil => cases listed
    | cons p parts =>
      rw [List.map_cons, List.map_cons, List.cons.injEq, Prod.mk.injEq] at listed
      obtain ⟨⟨node, change⟩, listed⟩ := listed
      rw [Rehash.runAll, node, change]
      refine (each done x todo split who w _ members holds).bind ?_
      rintro w' r ⟨rfl, errands, holds'⟩
      refine (rest parts (who.leaving errands) w' members listed ?_).bind ?_
      · rw [reached_snoc]
        exact holds'
      rintro w'' rs ⟨rfl, more, holds''⟩
      refine Procedure.ends_pure ⟨rfl, errands ++ more, ?_⟩
      rw [← Census.leaving_leaving]
      exact holds''

theorem departure_ends {J : List Address → (Address → Store) → ε → Prop}
    (census : (who.without f.leaver).members = f.members) {order : List Address}
    (mem : ∀ a ∈ order, a ∈ f.members)
    (h : w.Holds who fun nodes o => f.Rest (.settled f.old) nodes ∧ J [] (replayed nodes) o)
    (each : ∀ done x rest, done ++ x :: rest = order → ∀ (who : Census) (w : World ε) rehash,
      who.members = f.members →
      (w.Holds who fun nodes o =>
        f.Rest (f.mapping (reached done)) nodes ∧ J done (replayed nodes) o) →
      (Rehash.run around rehash (who.serial x) (.leave f.leaver f.old)).Ends now w fun w' r =>
        r = .ok f.new ∧ ∃ errands, w'.Holds (who.leaving errands) fun nodes o =>
          f.Rest (.settled f.new) nodes ∧ J (done ++ [x]) (replayed nodes) o) :
    (Rehash.departure around f.leaver order).Ends now w fun w' rs =>
      rs = order.map (fun _ => .ok f.new) ∧
      ∃ errands, w'.Holds ((who.without f.leaver).leaving errands) fun nodes o =>
        f.Rest (f.mapping (reached order)) nodes ∧ J order (replayed nodes) o := by
  unfold Rehash.departure
  refine Procedure.Ends.bind (Q := fun w' _ => w'.Holds (who.without f.leaver) fun nodes o =>
    f.Rest (.settled f.old) nodes ∧ J [] (replayed nodes) o) ?_ ?_
  · obtain ⟨nodes, hosts, holds⟩ := h
    exact Procedure.ends_modify ⟨nodes, hosts.unregister f.leaver, holds⟩
  intro w₁ _ h₁
  refine (prepareAll_ends (fun a ha => census ▸ mem a ha) ?_ h₁).bind ?_
  · rintro nodes o ⟨rest, -⟩ a ha
    rw [Node.stableRing, (rest a (mem a ha)).1.mapping]
    rfl
  rintro w₂ parts ⟨listed, h₂⟩
  exact runAll_ends each census listed h₂

end Farewell

end SlotRing
