/-
# Writes across joins

A member hands a transaction out to those that own its keys when the write begins, one
after the other, and newcomers join at whichever of these sendings.  A newcomer pulls
from owners of which some have their share by then and others have not; nobody gives it
a share of its own.  Which value it then has of a key follows from the order in which
the owners were served and the newcomers came (`Influx.course`): a put that one of the
owners it asked had got wins over the copies of the others, as its version is higher,
but a remove does not win over a copy that is still there.

So a write is acknowledged, and among those that own its keys by then there may be a
newcomer that has not got it (`write_across_joins_iff`).
-/
import Mathlib.Data.List.Induction
import SlotRing.Proofs.Cluster.Reads
import SlotRing.Proofs.Rehash.Influx
import SlotRing.Proofs.Store.Omissions
import SlotRing.Scenario.Run

namespace SlotRing

/-! ## Newcomers that come at a sending -/

/-- Who has joined, with what came of it. -/
structure Arrivals where
  joins : List (Address × Except RehashError MemberRing) := []

/-- Has newcomers join one after the other, each of them from beginning to end. -/
def arriveAll : List Address → Procedure (World Arrivals) Unit
  | [] => return
  | x :: xs => do
    match ← Rehash.prepare (fun _ => .join) x with
    | none => arriveAll xs
    | some p =>
      let result ← Rehash.run .quiet p.rehash p.node p.change
      Procedure.modify fun w =>
        { w with outside := { joins := w.outside.joins ++ [(x, result)] } }
      arriveAll xs

/-- Surroundings in which newcomers join when something is sent to a member. -/
def arrivals (script : Address → List Address) : Surroundings Arrivals where
  atSend sending := arriveAll (sending.targets.flatMap script)
  noteAnswer _ _ outside := outside

theorem silent_arrivals (script : Address → List Address) : (arrivals script).Silent :=
  fun _ _ _ => rfl

namespace Influx

/-- What happens while a transaction is handed out. -/
inductive Event where
  | joined (x : Address)
  /-- An owner gets its share. -/
  | handed (a : Address)
deriving DecidableEq

def Event.newcomer? : Event → Option Address
  | .joined x => some x
  | .handed _ => none

def came (es : List Event) : List Address := es.filterMap Event.newcomer?

/-- Who joins before a recipient gets its share; the issuer takes its own one without a
message. -/
def arriving (script : Address → List Address) (issuer a : Address) : List Event :=
  if a = issuer then [] else (script a).map .joined

def events (script : Address → List Address) (issuer : Address) (recipients : List Address) :
    List Event :=
  recipients.flatMap fun a => arriving script issuer a ++ [.handed a]

theorem came_append (es es' : List Event) : came (es ++ es') = came es ++ came es' :=
  List.filterMap_append

@[simp] theorem came_nil : came [] = [] := rfl

@[simp] theorem came_joined (x : Address) : came [.joined x] = [x] := rfl

@[simp] theorem came_handed (a : Address) : came [.handed a] = [] := rfl

@[simp] theorem came_map_joined (xs : List Address) : came (xs.map .joined) = xs := by
  induction xs with
  | nil => rfl
  | cons x xs ih => exact congrArg (x :: ·) ih

theorem events_cons (script : Address → List Address) (issuer a : Address)
    (recipients : List Address) : events script issuer (a :: recipients) =
      arriving script issuer a ++ [.handed a] ++ events script issuer recipients :=
  List.flatMap_cons

theorem handed_not_mem_arriving (script : Address → List Address) (issuer a b : Address) :
    Event.handed b ∉ arriving script issuer a := by
  intro listed
  rw [arriving] at listed
  split at listed
  · cases listed
  · obtain ⟨x, -, same⟩ := List.mem_map.mp listed
    cases same

theorem handed_mem_events {script : Address → List Address} {issuer a : Address}
    {recipients : List Address} :
    Event.handed a ∈ events script issuer recipients ↔ a ∈ recipients := by
  rw [events, List.mem_flatMap]
  constructor
  · rintro ⟨b, hb, listed⟩
    rcases List.mem_append.mp listed with joined | handed
    · exact absurd joined (handed_not_mem_arriving script issuer b a)
    · rw [List.mem_singleton, Event.handed.injEq] at handed
      exact handed ▸ hb
  · exact fun ha => ⟨a, ha, List.mem_append_right _ List.mem_cons_self⟩

/-! ## Handing out -/

variable (f : Influx) {newcomers : List Address}

/-- The members after some events; `I` says what their stores have come to. -/
structure Reached (newcomers : List Address) (I : List Event → (Address → Store) → Prop)
    (es : List Event) (nodes : Address → Node) (o : Arrivals) : Prop where
  distinct : (came es).Nodup
  listed : ∀ x ∈ came es, x ∈ newcomers
  stores : ∃ D, f.At newcomers (came es) D nodes ∧ I es D
  noted : o.joins.map Prod.fst = came es
  joined : ∀ j ∈ o.joins, ∃ ring, j.2 = .ok ring

section

variable {f : Influx} {I : List Event → (Address → Store) → Prop} {es : List Event}
  {nodes : Address → Node} {o : Arrivals}

theorem Reached.join {D : Address → Store} {x : Address} {s : Store} {ring : MemberRing}
    (next : Next newcomers (came es) x)
    (at_ : f.At newcomers (came es ++ [x]) (Function.update D x s) nodes)
    (i : I (es ++ [.joined x]) (Function.update D x s))
    (noted : o.joins.map Prod.fst = came es) (joined : ∀ j ∈ o.joins, ∃ ring, j.2 = .ok ring) :
    f.Reached newcomers I (es ++ [.joined x]) nodes { joins := o.joins ++ [(x, .ok ring)] } := by
  have extended : came (es ++ [.joined x]) = came es ++ [x] := came_append _ _
  refine ⟨?_, ?_, ⟨_, extended ▸ at_, i⟩, ?_, ?_⟩
  · rw [extended, List.nodup_append_comm]
    exact List.nodup_cons.mpr ⟨next.fresh, next.distinct⟩
  · intro y hy
    rw [extended, List.mem_append, List.mem_singleton] at hy
    rcases hy with hy | rfl
    · exact next.listed y hy
    · exact next.newcomer
  · rw [extended, List.map_append, noted]
    rfl
  · intro j hj
    rcases List.mem_append.mp hj with hj | hj
    · exact joined j hj
    · rw [List.mem_singleton.mp hj]
      exact ⟨ring, rfl⟩

theorem Reached.hand (h : f.Reached newcomers I es nodes o)
    (apart : (f.members ++ newcomers).Nodup) {a : Address} (mem : a ∈ f.members)
    (tx : Transaction) {ws : List Write}
    (hand : ∀ D, I es D →
      I (es ++ [.handed a]) (Function.update D a ((D a).writeAll ws))) :
    f.Reached newcomers I (es ++ [.handed a])
      (Function.update nodes a ((nodes a).acceptWrite (tx.withWrites ws))) o := by
  have same : came (es ++ [.handed a]) = came es := by
    rw [came_append, came_handed, List.append_nil]
  obtain ⟨D, at_, i⟩ := h.stores
  exact ⟨same ▸ h.distinct, same ▸ h.listed, ⟨_, same ▸ at_.handed apart mem tx ws, hand D i⟩,
    same ▸ h.noted, h.joined⟩

end

section

variable {f : Influx} {who : Census} {w : World Arrivals} {now : Nat}
  {I : List Event → (Address → Store) → Prop} {es : List Event}
  (census : who.members = f.members ++ newcomers) (errands : who.errands = none)
  (sound : f.Sound newcomers) (counted : f.settings.deadline.CountedFrom now)
  (join : ∀ es x D s, Next newcomers (came es) x →
    I es D → f.Pulled (came es) x D s → I (es ++ [.joined x]) (Function.update D x s))
include census errands sound counted join

theorem arriveAll_ends (xs : List Address) (h : w.Holds who (f.Reached newcomers I es))
    (distinct : (came es ++ xs).Nodup) (listed : ∀ x ∈ xs, x ∈ newcomers) :
    (arriveAll xs).Ends now w fun w' _ =>
      w'.Holds who (f.Reached newcomers I (es ++ xs.map .joined)) := by
  induction xs generalizing w es with
  | nil => exact Procedure.ends_pure (by rwa [List.map_nil, List.append_nil])
  | cons x xs ih =>
    obtain ⟨nodes, hosts, reached⟩ := h
    obtain ⟨D, at_, i⟩ := reached.stores
    have newcomer := listed x List.mem_cons_self
    have next : Next newcomers (came es) x :=
      ⟨reached.distinct, reached.listed, newcomer, fun past =>
        List.disjoint_of_nodup_append distinct past List.mem_cons_self⟩
    unfold arriveAll
    refine (Rehash.prepare_ends (P := fun nodes o => f.At newcomers (came es) D nodes ∧
      o.joins.map Prod.fst = came es ∧ ∀ j ∈ o.joins, ∃ ring, j.2 = .ok ring)
      (census ▸ List.mem_append_right _ newcomer) hosts
      ⟨at_, reached.noted, reached.joined⟩).bind ?_
    rintro w₁ p ⟨⟨rehash, rfl⟩, prepared⟩
    refine (join_ends rehash census errands sound next counted
      (prepared.mono fun _ _ k => k.2)).bind ?_
    rintro w₂ r ⟨rfl, nodes', hosts', ⟨noted, joined⟩, s, pulled, at'⟩
    refine Procedure.Ends.bind (Q := fun w' _ =>
      w'.Holds who (f.Reached newcomers I (es ++ [.joined x]))) ?_ ?_
    · exact Procedure.ends_modify ⟨nodes', hosts',
        Reached.join next at' (join es x D s next i pulled) noted joined⟩
    · intro w₃ _ h₃
      have rest := ih h₃ (by rw [came_append, came_joined, List.append_assoc]; exact distinct)
        fun y hy => listed y (List.mem_cons_of_mem _ hy)
      rwa [List.append_assoc] at rest

/-- A share is sent to its recipient, and newcomers join right before it gets there. -/
theorem sendShare_ends {issuer a : Address} (other : a ≠ issuer) (mem : a ∈ f.members)
    (script : Address → List Address) (timeout : Duration) (tx : Transaction) {ws : List Write}
    (hand : ∀ D, I (es ++ arriving script issuer a) D →
      I (es ++ arriving script issuer a ++ [.handed a])
        (Function.update D a ((D a).writeAll ws)))
    (h : w.Holds who (f.Reached newcomers I es))
    (distinct : (came (es ++ arriving script issuer a)).Nodup)
    (listed : ∀ x ∈ came (es ++ arriving script issuer a), x ∈ newcomers) :
    (sendTo (arrivals script) issuer a (.write (tx.withWrites ws)) timeout).Ends now w
      fun w' r => r = .ok .ack ∧ w'.Holds who
        (f.Reached newcomers I (es ++ arriving script issuer a ++ [.handed a])) := by
  have joins : arriving script issuer a = (script a).map .joined := if_neg other
  rw [joins] at hand distinct listed ⊢
  rw [came_append, came_map_joined] at distinct listed
  have known : a ∈ who.members := census ▸ List.mem_append_left _ mem
  have arrive : ((arrivals script).atSend
      { sender := issuer, targets := [a], command := .write (tx.withWrites ws) }).Ends now w
        fun w' _ => w'.Holds who (f.Reached newcomers I (es ++ (script a).map .joined)) := by
    show (arriveAll ([a].flatMap script)).Ends now w _
    rw [List.flatMap_singleton]
    exact arriveAll_ends census errands sound counted join (script a) h distinct fun x hx =>
      listed x (List.mem_append_right _ hx)
  refine (Procedure.ends_iff_keeps.mpr (sendTo_keeps (silent_arrivals script) known
    (Q := fun nodes o reply => reply = .ack ∧
      f.Reached newcomers I (es ++ (script a).map .joined ++ [.handed a]) nodes o)
    (arrive.keeps.mono fun w' _ h' => h'.mono fun nodes o k => ⟨rfl, ?_⟩))).mono ?_
  · rw [heeding_singleton]
    exact k.hand sound.apart mem tx hand
  · rintro w' r ⟨reply, rfl, nodes, hosts, rfl, k⟩
    exact ⟨rfl, nodes, hosts, k⟩

/-- A transaction is handed out; `I` is what is known of the stores after each event. -/
theorem handOut_ends {issuer : Address} (mem : issuer ∈ f.members)
    (script : Address → List Address) (timeout : Duration) (tx : Transaction)
    (rows : List (Address × List Write)) (recipients : ∀ row ∈ rows, row.1 ∈ f.members)
    (hand : ∀ es D, ∀ row ∈ rows, Event.handed row.1 ∉ es → I es D →
      I (es ++ [.handed row.1]) (Function.update D row.1 ((D row.1).writeAll row.2)))
    (h : w.Holds who (f.Reached newcomers I es)) (once : (rows.map Prod.fst).Nodup)
    (unhanded : ∀ row ∈ rows, Event.handed row.1 ∉ es)
    (distinct : (came (es ++ events script issuer (rows.map Prod.fst))).Nodup)
    (listed : ∀ x ∈ came (es ++ events script issuer (rows.map Prod.fst)), x ∈ newcomers) :
    (Client.handOut (arrivals script) (who.serial issuer) issuer timeout tx rows).Ends now w
      fun w' failed => failed = [] ∧
        w'.Holds who (f.Reached newcomers I (es ++ events script issuer (rows.map Prod.fst))) := by
  induction rows generalizing w es with
  | nil =>
    refine Procedure.ends_pure ⟨rfl, ?_⟩
    rwa [List.map_nil, events, List.flatMap_nil, List.append_nil]
  | cons row rows ih =>
    obtain ⟨a, ws⟩ := row
    have member : a ∈ f.members := recipients (a, ws) List.mem_cons_self
    obtain ⟨absent, once⟩ := List.nodup_cons.mp once
    simp only [List.map_cons, events_cons, ← List.append_assoc] at distinct listed ⊢
    have aside := handed_not_mem_arriving script issuer a
    have served (D : Address → Store) : I (es ++ arriving script issuer a) D →
        I (es ++ arriving script issuer a ++ [.handed a])
          (Function.update D a ((D a).writeAll ws)) := by
      refine hand _ D (a, ws) List.mem_cons_self fun handed => ?_
      rcases List.mem_append.mp handed with past | beside
      · exact unhanded (a, ws) List.mem_cons_self past
      · exact aside a beside
    have rest : ∀ w' : World Arrivals, w'.Holds who (f.Reached newcomers I
        (es ++ arriving script issuer a ++ [.handed a])) →
        (Client.handOut (arrivals script) (who.serial issuer) issuer timeout tx rows).Ends now w'
          fun w'' failed => failed = [] ∧ w''.Holds who (f.Reached newcomers I
            (es ++ arriving script issuer a ++ [.handed a] ++
              events script issuer (rows.map Prod.fst))) := by
      intro w' k
      refine ih (fun row hr => recipients row (List.mem_cons_of_mem _ hr))
        (fun es D row hr => hand es D row (List.mem_cons_of_mem _ hr)) k once ?_ distinct listed
      intro row hr handed
      rw [List.mem_append, List.mem_append, List.mem_singleton, Event.handed.injEq] at handed
      rcases handed with (past | beside) | same
      · exact unhanded row (List.mem_cons_of_mem _ hr) past
      · exact aside row.1 beside
      · exact absent (List.mem_map.mpr ⟨row, hr, same⟩)
    rw [Client.handOut]
    split
    · next same =>
      subst same
      have alone : arriving script a a = [] := if_pos rfl
      rw [alone, List.append_nil] at served rest
      obtain ⟨nodes, hosts, k⟩ := h
      exact (World.ends_modifyNode (census ▸ List.mem_append_left _ member)
        ⟨nodes, hosts, Node.acceptWrite_address _ _, k.hand sound.apart member tx served⟩).bind
        fun w' _ h' => by rw [alone, List.append_nil]; exact rest w' h'
    · next other =>
      rw [came_append, came_append] at distinct listed
      refine (sendShare_ends census errands sound counted join other member script timeout tx
        served h (List.nodup_append.mp (List.nodup_append.mp distinct).1).1 fun x hx =>
          listed x (List.mem_append_left _ (List.mem_append_left _ hx))).bind ?_
      rintro w' r ⟨rfl, h'⟩
      exact rest w' h'

end

/-! ## What becomes of one key -/

/-- The value that has the highest version among some copies: a put that some of them have
got, else what was there before, if one of them has it still. -/
def prevailing (before after : Option (List UInt8)) (copies : List (Option (List UInt8))) :
    Option (List UInt8) :=
  if after.isSome ∧ after ∈ copies then after
  else if before ∈ copies then before
  else none

theorem prevailing_of_none {before after : Option (List UInt8)}
    {copies : List (Option (List UInt8))} (none : ∀ copy ∈ copies, copy = none) :
    prevailing before after copies = Option.none := by
  rw [prevailing]
  split
  · next h => exact none _ h.2
  · split
    · next h => exact none _ h
    · rfl

/-- Who has come, and the value that everyone has of a key. -/
structure Course where
  came : List Address
  held : Address → Option (List UInt8)

/-- What an event makes of a key whose value is `before` until a share with the value
`after` comes. -/
def Course.step (f : Influx) (key : String) (before after : Option (List UInt8)) (c : Course) :
    Event → Course
  | .joined x =>
    { came := c.came ++ [x]
      held := Function.update c.held x
        (if x ∈ f.owners (c.came ++ [x]) key then
          prevailing before after ((f.asked c.came x key).map c.held)
        else none) }
  | .handed a =>
    { c with held := if a ∈ f.owners [] key then Function.update c.held a after else c.held }

/-- The owners have the value `before` when it begins, and nobody else has any. -/
def course (f : Influx) (key : String) (before after : Option (List UInt8)) (es : List Event) :
    Course :=
  es.foldl (Course.step f key before after)
    { came := [], held := fun a => if a ∈ f.owners [] key then before else none }

/-- What a store has of a key: nothing, the entry of the beginning, or a newer one with
the value of the transaction. -/
inductive Bears (entry : Option Entry) (after : Option (List UInt8)) (key : String) (s : Store) :
    Option (List UInt8) → Prop
  | nothing : s.get? key = none → Bears entry after key s none
  | former : s.get? key = entry → Bears entry after key s (entry.map Entry.value)
  | newer (e : Entry) : s.get? key = some e → after = some e.value →
      (∀ d, entry = some d → d.version < e.version) → Bears entry after key s after

section

variable {f : Influx} {key : String} {entry : Option Entry} {after : Option (List UInt8)}
  {s : Store} {held : Option (List UInt8)}

theorem course_snoc (before after : Option (List UInt8)) (es : List Event) (e : Event) :
    f.course key before after (es ++ [e]) =
      (f.course key before after es).step f key before after e := by
  rw [course, List.foldl_append]
  rfl

theorem course_came (before after : Option (List UInt8)) (es : List Event) :
    (f.course key before after es).came = came es := by
  induction es using List.reverseRecOn with
  | nil => rfl
  | append_singleton es e ih =>
    rw [course_snoc, came_append, ← ih]
    cases e with
    | joined x => rfl
    | handed a => exact (List.append_nil _).symm

theorem held_handed (before after : Option (List UInt8)) (es : List Event) (a : Address) :
    (f.course key before after (es ++ [.handed a])).held =
      if a ∈ f.owners [] key then Function.update (f.course key before after es).held a after
      else (f.course key before after es).held := by
  rw [course_snoc]
  rfl

theorem held_joined (before after : Option (List UInt8)) (es : List Event) (x : Address) :
    (f.course key before after (es ++ [.joined x])).held =
      Function.update (f.course key before after es).held x
        (if x ∈ f.owners (came es ++ [x]) key then prevailing before after
          ((f.asked (came es) x key).map (f.course key before after es).held)
        else none) := by
  rw [course_snoc, Course.step, course_came]

theorem Bears.value? (h : Bears entry after key s held) : s.value? key = held := by
  cases h with
  | nothing none => rw [Store.value?, none]; rfl
  | former same => rw [Store.value?, same]
  | newer e found last _ => rw [Store.value?, found, last]; rfl

theorem Bears.of_live {e : Entry} (h : Bears entry after key s held)
    (found : s.get? key = some e) : held = some e.value ∧ (entry = some e ∨
      after = some e.value ∧ ∀ d, entry = some d → d.version < e.version) := by
  refine ⟨?_, ?_⟩
  · rw [← h.value?, Store.value?, found]
    rfl
  · cases h with
    | nothing none => rw [none] at found; cases found
    | former same => exact .inl (same.symm.trans found)
    | newer d found' last above =>
      obtain rfl : e = d := Option.some.inj (found.symm.trans found')
      exact .inr ⟨last, above⟩

theorem Bears.congr {t : Store} (h : Bears entry after key s held)
    (same : t.get? key = s.get? key) : Bears entry after key t held := by
  cases h with
  | nothing none => exact .nothing (same.trans none)
  | former found => exact .former (same.trans found)
  | newer e found last above => exact .newer e (same.trans found) last above

/-- Writes of a key leave the last value, in an entry that is newer than the one before. -/
theorem bears_writeAll {ws : List Write} (touched : ∃ w ∈ ws, w.key = key) :
    Bears (s.get? key) (valueAfter ws key none) key (s.writeAll ws) (valueAfter ws key none) := by
  have value : (s.writeAll ws).value? key = valueAfter ws key none :=
    (Store.value?_writeAll ws).trans (valueAfter_of_touched touched _)
  cases found : (s.writeAll ws).get? key with
  | none =>
    rw [Store.value?, found] at value
    rw [← value]
    exact .nothing found
  | some e =>
    rw [Store.value?, found] at value
    refine .newer e found value.symm fun d known => ?_
    have puts : 0 < ws.countP (·.puts key) := by
      by_contra none
      have unput := List.countP_eq_zero.mp (Nat.eq_zero_of_not_pos none)
      rw [valueAfter_of_unput fun w hw => Bool.eq_false_iff.mpr (unput w hw)] at value
      cases value
    have moved : (s.writeAll ws).reached key = s.reached key + ws.countP (·.puts key) :=
      Store.reached_writeAll ws
    rw [Store.reached, Store.reached, Store.version?_of_get? found, Store.version?_of_get? known]
      at moved
    simp only [Option.getD_some] at moved
    omega

/-- A newcomer has the newest of the copies of those that it has asked. -/
theorem Pulled.bears {before : List Address} {x : Address} {D : Address → Store}
    {held : Address → Option (List UInt8)} (pulled : f.Pulled before x D s)
    (mine : x ∈ f.owners (before ++ [x]) key)
    (bears : ∀ p ∈ f.asked before x key, Bears entry after key (D p) (held p)) :
    Bears entry after key s
      (prevailing (entry.map Entry.value) after ((f.asked before x key).map held)) := by
  rcases pulled.newest key mine with ⟨none, nothing⟩ | ⟨p, hp, e, found, got, above⟩
  · have result : prevailing (entry.map Entry.value) after ((f.asked before x key).map held) =
        Option.none := by
      refine prevailing_of_none fun copy hc => ?_
      obtain ⟨q, hq, rfl⟩ := List.mem_map.mp hc
      rw [← (bears q hq).value?, Store.value?, nothing q hq]
      rfl
    exact result ▸ .nothing none
  · obtain ⟨value, former | ⟨last, newer⟩⟩ := (bears p hp).of_live found
    · subst former
      rw [prevailing]
      by_cases put : after.isSome ∧ after ∈ (f.asked before x key).map held
      · -- who has the last value has it in an entry that is not newer than this one
        obtain ⟨q, hq, last⟩ := List.mem_map.mp put.2
        obtain ⟨d, live⟩ : ∃ d, (D q).get? key = some d := by
          rw [← Option.isSome_iff_exists, ← Option.isSome_map, ← Store.value?,
            (bears q hq).value?, last]
          exact put.1
        rcases (bears q hq).of_live live with ⟨value', former | ⟨-, newer⟩⟩
        · rw [if_pos put, ← last, value', ← Option.some.inj former]
          exact .former got
        · exact absurd (newer e rfl) (Nat.not_lt_of_le (above q hq d live))
      · have former : some e.value ∈ (f.asked before x key).map held :=
          value ▸ List.mem_map_of_mem hp
        rw [if_neg put, if_pos (by exact former)]
        exact .former got
    · have put : after.isSome ∧ after ∈ (f.asked before x key).map held :=
        ⟨by rw [last]; rfl, last.trans value.symm ▸ List.mem_map_of_mem hp⟩
      rw [prevailing, if_pos put]
      exact .newer e got last newer

end

/-! ## The stores while a transaction is handed out -/

/-- The owners of a key have one entry of it, or all of them none, and nobody else has any. -/
def Copied (D : Address → Store) (key : String) (entry : Option Entry) : Prop :=
  ∀ a ∈ f.members, (D a).get? key = if a ∈ f.owners [] key then entry else none

/-- What is known of the stores after some events, when they were `D₀` in the beginning:
the members that have got their share have written it, and every key of the transaction
that was the same everywhere has followed its course. -/
structure Known (D₀ : Address → Store) (tx : Transaction) (es : List Event)
    (D : Address → Store) : Prop where
  members : ∀ a ∈ f.members, D a =
    if Event.handed a ∈ es then (D₀ a).writeAll (share (f.owners []) tx a) else D₀ a
  bears : ∀ key entry, (∃ w ∈ tx.writes, w.key = key) → f.Copied D₀ key entry →
    ∀ a ∈ f.members ++ came es, Bears entry (valueAfter tx.writes key none) key (D a)
      ((f.course key (entry.map Entry.value) (valueAfter tx.writes key none) es).held a)

section

variable {f : Influx} {D₀ D : Address → Store} {tx : Transaction} {es : List Event}

theorem known_nil : f.Known D₀ tx [] D₀ := by
  refine ⟨fun a _ => (if_neg List.not_mem_nil).symm, fun key entry _ copied a ha => ?_⟩
  rw [came_nil, List.append_nil] at ha
  have held := copied a ha
  show Bears _ _ _ _ (if a ∈ f.owners [] key then entry.map Entry.value else none)
  split
  · next owner => exact .former (held.trans (if_pos owner))
  · next other => exact .nothing (held.trans (if_neg other))

theorem Known.hand (h : f.Known D₀ tx es D) {a : Address} (mem : a ∈ f.members)
    (unhanded : Event.handed a ∉ es) :
    f.Known D₀ tx (es ++ [.handed a])
      (Function.update D a ((D a).writeAll (share (f.owners []) tx a))) := by
  have before : D a = D₀ a := (h.members a mem).trans (if_neg unhanded)
  refine ⟨fun b hb => ?_, fun key entry touched copied b hb => ?_⟩
  · by_cases same : b = a
    · subst same
      rw [Function.update_self, before, if_pos (List.mem_append_right _ List.mem_cons_self)]
    · have still : Event.handed b ∈ es ++ [.handed a] ↔ Event.handed b ∈ es := by
        simp [same]
      rw [Function.update_of_ne same, h.members b hb]
      simp only [still]
  · rw [came_append, came_handed, List.append_nil] at hb
    have bears := h.bears key entry touched copied b hb
    rw [held_handed]
    by_cases same : b = a
    · subst same
      rw [Function.update_self]
      split
      · next owner =>
        obtain ⟨w, hw, own⟩ := touched
        have share_touched : ∃ w ∈ share (f.owners []) tx b, w.key = key :=
          ⟨w, List.mem_filter.mpr ⟨hw, List.contains_iff_mem.mpr (own ▸ owner)⟩, own⟩
        have written := bears_writeAll (s := D₀ b) share_touched
        rw [copied b mem, if_pos owner, valueAfter_share, if_pos owner] at written
        rw [Function.update_self, before]
        exact written
      · next other =>
        exact bears.congr (Store.sameAt_writeAll fun w hw => ne_of_mem_share other hw).1
    · rw [Function.update_of_ne same]
      split
      · rwa [Function.update_of_ne same]
      · exact bears

theorem Known.value?_of_handed (h : f.Known D₀ tx es D) {a : Address} (mem : a ∈ f.members)
    (handed : Event.handed a ∈ es) {key : String} (owner : a ∈ f.owners [] key)
    (touched : ∃ w ∈ tx.writes, w.key = key) :
    (D a).value? key = valueAfter tx.writes key none := by
  rw [h.members a mem, if_pos handed, Store.value?_writeAll, valueAfter_share, if_pos owner]
  exact valueAfter_of_touched touched none

theorem Known.join {newcomers : List Address} (sound : f.Sound newcomers) {x : Address} {s : Store}
    (next : Next newcomers (came es) x) (h : f.Known D₀ tx es D)
    (pulled : f.Pulled (came es) x D s) :
    f.Known D₀ tx (es ++ [.joined x]) (Function.update D x s) := by
  have absent := (next.enters sound).absent
  refine ⟨fun a ha => ?_, fun key entry touched copied a ha => ?_⟩
  · have other : a ≠ x := fun same => absent (same ▸ List.mem_append_left _ ha)
    rw [Function.update_of_ne other, h.members a ha]
    simp
  · have bears := h.bears key entry touched copied
    rw [held_joined]
    by_cases same : a = x
    · subst same
      rw [Function.update_self, Function.update_self]
      split
      · next mine =>
        exact pulled.bears mine fun p asked => bears p
          (sound.mem_of_owner next.distinct next.listed
            (List.contains_iff_mem.mp (List.mem_filter.mp asked).2))
      · next other => exact .nothing (pulled.foreign key other)
    · rw [Function.update_of_ne same, Function.update_of_ne same]
      refine bears a ?_
      simpa [came_append, same] using ha

theorem mem_shares_iff {newcomers : List Address} (sound : f.Sound newcomers) {n : Node}
    (follows : n.Follows f.settings (.settled (f.ring []))) {a : Address} {ws : List Write} :
    (a, ws) ∈ n.shares tx.writes ↔ ws = share (f.owners []) tx a ∧ ws ≠ [] := by
  have made := sound.made [] List.nodup_nil fun x hx => absurd hx List.not_mem_nil
  have ring := Ring.sound_ofMembers made
  rw [Node.shares, mem_perMember_iff,
    itemsOf_flatMap tx.writes (fun w => n.serving w.key)
      fun w _ => Node.nodup_serving_settled ring follows.mapping w.key]
  have same : tx.writes.filter (fun w => (n.serving w.key).contains a) =
      share (f.owners []) tx a := by
    refine List.filter_congr fun w _ => ?_
    rw [Bool.eq_iff_iff, List.contains_iff_mem, List.contains_iff_mem,
      follows.mem_serving_settled ring]
    rfl
  rw [same]

theorem write_ends {who : Census} {c : Cluster} {newcomers : List Address}
    {nodes : Address → Node} {m : Address} {script : Address → List Address} {now : Nat}
    (census : who.members = f.members ++ newcomers) (errands : who.errands = none)
    (sound : f.Sound newcomers) (counted : f.settings.deadline.CountedFrom now)
    (hosts : c.Hosts who nodes)
    (start : f.At newcomers [] (fun a => (nodes a).store) nodes) (mem : m ∈ f.members)
    (order : es = events script m (((nodes m).shares tx.writes).map Prod.fst))
    (distinct : (came es).Nodup) (listed : ∀ x ∈ came es, x ∈ newcomers) :
    (Client.write (arrivals script) (who.serial m) (nodes m) tx).Ends now
      { cluster := c, outside := {} } fun w' r => r = .ok () ∧
        w'.Holds who (f.Reached newcomers (f.Known (fun a => (nodes a).store) tx) es) := by
  have follows := start.follows m (List.mem_append_left _ mem)
  have member {row : Address × List Write} (listed : row ∈ (nodes m).shares tx.writes) :
      row.1 ∈ f.members := by
    obtain ⟨same, some⟩ := (mem_shares_iff sound follows).mp listed
    obtain ⟨w, hw⟩ := List.exists_mem_of_ne_nil _ some
    rw [same] at hw
    exact sound.mem_of_first_owner (List.contains_iff_mem.mp (List.mem_filter.mp hw).2)
  have begun : World.Holds who (f.Reached newcomers (f.Known (fun a => (nodes a).store) tx) [])
      { cluster := c, outside := {} } :=
    ⟨nodes, hosts, List.nodup_nil, fun x hx => absurd hx List.not_mem_nil,
      ⟨_, start, known_nil⟩, rfl, fun join hj => absurd hj List.not_mem_nil⟩
  subst order
  rw [Client.write, hosts.address (census ▸ List.mem_append_left _ mem)]
  refine (Influx.handOut_ends census errands sound counted
    (fun es x D s next known pulled => known.join sound next pulled) mem script _ tx _
    (fun row => member) ?_ begun (nodup_perMember _) (fun row _ => List.not_mem_nil)
    distinct listed).bind ?_
  · intro es D row hr unhanded known
    rw [((mem_shares_iff sound follows).mp hr).1]
    exact known.hand (member hr) unhanded
  · rintro w' failed ⟨rfl, holds⟩
    exact Procedure.ends_pure ⟨rfl, holds⟩

end

/-- A member has a value under a key, in its store or in its log. -/
def Got (w : World Arrivals) (key : String) (value : Option (List UInt8)) (a : Address) : Prop :=
  ∃ n, w.cluster.nodes.find? a = some n ∧ n.localValue key = value

end Influx

open Influx in
/-- A member writes a transaction, and newcomers join at whichever sendings of it.  The
write is acknowledged, all joins complete, and the writer goes by the last ring.  Those
that own a key of the transaction under it and have owned it before have its last value;
that all others have it, too, if the key was the same everywhere, depends on the order of
the events only. -/
theorem write_across_joins_iff {f : Influx} {newcomers : List Address} {c : Cluster}
    {serial : Address → Serial} {errands : Option (List Errand)} {nodes : Address → Node}
    {m : Address} {es : List Influx.Event} (tx : Transaction) (script : Address → List Address)
    (now : Nat) (sound : f.Sound newcomers)
    (counted : f.settings.deadline.CountedFrom now)
    (hosts : c.Hosts ⟨f.members ++ newcomers, serial, errands⟩ nodes)
    (start : f.At newcomers [] (fun a => (nodes a).store) nodes) (mem : m ∈ f.members)
    (order : es = events script m (((nodes m).shares tx.writes).map Prod.fst))
    (distinct : (came es).Nodup) (listed : ∀ x ∈ came es, x ∈ newcomers) :
    ∃ w' n, Client.write (arrivals script) (serial m) (nodes m) tx now
        { cluster := c, outside := {} } = .done w' (.ok ()) ∧
      w'.outside.joins.map Prod.fst = came es ∧
      (∀ join ∈ w'.outside.joins, ∃ ring, join.2 = .ok ring) ∧
      w'.cluster.nodes.find? m = some n ∧ n.mapping = .settled (f.ring (came es)) ∧
      ∀ key, (∃ w ∈ tx.writes, w.key = key) →
        (∀ a ∈ n.serving key, a ∈ f.owners [] key →
          Got w' key (valueAfter tx.writes key none) a) ∧
        ∀ entry, f.Copied (fun a => (nodes a).store) key entry →
          ((∀ a ∈ n.serving key, Got w' key (valueAfter tx.writes key none) a) ↔
            ∀ a ∈ f.owners (came es) key, (f.course key (entry.map Entry.value)
              (valueAfter tx.writes key none) es).held a = valueAfter tx.writes key none) := by
  obtain ⟨w', r, run, rfl, nodes', hosts', reached⟩ :=
    Influx.write_ends rfl rfl sound counted hosts.uncounted start mem order distinct listed
  obtain ⟨D, at_, known⟩ := reached.stores
  have present {a : Address} (ha : a ∈ f.members ++ came es) :
      w'.cluster.nodes.find? a = some (nodes' a) := by
    refine hosts'.find? ?_
    rcases List.mem_append.mp ha with ha | ha
    · exact List.mem_append_left _ ha
    · exact List.mem_append_right _ (listed a ha)
  have local_ {a : Address} (ha : a ∈ f.members ++ came es) (key : String) :
      (nodes' a).localValue key = (D a).value? key := by
    rw [Node.localValue_of_closed (at_.follows a ha).closed, at_.stores a ha]
  have settled := at_.follows m (List.mem_append_left _ mem)
  have serving {key : String} {a : Address} :
      a ∈ (nodes' m).serving key ↔ a ∈ f.owners (came es) key :=
    settled.mem_serving_settled (Ring.sound_ofMembers (sound.made _ distinct listed))
  have owner {key : String} {a : Address} (h : a ∈ f.owners (came es) key) :
      a ∈ f.members ++ came es := sound.mem_of_owner distinct listed h
  have holds {key : String} {value : Option (List UInt8)} {a : Address}
      (ha : a ∈ f.members ++ came es) : Got w' key value a ↔ (D a).value? key = value := by
    rw [← local_ ha key]
    constructor
    · rintro ⟨n, found, same⟩
      exact Option.some.inj (found.symm.trans (present ha)) ▸ same
    · exact fun same => ⟨_, present ha, same⟩
  refine ⟨w', nodes' m, run, reached.noted, reached.joined,
    present (List.mem_append_left _ mem), settled.mapping, fun key touched => ⟨?_, ?_⟩⟩
  · intro a ha first
    have member := sound.mem_of_first_owner first
    obtain ⟨w, hw, own⟩ := touched
    have mine : w ∈ share (f.owners []) tx a :=
      List.mem_filter.mpr ⟨hw, List.contains_iff_mem.mpr (own ▸ first)⟩
    have row := (mem_shares_iff sound (start.follows m (List.mem_append_left _ mem))).mpr
      ⟨rfl, List.ne_nil_of_mem mine⟩
    have handed : Event.handed a ∈ es :=
      order ▸ handed_mem_events.mpr (List.mem_map_of_mem row)
    exact (holds (List.mem_append_left _ member)).mpr
      (known.value?_of_handed member handed first ⟨w, hw, own⟩)
  · intro entry copied
    refine forall_congr' fun a => (imp_congr_left serving).trans (imp_congr_right fun ha => ?_)
    rw [holds (owner ha), (known.bears key entry touched copied a (owner ha)).value?]

/-- `A` and `D` are settled, `C` is about to come, and `D` hands a put of `k0` out to `A`
first. -/
theorem Influx.exists_of_two :
    let c := (Cluster.founded {} ["A", "D"]).start "C" {} ["C"]
    ∃ (f : Influx) (serial : Address → Serial) (nodes : Address → Node),
      f.members = ["A", "D"] ∧ f.settings = {} ∧ f.Sound ["C"] ∧
      c.nodes.serial? "D" = some (serial "D") ∧
      c.Hosts ⟨f.members ++ ["C"], serial, some []⟩ nodes ∧
      f.At ["C"] [] (fun a => (nodes a).store) nodes ∧
      f.Copied (fun a => (nodes a).store) "k0" none ∧
      ((nodes "D").shares [.put "k0" [2]]).map Prod.fst = ["A", "D"] ∧
      "C" ∈ f.owners ["C"] "k0" := by
  obtain ⟨old, before⟩ : ∃ r, Ring.ofMembers Strategy.sip24 ["A", "D"] = .ok r :=
    Ring.exists_ofMembers _ (by decide)
  obtain ⟨alone, apart⟩ : ∃ r, Ring.ofMembers Strategy.sip24 ["C"] = .ok r :=
    Ring.exists_ofMembers _ (by decide)
  obtain ⟨new, after⟩ : ∃ r, Ring.ofMembers Strategy.sip24 ["A", "D", "C"] = .ok r :=
    Ring.exists_ofMembers _ (by decide)
  let f : Influx := ⟨["A", "D"], {}, .sip24, fun came => if came = [] then old else new⟩
  let made := fun a => Node.made a {} .sip24 old
  have fresh : Node.create "C" {} ["C"] = .ok (Node.made "C" {} .sip24 alone) :=
    Node.create_eq_ok_iff.mpr ⟨by decide +kernel, .sip24, alone, by decide +kernel, apart, rfl⟩
  obtain ⟨serial, founded⟩ : ∃ serial, (Cluster.founded {} ["A", "D"]).Hosts
      ⟨["A", "D"], serial, some []⟩ made := by
    refine Cluster.exists_hosts_founded (by decide) fun a _ => ?_
    exact Node.create_eq_ok_iff.mpr ⟨by decide +kernel, .sip24, old, by decide +kernel, before, rfl⟩
  have hosts := founded.start (a := "C") (show "C" ∉ ["A", "D"] by decide) fresh
  have empty (a : Address) :
      (Function.update made "C" (Node.made "C" {} .sip24 alone) a).store = .empty := by
    rw [Function.update_apply]
    split <;> rfl
  have shares : ((made "D").shares [.put "k0" [2]]).map Prod.fst = ["A", "D"] :=
    Ring.apply_eq_of_ofMembers before (fun r =>
      ((Node.made "D" {} .sip24 r).shares [.put "k0" [2]]).map Prod.fst) (by decide +kernel)
  have owner : "C" ∈ new.locate "k0" 2 := of_decide_eq_true
    (Ring.apply_eq_of_ofMembers after (fun r => decide ("C" ∈ r.locate "k0" 2)) (by decide +kernel))
  refine ⟨f, _, _, rfl, rfl, ⟨rfl, List.cons_ne_nil _ _, show ["A", "D", "C"].Nodup by decide, ?_⟩,
    hosts.named (show "D" ∈ ["A", "D", "C"] by decide), hosts, ⟨?_, ?_, ?_⟩, ?_, shares, owner⟩
  · intro came distinct listed
    cases came with
    | nil => exact before
    | cons x more =>
      obtain rfl : x = "C" := List.mem_singleton.mp (listed x List.mem_cons_self)
      cases more with
      | nil => exact after
      | cons y more =>
        have again : y = "C" :=
          List.mem_singleton.mp (listed y (List.mem_cons_of_mem _ List.mem_cons_self))
        exact absurd (again ▸ List.mem_cons_self) (List.nodup_cons.mp distinct).1
  · intro a ha
    have other : a ≠ "C" := by
      rintro rfl
      exact absurd (show "C" ∈ ["A", "D"] ++ [] from ha) (by decide)
    rw [Function.update_of_ne other]
    exact ⟨rfl, rfl, rfl, Store.keyed_empty⟩
  · exact fun a _ => rfl
  · intro x hx _
    obtain rfl := List.mem_singleton.mp hx
    rw [Function.update_self]
    exact ⟨rfl, rfl, rfl, rfl, rfl⟩
  · intro a _
    rw [ite_self]
    exact (congrArg (Store.get? · "k0") (empty a)).trans (Store.get?_empty "k0")

/-- `C` joins before `A` and `D` have got the put: `C` owns the key then, and has nothing. -/
theorem write_across_joins_iff_of_two :
    let c := (Cluster.founded {} ["A", "D"]).start "C" {} ["C"]
    ∃ (f : Influx) (self : Serial) (node : Node) (w' : World Arrivals) (n : Node),
      c.nodes.serial? "D" = some self ∧ c.nodes.get? self = some node ∧
      Client.write (arrivals fun a => if a = "A" then ["C"] else []) self node
        (.single (.put "k0" [2])) 0 { cluster := c, outside := {} } = .done w' (.ok ()) ∧
      w'.cluster.nodes.find? "D" = some n ∧ n.mapping = .settled (f.ring ["C"]) ∧
      ((∀ a ∈ n.serving "k0", Influx.Got w' "k0" (some [2]) a) ↔
        ∀ a ∈ f.owners ["C"] "k0", (f.course "k0" none (some [2])
          [.joined "C", .handed "A", .handed "D"]).held a = some [2]) ∧
      "C" ∈ f.owners ["C"] "k0" ∧
      (f.course "k0" none (some [2]) [.joined "C", .handed "A", .handed "D"]).held "C" = none := by
  obtain ⟨f, serial, nodes, members, settings, sound, named, hosts, start, copied, shares, owner⟩ :=
    Influx.exists_of_two
  have mem : "D" ∈ f.members := members ▸ show "D" ∈ ["A", "D"] by decide
  obtain ⟨w', n, run, -, -, found, gone, law⟩ := write_across_joins_iff
    (.single (.put "k0" [2])) (fun a => if a = "A" then ["C"] else []) 0 sound
    (by rw [settings]; decide) hosts start mem (congrArg _ shares).symm
    (List.nodup_singleton "C") fun x hx => hx
  have known := hosts.node (a := "D") (List.mem_append_left _ mem)
  refine ⟨f, serial "D", nodes "D", w', n, named, known, run, found, gone, ?_, owner, ?_⟩
  · exact (law "k0" ⟨_, List.mem_singleton_self _, rfl⟩).2 none copied
  · -- whoever is asked has nothing, and what is handed out then does not get to `C`
    have first : (f.course "k0" none (some [2]) [.joined "C"]).held "C" = none := by
      rw [show [Influx.Event.joined "C"] = [] ++ [.joined "C"] from rfl, Influx.held_joined,
        Function.update_self]
      split
      · refine Influx.prevailing_of_none fun copy hc => ?_
        obtain ⟨p, -, rfl⟩ := List.mem_map.mp hc
        exact ite_self none
      · rfl
    have aside (es : List Influx.Event) (a : Address) (other : "C" ≠ a) :
        (f.course "k0" none (some [2]) (es ++ [.handed a])).held "C" =
          (f.course "k0" none (some [2]) es).held "C" := by
      rw [Influx.held_handed]
      split
      · rw [Function.update_of_ne other]
      · rfl
    exact (aside [.joined "C", .handed "A"] "D" (by decide)).trans
      ((aside [.joined "C"] "A" (by decide)).trans first)

/-- `D` hands a put of `k0` out, and `C` joins when it is sent to `A`. -/
def comingBetween : List Scenario.Step :=
  [.node "A" ["A", "D"] {} true, .node "D" ["A", "D"] {} true, .put "A" "k0" [1],
    .node "C" ["C"] {} true, .join "C" "of C",
    .hook (some "D") (some "A") .write 1 [.run "of C"], .put "D" "k0" [2],
    .ask "C" "k0", .ask "D" "k0", .store "C" (.get "k0"), .store "D" (.get "k0")]

/-- The put is acknowledged, `C` and `D` own the key under the ring of all three by then,
and `C` has the value of before. -/
theorem newcomer_misses_write :
    ((Scenario.run comingBetween)[6]?.map fun answer => match answer.outcome with
      | .ok => true
      | _ => false) = some true ∧
    (Scenario.run comingBetween).filterMap (fun answer => match answer.outcome with
      | .key owner uncertain stable => some (owner, uncertain, stable.members)
      | _ => none) = [(true, false, ["A", "C", "D"]), (true, false, ["A", "C", "D"])] ∧
    (Scenario.run comingBetween).filterMap (fun answer => match answer.outcome with
      | .store (.entry e) => some (e.map (·.value))
      | _ => none) = [some [1], some [2]] := by
  decide +kernel

end SlotRing
