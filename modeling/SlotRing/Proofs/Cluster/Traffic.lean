/-
# Traffic beside a rehash

While a rehash runs, the others do not stand still, and neither does the network.
A script says for each sending of the rehash, by its number and by what is sent,
what comes about right then, before anything is delivered: commands get to members
from elsewhere, time passes, and other faults come into force.  Commands that are
lost on the way from elsewhere do not get anywhere, so that nothing needs to be said
of them.

What a client does through a member is traffic, too: whatever becomes of its
commands, shares of its transaction get to members, in some order and at some time,
and a read changes nothing.

The diary is what is known of it afterwards: what was sent by the rehash and what
its node was like then, what the rehash was answered, and which commands got to
members from elsewhere.
-/
import SlotRing.Proofs.Cluster.Staffing

namespace SlotRing

inductive Deed where
  /-- From now on, these are the faults. -/
  | weather (faults : Faults)
  /-- Time passes. -/
  | pass (ticks : Nat)
  /-- A command gets to a member. -/
  | hand (target : Address) (command : Command)

inductive Note where
  /-- A command has been sent; `node` is what the sender's node is like. -/
  | sent (sending : Sending) (node : Option Node)
  | answered (answered : Answered)
  /-- A command has got to a member and was answered. -/
  | handed (target : Address) (command : Command) (reply : Reply)

/-- The notes, in the order in which they were made. -/
structure Diary where
  /-- The number of sendings. -/
  sendings : Nat := 0
  notes : List Note := []

namespace Diary

variable (o : Diary)

def note (n : Note) : Diary := { o with notes := o.notes ++ [n] }

def count : Diary := { o with sendings := o.sendings + 1 }

end Diary

namespace Deed

/-- Has a command answered by whoever answers for a member. -/
def handing (target : Address) (command : Command) (w : World Diary) : World Diary :=
  match w.cluster.view.lookup target with
  | none => w
  | some endpoint =>
    let (cluster, reply) := w.cluster.answer endpoint command
    { w with cluster, outside := w.outside.note (.handed target command reply) }

def carryOut : Deed → Procedure (World Diary) Unit
  | .weather faults => World.modify ({ · with faults })
  | .pass ticks => Procedure.sleep ticks
  | .hand target command => Procedure.modify (handing target command)

def carryOutAll : List Deed → Procedure (World Diary) Unit
  | [] => return
  | d :: ds => do
    d.carryOut
    carryOutAll ds

end Deed

/-- Notes that a command is sent, and says the how manieth it is. -/
def noteSending (sending : Sending) : Procedure (World Diary) Nat :=
  .change fun w =>
    let node := w.cluster.nodes.find? sending.sender
    ({ w with outside := w.outside.count.note (.sent sending node) }, w.outside.sendings)

/-- Surroundings in which the deeds of `script i sending` come about when `sending`
is sent as the `i`-th one. -/
def traffic (script : Nat → Sending → List Deed) : Surroundings Diary where
  atSend sending := do
    let i ← noteSending sending
    Deed.carryOutAll (script i sending)
  noteAnswer _ answered outside := outside.note (.answered answered)

open Picture World

namespace Picture

def sending (sending : Sending) (p : Picture Diary) : Picture Diary :=
  { p with
    outside := p.outside.count.note (.sent sending (some (p.nodes sending.sender))) }

def handed (target : Address) (command : Command) (p : Picture Diary) : Picture Diary :=
  { p.withNode target ((p.nodes target).handle command).1 with
    outside := p.outside.note (.handed target command ((p.nodes target).handle command).2) }

end Picture

section

variable {crew : Crew} {w : World Diary} {now : Nat}
variable {E₀ N₀ E N : Picture Diary → Picture Diary → Prop} {P I : Picture Diary → Prop}
variable {script : Nat → Sending → List Deed} {sending : Sending}

/-- A command that gets to a member is handled by its node; one that is for nobody
has no effect. -/
theorem handing_abides (mine : Flow N) {target : Address} {command : Command}
    (h : w.Has crew I)
    (handled : target ∈ crew.who.members → ∀ p, I p →
      N p (p.handed target command) ∧ I (p.handed target command)) :
    (Procedure.modify (Deed.handing target command)).Abides (Steps crew E) (Steps crew N) now w
      fun w' _ => w'.Has crew I := by
  obtain ⟨p, shows_, holds⟩ := h
  refine (Procedure.ends_modify (Q := fun w' _ => Steps crew N w w' ∧ w'.Has crew I) ?_).abides
  cases listed : w.cluster.view.lookup target with
  | none =>
    have idle : Deed.handing target command w = w := by simp only [Deed.handing, listed]
    rw [idle]
    exact ⟨(drift_steps _ mine).refl w, p, shows_, holds⟩
  | some e =>
    have mem : target ∈ crew.who.members := by
      by_contra absent
      have := List.lookup_eq_some_iff.mp listed
      obtain ⟨before, after, same, -⟩ := this
      refine absent (shows_.staffs.members_eq ▸ ?_)
      rw [Cluster.members, same]
      simp
    have answer := shows_.staffs.answer_eq mem listed command
    obtain ⟨moved, holds'⟩ := handled mem p holds
    have after := (shows_.withNode mem (f := fun _ => ((p.nodes target).handle command).1)
      (Node.handle_address _ _)).noting
        (p.outside.note (.handed target command ((p.nodes target).handle command).2))
    have run : Deed.handing target command w =
        { w with
          cluster := w.cluster.updateNode (crew.who.serial target) fun _ =>
            ((p.nodes target).handle command).1
          outside := p.outside.note
            (.handed target command ((p.nodes target).handle command).2) } := by
      simp only [Deed.handing, listed, answer, shows_.outside]
    rw [run]
    exact ⟨steps_of_shows shows_ after moved, _, after, holds'⟩

/-- Whatever is preserved by all that gets to members is preserved by deeds. -/
theorem deeds_abide (fits : Fits E N) {deeds : List Deed} (h : w.Has crew I)
    (stable : ∀ p q, E p q → I p → I q)
    (handled : ∀ target command, .hand target command ∈ deeds → target ∈ crew.who.members →
      ∀ p, I p → N p (p.handed target command)) :
    (Deed.carryOutAll deeds).Abides (Steps crew E) (Steps crew N) now w
      fun w' _ => w'.Has crew I := by
  have mine := drift_steps crew fits.mine
  have theirs := drift_steps crew fits.theirs
  induction deeds generalizing now w with
  | nil => exact Procedure.abides_pure mine h
  | cons deed deeds ih =>
    have rest (now : Nat) (w : World Diary) (h : w.Has crew I) :=
      @ih w now h fun target command listed =>
        handled target command (List.mem_cons_of_mem _ listed)
    refine Procedure.Abides.bind mine (Q := fun w' _ => w'.Has crew I) ?_
      fun now' w' _ h' => rest now' w' h'
    cases deed with
    | weather faults =>
      exact World.abides_modify_other fits.mine (f := ({ · with faults })) h fun _ => rfl
    | pass ticks =>
      exact (Procedure.abides_sleep theirs mine ticks).mono fun w' _ waited => h.along stable waited
    | hand target command =>
      refine handing_abides fits.mine h fun mem p holds => ?_
      have step := handled target command List.mem_cons_self mem p holds
      exact ⟨step, stable _ _ (fits.part _ _ step) holds⟩

theorem traffic_minds (room : Room E₀ N₀ E N) (sender : sending.sender ∈ crew.who.members)
    (sent : ∀ p, P p → N₀ p (p.sending sending) ∧ I (p.sending sending))
    (stable : ∀ p q, E p q → I p → I q)
    (handled : ∀ i target command, .hand target command ∈ script i sending →
      target ∈ crew.who.members → ∀ p, I p → N p (p.handed target command)) :
    (traffic script).Minds crew E₀ N₀ sending P I := by
  intro now w h
  have mine := drift_steps crew room.mine
  obtain ⟨p, shows_, holds⟩ := h
  obtain ⟨step, holds'⟩ := sent p holds
  have found : w.cluster.nodes.find? sending.sender = some (p.nodes sending.sender) :=
    shows_.staffs.find? sender
  have after := shows_.noting
    (w.outside.count.note (.sent sending (some (p.nodes sending.sender))))
  have noted : (noteSending sending).Abides (Steps crew E₀) (Steps crew N₀) now w
      fun w' _ => w'.Has crew I := by
    refine (Procedure.ends_change (Q := fun w' _ => Steps crew N₀ w w' ∧ w'.Has crew I) ?_).abides
    rw [shows_.outside] at after
    simp only [found, shows_.outside]
    exact ⟨steps_of_shows shows_ after step, _, after, holds'⟩
  refine noted.bind mine fun now' w' i h' => ?_
  exact (deeds_abide room.fits h' stable (handled i)).inside room

end

end SlotRing
