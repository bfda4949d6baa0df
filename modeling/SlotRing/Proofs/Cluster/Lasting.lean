/-
# What commands do not get at

Much of what holds of a cluster holds whatever commands are sent: it does not depend on
how they are answered or on what is underway (`Lasting`).  Sending maintains it then,
whatever is lost and however long it takes, if only the surroundings leave it alone.
-/
import SlotRing.Cluster.Sending
import SlotRing.Proofs.Time.Alone

namespace SlotRing

variable {ε : Type} {around : Surroundings ε} {J : World ε → Prop}

/-- Whatever is answered, and whatever is underway, it goes on holding. -/
structure Lasting (J : World ε → Prop) : Prop where
  steady : Paced.Steady J
  answer {w : World ε} (h : J w) (endpoint : Serial) (command : Command) (outside : ε) :
    J { w with cluster := (w.cluster.answer endpoint command).1, outside }
  approached {w : World ε} (h : J w) (approached : List Serial) :
    J { w with cluster.approached := approached }

theorem maintains_world_read {α : Type} (f : Cluster → α) :
    (World.read f : Procedure (World ε) α).Maintains J :=
  Procedure.maintains_read _

/-- Nothing comes about at a sending that gets at it. -/
def Surroundings.Spares (around : Surroundings ε) (J : World ε → Prop) : Prop :=
  ∀ sending, (around.atSend sending).Maintains J

theorem Surroundings.spares_quiet : (quiet : Surroundings ε).Spares J :=
  fun _ => Procedure.maintains_pure _

section

variable (lasting : Lasting J)
include lasting

theorem maintains_deliver {sender target : Address} {command : Command} {endpoint : Serial} :
    (deliver around sender command target endpoint).Maintains J :=
  fun _ _ h => Procedure.Ends.keeps ⟨_, _, rfl, lasting.answer h endpoint command _⟩

theorem maintains_underway (endpoint : Serial) (time : Duration) :
    (underway endpoint time).Maintains J :=
  (Procedure.maintains_modify fun _ h => lasting.approached h _).bind fun _ =>
    (Procedure.maintains_sleep lasting.steady _).ensuring fun _ h => lasting.approached h _

theorem maintains_transmit {sender target : Address} {command : Command} {timeout : Duration} :
    (transmit around sender command timeout target).Maintains J := by
  refine (maintains_world_read _).bind fun route => ?_
  split
  · exact Procedure.maintains_pure _
  · split
    · exact (maintains_underway lasting _ _).bind fun _ => Procedure.maintains_pure _
    · split
      · exact (maintains_underway lasting _ _).bind fun _ =>
          (maintains_deliver lasting).bind fun _ => Procedure.maintains_pure _
      · exact (maintains_deliver lasting).bind fun _ => Procedure.maintains_pure _

variable (spares : around.Spares J)
include spares

theorem maintains_send (sender : Address) (targets : List Address) (command : Command)
    (timeout : Duration) : (send around sender targets command timeout).Maintains J := by
  refine (spares _).bind fun _ => Procedure.maintains_all ?_
  simp only [List.mem_map, forall_exists_index, and_imp]
  rintro _ target - rfl
  exact (maintains_transmit lasting).bind fun _ => Procedure.maintains_pure _

theorem maintains_sendTo (sender target : Address) (command : Command) (timeout : Duration) :
    (sendTo around sender target command timeout).Maintains J := by
  refine (maintains_send lasting spares _ _ _ _).bind fun responses => ?_
  split <;> exact Procedure.maintains_pure _

theorem maintains_broadcast (sender : Address) (command : Command) (timeout : Duration)
    (allNeeded : Bool) : (broadcast around sender command timeout allNeeded).Maintains J := by
  refine (maintains_world_read _).bind fun targets => ?_
  refine (maintains_send lasting spares _ _ _ _).bind fun responses => ?_
  dsimp only
  split <;> exact Procedure.maintains_pure _

end

end SlotRing
