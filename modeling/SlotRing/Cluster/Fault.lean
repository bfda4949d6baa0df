/-
# `Faults` — what can happen to commands on their way

A fault loses the commands of a kind or holds them back.  One that is set for a
single target replaces the one for all targets, as a whole.

Commands get lost by chance; here a fault loses all of them or none.  Single
losses come in through the surroundings, which may set other faults whenever
something is sent (`Surroundings.atSend`), and so lose any one command and spare
the next.
-/
import SlotRing.Address
import SlotRing.Message.Basic
import SlotRing.Time.Duration

namespace SlotRing

structure Fault where
  lost : Bool := false
  delay : Option Duration := none

structure Faults where
  forKind : List (CommandKind × Fault) := []
  forTarget : List ((Address × CommandKind) × Fault) := []

namespace Faults

/-- Changes the value under a key, which is `{}` before it is first set. -/
def update {κ : Type} [BEq κ] (key : κ) (f : Fault → Fault) (table : List (κ × Fault)) :
    List (κ × Fault) :=
  (key, f ((table.lookup key).getD {})) :: table.filter (·.1 != key)

/-- The fault for a command of that kind to that target. -/
def between (faults : Faults) (target : Address) (kind : CommandKind) : Fault :=
  ((faults.forTarget.lookup (target, kind)).or (faults.forKind.lookup kind)).getD {}

def lose (faults : Faults) (kind : CommandKind) (lost : Bool) : Faults :=
  { faults with forKind := update kind ({ · with lost }) faults.forKind }

/-- As `lose`, for a single target. -/
def loseTo (faults : Faults) (target : Address) (kind : CommandKind) (lost : Bool) : Faults :=
  { faults with forTarget := update (target, kind) ({ · with lost }) faults.forTarget }

def hold (faults : Faults) (kind : CommandKind) (delay : Duration) : Faults :=
  { faults with forKind := update kind ({ · with delay := some delay }) faults.forKind }

end Faults

end SlotRing
