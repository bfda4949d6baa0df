/-
# `Duration` — lengths of time to the nanosecond

Timeouts, delays and deadlines are exact; the clock of a cluster, however,
ticks in whole milliseconds, so that a wait of a fraction of a millisecond ends
with the tick after it (`Duration.ticks`).
-/

namespace SlotRing

structure Duration where
  nanoseconds : Nat
  deriving DecidableEq, Repr

namespace Duration

def perSecond : Nat := 1000000000

/-- Nanoseconds in a tick of the clock, a millisecond. -/
def perTick : Nat := 1000000

/-- The longest length of time: as many seconds as 64 bits count, and just less
than one more. -/
def longest : Duration := ⟨UInt64.size * perSecond - 1⟩

def zero : Duration := ⟨0⟩

/-- Seconds and nanoseconds, of which there may be more than a second. -/
def ofSeconds (secs nanos : Nat) : Duration := ⟨secs * perSecond + nanos⟩

def ofMillis (ms : Nat) : Duration := ⟨ms * perTick⟩

def seconds (d : Duration) : Nat := d.nanoseconds / perSecond

/-- What is left beside the whole seconds, in nanoseconds. -/
def subsecond (d : Duration) : Nat := d.nanoseconds % perSecond

def millis (d : Duration) : Nat := d.nanoseconds / perTick

/-- The ticks after which this length of time is over: milliseconds, rounded
up. -/
def ticks (d : Duration) : Nat := (d.nanoseconds + (perTick - 1)) / perTick

/-- The seconds that the clock does not count to any more. -/
def uncountable : Nat := 9223372036854775807

/-- Whether the clock counts to what is this long after a tick. -/
def CountedFrom (now : Nat) (d : Duration) : Prop :=
  (now * perTick + d.nanoseconds) / perSecond < uncountable

instance (now : Nat) (d : Duration) : Decidable (d.CountedFrom now) :=
  inferInstanceAs (Decidable ((now * perTick + d.nanoseconds) / perSecond < uncountable))

def farFuture : Duration := ⟨30 * 365 * 86400 * perSecond⟩

/-- The ticks that a wait of this length takes: one that the clock does not
count to ends in the far future instead. -/
def wait (d : Duration) : Nat :=
  if d.seconds < uncountable then d.ticks else farFuture.ticks

/-- `n` times as long, at most the longest. -/
def scale (n : Nat) (d : Duration) : Duration :=
  ⟨min (n * d.nanoseconds) longest.nanoseconds⟩

theorem ofSeconds_seconds_subsecond (d : Duration) :
    ofSeconds d.seconds d.subsecond = d := by
  cases d with
  | mk n => simp [ofSeconds, seconds, subsecond, Nat.div_add_mod' n perSecond]

/-! ## Text -/

/-- The digits of a fraction with `places` places, without zeros at its end and
with the point in front of it; nothing for zero. -/
def fractionText (places fraction : Nat) : String :=
  let digits := (Nat.toDigits 10 fraction).leftpad places '0'
  let kept := (digits.reverse.dropWhile (· == '0')).reverse
  if kept.isEmpty then "" else "." ++ .ofList kept

/-- `n` parts of a unit, of which ten to the power of `places` make one. -/
def decimalText (places n : Nat) (unit : String) : String :=
  let parts := Nat.pow 10 places
  toString (n / parts) ++ fractionText places (n % parts) ++ unit

/-- A length of time is written in the largest of the units s, ms, µs and ns
that it reaches, with as many decimals as it needs. -/
def text (d : Duration) : String :=
  let n := d.nanoseconds
  if n ≥ perSecond then decimalText 9 n "s"
  else if n ≥ perTick then decimalText 6 n "ms"
  else if n ≥ 1000 then decimalText 3 n "µs"
  else decimalText 0 n "ns"

end Duration

end SlotRing
