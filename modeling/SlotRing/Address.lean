/-
# Addresses — the names of cluster members

An address is an opaque text.  Addresses are ordered by the code points of
their characters, which decides who comes first where nothing else does; the
order of members on a ring is that of their slots.
-/
import SlotRing.Text.Quoted

namespace SlotRing

/-- The name of a cluster member. -/
abbrev Address := String

/-- An address as it is shown inside a value. -/
def addressText (a : Address) : String :=
  "Address(" ++ Text.quoted a ++ ")"

end SlotRing
