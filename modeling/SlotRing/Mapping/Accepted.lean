/-
# `Accepted` — the mapping a node currently goes by

Installing a mapping replaces the accepted one as a whole and counts.  A value
taken earlier stays what it was.
-/
import SlotRing.Mapping.Basic
import SlotRing.Address

namespace SlotRing

abbrev MemberRing := Ring Strategy Address

abbrev MemberMapping := Mapping Strategy Address

/-- A mapping together with the number of installs that led to it. -/
structure Accepted where
  version : Nat
  mapping : MemberMapping

namespace Accepted

def initial (mapping : MemberMapping) : Accepted := ⟨0, mapping⟩

def install (a : Accepted) (mapping : MemberMapping) : Accepted := ⟨a.version + 1, mapping⟩

instance : BEq Accepted := ⟨fun a b => a.version == b.version && a.mapping == b.mapping⟩

end Accepted

end SlotRing
