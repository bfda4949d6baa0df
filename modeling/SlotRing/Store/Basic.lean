/-
# `Store` — the entries a node holds

Every value has a version, a counter per key that each write of the key moves
on.  A removed key keeps its last version, so that the counter goes on from
there when the key is written again and an older copy that arrives late is
refused.  Dropping a copy, in contrast, forgets the key altogether: the copy
was not the node's to keep, and it may be handed back.

Versions have 64 bits.  Here they are any numbers, so that what is said of them
is said as long as they stay below 2^64 (`Store.nextVersion`, `Node.overlay`).
-/
import Std.Data.ExtTreeMap

namespace SlotRing

/-- A value under a key, with its version. -/
structure Entry where
  key : String
  value : List UInt8
  version : Nat
  deriving DecidableEq, Repr

/-- One write of a client. -/
inductive Write where
  | put (key : String) (value : List UInt8)
  | remove (key : String)
  deriving DecidableEq, Repr

def Write.key : Write → String
  | .put key _ => key
  | .remove key => key

/-- The entries of one node. -/
structure Store where
  live : Std.ExtTreeMap String Entry
  /-- The last versions of the keys that were removed. -/
  removed : Std.ExtTreeMap String Nat

namespace Store

def empty : Store := ⟨∅, ∅⟩

instance : Inhabited Store := ⟨empty⟩

def get? (s : Store) (key : String) : Option Entry := s.live[key]?

/-- The version that removing a key has left. -/
def removed? (s : Store) (key : String) : Option Nat := s.removed[key]?

def version? (s : Store) (key : String) : Option Nat :=
  ((s.get? key).map Entry.version).or (s.removed? key)

def entries (s : Store) : List Entry := s.live.values

def keys (s : Store) : List String := s.live.keys

def size (s : Store) : Nat := s.live.size

def select (s : Store) (p : String → Bool) : List Entry :=
  s.entries.filter fun e => p e.key

/-- Makes an entry the live one of its key. -/
def insert (s : Store) (e : Entry) : Store :=
  ⟨s.live.insert e.key e, s.removed.erase e.key⟩

/-- Whether an entry that comes from another node is newer than what the store
knows of its key. -/
def accepts (s : Store) (e : Entry) : Bool :=
  match s.version? e.key with
  | none => true
  | some version => version < e.version

/-- Takes the entries that are newer, one after the other, and counts them. -/
def merge (s : Store) : List Entry → Store × Nat
  | [] => (s, 0)
  | e :: es =>
    if s.accepts e then
      let (s, taken) := (s.insert e).merge es
      (s, taken + 1)
    else s.merge es

/-- The version of the next put of a key. -/
def nextVersion (s : Store) (key : String) : Nat :=
  match s.version? key with
  | none => 1
  | some version => version + 1

def write (s : Store) : Write → Store
  | .put key value => s.insert ⟨key, value, s.nextVersion key⟩
  | .remove key =>
    match s.get? key with
    | none => s
    | some e => ⟨s.live.erase key, s.removed.insert key e.version⟩

def writeAll (s : Store) (ws : List Write) : Store := ws.foldl write s

/-- Drops the copy of a key, without a trace. -/
def drop (s : Store) (key : String) : Store := { s with live := s.live.erase key }

/-! ## What is found after an operation -/

@[simp] theorem get?_empty (key : String) : empty.get? key = none :=
  Std.ExtTreeMap.getElem?_empty

theorem get?_insert (s : Store) (e : Entry) (key : String) :
    (s.insert e).get? key = if e.key = key then some e else s.get? key := by
  simp [get?, insert, Std.ExtTreeMap.getElem?_insert]

theorem removed?_insert (s : Store) (e : Entry) (key : String) :
    (s.insert e).removed? key = if e.key = key then none else s.removed? key := by
  simp [removed?, insert, Std.ExtTreeMap.getElem?_erase]

theorem get?_drop (s : Store) (dropped key : String) :
    (s.drop dropped).get? key = if dropped = key then none else s.get? key := by
  simp [get?, drop, Std.ExtTreeMap.getElem?_erase]

@[simp] theorem removed?_drop (s : Store) (dropped key : String) :
    (s.drop dropped).removed? key = s.removed? key := rfl

/-- Chunks merge one after the other as they would together. -/
theorem merge_append (s : Store) (es fs : List Entry) :
    s.merge (es ++ fs) =
      (((s.merge es).1.merge fs).1, (s.merge es).2 + ((s.merge es).1.merge fs).2) := by
  induction es generalizing s with
  | nil => simp [merge]
  | cons e es ih =>
    by_cases h : s.accepts e
    · simp [merge, h, ih]; omega
    · simp [merge, h, ih]

end Store

end SlotRing
