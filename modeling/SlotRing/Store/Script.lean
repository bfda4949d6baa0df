/-
# Scripts over a store

One step at a time, each with its result: the operations of a store in the form
in which a script lists them.
-/
import SlotRing.Store.Basic

namespace SlotRing

/-- One operation on a store. -/
inductive StoreStep where
  | write (w : Write)
  | merge (entries : List Entry)
  | drop (key : String)
  | get (key : String)
  | keys
  | size
  /-- The entries whose key starts with a text. -/
  | startingWith (start : String)
  /-- The entries whose key has more bytes than that. -/
  | longerThan (bytes : Nat)
  | everything
  deriving Repr

inductive StoreResult where
  | nothing
  | count (n : Nat)
  | entry (e : Option Entry)
  | keys (ks : List String)
  | size (n : Nat)
  | entries (es : List Entry)

def StoreStep.run (s : Store) : StoreStep → Store × StoreResult
  | .write w => (s.write w, .nothing)
  | .merge entries =>
    let (s, taken) := s.merge entries
    (s, .count taken)
  | .drop key => (s.drop key, .entry (s.get? key))
  | .get key => (s, .entry (s.get? key))
  | .keys => (s, .keys s.keys)
  | .size => (s, .size s.size)
  | .startingWith start => (s, .entries (s.select (·.startsWith start)))
  | .longerThan bytes => (s, .entries (s.select fun key => bytes < key.utf8ByteSize))
  | .everything => (s, .entries s.entries)

end SlotRing
