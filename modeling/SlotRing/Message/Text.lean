/-
# The text of a reply

An error that rejects a reply shows the whole reply: its name and, in
brackets, everything it carries.
-/
import SlotRing.Message.Basic

namespace SlotRing

open Text

/-- Named fields between braces, after the name of their type. -/
def recordText (name : String) (fields : List (String × String)) : String :=
  name ++ " " ++ bracketed "\x7b " " \x7d" (fields.map fun (field, value) => field ++ ": " ++ value)

/-- The pairs of a map between braces. -/
def mapText (pairs : List (String × String)) : String :=
  bracketed "\x7b" "\x7d" (pairs.map fun (key, value) => key ++ ": " ++ value)

def optionText : Option String → String
  | none => "None"
  | some value => "Some(" ++ value ++ ")"

def Entry.text (e : Entry) : String :=
  recordText "CacheEntry" [
    ("key", quoted e.key),
    ("value", listed (e.value.map fun b => toString b.toNat)),
    ("version", toString e.version)]

def MemberRing.text (r : MemberRing) : String :=
  recordText "ConsistentHash" [
    ("hash_builder", r.hasher.title),
    ("members", listed (r.members.map addressText)),
    ("positions", mapText (r.places.map fun (slot, m) => (toString slot, addressText m))),
    ("member_positions",
      mapText (r.memberPositions.toList.map fun (m, slot) => (addressText m, toString slot)))]

/-- A reply as it is shown to whoever did not expect it. -/
def Reply.text : Reply → String
  | .currentMapping ring => "CurrentMapping(" ++ optionText (ring.map MemberRing.text) ++ ")"
  | .stateChunk entries => "StateChunk(" ++ listed (entries.map Entry.text) ++ ")"
  | .value entry => "Value(" ++ optionText (entry.map Entry.text) ++ ")"
  | .uncertain => "Uncertain"
  | .ack => "Ack"
  | .unsuccessful reason => "Unsuccessful(" ++ quoted reason ++ ")"

end SlotRing
