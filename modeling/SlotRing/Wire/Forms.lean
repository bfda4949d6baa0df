/-
# The written forms of the library's types

What travels between members or is kept in a file: settings, entries, writes,
transactions, rings, mappings, commands and replies.

A ring is written without its hasher and read back with the standard one, and
what it says about members and slots is taken as it is.
-/
import SlotRing.Message.Basic
import SlotRing.Settings
import SlotRing.Wire.Codec

namespace SlotRing.Wire

open Codec

def bytes : Codec (List UInt8) := list byte

def address : Codec Address := text

def strategy : Codec Strategy := named [.sip13, .sip24] Strategy.title

def phase : Codec Phase := named Phase.all Phase.title

/-! ## Settings -/

/-- Seconds and the nanoseconds beside them; more than a second of these is
carried over. -/
def duration : Codec Duration where
  encode d := .fields [("secs", word64.encode d.seconds), ("nanos", word32.encode d.subsecond)]
  decode? doc := do
    let [secs, nanos] ← doc.exactFields? ["secs", "nanos"] | none
    let d := Duration.ofSeconds (← word64.required secs) (← word32.required nanos)
    if d.nanoseconds ≤ Duration.longest.nanoseconds then return d else none

/-- Every setting that is missing has its default. -/
def settings : Codec Settings where
  encode s := .fields [
    ("num_owners", word64.encode s.owners),
    ("hash_strategy", text.encode s.strategyName),
    ("rehash_enabled", bool.encode s.rehashEnabled),
    ("rehash_rpc_timeout", duration.encode s.rpcTimeout),
    ("rehash_retry_min", duration.encode s.retryMin),
    ("rehash_retry_max", duration.encode s.retryMax),
    ("rehash_deadline", (optional duration).encode s.rehashDeadline),
    ("invalidate_stale", bool.encode s.invalidateStale)]
  decode? doc := do
    let [owners, strategyName, rehashEnabled, rpcTimeout, retryMin, retryMax, rehashDeadline,
        invalidateStale] ← doc.leadingFields? ["num_owners", "hash_strategy", "rehash_enabled",
          "rehash_rpc_timeout", "rehash_retry_min", "rehash_retry_max", "rehash_deadline",
          "invalidate_stale"] | none
    let unset : Settings := {}
    return {
      owners := ← word64.withDefault unset.owners owners
      strategyName := ← text.withDefault unset.strategyName strategyName
      rehashEnabled := ← bool.withDefault unset.rehashEnabled rehashEnabled
      rpcTimeout := ← duration.withDefault unset.rpcTimeout rpcTimeout
      retryMin := ← duration.withDefault unset.retryMin retryMin
      retryMax := ← duration.withDefault unset.retryMax retryMax
      rehashDeadline := ← (optional duration).withDefault unset.rehashDeadline rehashDeadline
      invalidateStale := ← bool.withDefault unset.invalidateStale invalidateStale }

/-! ## Entries and writes -/

def entry : Codec Entry where
  encode e := .fields [
    ("key", text.encode e.key), ("value", bytes.encode e.value),
    ("version", word64.encode e.version)]
  decode? doc := do
    let [key, value, version] ← doc.fields? ["key", "value", "version"] | none
    return ⟨← text.required key, ← bytes.required value, ← word64.required version⟩

/-- A write, under its name. -/
def write : Codec Write where
  encode
    | .put key value =>
      .fields [("Put", .fields [("key", text.encode key), ("value", bytes.encode value)])]
    | .remove key => .fields [("Remove", .fields [("key", text.encode key)])]
  decode? doc := do
    match ← doc.variant? with
    | ("Put", some content) =>
      let [key, value] ← content.fields? ["key", "value"] | none
      return .put (← text.required key) (← bytes.required value)
    | ("Remove", some content) =>
      let [key] ← content.fields? ["key"] | none
      return .remove (← text.required key)
    | _ => none

/-- Writes that belong together; the id may be missing. -/
def transaction : Codec Transaction where
  encode tx := .fields [
    ("tx_id", (optional word64).encode tx.id), ("writes", (list write).encode tx.writes)]
  decode? doc := do
    let [id, writes] ← doc.fields? ["tx_id", "writes"] | none
    return ⟨← (optional word64).withDefault none id, ← (list write).required writes⟩

/-! ## Rings and mappings -/

section

variable {α : Type} [Ord α] [Std.TransOrd α]

def ringOf (member : Codec α) (key : KeyCodec α) : Codec (Ring Strategy α) where
  encode r := .fields [
    ("members", (list member).encode r.members),
    ("positions", (map word32Key member).encode r.positions),
    ("member_positions", (map key word32).encode r.memberPositions)]
  decode? doc := do
    let [members, positions, memberPositions] ←
      doc.fields? ["members", "positions", "member_positions"] | none
    return {
      hasher := .standard
      members := ← (list member).required members
      positions := ← (map word32Key member).required positions
      memberPositions := ← (map key word32).required memberPositions }

def mappingOf (ring : Codec (Ring Strategy α)) : Codec (Mapping Strategy α) where
  encode
    | .settled r => .fields [("Single", ring.encode r)]
    | .moving old new =>
      .fields [("Union", .fields [("old", ring.encode old), ("new", ring.encode new)])]
  decode? doc := do
    match ← doc.variant? with
    | ("Single", some content) => return .settled (← ring.decode? content)
    | ("Union", some content) =>
      let [old, new] ← content.fields? ["old", "new"] | none
      return .moving (← ring.required old) (← ring.required new)
    | _ => none

end

def ring : Codec MemberRing := ringOf address textKey

def mapping : Codec MemberMapping := mappingOf ring

/-! ## Commands and replies -/

def command : Codec Command where
  encode
    | .getCurrentMapping requester =>
      .fields [("GetCurrentMapping", .fields [("requester", address.encode requester)])]
    | .installMapping m => .fields [("InstallMapping", mapping.encode m)]
    | .pullState requester r =>
      .fields [("PullState",
        .fields [("requester", address.encode requester), ("new_mapping", ring.encode r)])]
    | .pushState entries => .fields [("PushState", (list entry).encode entries)]
    | .invalidateHint keys => .fields [("InvalidateHint", (list text).encode keys)]
    | .joinComplete member => .fields [("JoinComplete", address.encode member)]
    | .write tx => .fields [("Write", transaction.encode tx)]
    | .clusteredGet key => .fields [("ClusteredGet", text.encode key)]
  decode? doc := do
    let (name, some content) ← doc.variant? | none
    match name with
    | "GetCurrentMapping" =>
      let [requester] ← content.fields? ["requester"] | none
      return .getCurrentMapping (← address.required requester)
    | "InstallMapping" => return .installMapping (← mapping.decode? content)
    | "PullState" =>
      let [requester, r] ← content.fields? ["requester", "new_mapping"] | none
      return .pullState (← address.required requester) (← ring.required r)
    | "PushState" => return .pushState (← (list entry).decode? content)
    | "InvalidateHint" => return .invalidateHint (← (list text).decode? content)
    | "JoinComplete" => return .joinComplete (← address.decode? content)
    | "Write" => return .write (← transaction.decode? content)
    | "ClusteredGet" => return .clusteredGet (← text.decode? content)
    | _ => none

/-- A reply, under its name; one that carries nothing is the bare name. -/
def reply : Codec Reply where
  encode
    | .currentMapping r => .fields [("CurrentMapping", (optional ring).encode r)]
    | .stateChunk entries => .fields [("StateChunk", (list entry).encode entries)]
    | .value e => .fields [("Value", (optional entry).encode e)]
    | .uncertain => .text "Uncertain"
    | .ack => .text "Ack"
    | .unsuccessful reason => .fields [("Unsuccessful", text.encode reason)]
  decode? doc := do
    match ← doc.variant? with
    | ("CurrentMapping", some content) => return .currentMapping (← (optional ring).decode? content)
    | ("StateChunk", some content) => return .stateChunk (← (list entry).decode? content)
    | ("Value", some content) => return .value (← (optional entry).decode? content)
    | ("Unsuccessful", some content) => return .unsuccessful (← text.decode? content)
    | ("Uncertain", content) => if Doc.isBare content then return .uncertain else none
    | ("Ack", content) => if Doc.isBare content then return .ack else none
    | _ => none

end SlotRing.Wire
