/-
# What the written forms keep

Each form that values are written in keeps what is in the range of its numbers: 64 bits
for versions, ids and counts, 32 bits for slots, and no more than the longest length of
time.  A ring comes back under the standard hasher, and so do the rings in mappings,
commands and replies; that is what `asRead` says.  Everything else comes back as it was.
-/
import SlotRing.Proofs.Wire.Keeping
import SlotRing.Wire.Forms

namespace SlotRing

/-! ## What is in range -/

def Duration.InRange (d : Duration) : Prop := d.nanoseconds ≤ longest.nanoseconds

structure Settings.InRange (s : Settings) : Prop where
  owners : s.owners < UInt64.size
  rpcTimeout : s.rpcTimeout.InRange
  retryMin : s.retryMin.InRange
  retryMax : s.retryMax.InRange
  rehashDeadline : ∀ d ∈ s.rehashDeadline, d.InRange

def Entry.InRange (e : Entry) : Prop := e.version < UInt64.size

def Transaction.InRange (tx : Transaction) : Prop := ∀ id ∈ tx.id, id < UInt64.size

section

variable {η α : Type} [Ord α] [Std.TransOrd α]

structure Ring.InRange (r : Ring η α) : Prop where
  positions : ∀ (slot : Nat) (m : α), r.positions[slot]? = some m → slot < UInt32.size
  memberPositions : ∀ (m : α) (slot : Nat), r.memberPositions[m]? = some slot → slot < UInt32.size

def Mapping.InRange : Mapping η α → Prop
  | .settled r => r.InRange
  | .moving old new => old.InRange ∧ new.InRange

end

def Command.InRange : Command → Prop
  | .installMapping m => m.InRange
  | .pullState _ r => r.InRange
  | .pushState entries => ∀ e ∈ entries, e.InRange
  | .write tx => tx.InRange
  | _ => True

def Reply.InRange : Reply → Prop
  | .currentMapping ring => ∀ r ∈ ring, r.InRange
  | .stateChunk entries => ∀ e ∈ entries, e.InRange
  | .value entry => ∀ e ∈ entry, e.InRange
  | _ => True

/-! ## What comes back -/

section

variable {α : Type} [Ord α] [Std.TransOrd α]

/-- The same members on the same slots, under the standard hasher. -/
def Ring.asRead (r : Ring Strategy α) : Ring Strategy α := { r with hasher := .standard }

def Mapping.asRead : Mapping Strategy α → Mapping Strategy α
  | .settled r => .settled r.asRead
  | .moving old new => .moving old.asRead new.asRead

end

def Command.asRead : Command → Command
  | .installMapping m => .installMapping m.asRead
  | .pullState requester r => .pullState requester r.asRead
  | command => command

def Reply.asRead : Reply → Reply
  | .currentMapping ring => .currentMapping (ring.map Ring.asRead)
  | reply => reply

namespace Wire

open Codec

/-! ## Settings, entries and writes -/

theorem keeps_word64 : word64.Keeps (· < UInt64.size) id := keeps_below _

theorem keeps_word32 : word32.Keeps (· < UInt32.size) id := keeps_below _

theorem keeps_bytes : bytes.Keeps (fun _ => True) id :=
  (keeps_list keeps_byte).congr (fun _ => by simp) List.map_id

theorem seconds_lt {d : Duration} (fine : d.InRange) : d.seconds < UInt64.size := by
  simp only [Duration.InRange, Duration.longest, Duration.perSecond, UInt64.size] at fine
  simp only [Duration.seconds, Duration.perSecond, UInt64.size]
  omega

theorem subsecond_lt (d : Duration) : d.subsecond < UInt32.size := by
  simp only [Duration.subsecond, Duration.perSecond, UInt32.size]
  omega

theorem keeps_duration : duration.Keeps Duration.InRange id where
  proper d := .fields (by simp [keeps_word64.proper, keeps_word32.proper])
  read {d} fine := by
    have fields : (duration.encode d).exactFields? ["secs", "nanos"] =
        some [some (word64.encode d.seconds), some (word32.encode d.subsecond)] :=
      Doc.exactFields?_fields [("secs", _), ("nanos", _)] (by simp)
    simp only [duration, Option.bind_eq_bind] at fields ⊢
    rw [fields, Option.bind_some]
    simp only
    rw [keeps_word64.required (seconds_lt fine), Option.bind_some,
      keeps_word32.required (subsecond_lt d), Option.bind_some,
      Duration.ofSeconds_seconds_subsecond]
    exact if_pos fine
  image {doc d} read := by
    simp only [duration, Option.bind_eq_bind, Option.bind_eq_some_iff] at read
    obtain ⟨fields, -, read⟩ := read
    split at read
    · simp only [Option.bind_eq_some_iff] at read
      obtain ⟨secs, -, nanos, -, read⟩ := read
      split at read
      · next fine =>
        cases read
        exact ⟨fine, rfl⟩
      · cases read
    · cases read

theorem keeps_entry : entry.Keeps Entry.InRange id where
  proper e := .fields (by simp [keeps_text.proper, keeps_bytes.proper, keeps_word64.proper])
  read {e} fine := by
    have fields : (entry.encode e).fields? ["key", "value", "version"] =
        some [some (text.encode e.key), some (bytes.encode e.value),
          some (word64.encode e.version)] :=
      Doc.fields?_fields [("key", _), ("value", _), ("version", _)] (by simp)
    simp only [entry] at fields ⊢
    simp [fields, keeps_text.required, keeps_bytes.required, keeps_word64.required fine]
  image {doc e} read := by
    simp only [entry, Option.bind_eq_bind, Option.bind_eq_some_iff] at read
    obtain ⟨fields, -, read⟩ := read
    split at read
    · simp only [Option.bind_eq_some_iff] at read
      obtain ⟨key, -, value, -, version, found, made⟩ := read
      cases made
      exact ⟨(keeps_word64.of_required found).1, rfl⟩
    · cases read

theorem variant?_fields (name : String) (content : Doc) :
    (Doc.fields [(name, content)]).variant? = some (name, some content) := rfl

theorem keeps_write : write.Keeps (fun _ => True) id where
  proper w := by
    cases w with
    | put key value =>
      exact .fields (by simpa using .fields (by simp [keeps_text.proper, keeps_bytes.proper]))
    | remove key => exact .fields (by simpa using .fields (by simp [keeps_text.proper]))
  read {w} _ := by
    cases w with
    | put key value =>
      have fields : (Doc.fields [("key", text.encode key), ("value", bytes.encode value)]).fields?
          ["key", "value"] = some [some (text.encode key), some (bytes.encode value)] :=
        Doc.fields?_fields [("key", _), ("value", _)] (by simp)
      simp [write, variant?_fields, fields, keeps_text.required, keeps_bytes.required]
    | remove key =>
      have fields : (Doc.fields [("key", text.encode key)]).fields? ["key"] =
          some [some (text.encode key)] :=
        Doc.fields?_fields [("key", _)] (by simp)
      simp [write, variant?_fields, fields, keeps_text.required]
  image _ := ⟨trivial, rfl⟩

theorem keeps_id : (optional word64).Keeps (fun o => ∀ n ∈ o, n < UInt64.size) id :=
  (keeps_optional keeps_word64 (by simp [word64, below])).congr (fun _ => Iff.rfl)
    (congrFun Option.map_id)

theorem keeps_writes : (list write).Keeps (fun _ => True) id :=
  (keeps_list keeps_write).congr (fun _ => by simp) List.map_id

theorem keeps_transaction : transaction.Keeps Transaction.InRange id where
  proper tx := .fields (by simp [keeps_id.proper, keeps_writes.proper])
  read {tx} fine := by
    have fields : (transaction.encode tx).fields? ["tx_id", "writes"] =
        some [some ((optional word64).encode tx.id), some ((list write).encode tx.writes)] :=
      Doc.fields?_fields [("tx_id", _), ("writes", _)] (by simp)
    simp only [transaction] at fields ⊢
    simp [fields, keeps_id.withDefault none fine, keeps_writes.required]
  image {doc tx} read := by
    simp only [transaction, Option.bind_eq_bind, Option.bind_eq_some_iff] at read
    obtain ⟨fields, -, read⟩ := read
    split at read
    · simp only [Option.bind_eq_some_iff] at read
      obtain ⟨id, found, writes, -, made⟩ := read
      cases made
      exact ⟨(keeps_id.of_withDefault (by simp) found).1, rfl⟩
    · cases read

theorem keeps_deadline : (optional duration).Keeps (fun o => ∀ d ∈ o, d.InRange) id :=
  (keeps_optional keeps_duration (by simp [duration, Doc.fields])).congr (fun _ => Iff.rfl)
    (congrFun Option.map_id)

theorem inRange_default : ({} : Settings).InRange where
  owners := by decide
  rpcTimeout := by
    simp [Duration.InRange, Duration.longest, Duration.ofSeconds, Duration.perSecond, UInt64.size]
  retryMin := by
    simp [Duration.InRange, Duration.longest, Duration.ofMillis, Duration.perTick,
      Duration.perSecond, UInt64.size]
  retryMax := by
    simp [Duration.InRange, Duration.longest, Duration.ofMillis, Duration.perTick,
      Duration.perSecond, UInt64.size]
  rehashDeadline := by simp

theorem keeps_settings : settings.Keeps Settings.InRange id where
  proper s := .fields (by
    simp [keeps_word64.proper, keeps_text.proper, keeps_bool.proper, keeps_duration.proper,
      keeps_deadline.proper])
  read {s} fine := by
    have fields : (settings.encode s).leadingFields? ["num_owners", "hash_strategy",
          "rehash_enabled", "rehash_rpc_timeout", "rehash_retry_min", "rehash_retry_max",
          "rehash_deadline", "invalidate_stale"] =
        some [some (word64.encode s.owners), some (text.encode s.strategyName),
          some (bool.encode s.rehashEnabled), some (duration.encode s.rpcTimeout),
          some (duration.encode s.retryMin), some (duration.encode s.retryMax),
          some ((optional duration).encode s.rehashDeadline),
          some (bool.encode s.invalidateStale)] :=
      Doc.leadingFields?_fields [("num_owners", _), ("hash_strategy", _),
          ("rehash_enabled", _), ("rehash_rpc_timeout", _), ("rehash_retry_min", _),
          ("rehash_retry_max", _), ("rehash_deadline", _), ("invalidate_stale", _)] (by simp)
    simp only [settings] at fields ⊢
    simp [fields, keeps_word64.withDefault _ fine.owners, keeps_text.withDefault,
      keeps_bool.withDefault, keeps_duration.withDefault _ fine.rpcTimeout,
      keeps_duration.withDefault _ fine.retryMin, keeps_duration.withDefault _ fine.retryMax,
      keeps_deadline.withDefault _ fine.rehashDeadline]
  image {doc s} read := by
    simp only [settings, Option.bind_eq_bind, Option.bind_eq_some_iff] at read
    obtain ⟨fields, -, read⟩ := read
    split at read
    · simp only [Option.bind_eq_some_iff] at read
      obtain ⟨owners, foundOwners, name, -, enabled, -, rpcTimeout, foundTimeout, retryMin,
        foundMin, retryMax, foundMax, deadline, foundDeadline, stale, -, made⟩ := read
      cases made
      have unset := inRange_default
      refine ⟨⟨?_, ?_, ?_, ?_, ?_⟩, rfl⟩
      · exact (keeps_word64.of_withDefault ⟨unset.owners, rfl⟩ foundOwners).1
      · exact (keeps_duration.of_withDefault ⟨unset.rpcTimeout, rfl⟩ foundTimeout).1
      · exact (keeps_duration.of_withDefault ⟨unset.retryMin, rfl⟩ foundMin).1
      · exact (keeps_duration.of_withDefault ⟨unset.retryMax, rfl⟩ foundMax).1
      · exact (keeps_deadline.of_withDefault ⟨unset.rehashDeadline, rfl⟩ foundDeadline).1
    · cases read

/-! ## Rings and mappings -/

section

variable {α : Type} [Ord α] [Std.TransOrd α] {member : Codec α} {key : KeyCodec α}

theorem keeps_ringOf [Std.LawfulEqOrd α] (keepsMember : member.Keeps (fun _ => True) id)
    (keepsKey : key.Keeps fun _ => True) : (ringOf member key).Keeps Ring.InRange Ring.asRead := by
  have keepsMembers : (list member).Keeps (fun _ => True) id :=
    (keeps_list keepsMember).congr (fun _ => by simp) List.map_id
  have keepsPositions := keeps_map keeps_word32Key keepsMember
  have keepsMemberPositions := keeps_map keepsKey keeps_word32
  constructor
  case proper =>
    intro r
    exact .fields (by
      simp [keepsMembers.proper, keepsPositions.proper, keepsMemberPositions.proper])
  case read =>
    intro r fine
    have fields : ((ringOf member key).encode r).fields?
          ["members", "positions", "member_positions"] =
        some [some ((list member).encode r.members),
          some ((map word32Key member).encode r.positions),
          some ((map key word32).encode r.memberPositions)] :=
      Doc.fields?_fields [("members", _), ("positions", _), ("member_positions", _)]
        (by simp)
    have positions := keepsPositions.required fun slot m found =>
      ⟨fine.positions slot m found, trivial⟩
    have memberPositions := keepsMemberPositions.required fun m slot found =>
      ⟨trivial, fine.memberPositions m slot found⟩
    simp only [ringOf] at fields ⊢
    simp [fields, keepsMembers.required, positions, memberPositions, Ring.asRead]
  case image =>
    intro doc r read
    simp only [ringOf, Option.bind_eq_bind, Option.bind_eq_some_iff] at read
    obtain ⟨fields, -, read⟩ := read
    split at read
    · simp only [Option.bind_eq_some_iff] at read
      obtain ⟨members, -, positions, foundPositions, memberPositions, foundMemberPositions,
        made⟩ := read
      cases made
      have fitsPositions := (keepsPositions.of_required foundPositions).1
      have fitsMemberPositions := (keepsMemberPositions.of_required foundMemberPositions).1
      exact ⟨⟨fun slot m found => (fitsPositions slot m found).1,
        fun m slot found => (fitsMemberPositions m slot found).2⟩, rfl⟩
    · cases read

theorem keeps_mappingOf {ring : Codec (Ring Strategy α)}
    (keeps : ring.Keeps Ring.InRange Ring.asRead) :
    (mappingOf ring).Keeps Mapping.InRange Mapping.asRead where
  proper m := by
    cases m with
    | settled r => exact .fields (by simp [keeps.proper])
    | moving old new => exact .fields (by simpa using .fields (by simp [keeps.proper]))
  read {m} fine := by
    cases m with
    | settled r =>
      have read : ring.decode? (ring.encode r) = some r.asRead := keeps.read fine
      simp [mappingOf, variant?_fields, read, Mapping.asRead]
    | moving old new =>
      have fields : (Doc.fields [("old", ring.encode old), ("new", ring.encode new)]).fields?
          ["old", "new"] = some [some (ring.encode old), some (ring.encode new)] :=
        Doc.fields?_fields [("old", _), ("new", _)] (by simp)
      simp [mappingOf, variant?_fields, fields, required_some, keeps.read fine.1,
        keeps.read fine.2, Mapping.asRead]
  image {doc m} read := by
    simp only [mappingOf, Option.bind_eq_bind, Option.bind_eq_some_iff] at read
    obtain ⟨form, -, read⟩ := read
    split at read
    · simp only [Option.bind_eq_some_iff] at read
      obtain ⟨r, found, made⟩ := read
      cases made
      obtain ⟨fine, same⟩ := keeps.image found
      exact ⟨fine, by rw [Mapping.asRead, same]⟩
    · simp only [Option.bind_eq_some_iff] at read
      obtain ⟨fields, -, read⟩ := read
      split at read
      · simp only [Option.bind_eq_some_iff] at read
        obtain ⟨old, foundOld, new, foundNew, made⟩ := read
        cases made
        obtain ⟨fineOld, sameOld⟩ := keeps.of_required foundOld
        obtain ⟨fineNew, sameNew⟩ := keeps.of_required foundNew
        exact ⟨⟨fineOld, fineNew⟩, by rw [Mapping.asRead, sameOld, sameNew]⟩
      · cases read
    · cases read

end

theorem keeps_address : address.Keeps (fun _ => True) id := keeps_text

theorem keeps_ring : ring.Keeps Ring.InRange Ring.asRead :=
  keeps_ringOf keeps_address keeps_textKey

theorem keeps_mapping : mapping.Keeps Mapping.InRange Mapping.asRead :=
  keeps_mappingOf keeps_ring

/-! ## Commands and replies -/

theorem keeps_entries : (list entry).Keeps (fun es => ∀ e ∈ es, e.InRange) id :=
  (keeps_list keeps_entry).congr (fun _ => Iff.rfl) List.map_id

theorem keeps_texts : (list text).Keeps (fun _ => True) id :=
  (keeps_list keeps_text).congr (fun _ => by simp) List.map_id

theorem keeps_command : command.Keeps Command.InRange Command.asRead := by
  constructor
  case proper =>
    intro c
    cases c with
    | getCurrentMapping requester =>
      exact .fields (by simpa using .fields (by simp [keeps_address.proper]))
    | installMapping m => exact .fields (by simp [keeps_mapping.proper])
    | pullState requester r =>
      exact .fields (by simpa using .fields (by simp [keeps_address.proper, keeps_ring.proper]))
    | pushState entries => exact .fields (by simp [keeps_entries.proper])
    | invalidateHint keys => exact .fields (by simp [keeps_texts.proper])
    | joinComplete member => exact .fields (by simp [keeps_address.proper])
    | write tx => exact .fields (by simp [keeps_transaction.proper])
    | clusteredGet key => exact .fields (by simp [keeps_text.proper])
  case read =>
    intro c fine
    cases c with
    | getCurrentMapping requester =>
      have fields : (Doc.fields [("requester", address.encode requester)]).fields? ["requester"] =
          some [some (address.encode requester)] :=
        Doc.fields?_fields [("requester", _)] (by simp)
      simp [command, variant?_fields, fields, keeps_address.required, Command.asRead]
    | installMapping m =>
      simp [command, variant?_fields, keeps_mapping.read fine, Command.asRead]
    | pullState requester r =>
      have fields : (Doc.fields [("requester", address.encode requester),
            ("new_mapping", ring.encode r)]).fields? ["requester", "new_mapping"] =
          some [some (address.encode requester), some (ring.encode r)] :=
        Doc.fields?_fields [("requester", _), ("new_mapping", _)] (by simp)
      simp [command, variant?_fields, fields, keeps_address.required, required_some,
        keeps_ring.read fine, Command.asRead]
    | pushState entries =>
      simp [command, variant?_fields, keeps_entries.read fine, Command.asRead]
    | invalidateHint keys =>
      simp [command, variant?_fields, keeps_texts.read trivial, Command.asRead]
    | joinComplete member =>
      simp [command, variant?_fields, keeps_address.read trivial, Command.asRead]
    | write tx =>
      simp [command, variant?_fields, keeps_transaction.read fine, Command.asRead]
    | clusteredGet key =>
      simp [command, variant?_fields, keeps_text.read trivial, Command.asRead]
  case image =>
    intro doc c read
    simp only [command, Option.bind_eq_bind, Option.bind_eq_some_iff] at read
    obtain ⟨form, -, read⟩ := read
    split at read
    · split at read
      · -- GetCurrentMapping
        simp only [Option.bind_eq_some_iff] at read
        obtain ⟨fields, -, read⟩ := read
        split at read
        · simp only [Option.bind_eq_some_iff] at read
          obtain ⟨requester, -, made⟩ := read
          cases made
          exact ⟨trivial, rfl⟩
        · cases read
      · -- InstallMapping
        simp only [Option.bind_eq_some_iff] at read
        obtain ⟨m, found, made⟩ := read
        cases made
        obtain ⟨fine, same⟩ := keeps_mapping.image found
        exact ⟨fine, by rw [Command.asRead, same]⟩
      · -- PullState
        simp only [Option.bind_eq_some_iff] at read
        obtain ⟨fields, -, read⟩ := read
        split at read
        · simp only [Option.bind_eq_some_iff] at read
          obtain ⟨requester, -, r, found, made⟩ := read
          cases made
          obtain ⟨fine, same⟩ := keeps_ring.of_required found
          exact ⟨fine, by rw [Command.asRead, same]⟩
        · cases read
      · -- PushState
        simp only [Option.bind_eq_some_iff] at read
        obtain ⟨entries, found, made⟩ := read
        cases made
        exact ⟨(keeps_entries.image found).1, rfl⟩
      · -- InvalidateHint
        simp only [Option.bind_eq_some_iff] at read
        obtain ⟨keys, -, made⟩ := read
        cases made
        exact ⟨trivial, rfl⟩
      · -- JoinComplete
        simp only [Option.bind_eq_some_iff] at read
        obtain ⟨member, -, made⟩ := read
        cases made
        exact ⟨trivial, rfl⟩
      · -- Write
        simp only [Option.bind_eq_some_iff] at read
        obtain ⟨tx, found, made⟩ := read
        cases made
        exact ⟨(keeps_transaction.image found).1, rfl⟩
      · -- ClusteredGet
        simp only [Option.bind_eq_some_iff] at read
        obtain ⟨key, -, made⟩ := read
        cases made
        exact ⟨trivial, rfl⟩
      · cases read
    · cases read

theorem encode_ring_ne_null (r : MemberRing) : ring.encode r ≠ .null := nofun

theorem encode_entry_ne_null (e : Entry) : entry.encode e ≠ .null := nofun

theorem keeps_optionalRing :
    (optional ring).Keeps (fun o => ∀ r ∈ o, r.InRange) (Option.map Ring.asRead) :=
  keeps_optional keeps_ring encode_ring_ne_null

theorem keeps_optionalEntry : (optional entry).Keeps (fun o => ∀ e ∈ o, e.InRange) id :=
  (keeps_optional keeps_entry encode_entry_ne_null).congr (fun _ => Iff.rfl)
    (congrFun Option.map_id)

theorem keeps_reply : reply.Keeps Reply.InRange Reply.asRead := by
  constructor
  case proper =>
    intro r
    cases r with
    | currentMapping r => exact .fields (by simp [keeps_optionalRing.proper])
    | stateChunk entries => exact .fields (by simp [keeps_entries.proper])
    | value e => exact .fields (by simp [keeps_optionalEntry.proper])
    | uncertain => exact .text _
    | ack => exact .text _
    | unsuccessful reason => exact .fields (by simp [keeps_text.proper])
  case read =>
    intro r fine
    cases r with
    | currentMapping r =>
      simp [reply, variant?_fields, keeps_optionalRing.read fine, Reply.asRead]
    | stateChunk entries =>
      simp [reply, variant?_fields, keeps_entries.read fine, Reply.asRead]
    | value e => simp [reply, variant?_fields, keeps_optionalEntry.read fine, Reply.asRead]
    | uncertain => rfl
    | ack => rfl
    | unsuccessful reason =>
      simp [reply, variant?_fields, keeps_text.read trivial, Reply.asRead]
  case image =>
    intro doc r read
    simp only [reply, Option.bind_eq_bind, Option.bind_eq_some_iff] at read
    obtain ⟨form, -, read⟩ := read
    split at read
    · -- CurrentMapping
      simp only [Option.bind_eq_some_iff] at read
      obtain ⟨r, found, made⟩ := read
      cases made
      obtain ⟨fine, same⟩ := keeps_optionalRing.image found
      exact ⟨fine, by rw [Reply.asRead, same]⟩
    · -- StateChunk
      simp only [Option.bind_eq_some_iff] at read
      obtain ⟨entries, found, made⟩ := read
      cases made
      exact ⟨(keeps_entries.image found).1, rfl⟩
    · -- Value
      simp only [Option.bind_eq_some_iff] at read
      obtain ⟨e, found, made⟩ := read
      cases made
      exact ⟨(keeps_optionalEntry.image found).1, rfl⟩
    · -- Unsuccessful
      simp only [Option.bind_eq_some_iff] at read
      obtain ⟨reason, -, made⟩ := read
      cases made
      exact ⟨trivial, rfl⟩
    · -- Uncertain
      split at read
      · cases read
        exact ⟨trivial, rfl⟩
      · cases read
    · -- Ack
      split at read
      · cases read
        exact ⟨trivial, rfl⟩
      · cases read
    · cases read

end Wire

end SlotRing
