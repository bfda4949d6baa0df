/-
# Everything that is written is read back

Commands, replies, mappings, transactions, entries and settings whose numbers are in range
are read back from their own text as values that agree with them (`read_write`).  What was
read from some text, however that was written, is in range and is read again, the same,
from its own.

Two commands or replies agree when they are of one kind and carry the same, where rings and
mappings are compared as they are everywhere: by their members and slots.
-/
import SlotRing.Proofs.Wire.Forms

namespace SlotRing

/-! ## Values that agree -/

section

variable {α : Type} [Ord α] [BEq α] [ReflBEq α]

theorem Ring.agrees_asRead (r : Ring Strategy α) : r.asRead.agrees r = true := by
  simp [Ring.agrees, Ring.asRead, Ring.places]

theorem Mapping.agrees_asRead (m : Mapping Strategy α) : m.asRead.agrees m = true := by
  cases m with
  | settled r => exact r.agrees_asRead
  | moving old new => simp [Mapping.asRead, Mapping.agrees, Ring.agrees_asRead]

end

def Command.agrees : Command → Command → Bool
  | .getCurrentMapping a, .getCurrentMapping b => a == b
  | .installMapping m, .installMapping n => m.agrees n
  | .pullState a r, .pullState b s => a == b && r.agrees s
  | .pushState es, .pushState fs => es == fs
  | .invalidateHint ks, .invalidateHint ls => ks == ls
  | .joinComplete a, .joinComplete b => a == b
  | .write tx, .write ux => tx == ux
  | .clusteredGet k, .clusteredGet l => k == l
  | _, _ => false

theorem Command.agrees_asRead (c : Command) : c.asRead.agrees c = true := by
  cases c with
  | installMapping m => exact m.agrees_asRead
  | pullState requester r => simp [Command.asRead, Command.agrees, Ring.agrees_asRead]
  | _ => simp [Command.asRead, Command.agrees]

def Reply.agrees : Reply → Reply → Bool
  | .currentMapping (some r), .currentMapping (some s) => r.agrees s
  | .currentMapping none, .currentMapping none => true
  | .stateChunk es, .stateChunk fs => es == fs
  | .value e, .value f => e == f
  | .uncertain, .uncertain => true
  | .ack, .ack => true
  | .unsuccessful a, .unsuccessful b => a == b
  | _, _ => false

theorem Reply.agrees_asRead (r : Reply) : r.asRead.agrees r = true := by
  cases r with
  | currentMapping r =>
    cases r with
    | none => rfl
    | some r => exact r.agrees_asRead
  | _ => simp [Reply.asRead, Reply.agrees]

namespace Wire

/-- A value that fits is read from its own text as `asRead` says, which agrees with it; and
what is read from any text fits and is read again from its own. -/
def Codec.RoundTrips {α : Type} (c : Codec α) (fits : α → Prop) (asRead : α → α)
    (agrees : α → α → Prop) : Prop :=
  (∀ a, fits a → c.read? (c.write a) = some (asRead a) ∧ agrees (asRead a) a) ∧
    ∀ s a, c.read? s = some a → fits a ∧ c.read? (c.write a) = some a

theorem Codec.Keeps.roundTrips {α : Type} {c : Codec α} {fits : α → Prop} {asRead : α → α}
    {agrees : α → α → Prop} (keeps : c.Keeps fits asRead)
    (same : ∀ a, agrees (asRead a) a) : c.RoundTrips fits asRead agrees :=
  ⟨fun a fine => ⟨keeps.read?_write fine, same a⟩, fun _ _ read => keeps.read?_write_of_read? read⟩

/-- Whatever is written is read back. -/
theorem read_write :
    command.RoundTrips Command.InRange Command.asRead (fun a b => a.agrees b) ∧
      reply.RoundTrips Reply.InRange Reply.asRead (fun a b => a.agrees b) ∧
      mapping.RoundTrips Mapping.InRange Mapping.asRead (fun a b => a.agrees b) ∧
      transaction.RoundTrips Transaction.InRange id (fun a b => a = b) ∧
      entry.RoundTrips Entry.InRange id (fun a b => a = b) ∧
      settings.RoundTrips Settings.InRange id (fun a b => a = b) :=
  ⟨keeps_command.roundTrips Command.agrees_asRead,
    keeps_reply.roundTrips Reply.agrees_asRead,
    keeps_mapping.roundTrips Mapping.agrees_asRead,
    keeps_transaction.roundTrips fun _ => rfl,
    keeps_entry.roundTrips fun _ => rfl,
    keeps_settings.roundTrips fun _ => rfl⟩

/-- A write of a key with a quote in it and a line break behind it. -/
def quotedPut : Command := .write ⟨some 18446744073709551615, [.put "a\"\n" [0, 255]]⟩

theorem read_write_of_quoted :
    quotedPut.InRange ∧
      command.write quotedPut = "\x7b\"Write\":\x7b\"tx_id\":18446744073709551615,\"writes\":" ++
        "[\x7b\"Put\":\x7b\"key\":\"a\\\"\\n\",\"value\":[0,255]\x7d\x7d]\x7d\x7d" ∧
      command.read? (command.write quotedPut) = some quotedPut := by
  have fine : quotedPut.InRange := by
    intro id same
    cases same
    decide
  exact ⟨fine, by decide +kernel, (read_write.1.1 quotedPut fine).1⟩

end Wire

end SlotRing
