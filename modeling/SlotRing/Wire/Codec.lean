/-
# `Codec` — values and the documents they are written as

A codec writes a value as a document and reads it back.  The combinators here
say how records, lists, variants and maps are read: fields in any order, fields
that nobody asks for ignored, a field that is asked for at most once, a record
also as the bare list of its fields.
-/
import Std.Data.ExtTreeMap
import SlotRing.Wire.Doc

namespace SlotRing.Wire

structure Codec (α : Type) where
  encode : α → Doc
  decode? : Doc → Option α

namespace Doc

def text? : Doc → Option String
  | .string s => s.text?
  | _ => none

/-- The fields of a record, each with its name; all names must have a text. -/
def namedFields? (fields : List (Literal × Doc)) : Option (List (String × Doc)) :=
  fields.mapM fun (name, value) => (·, value) <$> name.text?

/-- The value of each of `names`; none of them may occur twice. -/
def select? (names : List String) (fields : List (String × Doc)) : Option (List (Option Doc)) :=
  names.mapM fun name =>
    match fields.filter (·.1 == name) with
    | [] => some none
    | [(_, value)] => some (some value)
    | _ => none

/-- The fields `names` of a record, or all of them from a list. -/
def fields? (names : List String) : Doc → Option (List (Option Doc))
  | .record fields => namedFields? fields >>= select? names
  | .list items => if items.length = names.length then some (items.map some) else none
  | _ => none

/-- As `fields?`, where a list may end early. -/
def leadingFields? (names : List String) : Doc → Option (List (Option Doc))
  | .list items =>
    if items.length ≤ names.length then
      some (items.map some ++ List.replicate (names.length - items.length) none)
    else none
  | doc => fields? names doc

/-- As `fields?`, where a record has no other fields. -/
def exactFields? (names : List String) : Doc → Option (List (Option Doc))
  | .record fields => do
    let named ← namedFields? fields
    if named.all fun (name, _) => names.contains name then select? names named else none
  | doc => fields? names doc

/-- One of several forms: its name and, unless it is written as the bare name,
what it carries. -/
def variant? : Doc → Option (String × Option Doc)
  | .string s => (·, none) <$> s.text?
  | .record [(name, value)] => (·, some value) <$> name.text?
  | _ => none

/-- A form that carries nothing, or null. -/
def isBare : Option Doc → Bool
  | none | some .null => true
  | _ => false

end Doc

namespace Codec

variable {α β : Type}

def required (c : Codec α) (field : Option Doc) : Option α := field >>= c.decode?

/-- A field that may be missing. -/
def withDefault (c : Codec α) (default : α) : Option Doc → Option α
  | none => some default
  | some doc => c.decode? doc

/-- Integers from zero up to, but without, `limit`. -/
def below (limit : Nat) : Codec Nat where
  encode n := .int n
  decode?
    | .int (.ofNat n) => if n < limit then some n else none
    | _ => none

def byte : Codec UInt8 where
  encode b := .int b.toNat
  decode? doc := (below 256).decode? doc |>.map UInt8.ofNat

def word32 : Codec Nat := below UInt32.size

def word64 : Codec Nat := below UInt64.size

def bool : Codec Bool where
  encode := .bool
  decode?
    | .bool b => some b
    | _ => none

def text : Codec String where
  encode := .text
  decode? := Doc.text?

def list (c : Codec α) : Codec (List α) where
  encode as := .list (as.map c.encode)
  decode?
    | .list items => items.mapM c.decode?
    | _ => none

/-- Null stands for nothing. -/
def optional (c : Codec α) : Codec (Option α) where
  encode
    | none => .null
    | some a => c.encode a
  decode?
    | .null => some none
    | doc => some <$> c.decode? doc

def named (all : List α) (name : α → String) : Codec α where
  encode a := .text (name a)
  decode? doc := do
    let (written, content) ← doc.variant?
    if Doc.isBare content then all.find? (name · == written) else none

/-! ## Maps -/

/-- How keys are written as names of fields. -/
structure KeyCodec (κ : Type) where
  encode : κ → String
  decode? : Literal → Option κ

def textKey : KeyCodec String where
  encode s := s
  decode? s := s.text?

/-- 32-bit numbers in plain decimal digits. -/
def word32Key : KeyCodec Nat where
  encode n := toString n
  decode? s := do
    let digits := (← s.text?).toList
    let n := Doc.decimal digits
    if s.plain && !digits.isEmpty && digits.all Char.isDigit && Doc.isCanonical digits &&
      n < UInt32.size then return n else none

/-- A map is a record; of a key that occurs twice the last value counts. -/
def map {κ : Type} [Ord κ] [Std.TransOrd κ] (key : KeyCodec κ) (value : Codec α) :
    Codec (Std.ExtTreeMap κ α) where
  encode m := .fields (m.toList.map fun (k, a) => (key.encode k, value.encode a))
  decode?
    | .record fields => do
      let pairs ← fields.mapM fun (k, doc) => return (← key.decode? k, ← value.decode? doc)
      return .ofList pairs
    | _ => none

end Codec

end SlotRing.Wire
