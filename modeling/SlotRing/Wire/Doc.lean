/-
# `Doc` — JSON documents, and how a text is read as one

The tree keeps what a reader of the values behind it may ask for: the order and
the repetitions of fields, whether a number is written as an integer, whether a
string is written without escapes.  A string in which half of a surrogate pair
stands alone is part of a document but has no text.

`Doc.read?` takes one value with blanks around it and nothing else.
-/

namespace SlotRing.Wire

/-- A string as it stands in a document. -/
structure Literal where
  /-- Its text, unless half of a surrogate pair stands alone in it. -/
  text? : Option String
  /-- Whether it is written without escapes. -/
  plain : Bool
  deriving DecidableEq, Repr

/-- Whether a character stands in a string as it is, without an escape. -/
def isPlain (c : Char) : Bool := 0x20 ≤ c.toNat && c ≠ '"' && c ≠ '\\'

/-- A text as it is written. -/
def Literal.ofText (s : String) : Literal := ⟨some s, s.toList.all isPlain⟩

inductive Doc where
  | null
  | bool (b : Bool)
  | int (i : Int)
  /-- A number that is not written as an integer; `-0` is one too. -/
  | real (written : String)
  | string (s : Literal)
  | list (items : List Doc)
  | record (fields : List (Literal × Doc))
  deriving Repr

namespace Doc

def text (s : String) : Doc := .string (.ofText s)

def fields (fs : List (String × Doc)) : Doc :=
  .record (fs.map fun (name, value) => (.ofText name, value))

/-! ## Blanks and words -/

/-- The characters that may stand between the parts of a document. -/
def isBlank (c : Char) : Bool := c = ' ' || c = '\n' || c = '\t' || c = '\r'

def skipBlanks (cs : List Char) : List Char := cs.dropWhile isBlank

/-- What follows `word` at the beginning of `cs`. -/
def afterWord? : (word cs : List Char) → Option (List Char)
  | [], cs => some cs
  | w :: ws, c :: cs => if w = c then afterWord? ws cs else none
  | _ :: _, [] => none

/-! ## Strings -/

def hexDigit? (c : Char) : Option Nat :=
  if '0' ≤ c ∧ c ≤ '9' then some (c.toNat - '0'.toNat)
  else if 'a' ≤ c ∧ c ≤ 'f' then some (c.toNat - 'a'.toNat + 10)
  else if 'A' ≤ c ∧ c ≤ 'F' then some (c.toNat - 'A'.toNat + 10)
  else none

/-- The number that four hexadecimal digits write. -/
def hex? (a b c d : Char) : Option Nat := do
  return (((← hexDigit? a) * 16 + (← hexDigit? b)) * 16 + (← hexDigit? c)) * 16 + (← hexDigit? d)

/-- The code unit that a letter after a backslash stands for. -/
def escaped? : Char → Option Nat
  | '"' => some 0x22
  | '\\' => some 0x5c
  | '/' => some 0x2f
  | 'b' => some 0x08
  | 'f' => some 0x0c
  | 'n' => some 0x0a
  | 'r' => some 0x0d
  | 't' => some 0x09
  | _ => none

/-- The code units of a string after its opening quote, whether it has no
escapes, and what follows the closing quote. -/
def readUnits? : List Char → Option (List Nat × Bool × List Char)
  | [] => none
  | '"' :: rest => some ([], true, rest)
  | '\\' :: 'u' :: a :: b :: c :: d :: rest => do
    let unit ← hex? a b c d
    let (units, _, rest) ← readUnits? rest
    return (unit :: units, false, rest)
  | '\\' :: c :: rest => do
    let unit ← escaped? c
    let (units, _, rest) ← readUnits? rest
    return (unit :: units, false, rest)
  | c :: rest => do
    if c.toNat < 0x20 || c = '\\' then none
    let (units, plain, rest) ← readUnits? rest
    return (c.toNat :: units, plain, rest)

def isHighHalf (unit : Nat) : Bool := 0xd800 ≤ unit && unit < 0xdc00

def isLowHalf (unit : Nat) : Bool := 0xdc00 ≤ unit && unit < 0xe000

/-- The characters that code units write; a high half must stand before a low
one, and no half alone. -/
def joinHalves? : List Nat → Option (List Char)
  | [] => some []
  | [unit] => if isHighHalf unit || isLowHalf unit then none else some [.ofNat unit]
  | unit :: next :: rest =>
    if isHighHalf unit then
      if isLowHalf next then
        (.ofNat (0x10000 + (unit - 0xd800) * 0x400 + (next - 0xdc00)) :: ·) <$> joinHalves? rest
      else none
    else if isLowHalf unit then none
    else (.ofNat unit :: ·) <$> joinHalves? (next :: rest)

/-- A string after its opening quote. -/
def readLiteral? (cs : List Char) : Option (Literal × List Char) := do
  let (units, plain, rest) ← readUnits? cs
  return (⟨(joinHalves? units).map String.ofList, plain⟩, rest)

/-! ## Numbers -/

/-- The digits at the beginning, at least one of them. -/
def digits? (cs : List Char) : Option (List Char × List Char) :=
  match cs.takeWhile Char.isDigit with
  | [] => none
  | ds => some (ds, cs.dropWhile Char.isDigit)

def decimal (ds : List Char) : Nat := ds.foldl (fun n d => n * 10 + (d.toNat - '0'.toNat)) 0

/-- Whether digits write a number without needless zeros in front. -/
def isCanonical (ds : List Char) : Bool := ds == ['0'] || ds.head? != some '0'

def fraction? : List Char → Option (List Char × List Char)
  | '.' :: cs => do
    let (ds, rest) ← digits? cs
    return ('.' :: ds, rest)
  | cs => some ([], cs)

def exponent? : List Char → Option (List Char × List Char)
  | c :: cs =>
    if c = 'e' || c = 'E' then
      match cs with
      | s :: cs =>
        if s = '+' || s = '-' then do
          let (ds, rest) ← digits? cs
          return (c :: s :: ds, rest)
        else do
          let (ds, rest) ← digits? (s :: cs)
          return (c :: ds, rest)
      | [] => none
    else some ([], c :: cs)
  | [] => some ([], [])

def readNumber? (negative : Bool) (cs : List Char) : Option (Doc × List Char) := do
  let (whole, rest) ← digits? cs
  if !isCanonical whole then none
  let (fraction, rest) ← fraction? rest
  let (exponent, rest) ← exponent? rest
  let sign := if negative then ['-'] else []
  let value := decimal whole
  if fraction.isEmpty && exponent.isEmpty && !(negative && value = 0) then
    return (.int (if negative then -value else value), rest)
  else
    return (.real (.ofList (sign ++ whole ++ fraction ++ exponent)), rest)

/-! ## Documents -/

mutual

def readValue? : (fuel : Nat) → List Char → Option (Doc × List Char)
  | 0, _ => none
  | fuel + 1, cs =>
    match skipBlanks cs with
    | '"' :: rest => (fun (s, rest) => (.string s, rest)) <$> readLiteral? rest
    | '[' :: rest =>
      match skipBlanks rest with
      | ']' :: rest => some (.list [], rest)
      | rest => (fun (items, rest) => (.list items, rest)) <$> readItems? fuel rest
    | '{' :: rest =>
      match skipBlanks rest with
      | '}' :: rest => some (.record [], rest)
      | rest => (fun (fields, rest) => (.record fields, rest)) <$> readFields? fuel rest
    | '-' :: rest => readNumber? true rest
    | 't' :: rest => (.bool true, ·) <$> afterWord? ['r', 'u', 'e'] rest
    | 'f' :: rest => (.bool false, ·) <$> afterWord? ['a', 'l', 's', 'e'] rest
    | 'n' :: rest => (.null, ·) <$> afterWord? ['u', 'l', 'l'] rest
    | rest => readNumber? false rest

def readItems? : (fuel : Nat) → List Char → Option (List Doc × List Char)
  | 0, _ => none
  | fuel + 1, cs => do
    let (item, rest) ← readValue? fuel cs
    match skipBlanks rest with
    | ',' :: rest =>
      let (items, rest) ← readItems? fuel rest
      return (item :: items, rest)
    | ']' :: rest => return ([item], rest)
    | _ => none

def readFields? : (fuel : Nat) → List Char → Option (List (Literal × Doc) × List Char)
  | 0, _ => none
  | fuel + 1, cs => do
    let '"' :: rest := skipBlanks cs | none
    let (name, rest) ← readLiteral? rest
    let ':' :: rest := skipBlanks rest | none
    let (value, rest) ← readValue? fuel rest
    match skipBlanks rest with
    | ',' :: rest =>
      let (fields, rest) ← readFields? fuel rest
      return ((name, value) :: fields, rest)
    | '}' :: rest => return ([(name, value)], rest)
    | _ => none

end

/-- The document that a text holds.  Every level of nesting takes a character,
so that twice the length is fuel enough. -/
def read? (s : String) : Option Doc := do
  let cs := s.toList
  let (doc, rest) ← readValue? (2 * cs.length + 2) cs
  if (skipBlanks rest).isEmpty then return doc else none

end Doc

end SlotRing.Wire
