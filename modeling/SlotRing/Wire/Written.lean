/-
# The text of a document

A document is written without blanks.  In a string the quote, the backslash and the
control characters are escaped and everything else stands as it is.
-/
import SlotRing.Wire.Codec

namespace SlotRing.Wire

def escape (c : Char) : List Char :=
  if isPlain c then [c]
  else match c with
    | '"' => ['\\', '"']
    | '\\' => ['\\', '\\']
    | '\x08' => ['\\', 'b']
    | '\x0c' => ['\\', 'f']
    | '\n' => ['\\', 'n']
    | '\r' => ['\\', 'r']
    | '\t' => ['\\', 't']
    | c => ['\\', 'u', '0', '0', Nat.digitChar (c.toNat / 16), Nat.digitChar (c.toNat % 16)]

/-- A string in its quotes; one without a text cannot be written and is left empty. -/
def Literal.chars (s : Literal) : List Char :=
  '"' :: ((s.text?.getD "").toList.flatMap escape ++ ['"'])

def intChars : Int → List Char
  | .ofNat n => Nat.toDigits 10 n
  | .negSucc n => '-' :: Nat.toDigits 10 (n + 1)

namespace Doc

mutual

def chars : Doc → List Char
  | .null => ['n', 'u', 'l', 'l']
  | .bool true => ['t', 'r', 'u', 'e']
  | .bool false => ['f', 'a', 'l', 's', 'e']
  | .int i => intChars i
  | .real written => written.toList
  | .string s => s.chars
  | .list items => '[' :: (itemChars items ++ [']'])
  | .record fields => '\x7b' :: (fieldChars fields ++ ['\x7d'])

def itemChars : List Doc → List Char
  | [] => []
  | [item] => item.chars
  | item :: next :: items => item.chars ++ ',' :: itemChars (next :: items)

def fieldChars : List (Literal × Doc) → List Char
  | [] => []
  | [(name, value)] => name.chars ++ ':' :: value.chars
  | (name, value) :: next :: fields =>
    name.chars ++ ':' :: (value.chars ++ ',' :: fieldChars (next :: fields))

end

def write (doc : Doc) : String := .ofList doc.chars

end Doc

namespace Codec

variable {α : Type}

def write (c : Codec α) (a : α) : String := (c.encode a).write

def read? (c : Codec α) (s : String) : Option α := Doc.read? s >>= c.decode?

end Codec

end SlotRing.Wire
