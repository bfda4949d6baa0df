/-
# Quoted texts — how messages show a text inside a value

A text is put between double quotes; quotes and backslashes are written after
a backslash, the usual control characters by letter, and every other character
that is not graphic by its code point in lower-case hexadecimal.
-/
import SlotRing.Text.Graphic

namespace SlotRing.Text

/-- The way one character is written between quotes. -/
def quoteChar (c : Char) : String :=
  match c with
  | '"' => "\\\""
  | '\\' => "\\\\"
  | '\n' => "\\n"
  | '\r' => "\\r"
  | '\t' => "\\t"
  | '\x00' => "\\0"
  | c =>
    if isGraphic c then c.toString
    else "\\u\x7b" ++ .ofList (Nat.toDigits 16 c.toNat) ++ "\x7d"

def quoted (s : String) : String :=
  "\"" ++ .join (s.toList.map quoteChar) ++ "\""

/-- Items between the two brackets, a comma and a blank between neighbours. -/
def bracketed (opening closing : String) (items : List String) : String :=
  opening ++ ", ".intercalate items ++ closing

/-- A list of values, each already written. -/
def listed : List String → String :=
  bracketed "[" "]"

end SlotRing.Text
