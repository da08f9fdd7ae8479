import PairedMarkov.Text.Shapeless

/-!
# Quoted text

A quoted text stands between double quotes and shows a reader what he could not see or would
misread: a quote and a backslash get a backslash, four controls have a letter, and a character
without a shape is shown by its number in hexadecimal digits.
-/

namespace PairedMarkov.Text

/-- The quoted form of one character. -/
def quotedChar (c : Char) : String :=
  match c with
  | '"' => "\\\""
  | '\\' => "\\\\"
  | '\x00' => "\\0"
  | '\t' => "\\t"
  | '\r' => "\\r"
  | '\n' => "\\n"
  | c =>
    if isShapeless c then "\\u\x7b" ++ String.ofList (Nat.toDigits 16 c.toNat) ++ "\x7d"
    else c.toString

/-- The quoted form of a text. -/
def quoted (s : String) : String :=
  "\"" ++ String.join (s.toList.map quotedChar) ++ "\""

end PairedMarkov.Text
