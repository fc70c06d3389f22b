import SyntaxLowering.Text.Printable

/-!
# Quoted text in messages

Text is shown in double quotes. Quotes, backslashes and the common control characters are escaped
with a backslash, every other unprintable character by its code point.
-/

namespace SyntaxLowering.Text

/-- The digits of a number to base sixteen, lower case. -/
def hex (n : Nat) : String :=
  String.ofList (Nat.toDigits 16 n)

/-- A character as it stands in quoted text. -/
def escaped (c : Char) : String :=
  match c with
  | '\x00' => "\\0"
  | '\t' => "\\t"
  | '\n' => "\\n"
  | '\r' => "\\r"
  | '\x22' => "\\\""
  | '\\' => "\\\\"
  | c => if isPrintable c then c.toString else "\\u\x7b" ++ hex c.toNat ++ "\x7d"

/-- A text in double quotes. -/
def quoted (s : String) : String :=
  "\"" ++ String.join (s.toList.map escaped) ++ "\""

end SyntaxLowering.Text
