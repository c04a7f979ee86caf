import JoinOrder.Text.Shapeless

/-!
# Quoted text

Text between double quotes on one line: quotes, backslashes and whitespace controls are written
with a backslash, and every other character without a shape of its own by its code point.
-/

namespace JoinOrder.Text

/-- A code point in lower-case hexadecimal, `\u{301}`. -/
def codePoint (c : Char) : List Char :=
  ['\\', 'u', '\x7b'] ++ Nat.toDigits 16 c.toNat ++ ['\x7d']

/-- How a character is written between double quotes. -/
def escapeChar : Char → List Char
  | '\x00' => ['\\', '0']
  | '\t' => ['\\', 't']
  | '\r' => ['\\', 'r']
  | '\n' => ['\\', 'n']
  | '\\' => ['\\', '\\']
  | '"' => ['\\', '"']
  | c => if isShapeless c then codePoint c else [c]

/-- The text between double quotes. -/
def quoted (s : String) : String :=
  "\"" ++ String.ofList (s.toList.flatMap escapeChar) ++ "\""

end JoinOrder.Text
