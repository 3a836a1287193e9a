import StackCode.Text.Glyph

/-!
# Quoted strings

A quoted string stands between double quotes and has one line.  A character with a glyph stands for
itself, except for the double quote and the backslash, which a backslash announces; the usual line
and tab characters have short escapes, and every other character is written as its code point.
-/

namespace StackCode

/-- The code point of a character between braces, in lower-case hexadecimal without zeros in
front. -/
def codePointEscape (c : Char) : String :=
  "\\u\x7b" ++ String.ofList (Nat.toDigits 16 c.toNat) ++ "\x7d"

/-- A character as it stands in a quoted string. -/
def quotedChar (c : Char) : String :=
  match c with
  | '"' => "\\\""
  | '\\' => "\\\\"
  | '\n' => "\\n"
  | '\r' => "\\r"
  | '\t' => "\\t"
  | '\x00' => "\\0"
  | c => if hasGlyph c then c.toString else codePointEscape c

/-- A string between double quotes. -/
def quoted (s : String) : String :=
  "\"" ++ String.join (s.toList.map quotedChar) ++ "\""

end StackCode
