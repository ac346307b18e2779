import WeakHead.Text.Unprintable

/-!
# Quoted text

`quoted` writes a text between double quotes so that it fits on one line: quotes and backslashes are
preceded by a backslash, the common control characters have their letters, and any other character
without a shape of its own is given by its code point.
-/

namespace WeakHead.Text

/-- The code point of a character in hexadecimal. -/
def hexadecimal (c : Char) : String :=
  String.ofList (Nat.toDigits 16 c.toNat)

/-- One character as it stands between quotes. -/
def quotedChar (c : Char) : String :=
  if c = '"' then "\\\""
  else if c = '\\' then "\\\\"
  else if c = '\t' then "\\t"
  else if c = '\n' then "\\n"
  else if c = '\r' then "\\r"
  else if c = '\x00' then "\\0"
  else if isUnprintable c then "\\u\x7b" ++ hexadecimal c ++ "\x7d"
  else c.toString

/-- The text between double quotes, with the characters that do not fit there escaped. -/
def quoted (text : String) : String :=
  "\"" ++ String.join (text.toList.map quotedChar) ++ "\""

end WeakHead.Text
