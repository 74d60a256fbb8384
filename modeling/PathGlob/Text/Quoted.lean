import PathGlob.Unicode.Hidden

/-!
# `PathGlob.Text.Quoted`: a text between double quotes

The quoted form used in the textual form of options. A quote and a backslash are
escaped, the usual control characters have their letter, and every other character
that does not show is written by its code point in lower-case hexadecimal digits.
-/

set_option autoImplicit false

namespace PathGlob.Text

/-- One character as it stands between quotes. -/
def quotedChar (c : Char) : List Char :=
  if c = '"' then ['\\', '"']
  else if c = '\\' then ['\\', '\\']
  else if c = '\n' then ['\\', 'n']
  else if c = '\r' then ['\\', 'r']
  else if c = '\t' then ['\\', 't']
  else if c = '\x00' then ['\\', '0']
  else if Unicode.isHidden c then ['\\', 'u', '{'] ++ Nat.toDigits 16 c.toNat ++ ['}']
  else [c]

/-- A text between double quotes. -/
def quoted (text : List Char) : List Char :=
  '"' :: text.flatMap quotedChar ++ ['"']

end PathGlob.Text
