/-
  Handheld.Text.Quoted — text and characters as they stand in descriptions.

  The quote itself and the backslash are escaped by a backslash; NUL, tab, line feed and
  carriage return have a letter; a withheld character is written by its code point in
  lower-case hexadecimal between braces. Everything else stands as it is.
-/

import Handheld.Text.Printable

namespace Handheld.Text

def escaped (quote c : Char) : List Char :=
  if c = '\x00' then ['\\', '0']
  else if c = '\t' then ['\\', 't']
  else if c = '\n' then ['\\', 'n']
  else if c = '\r' then ['\\', 'r']
  else if c = '\\' then ['\\', '\\']
  else if c = quote then ['\\', quote]
  else if isWithheld c then ['\\', 'u', '\x7b'] ++ Nat.toDigits 16 c.toNat ++ ['\x7d']
  else [c]

/-- The text between double quotes. -/
def quoted (s : String) : String :=
  String.ofList (['"'] ++ s.toList.flatMap (escaped '"') ++ ['"'])

/-- The character between single quotes. -/
def quotedChar (c : Char) : String :=
  String.ofList (['\''] ++ escaped '\'' c ++ ['\''])

end Handheld.Text
