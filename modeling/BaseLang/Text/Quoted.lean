import BaseLang.Text.Escaped

/-
  Quoted text: the form in which messages show a piece of the source.

  The text stands between double quotes. A quote and a backslash are written
  with a backslash before them; the null character, tab, line feed and carriage
  return have letters of their own; every other character that is not shown as
  itself is written by its code point in hexadecimal; the rest stand as they are.
-/

namespace BaseLang.Quoted

/-- A character written by its code point: `\u`, then the lower-case
hexadecimal digits in braces. -/
def byCode (c : Char) : List Char :=
  ['\\', 'u', '{'] ++ Nat.toDigits 16 c.toNat ++ ['}']

/-- The written form of one character of a quoted text. -/
def encodeChar (c : Char) : List Char :=
  if c = '"' ∨ c = '\\' then ['\\', c]
  else if c = '\x00' then ['\\', '0']
  else if c = '\t' then ['\\', 't']
  else if c = '\n' then ['\\', 'n']
  else if c = '\r' then ['\\', 'r']
  else if isEscaped c then byCode c
  else [c]

/-- The text between double quotes, each character in its written form. -/
def encode (text : String) : String :=
  String.ofList ('"' :: (text.toList.flatMap encodeChar ++ ['"']))

end BaseLang.Quoted
