import WordC.Text.Combining
import WordC.Text.Ignorable
import WordC.Text.Invisible
/-!
# Quoted characters and texts

A quoted form shows what a character or a text holds on one line: line breaks,
tabs, the null character, the backslash and the enclosing quote are escaped,
and a character that cannot be seen on its own is given by its code point.
-/

namespace WordC

namespace Text

/-- The code point of `c` in braces, in hexadecimal. -/
def codePointEscape (c : Char) : String :=
  "\\u\x7b" ++ String.ofList (Nat.toDigits 16 c.toNat) ++ "\x7d"

/-- How `c` is written between two of the given quotes. -/
def escape (quote c : Char) : String :=
  if c = '\x00' then "\\0"
  else if c = '\t' then "\\t"
  else if c = '\r' then "\\r"
  else if c = '\n' then "\\n"
  else if c = '\\' then "\\\\"
  else if c = quote then "\\" ++ quote.toString
  else if isCombining c || isIgnorable c || isInvisible c then codePointEscape c
  else c.toString

/-- A character in single quotes. -/
def quotedChar (c : Char) : String :=
  "'" ++ escape '\'' c ++ "'"

/-- A text in double quotes. -/
def quotedString (s : String) : String :=
  "\"" ++ String.join (s.toList.map (escape '"')) ++ "\""

end Text

end WordC
