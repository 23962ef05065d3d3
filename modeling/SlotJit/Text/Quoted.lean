import SlotJit.Text.Hex
import SlotJit.Text.Visible

/-!
# Quoted text

Messages quote the text they speak about. A quoted text stands between two copies of its delimiter;
the delimiter, the backslash and the common control characters are written with a backslash, any
other character without a visible form as its code point in braces.
-/

namespace SlotJit.Text

/-- `c` as it is written between two copies of `delimiter`. -/
def escape (delimiter c : Char) : String :=
  if c = '\x00' then "\\0"
  else if c = '\t' then "\\t"
  else if c = '\r' then "\\r"
  else if c = '\n' then "\\n"
  else if c = '\\' then "\\\\"
  else if c = delimiter then "\\" ++ c.toString
  else if isVisible c then c.toString
  else "\\u\x7b" ++ hex c.toNat ++ "\x7d"

/-- A text between double quotes. -/
def quote (text : String) : String :=
  "\"" ++ String.join (text.toList.map (escape '"')) ++ "\""

/-- A character between single quotes. -/
def quoteChar (c : Char) : String :=
  "'" ++ escape '\'' c ++ "'"

end SlotJit.Text
