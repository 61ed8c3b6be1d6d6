import StyleAudit.Text.Basic
import StyleAudit.Text.Printable

/-!
# Text quoted in a message

A message shows text from the stylesheet between quotes, on one line, so that every
character can be told.  The quote itself and the backslash get a backslash; tab, line feed,
carriage return and NUL have short names; a character that does not print by itself is
given by its code, in hexadecimal digits between braces.
-/

namespace StyleAudit.Text

/-- One character as it is shown between the given quotes. -/
def shown (quote : Char) (c : Char) : String :=
  if c = quote then "\\".push quote
  else if c = '\\' then "\\\\"
  else if c = '\t' then "\\t"
  else if c = '\n' then "\\n"
  else if c = '\r' then "\\r"
  else if c = '\x00' then "\\0"
  else if isPrintable c then c.toString
  else "\\u\x7b" ++ String.ofList (Nat.toDigits 16 c.toNat) ++ "\x7d"

/-- The text between double quotes. -/
def quoted (t : Text) : String := "\"" ++ String.join (t.map (shown '"')) ++ "\""

/-- The character between single quotes. -/
def quotedChar (c : Char) : String := "'" ++ shown '\'' c ++ "'"

end StyleAudit.Text
