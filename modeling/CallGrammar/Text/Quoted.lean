import CallGrammar.Text.Printable

/-!
# CallGrammar.Text.Quoted

A text between double quotes on one line.  The quote, the backslash and the
most common controls follow a backslash; other characters that cannot be seen
alone are written by their code point in hexadecimal.
-/

namespace CallGrammar.Text

/-- A character as it is written inside the quotes. -/
def escape (c : Char) : String :=
  if c = '"' then "\\\""
  else if c = '\\' then "\\\\"
  else if c = '\n' then "\\n"
  else if c = '\t' then "\\t"
  else if c = '\r' then "\\r"
  else if c.toNat = 0 then "\\0"
  else if isPrintable c then c.toString
  else "\\u\x7b" ++ String.ofList (Nat.toDigits 16 c.toNat) ++ "\x7d"

/-- The text between quotes. -/
def quoted (s : String) : String :=
  "\"" ++ String.join (s.toList.map escape) ++ "\""

end CallGrammar.Text
