import Peephole.Text.Numeral
import Peephole.Text.Visible

/-!
# Quoted names

A name between quotation marks, in which every character can be told: quotation marks and
backslashes are escaped, and characters that are not visible are written by number.
-/

namespace Peephole

namespace Quoted

/-- A character as it stands between quotation marks. -/
def character (c : Char) : String :=
  if c = '"' then "\\\""
  else if c = '\\' then "\\\\"
  else if c = '\n' then "\\n"
  else if c = '\r' then "\\r"
  else if c = '\t' then "\\t"
  else if c = '\x00' then "\\0"
  else if isVisible c then String.singleton c
  else "\\u\x7b" ++ String.ofList (Numeral.digits 16 c.toNat) ++ "\x7d"

end Quoted

/-- A name between quotation marks. -/
def quoted (s : String) : String :=
  "\"" ++ String.join (s.toList.map Quoted.character) ++ "\""

end Peephole
