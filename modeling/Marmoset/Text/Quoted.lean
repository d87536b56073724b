import Marmoset.Text.Escape
import Marmoset.Text.Printable

/-!
Text in quotes for messages about files and arguments: single quotes, unless the text has those
and no double ones.
-/

namespace Marmoset.Text

-- A character inside the quotes `q`; what would not show is written by its code point.
def quotedChar (q c : Char) : String :=
  if c = q || c = '\\' then "\\" ++ c.toString
  else if c = '\t' then "\\t"
  else if c = '\n' then "\\n"
  else if c = '\r' then "\\r"
  else if isPrintable c then c.toString
  else if c.toNat < 0x100 then "\\x" ++ hex 2 c.toNat
  else if c.toNat < 0x10000 then "\\u" ++ hex 4 c.toNat
  else "\\U" ++ hex 8 c.toNat

def quoted (s : String) : String :=
  let q := if s.toList.contains '\'' && !s.toList.contains '"' then '"' else '\''
  q.toString ++ String.join (s.toList.map (quotedChar q)) ++ q.toString

end Marmoset.Text
