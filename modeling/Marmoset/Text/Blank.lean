import Marmoset.Text.Ranges

/-!
Blanks: the characters of category Zs and those of bidirectional class B, S or WS.
-/

namespace Marmoset.Text

def blanks : Ranges :=
  [(0x9, 0xd), (0x1c, 0x20), (0x85, 0x85), (0xa0, 0xa0), (0x1680, 0x1680), (0x2000, 0x200a),
   (0x2028, 0x2029), (0x202f, 0x202f), (0x205f, 0x205f), (0x3000, 0x3000)]

def isBlank (c : Char) : Bool :=
  blanks.contains c

-- The last character that is not blank.
def lastInk? (s : String) : Option Char :=
  s.toList.reverse.find? (!isBlank ·)

end Marmoset.Text
