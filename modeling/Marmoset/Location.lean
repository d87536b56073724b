/-!
Places in a source text.
-/

namespace Marmoset

-- Lines and columns count from one.
@[ext]
structure Location where
  line : Int
  column : Int
deriving DecidableEq

namespace Location

def start : Location :=
  ⟨1, 1⟩

-- The location after a character at `l`.
def next (l : Location) (c : Char) : Location :=
  if c = '\n' then ⟨l.line + 1, 1⟩ else ⟨l.line, l.column + 1⟩

-- The location after a text that begins at `l`.
def after (l : Location) (cs : List Char) : Location :=
  cs.foldl next l

@[simp]
theorem after_nil (l : Location) : l.after [] = l :=
  rfl

@[simp]
theorem after_cons (l : Location) (c : Char) (cs : List Char) :
    l.after (c :: cs) = (l.next c).after cs :=
  rfl

@[simp]
theorem after_append (l : Location) (cs ds : List Char) :
    l.after (cs ++ ds) = (l.after cs).after ds :=
  List.foldl_append

protected def toString (l : Location) : String :=
  "line " ++ toString l.line ++ ", column " ++ toString l.column

instance : ToString Location :=
  ⟨Location.toString⟩

def bracketed (l : Location) : String :=
  "[" ++ toString l ++ "]"

end Location

end Marmoset
