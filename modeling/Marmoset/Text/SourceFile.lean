/-!
Source files hold text in UTF-8. Lines may end in a carriage return, a line feed or both.
-/

namespace Marmoset.Text

-- Every line end becomes a line feed.
def unifyLineEnds : List Char → List Char
  | [] => []
  | '\r' :: '\n' :: cs => '\n' :: unifyLineEnds cs
  | '\r' :: cs => '\n' :: unifyLineEnds cs
  | c :: cs => c :: unifyLineEnds cs

theorem not_mem_unifyLineEnds (cs : List Char) : '\r' ∉ unifyLineEnds cs := by
  fun_induction unifyLineEnds cs with
  | case1 => simp
  | case2 _ ih => simpa using ih
  | case3 _ _ ih => simpa using ih
  | case4 c _ _ h ih => simpa [ih] using fun e : '\r' = c => h e.symm

-- The text in a file, unless its bytes are no UTF-8.
def ofFile? (bytes : ByteArray) : Option String :=
  (String.fromUTF8? bytes).map fun s => String.ofList (unifyLineEnds s.toList)

end Marmoset.Text
