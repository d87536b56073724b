import Marmoset.Text.Blank
import Marmoset.Text.Letter
import Marmoset.Text.Numeral
import Marmoset.Token.Basic

/-!
The token at the head of a text. `Scan.text_append_rest` says that the token's own text and the
rest are the text scanned, and `Scan.text_ne_nil` that the token is not empty.
-/

namespace Marmoset

def isWordStart (c : Char) : Bool :=
  Text.isLetter c || c = '_'

def isWordChar (c : Char) : Bool :=
  Text.isLetter c || Text.isNumeral c || c = '_'

-- Passes over blanks and over comments, which run from `//` through the end of the line.
def skipTrivia (l : Location) (inComment : Bool) : List Char → Location × List Char
  | [] => (l, [])
  | c :: cs =>
    if inComment then skipTrivia (l.next c) (c ≠ '\n') cs
    else if Text.isBlank c then skipTrivia (l.next c) false cs
    else if c = '/' ∧ cs.head? = some '/' then skipTrivia (l.next c) true cs
    else (l, c :: cs)

theorem length_skipTrivia_le (l : Location) (b : Bool) (cs : List Char) :
    (skipTrivia l b cs).2.length ≤ cs.length := by
  induction cs generalizing l b with
  | nil => simp [skipTrivia]
  | cons c cs ih =>
    simp only [skipTrivia]
    split
    · exact Nat.le_succ_of_le (ih ..)
    · split
      · exact Nat.le_succ_of_le (ih ..)
      · split
        · exact Nat.le_succ_of_le (ih ..)
        · exact Nat.le_refl _

-- The longest symbol that the text begins with.
def Symbol.ofChars? : List Char → Option Symbol
  | '=' :: '=' :: _ => some eq
  | '!' :: '=' :: _ => some notEq
  | '=' :: _ => some assign
  | '!' :: _ => some bang
  | '+' :: _ => some plus
  | '-' :: _ => some minus
  | '*' :: _ => some asterisk
  | '/' :: _ => some slash
  | '<' :: _ => some lt
  | '>' :: _ => some gt
  | ',' :: _ => some comma
  | ';' :: _ => some semicolon
  | ':' :: _ => some colon
  | '(' :: _ => some lparen
  | ')' :: _ => some rparen
  | '{' :: _ => some lbrace
  | '}' :: _ => some rbrace
  | '[' :: _ => some lbracket
  | ']' :: _ => some rbracket
  | _ => none

theorem Symbol.text_append_of_ofChars? {cs : List Char} {s : Symbol} (h : ofChars? cs = some s) :
    s.text.toList ++ cs.drop s.text.length = cs := by
  unfold ofChars? at h
  split at h <;> simp_all <;> subst h <;> rfl

-- A token, the text it was read from and the text that follows.
structure Scan where
  lexeme : Lexeme
  text : List Char
  rest : List Char

namespace Scan

-- The contents of a string literal whose opening quote has been read, the text through its closing
-- quote, and the rest. A backslash that begins no escape stands for itself.
def literalBody? : List Char → Option (List Char × List Char × List Char)
  | [] => none
  | '"' :: cs => some ([], ['"'], cs)
  | '\\' :: c :: cs =>
    (literalBody? cs).map fun (contents, text, rest) =>
      ((Text.unescape? c).elim ['\\', c] ([·]) ++ contents, '\\' :: c :: text, rest)
  | c :: cs =>
    (literalBody? cs).map fun (contents, text, rest) => (c :: contents, c :: text, rest)

theorem literalBody?_append {cs contents text rest : List Char}
    (h : literalBody? cs = some (contents, text, rest)) : text ++ rest = cs := by
  fun_induction literalBody? cs generalizing contents text rest with
  | case1 => simp at h
  | case2 =>
    simp at h
    simp [← h.2.1, h.2.2]
  | case3 _ _ ih =>
    obtain ⟨⟨c, t, r⟩, hr, he⟩ := Option.map_eq_some_iff.1 h
    simp only [Prod.mk.injEq] at he
    simp [← he.2.1, ← he.2.2, ih hr]
  | case4 _ _ _ _ ih =>
    obtain ⟨⟨c, t, r⟩, hr, he⟩ := Option.map_eq_some_iff.1 h
    simp only [Prod.mk.injEq] at he
    simp [← he.2.1, ← he.2.2, ih hr]

-- A literal that is not closed takes the whole rest of the text.
def stringLiteral (cs : List Char) : Scan :=
  match literalBody? cs with
  | some (contents, text, rest) => ⟨.string (String.ofList contents), '"' :: text, rest⟩
  | none => ⟨.illegal (String.ofList ('"' :: cs)), '"' :: cs, []⟩

def word (cs : List Char) : Scan :=
  let text := cs.takeWhile isWordChar
  let name := String.ofList text
  ⟨(Keyword.ofText? name).elim (.ident name) .keyword, text, cs.dropWhile isWordChar⟩

def integer (cs : List Char) : Scan :=
  let text := cs.takeWhile Char.isDigit
  ⟨.int (String.ofList text), text, cs.dropWhile Char.isDigit⟩

def symbol (c : Char) (cs : List Char) : Scan :=
  match Symbol.ofChars? (c :: cs) with
  | some s => ⟨.symbol s, s.text.toList, (c :: cs).drop s.text.length⟩
  | none => ⟨.illegal c.toString, [c], cs⟩

-- Reads the token that begins with `c`.
def token (c : Char) (cs : List Char) : Scan :=
  -- The three classes of first characters are disjoint.
  if c = '"' then stringLiteral cs
  else if isWordStart c then word (c :: cs)
  else if c.isDigit then integer (c :: cs)
  else symbol c cs

theorem text_append_rest (c : Char) (cs : List Char) :
    (token c cs).text ++ (token c cs).rest = c :: cs := by
  unfold token
  split
  · subst c
    unfold stringLiteral
    split
    · next h => simp [literalBody?_append h]
    · simp
  · split
    · exact List.takeWhile_append_dropWhile
    · split
      · exact List.takeWhile_append_dropWhile
      · unfold symbol
        split
        · next h => exact Symbol.text_append_of_ofChars? h
        · rfl

theorem isWordChar_of_isWordStart {c : Char} (h : isWordStart c) : isWordChar c := by
  simp_all [isWordStart, isWordChar]
  cases h <;> simp_all

theorem text_ne_nil (c : Char) (cs : List Char) : (token c cs).text ≠ [] := by
  unfold token
  split
  · unfold stringLiteral
    split <;> simp
  · split
    · next h => simp [word, isWordChar_of_isWordStart h]
    · split
      · next h => simp [integer, h]
      · unfold symbol
        split
        · exact Symbol.toList_text_ne_nil _
        · simp

theorem length_rest_lt (c : Char) (cs : List Char) :
    (token c cs).rest.length < (c :: cs).length := by
  have h := congrArg List.length (text_append_rest c cs)
  have := List.length_pos_iff.2 (text_ne_nil c cs)
  rw [List.length_append] at h
  omega

end Scan

end Marmoset
