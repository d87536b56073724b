import Marmoset.Proofs.Lines

/-!
Scanning with checks. Words and numbers are read with patterns, and that a pattern fits where it is
used is checked; no check ever fails (`checkedScan_eq`). For words this is a fact about characters:
no letter is a decimal digit.
-/

namespace Marmoset

-- What would be wrong with the program that reads or runs a text, and not with the text.
inductive Defect
  -- A token of the kind is to be read where none begins.
  | misplaced (kind : TokenKind)
  -- The pattern for tokens of the kind does not fit.
  | unmatched (kind : TokenKind)
  -- A token has no text.
  | stuck
  -- A table has no entry for the kind.
  | noPrecedence (kind : TokenKind)
  | noRule (kind : TokenKind)
  -- The digits cannot be made a number.
  | unreadable (digits : String)
  | unknownOperator (text : String)
deriving DecidableEq

namespace Text

-- Whether ranges that ascend have no character in common. Of the first two ranges the lower one is
-- passed over, as the search in the other set ends in front of it.
def Ranges.apart : Ranges → Ranges → Bool
  | [], _ | _, [] => true
  | (first, last) :: rs, (first', last') :: ts =>
    if last < first' then apart rs ((first', last') :: ts)
    else if last' < first then apart ((first, last) :: rs) ts
    else false
termination_by rs ts => rs.length + ts.length

theorem Ranges.not_contains_of_apart {rs ts : Ranges} {c : Char} (h : rs.apart ts)
    (hr : rs.contains c) : ts.contains c = false := by
  fun_induction apart rs ts
  case case1 => simp at hr
  case case2 => rfl
  case case3 first last rs first' last' ts hl hi =>
    by_cases hc : c.toNat ≤ last
    case pos => simp [contains, Nat.lt_of_le_of_lt hc hl]
    case neg =>
      refine hi h ?_
      simp only [contains, hc, if_false] at hr
      split at hr
      case isTrue => contradiction
      case isFalse => exact hr
  case case4 first last rs first' last' ts _ hl hi =>
    have ht := hi h hr
    have hf : first ≤ c.toNat := by
      simp only [contains] at hr
      split at hr
      case isTrue => contradiction
      case isFalse hf => exact Nat.le_of_not_lt hf
    simp only [contains, ht]
    split
    case isTrue => rfl
    case isFalse => rw [if_neg (by omega)]
  case case5 => contradiction

theorem letters_apart : letters.apart decimalDigits := by
  decide +kernel

end Text

-- What the pattern `[^\W\d]\w*` fits at the beginning of a text.
def wordPattern? : List Char → Option (List Char)
  | [] => none
  | c :: cs =>
    if isWordChar c && !Text.isDecimalDigit c then some (c :: cs.takeWhile isWordChar) else none

-- What the pattern `[0-9]+` fits.
def numberPattern? (cs : List Char) : Option (List Char) :=
  match cs.takeWhile Char.isDigit with
  | [] => none
  | text => some text

theorem wordPattern?_eq {c : Char} (h : isWordStart c) (cs : List Char) :
    wordPattern? (c :: cs) = some ((c :: cs).takeWhile isWordChar) := by
  have hw := Scan.isWordChar_of_isWordStart h
  have hd : Text.isDecimalDigit c = false := by
    obtain h | h : Text.isLetter c ∨ c = '_' := by simpa [isWordStart] using h
    · exact Text.Ranges.not_contains_of_apart Text.letters_apart h
    · subst h
      rfl
  simp [wordPattern?, hw, hd]

theorem numberPattern?_eq {c : Char} (h : c.isDigit) (cs : List Char) :
    numberPattern? (c :: cs) = some ((c :: cs).takeWhile Char.isDigit) := by
  simp [numberPattern?, h]

namespace Scan

-- Reads what a pattern fits, where a token that it is for begins.
def matched (kind : TokenKind) (begins : Char → Bool) (pattern? : List Char → Option (List Char))
    (lexeme : String → Lexeme) (cs : List Char) : Except Defect Scan :=
  if cs.head?.any begins then
    match pattern? cs with
    | some text => .ok ⟨lexeme (String.ofList text), text, cs.drop text.length⟩
    | none => .error (.unmatched kind)
  else .error (.misplaced kind)

def checked (c : Char) (cs : List Char) : Except Defect Scan :=
  if c = '"' then .ok (stringLiteral cs)
  else if isWordStart c then
    matched .ident isWordStart wordPattern?
      (fun name => (Keyword.ofText? name).elim (.ident name) .keyword) (c :: cs)
  else if c.isDigit then matched .int Char.isDigit numberPattern? .int (c :: cs)
  else .ok (symbol c cs)

theorem drop_length_takeWhile (p : Char → Bool) (cs : List Char) :
    cs.drop (cs.takeWhile p).length = cs.dropWhile p := by
  conv => lhs; arg 2; rw [← List.takeWhile_append_dropWhile (p := p) (l := cs)]
  exact List.drop_left

theorem checked_eq (c : Char) (cs : List Char) : checked c cs = .ok (token c cs) := by
  unfold checked token
  split
  case isTrue => rfl
  case isFalse =>
    split
    case isTrue h =>
      simp [matched, h, wordPattern?_eq h, drop_length_takeWhile, word]
    case isFalse =>
      split
      case isTrue h =>
        simp [matched, h, numberPattern?_eq h, drop_length_takeWhile, integer]
      case isFalse => rfl

-- The pattern for words would not fit in front of a digit.
example : matched .ident (fun _ => true) wordPattern? .ident ['1'] = .error (.unmatched .ident) :=
  rfl

end Scan

namespace TokenStream

-- The tokens of a text that begins at `l`, unless something goes wrong on the way.
def checkedScan (l : Location) (cs : List Char) : Except Defect TokenStream :=
  match _h : skipTrivia l false cs with
  | (here, []) => .ok ⟨[], here⟩
  | (here, c :: rest) =>
    match Scan.checked c rest with
    | .error d => .error d
    | .ok t =>
      if _ht : t.rest.length ≤ rest.length then
        (checkedScan (here.after t.text) t.rest).map (·.push ⟨t.lexeme, here⟩)
      else .error .stuck
termination_by cs.length
decreasing_by
  have hl := length_skipTrivia_le l false cs
  rw [_h] at hl
  exact Nat.lt_of_lt_of_le (Nat.lt_succ_of_le _ht) hl

theorem checkedScan_eq (l : Location) (cs : List Char) : checkedScan l cs = .ok (scan l cs) := by
  induction l, cs using scan_induction
  case trivia l cs here ht =>
    rw [checkedScan, scan_of_nil ht]
    split <;> simp_all
  case token l cs here c rest ht hi =>
    have hl : (Scan.token c rest).rest.length ≤ rest.length :=
      Nat.le_of_lt_succ (Scan.length_rest_lt c rest)
    rw [checkedScan, scan_of_cons ht]
    split
    case h_1 h => cases ht.symm.trans h
    case h_2 h =>
      cases ht.symm.trans h
      simp only [Scan.checked_eq, dif_pos hl, hi]
      rfl

end TokenStream

end Marmoset
