import Marmoset.Proofs.Tiling

/-!
How tokens are spelled. `Lexes cs xs` says that the text `cs` is scanned as `xs` in front of every
text that does not make a word of its last characters longer.
-/

namespace Marmoset

-- The tokens of a text apart from their places.
def lexemes (cs : List Char) : List Lexeme :=
  (TokenStream.scan .start cs).pending.map (·.lexeme)

theorem map_lexeme_scan (l : Location) (cs : List Char) :
    (TokenStream.scan l cs).pending.map (·.lexeme) = lexemes cs := by
  have h := TokenStream.scan_relocate (o := .start) l .start cs
  have h := congrArg (·.pending.map (·.lexeme)) h
  simpa [TokenStream.relocate, Token.relocate, Function.comp_def, lexemes] using h

@[simp]
theorem lexemes_nil : lexemes [] = [] := by
  rw [lexemes, TokenStream.scan_nil]
  rfl

@[simp]
theorem lexemes_blank {c : Char} (h : Text.isBlank c) (cs : List Char) :
    lexemes (c :: cs) = lexemes cs := by
  rw [← map_lexeme_scan (Location.start.next c) cs, lexemes]
  have hs : skipTrivia .start false (c :: cs) = skipTrivia (Location.start.next c) false cs := by
    simp [skipTrivia, h]
  rcases ht : skipTrivia (Location.start.next c) false cs with ⟨here, _ | ⟨d, rest⟩⟩
  case nil => rw [TokenStream.scan_of_nil ht, TokenStream.scan_of_nil (hs.trans ht)]
  case cons => rw [TokenStream.scan_of_cons ht, TokenStream.scan_of_cons (hs.trans ht)]

-- A text that begins with what spells a token is scanned as it and what the rest is scanned as.
theorem Spells.lexemes_append {text rest : List Char} {x : Lexeme} (h : Spells text rest x) :
    lexemes (text ++ rest) = x :: lexemes rest := by
  have hs := TokenStream.scan_token .nil h .start
  rw [List.nil_append] at hs
  rw [lexemes, hs, TokenStream.push, List.map_cons, map_lexeme_scan]

theorem Breaks.append {cs ds : List Char} (h : Breaks cs) (hd : Breaks ds) : Breaks (cs ++ ds) := by
  cases cs
  case nil => exact hd
  case cons => exact h

theorem Breaks.space {cs : List Char} : Breaks (' ' :: cs) := by
  rintro _ ⟨⟩
  decide

theorem Breaks.symbol (y : Symbol) {cs : List Char} : Breaks (y.text.toList ++ cs) := by
  cases y <;> rintro _ ⟨⟩ <;> decide

def Lexes (cs : List Char) (xs : List Lexeme) : Prop :=
  ∀ ds, Breaks ds → lexemes (cs ++ ds) = xs ++ lexemes ds

namespace Lexes

variable {cs ds : List Char} {xs ys : List Lexeme}

theorem nil : Lexes [] [] :=
  fun _ _ => rfl

theorem eq (h : Lexes cs xs) : lexemes cs = xs := by
  simpa using h [] nofun

theorem append (h : Lexes cs xs) (hd : Lexes ds ys) (hb : Breaks ds) :
    Lexes (cs ++ ds) (xs ++ ys) := by
  intro es he
  rw [List.append_assoc, h _ (hb.append he), hd es he, List.append_assoc]

theorem blank {c : Char} (hc : Text.isBlank c) (h : Lexes cs xs) : Lexes (c :: cs) xs := by
  intro es he
  rw [List.cons_append, lexemes_blank hc, h es he]

theorem blanks {gap : List Char} (hg : gap.all Text.isBlank) (h : Lexes cs xs) :
    Lexes (gap ++ cs) xs := by
  induction gap
  case nil => exact h
  case cons c gap hi =>
    have ⟨hc, hg⟩ := Bool.and_eq_true_iff.mp hg
    exact (hi hg).blank hc

theorem space (h : Lexes cs xs) (hd : Lexes ds ys) : Lexes (cs ++ ' ' :: ds) (xs ++ ys) :=
  h.append (hd.blank rfl) .space

end Lexes

namespace Symbol

variable {cs : List Char} {y : Symbol}

-- There is no longer symbol, and no comment, that begins with this one.
def isPlain : Symbol → Bool
  | assign | bang | slash => false
  | _ => true

theorem ne_of_isPlain (h : y.isPlain) : ¬(y = .assign ∨ y = .bang) ∧ y ≠ .slash := by
  cases y <;> simp_all [isPlain]

theorem lexemes_text (h : y = .assign ∨ y = .bang → cs.head? ≠ some '=')
    (hs : y = .slash → cs.head? ≠ some '/') :
    lexemes (y.text.toList ++ cs) = .symbol y :: lexemes cs :=
  (Spells.symbol y h hs).lexemes_append

end Symbol

namespace Lexes

variable {c : Char} {cs : List Char} {xs : List Lexeme}

-- In front of a blank, a symbol is read as it is.
theorem spaced (y : Symbol) (h : Lexes cs xs) :
    Lexes (y.text.toList ++ ' ' :: cs) (.symbol y :: xs) := by
  intro ds hd
  rw [List.append_assoc, Symbol.lexemes_text (by simp) (by simp), List.cons_append,
    lexemes_blank rfl, h ds hd]
  rfl

-- So is a symbol that nothing makes a longer one or a comment of.
theorem symbol {y : Symbol} (hy : y.isPlain) (h : Lexes cs xs) :
    Lexes (y.text.toList ++ cs) (.symbol y :: xs) := by
  intro ds hd
  have ⟨hl, hs⟩ := Symbol.ne_of_isPlain hy
  rw [List.append_assoc, Symbol.lexemes_text (absurd · hl) (absurd · hs), h ds hd]
  rfl

theorem before {ds : List Char} {ys : List Lexeme} {y : Symbol} (h : Lexes cs xs) (hy : y.isPlain)
    (hd : Lexes ds ys) :
    Lexes (cs ++ (y.text.toList ++ ds)) (xs ++ .symbol y :: ys) :=
  h.append (hd.symbol hy) (.symbol y)

-- So is a prefix operator in front of its operand.
theorem prefixed {y : Symbol} (hy : y ≠ .slash) (hc : ∃ c ∈ cs.head?, c ≠ '=') (h : Lexes cs xs) :
    Lexes (y.text.toList ++ cs) (.symbol y :: xs) := by
  obtain ⟨c, hc, hn⟩ := hc
  intro ds hd
  have hh : (cs ++ ds).head? ≠ some '=' := by
    simpa [List.head?_append, Option.mem_def.mp hc] using hn
  rw [List.append_assoc, Symbol.lexemes_text (fun _ => hh) (by simp [hy]), h ds hd]
  rfl

end Lexes

-- How a name is spelled: as a word that is no keyword.
def Lexeme.Spelled : Lexeme → Prop
  | .ident x => Keyword.ofText? x = none ∧
    ∃ c cs, x.toList = c :: cs ∧ Text.isBlank c = false ∧ isWordStart c ∧ ∀ d ∈ cs, isWordChar d
  | _ => True

theorem Lexeme.spelled_ident_iff {x : String} : (ident x).Spelled ↔ Keyword.ofText? x = none ∧
    x.toList.head?.any isWordStart ∧ x.toList.tail.all isWordChar := by
  cases hx : x.toList
  case nil => simp [Spelled, hx]
  case cons c cs =>
    constructor
    case mp =>
      rintro ⟨hk, _, _, h, _, hs, hc⟩
      obtain ⟨rfl, rfl⟩ := List.cons.inj (hx.symm.trans h)
      exact ⟨hk, hs, List.all_eq_true.mpr hc⟩
    case mpr =>
      rintro ⟨hk, hs, hc⟩
      exact ⟨hk, c, cs, hx, isBlank_of_isWordStart hs, hs, List.all_eq_true.mp hc⟩

instance : DecidablePred Lexeme.Spelled
  | .ident _ => decidable_of_iff' _ Lexeme.spelled_ident_iff
  | .illegal _ | .eof | .int _ | .string _ | .symbol _ | .keyword _ => isTrue trivial

theorem Spells.spelled {text rest : List Char} {x : Lexeme} (h : Spells text rest x) :
    x.Spelled := by
  cases h
  case ident c cs hs hw hk _ =>
    exact ⟨Keyword.ofText?_eq_none.mpr hk, c, cs, String.toList_ofList, isBlank_of_isWordStart hs,
      hs, hw⟩
  all_goals trivial

-- Every name that is scanned is spelled so.
theorem TokenStream.spelled_scan (l : Location) (cs : List Char) :
    ∀ t ∈ (scan l cs).pending, t.lexeme.Spelled := by
  intro t ht
  have hx : t.lexeme ∈ lexemes cs := map_lexeme_scan l cs ▸ List.mem_map_of_mem ht
  obtain ⟨u, hu, he⟩ := List.mem_map.mp hx
  obtain ⟨text, rest, hs⟩ := (tiles_scan [] cs).spelled u hu
  exact he ▸ hs.spelled

namespace Lexes

theorem ident {x : String} (h : (Lexeme.ident x).Spelled) : Lexes x.toList [.ident x] := by
  obtain ⟨hk, c, cs, ht, _, hs, hc⟩ := h
  obtain rfl : x = String.ofList (c :: cs) := by rw [← ht, String.ofList_toList]
  intro ds hd
  rw [String.toList_ofList]
  exact (Spells.ident hs hc (Keyword.ofText?_eq_none.mp hk) hd).lexemes_append

theorem keyword (k : Keyword) : Lexes k.text.toList [.keyword k] :=
  fun _ hd => (Spells.keyword k hd).lexemes_append

theorem number (n : Nat) : Lexes (toString n).toList [.int (toString n)] := by
  have hn : ∀ d ∈ (toString n).toList, d.isDigit := by
    rw [Nat.toString_eq_ofList_toDigits, String.toList_ofList]
    exact fun d => Nat.isDigit_of_mem_toDigits (by decide) (by decide)
  obtain ⟨c, cs, hc⟩ := List.exists_cons_of_ne_nil (by simp : (toString n).toList ≠ [])
  have hs : toString n = String.ofList (c :: cs) := by rw [← hc, String.ofList_toList]
  rw [hc] at hn ⊢
  obtain ⟨hd, hds⟩ := List.forall_mem_cons.mp hn
  intro ds hb
  rw [hs]
  refine (Spells.int hd hds fun e he => ?_).lexemes_append
  exact Bool.eq_false_iff.mpr fun hi => Bool.eq_false_iff.mp (hb e he) (isDigit_class hi).left

theorem literal (s : String) : Lexes (Text.literal s).toList [.string s] := by
  have ht : (Text.literal s).toList = '"' :: (s.toList.flatMap Text.escapeChar ++ ['"']) := by
    simp [Text.literal, Text.escape]
  have hs : s = String.ofList s.toList := String.ofList_toList.symm
  intro ds _
  rw [ht]
  exact (Spells.string (decodes_escape s.toList)).lexemes_append.trans (by rw [← hs]; rfl)

end Lexes

theorem Parser.decimal_toString (n : Nat) : decimal (toString n) = n := by
  rw [decimal, Nat.toString_eq_ofList_toDigits, String.toList_ofList]
  exact Nat.ofDigitChars_ten_toDigits

end Marmoset
