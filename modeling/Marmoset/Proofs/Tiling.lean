import Marmoset.Proofs.Concatenation

/-!
Tokens tile a source text, together with the blanks and comments between them. `Tiles` says what a
tiling is without a word on scanning: which texts stand for which tokens, what may lie between
them, and where each token is. Every text has one tiling, and it is what is scanned
(`ofSource_tiles`).
-/

namespace Marmoset

-- The place behind a text: the line is told by the line ends in it, the column by what follows the
-- last of them.
def Location.behind (cs : List Char) : Location where
  line := 1 + cs.count '\n'
  column := 1 + (cs.reverse.takeWhile (· ≠ '\n')).length

theorem Location.behind_eq_after (cs : List Char) : behind cs = start.after cs := by
  rw [← shift_start]
  simp [behind, shift, start]

theorem Location.behind_append (cs ds : List Char) : behind (cs ++ ds) = (behind cs).after ds := by
  rw [behind_eq_after, behind_eq_after, after_append]

-- Blanks, and comments with the ends of their lines.
inductive Trivia : List Char → Prop
  | nil : Trivia []
  | blank : Text.isBlank c → Trivia cs → Trivia (c :: cs)
  | comment : '\n' ∉ body → Trivia cs → Trivia ('/' :: '/' :: (body ++ '\n' :: cs))

-- Behind the last token, a comment may also run to the end of the text.
inductive LastTrivia : List Char → Prop
  | closed : Trivia cs → LastTrivia cs
  | comment : Trivia cs → '\n' ∉ body → LastTrivia (cs ++ '/' :: '/' :: body)

-- What stands between the quotes of a string literal, and the contents it is written for.
inductive Decodes : List Char → List Char → Prop
  | nil : Decodes [] []
  | plain : c ≠ '"' → c ≠ '\\' → Decodes cs ds → Decodes (c :: cs) (c :: ds)
  | escape : Text.unescape? c = some d → Decodes cs ds → Decodes ('\\' :: c :: cs) (d :: ds)
  | verbatim : Text.unescape? c = none → Decodes cs ds →
    Decodes ('\\' :: c :: cs) ('\\' :: c :: ds)

-- No quote in the text closes a string literal that the text is the inside of.
def Unclosed (cs : List Char) : Prop :=
  ∀ body contents rest, Decodes body contents → cs ≠ body ++ '"' :: rest

-- The text does not begin with a part of a word.
def Breaks (cs : List Char) : Prop :=
  ∀ c ∈ cs.head?, isWordChar c = false

-- A character that no other token begins with.
structure Stray (c : Char) : Prop where
  blank : Text.isBlank c = false
  quote : c ≠ '"'
  word : isWordStart c = false
  digit : c.isDigit = false
  symbol : ∀ y : Symbol, y.text.toList.head? ≠ some c

-- The text is a token in front of the rest, as long as it can be, and stands for the lexeme.
inductive Spells : List Char → List Char → Lexeme → Prop
  | symbol (y : Symbol) : (y = .assign ∨ y = .bang → rest.head? ≠ some '=') →
    (y = .slash → rest.head? ≠ some '/') → Spells y.text.toList rest (.symbol y)
  | keyword (k : Keyword) : Breaks rest → Spells k.text.toList rest (.keyword k)
  | ident : isWordStart c → (∀ d ∈ cs, isWordChar d) →
    (∀ k : Keyword, k.text ≠ String.ofList (c :: cs)) → Breaks rest →
    Spells (c :: cs) rest (.ident (String.ofList (c :: cs)))
  | int : c.isDigit → (∀ d ∈ cs, d.isDigit) → (∀ d ∈ rest.head?, d.isDigit = false) →
    Spells (c :: cs) rest (.int (String.ofList (c :: cs)))
  | string : Decodes body contents →
    Spells ('"' :: (body ++ ['"'])) rest (.string (String.ofList contents))
  | unterminated : Unclosed body →
    Spells ('"' :: body) [] (.illegal (String.ofList ('"' :: body)))
  | stray : Stray c → Spells [c] rest (.illegal (String.ofList [c]))

-- The second text, which comes behind the first one, consists of the tokens and of what lies
-- between them.
inductive Tiles : List Char → List Char → List Token → Prop
  | stop : LastTrivia cs → Tiles before cs []
  | token : Trivia gap → Spells text rest x → Tiles (before ++ gap ++ text) rest ts →
    Tiles before (gap ++ text ++ rest) (⟨x, .behind (before ++ gap)⟩ :: ts)

/-!
What lies between tokens.
-/

-- The text begins with a token: it is neither a blank nor the start of a comment.
structure Inked (c : Char) (rest : List Char) : Prop where
  blank : Text.isBlank c = false
  comment : c = '/' → rest.head? ≠ some '/'

-- How a text begins: with trivia up to its end, or with trivia in front of a token.
inductive Opening : List Char → Prop
  | last : LastTrivia cs → Opening cs
  | token : Trivia gap → Inked c rest → Opening (gap ++ c :: rest)

section

variable {l : Location} {c : Char} {cs rest gap body : List Char}

theorem skipTrivia_comment (h : '\n' ∉ body) (l : Location) (cs : List Char) :
    skipTrivia l true (body ++ '\n' :: cs) =
      skipTrivia (l.after (body ++ ['\n'])) false cs := by
  induction body generalizing l
  case nil => simp [skipTrivia]
  case cons c body hi =>
    obtain ⟨hc, hb⟩ := List.ne_and_not_mem_of_not_mem_cons h
    simp only [List.cons_append, skipTrivia, if_true, Location.after_cons]
    rw [decide_eq_true hc.symm]
    exact hi hb _

theorem skipTrivia_lastComment (h : '\n' ∉ body) (l : Location) :
    skipTrivia l true body = (l.after body, []) := by
  induction body generalizing l
  case nil => rfl
  case cons c body hi =>
    obtain ⟨hc, hb⟩ := List.ne_and_not_mem_of_not_mem_cons h
    simp only [skipTrivia, if_true, Location.after_cons]
    rw [decide_eq_true hc.symm]
    exact hi hb _

-- Two slashes open a comment, of which the second one is already a part.
theorem skipTrivia_slashes (l : Location) (cs : List Char) :
    skipTrivia l false ('/' :: '/' :: cs) = skipTrivia (l.next '/') true ('/' :: cs) := by
  have hb : Text.isBlank '/' = false := by decide
  rw [skipTrivia]
  simp [hb]

theorem Trivia.skip (h : Trivia gap) (l : Location) (cs : List Char) :
    skipTrivia l false (gap ++ cs) = skipTrivia (l.after gap) false cs := by
  induction h generalizing l
  case nil => rfl
  case blank c gap hc _ hi =>
    rw [List.cons_append, skipTrivia, if_neg Bool.false_ne_true, if_pos hc, hi, Location.after_cons]
  case comment body gap hb _ hi =>
    have hs : '\n' ∉ '/' :: body := by simp [hb]
    have hl : '/' :: '/' :: (body ++ '\n' :: gap) ++ cs =
        '/' :: '/' :: (body ++ '\n' :: (gap ++ cs)) := by simp
    rw [hl, skipTrivia_slashes, ← List.cons_append, skipTrivia_comment hs, hi]
    simp

theorem LastTrivia.skip (h : LastTrivia cs) (l : Location) :
    skipTrivia l false cs = (l.after cs, []) := by
  cases h
  case closed h =>
    have hs := h.skip l []
    rwa [List.append_nil] at hs
  case comment gap body hg hb =>
    have hs : '\n' ∉ '/' :: body := by simp [hb]
    rw [hg.skip, skipTrivia_slashes, skipTrivia_lastComment hs]
    simp

theorem Inked.skip (h : Inked c rest) (l : Location) :
    skipTrivia l false (c :: rest) = (l, c :: rest) := by
  rw [skipTrivia, if_neg Bool.false_ne_true, h.blank, if_neg Bool.false_ne_true,
    if_neg (not_and.mpr h.comment)]

theorem Opening.behind (gap : List Char) (hg : ∀ {es}, Trivia es → Trivia (gap ++ es))
    (h : Opening cs) : Opening (gap ++ cs) := by
  cases h
  case last h =>
    cases h
    case closed h => exact .last (.closed (hg h))
    case comment h hb =>
      rw [← List.append_assoc]
      exact .last (.comment (hg h) hb)
  case token h hc =>
    rw [← List.append_assoc]
    exact .token (hg h) hc

theorem opening (cs : List Char) : Opening cs := by
  induction hn : cs.length using Nat.strongRecOn generalizing cs
  case ind n hi =>
    match cs with
    | [] => exact .last (.closed .nil)
    | c :: cs =>
      rw [List.length_cons] at hn
      by_cases hb : Text.isBlank c
      case pos => exact .behind [c] (.blank hb) (hi cs.length (by omega) cs rfl)
      case neg =>
        by_cases hs : c = '/' ∧ cs.head? = some '/'
        case neg => exact .token .nil ⟨by simpa using hb, not_and.mp hs⟩
        case pos =>
          obtain ⟨rfl, hs⟩ := hs
          obtain ⟨ds, rfl⟩ := List.head?_eq_some_iff.mp hs
          by_cases hd : '\n' ∈ ds
          case neg => exact .last (.comment .nil hd)
          case pos =>
            obtain ⟨body, es, rfl, hb⟩ := List.eq_append_cons_of_mem hd
            have he := hi es.length (by simp at hn; omega) es rfl
            have ho := he.behind ('/' :: '/' :: (body ++ ['\n'])) fun h => by
              simpa using Trivia.comment hb h
            simpa using ho

end

/-!
The texts of tokens.
-/

-- What a text begins with is all that there is of it in front of something else.
theorem takeWhile_append_of_head {p : α → Bool} {xs ys : List α} (hx : ∀ x ∈ xs, p x)
    (hy : ∀ y ∈ ys.head?, p y = false) :
    (xs ++ ys).takeWhile p = xs ∧ (xs ++ ys).dropWhile p = ys := by
  rw [List.takeWhile_append_of_pos hx, List.dropWhile_append_of_pos hx]
  cases ys
  case nil => simp
  case cons y ys => simp [hy y rfl]

namespace Symbol

variable {c : Char} {cs : List Char} {y : Symbol}

theorem token_of_ofChars? (h : ofChars? (c :: cs) = some y) :
    Scan.token c cs = Scan.symbol c cs ∧ Text.isBlank c = false := by
  unfold ofChars? at h
  split at h
  case h_20 => cases h
  all_goals
    next he =>
      cases he
      exact ⟨rfl, rfl⟩

-- A symbol stands for itself unless what follows makes a longer one of it.
theorem ofChars?_text (h : y = .assign ∨ y = .bang → cs.head? ≠ some '=') :
    ofChars? (y.text.toList ++ cs) = some y := by
  cases y
  case assign => exact (Scan.ofChars?_of_head '=' (h (.inl rfl))).trans rfl
  case bang => exact (Scan.ofChars?_of_head '!' (h (.inr rfl))).trans rfl
  all_goals rfl

end Symbol

-- Digits belong to words, but do not begin one.
theorem isDigit_class {c : Char} (h : c.isDigit) :
    isWordChar c ∧ isWordStart c = false ∧ Text.isBlank c = false ∧ c ≠ '"' ∧ c ≠ '/' := by
  have all : ∀ n < 10, let d := Char.ofNat (48 + n)
      isWordChar d ∧ isWordStart d = false ∧ Text.isBlank d = false ∧ d ≠ '"' ∧ d ≠ '/' := by
    decide
  have hc : 48 ≤ c.toNat ∧ c.toNat ≤ 57 := by
    simpa [Char.isDigit, UInt32.le_iff_toNat_le] using h
  have hn := all (c.toNat - 48) (by omega)
  rwa [show 48 + (c.toNat - 48) = c.toNat by omega, Char.ofNat_toNat] at hn

-- Blanks belong to no word.
theorem isWordChar_of_isBlank {c : Char} (h : Text.isBlank c) : isWordChar c = false := by
  have all : ∀ r ∈ Text.blanks, ∀ n < r.2 + 1 - r.1, isWordChar (Char.ofNat (r.1 + n)) = false := by
    decide +kernel
  obtain ⟨r, hr, hf, hl⟩ := Text.Ranges.exists_range_of_contains h
  have hn := all r hr (c.toNat - r.1) (by omega)
  rwa [Nat.add_sub_of_le hf, Char.ofNat_toNat] at hn

theorem isBlank_of_isWordStart {c : Char} (h : isWordStart c) : Text.isBlank c = false := by
  refine Bool.eq_false_iff.mpr fun hb => ?_
  have hc := Scan.isWordChar_of_isWordStart h
  rw [isWordChar_of_isBlank hb] at hc
  cases hc

-- Every keyword is a word.
theorem Keyword.exists_text_eq (k : Keyword) :
    ∃ c cs, k.text.toList = c :: cs ∧ isWordStart c ∧ ∀ d ∈ cs, isWordChar d := by
  cases k <;> exact ⟨_, _, rfl, by decide, List.all_eq_true.mp rfl⟩

theorem Keyword.ofText?_text (k : Keyword) : ofText? k.text = some k := by
  cases k <;> rfl

theorem Keyword.ofText?_eq_none {s : String} : ofText? s = none ↔ ∀ k : Keyword, k.text ≠ s := by
  simp [ofText?, mem_all]

-- The contents of a string literal are read back from the way they are escaped.
theorem decodes_escape (cs : List Char) : Decodes (cs.flatMap Text.escapeChar) cs := by
  induction cs
  case nil => exact .nil
  case cons c cs hi =>
    rw [List.flatMap_cons, Text.escapeChar]
    cases hc : Text.escapeCode? c
    case some e => exact .escape (Text.unescape?_escapeCode? hc) hi
    case none =>
      refine .plain ?_ ?_ hi <;> · rintro rfl; cases hc

namespace Scan

variable {c : Char} {cs rest body contents text : List Char}

theorem literalBody?_of_decodes (h : Decodes body contents) (rest : List Char) :
    literalBody? (body ++ '"' :: rest) = some (contents, body ++ ['"'], rest) := by
  induction h
  case nil => rfl
  case plain hq hb _ hi =>
    rw [List.cons_append, literalBody?, hi]
    · rfl
    · exact hq
    · exact fun _ _ he _ => hb he
  case escape hc _ hi => simp [literalBody?, hi, hc]
  case verbatim hc _ hi => simp [literalBody?, hi, hc]

theorem decodes_of_literalBody? (h : literalBody? cs = some (contents, text, rest)) :
    ∃ body, text = body ++ ['"'] ∧ cs = body ++ '"' :: rest ∧ Decodes body contents := by
  fun_induction literalBody? cs generalizing contents text rest
  case case1 => cases h
  case case2 =>
    cases h
    exact ⟨[], rfl, rfl, .nil⟩
  case case3 c cs hi =>
    obtain ⟨⟨ds, t, r⟩, hr, he⟩ := Option.map_eq_some_iff.mp h
    cases he
    obtain ⟨body, rfl, rfl, hd⟩ := hi hr
    refine ⟨'\\' :: c :: body, rfl, rfl, ?_⟩
    cases hc : Text.unescape? c
    case none => exact .verbatim hc hd
    case some => exact .escape hc hd
  case case4 c cs hq hb hi =>
    obtain ⟨⟨ds, t, r⟩, hr, he⟩ := Option.map_eq_some_iff.mp h
    cases he
    obtain ⟨body, rfl, rfl, hd⟩ := hi hr
    refine ⟨c :: body, rfl, rfl, .plain hq ?_ hd⟩
    rintro rfl
    cases body
    case nil => exact hb _ _ rfl rfl
    case cons => exact hb _ _ rfl rfl

theorem unclosed_iff : Unclosed cs ↔ literalBody? cs = none := by
  constructor
  case mp =>
    intro h
    refine Option.eq_none_iff_forall_ne_some.mpr fun ⟨contents, text, rest⟩ hr => ?_
    obtain ⟨body, _, hc, hd⟩ := decodes_of_literalBody? hr
    exact h body contents rest hd hc
  case mpr =>
    rintro h body contents rest hd rfl
    rw [literalBody?_of_decodes hd] at h
    cases h

theorem stringLiteral_spells (cs : List Char) :
    Spells (stringLiteral cs).text (stringLiteral cs).rest (stringLiteral cs).lexeme := by
  unfold stringLiteral
  cases h : literalBody? cs
  case none => exact .unterminated (unclosed_iff.mpr h)
  case some r =>
    obtain ⟨body, ht, _, hd⟩ := decodes_of_literalBody? h
    simp only [ht]
    exact .string hd

-- What a run of characters of one class leaves does not begin with one.
theorem head?_dropWhile (p : Char → Bool) (cs : List Char) :
    ∀ d ∈ (cs.dropWhile p).head?, p d = false := by
  intro d hd
  have h := List.head?_dropWhile_not p cs
  rw [Option.mem_def.mp hd] at h
  simpa using h

theorem word_spells (h : isWordStart c) (cs : List Char) :
    Spells (word (c :: cs)).text (word (c :: cs)).rest (word (c :: cs)).lexeme := by
  have ht : (c :: cs).takeWhile isWordChar = c :: cs.takeWhile isWordChar := by
    simp [isWordChar_of_isWordStart h]
  have hb : Breaks ((c :: cs).dropWhile isWordChar) := head?_dropWhile isWordChar (c :: cs)
  simp only [word, ht]
  cases hk : Keyword.ofText? (String.ofList (c :: cs.takeWhile isWordChar))
  case none =>
    exact .ident h (List.all_eq_true.mp List.all_takeWhile) (Keyword.ofText?_eq_none.mp hk) hb
  case some k =>
    have he := congrArg String.toList (Keyword.text_of_ofText? hk)
    rw [String.toList_ofList] at he
    rw [← he]
    exact .keyword k hb

theorem integer_spells (h : c.isDigit) (cs : List Char) :
    Spells (integer (c :: cs)).text (integer (c :: cs)).rest (integer (c :: cs)).lexeme := by
  have ht : (c :: cs).takeWhile Char.isDigit = c :: cs.takeWhile Char.isDigit := by simp [h]
  simp only [integer, ht]
  exact .int h (List.all_eq_true.mp List.all_takeWhile) (head?_dropWhile Char.isDigit (c :: cs))

-- Every character that a symbol begins with makes a symbol.
theorem exists_symbol {y : Symbol} (h : y.text.toList.head? = some c) (cs : List Char) :
    Symbol.ofChars? (c :: cs) ≠ none := by
  by_cases hc : cs.head? = some '='
  case pos =>
    obtain ⟨ds, rfl⟩ := List.head?_eq_some_iff.mp hc
    rw [ofChars?_cons_eq c ds []]
    cases y <;> cases h <;> decide
  case neg =>
    rw [ofChars?_of_head c hc]
    cases y <;> cases h <;> decide

theorem symbol_spells (h : Inked c cs) (hq : c ≠ '"') (hw : isWordStart c = false)
    (hd : c.isDigit = false) :
    Spells (symbol c cs).text (symbol c cs).rest (symbol c cs).lexeme := by
  unfold symbol
  cases hy : Symbol.ofChars? (c :: cs)
  case none => exact .stray ⟨h.blank, hq, hw, hd, fun y hc => exists_symbol hc cs hy⟩
  case some y =>
    have ha := Symbol.text_append_of_ofChars? hy
    refine .symbol y (fun hl he => ?long) fun hs he => ?slash
    case long =>
      -- The text would begin with the longer symbol.
      obtain ⟨ds, hr⟩ := List.head?_eq_some_iff.mp he
      simp only at hr
      rw [hr] at ha
      obtain rfl | rfl := hl <;> · rw [← ha] at hy; cases hy
    case slash =>
      subst hs
      obtain ⟨rfl, ht⟩ := List.cons.inj ha
      exact h.comment rfl (ht ▸ he)

theorem spells_token (h : Inked c cs) :
    Spells (token c cs).text (token c cs).rest (token c cs).lexeme := by
  unfold token
  split
  case isTrue hq =>
    subst hq
    exact stringLiteral_spells cs
  case isFalse hq =>
    split
    case isTrue hw => exact word_spells hw cs
    case isFalse hw =>
      split
      case isTrue hd => exact integer_spells hd cs
      case isFalse hd => exact symbol_spells h hq (by simpa using hw) (by simpa using hd)

-- A word, in front of what is no part of it, is read as a whole.
theorem token_word (hc : isWordStart c) (hs : ∀ d ∈ cs, isWordChar d) (hb : Breaks rest) :
    token c (cs ++ rest) =
      ⟨(Keyword.ofText? (String.ofList (c :: cs))).elim (.ident (String.ofList (c :: cs))) .keyword,
        c :: cs, rest⟩ := by
  have hw : ∀ d ∈ c :: cs, isWordChar d :=
    List.forall_mem_cons.mpr ⟨isWordChar_of_isWordStart hc, hs⟩
  have ⟨ht, hr⟩ := takeWhile_append_of_head hw hb
  have hq : c ≠ '"' := by
    rintro rfl
    exact absurd hc (by decide)
  rw [token, if_neg hq, if_pos hc, word, ← List.cons_append, ht, hr]

end Scan

theorem inked_of_isWordStart {c : Char} (h : isWordStart c) (cs : List Char) : Inked c cs where
  blank := isBlank_of_isWordStart h
  comment := by
    rintro rfl
    exact absurd h (by decide)

namespace Spells

variable {text rest : List Char} {x : Lexeme}

-- A token is read as what its text stands for.
theorem token_eq (h : Spells text rest x) : ∃ c cs, text = c :: cs ∧ Inked c (cs ++ rest) ∧
    Scan.token c (cs ++ rest) = ⟨x, text, rest⟩ := by
  cases h
  case symbol y hl hs =>
    have hy := Symbol.ofChars?_text hl
    obtain ⟨c, cs, hc⟩ := List.exists_cons_of_ne_nil y.toList_text_ne_nil
    rw [hc, List.cons_append] at hy
    have ⟨ht, hb⟩ := Symbol.token_of_ofChars? hy
    refine ⟨c, cs, hc, ⟨hb, ?_⟩, ?_⟩
    · rintro rfl
      obtain rfl : Symbol.slash = y := Option.some.inj hy
      obtain ⟨_, rfl⟩ := List.cons.inj hc
      exact hs rfl
    · have hd : (c :: (cs ++ rest)).drop y.text.length = rest := by
        rw [← List.cons_append, ← hc, ← String.length_toList, List.drop_left]
      rw [ht, Scan.symbol, hy]
      simp only [hd]
  case keyword k hb =>
    obtain ⟨c, cs, hc, hs, hw⟩ := k.exists_text_eq
    refine ⟨c, cs, hc, inked_of_isWordStart hs _, ?_⟩
    rw [Scan.token_word hs hw hb, ← hc, String.ofList_toList, k.ofText?_text]
    rfl
  case ident c cs hs hw hk hb =>
    refine ⟨c, cs, rfl, inked_of_isWordStart hs _, ?_⟩
    rw [Scan.token_word hs hw hb, Keyword.ofText?_eq_none.mpr hk]
    rfl
  case int cs c hc hs hr =>
    have ⟨_, hw, hb, hq, hm⟩ := isDigit_class hc
    have ⟨ht, hr⟩ := takeWhile_append_of_head (List.forall_mem_cons.mpr ⟨hc, hs⟩) hr
    refine ⟨c, cs, rfl, ⟨hb, (absurd · hm)⟩, ?_⟩
    rw [Scan.token, if_neg hq, hw, if_neg Bool.false_ne_true, if_pos hc, Scan.integer,
      ← List.cons_append, ht, hr]
  case string body contents hd =>
    refine ⟨'"', body ++ ['"'], rfl, ⟨by decide, by simp⟩, ?_⟩
    rw [Scan.token, if_pos rfl, Scan.stringLiteral, List.append_assoc, List.singleton_append,
      Scan.literalBody?_of_decodes hd]
  case unterminated body hu =>
    refine ⟨'"', body, rfl, ⟨by decide, by simp⟩, ?_⟩
    rw [Scan.token, if_pos rfl, Scan.stringLiteral, List.append_nil, Scan.unclosed_iff.mp hu]
  case stray hc =>
    rename_i c
    have hn : Symbol.ofChars? (c :: rest) = none := by
      refine Option.eq_none_iff_forall_ne_some.mpr fun y hy => ?_
      have ha := Symbol.text_append_of_ofChars? hy
      refine hc.symbol y ?_
      obtain ⟨d, ds, hd⟩ := List.exists_cons_of_ne_nil y.toList_text_ne_nil
      rw [hd] at ha ⊢
      exact congrArg some (List.cons.inj ha).left
    refine ⟨c, [], rfl, ⟨hc.blank, ?_⟩, ?_⟩
    · rintro rfl
      exact absurd rfl (hc.symbol .slash)
    · rw [List.nil_append, Scan.token, if_neg hc.quote, hc.word, if_neg Bool.false_ne_true,
        hc.digit, if_neg Bool.false_ne_true, Scan.symbol, hn]
      rfl

theorem text_ne_nil (h : Spells text rest x) : text ≠ [] := by
  obtain ⟨c, cs, rfl, _⟩ := h.token_eq
  exact List.cons_ne_nil c cs

-- What the text stands for does not depend on what follows it.
theorem alone (h : Spells text rest x) : Spells text [] x := by
  cases h
  case symbol y _ _ => exact .symbol y (by simp) (by simp)
  case keyword k _ => exact .keyword k nofun
  case ident hs hw hk _ => exact .ident hs hw hk nofun
  case int hc hs _ => exact .int hc hs nofun
  case string hd => exact .string hd
  case unterminated hu => exact .unterminated hu
  case stray hc => exact .stray hc

theorem unique {rest' : List Char} {x' : Lexeme} (h : Spells text rest x)
    (h' : Spells text rest' x') : x = x' := by
  obtain ⟨c, cs, rfl, _, ht⟩ := h.alone.token_eq
  obtain ⟨_, _, he, _, ht'⟩ := h'.alone.token_eq
  cases he
  exact congrArg Scan.lexeme (ht.symm.trans ht')

-- An illegal token begins with a quote if it is a string literal that is not closed, and only then.
theorem head?_illegal {s : String} (h : Spells text rest (.illegal s)) :
    s.toList.head? = some '"' ↔ rest = [] ∧ ∃ body, text = '"' :: body ∧ Unclosed body := by
  cases h
  case unterminated body hu => exact ⟨fun _ => ⟨rfl, body, rfl, hu⟩, fun _ => by simp⟩
  case stray c hc =>
    constructor
    case mp => exact fun he => absurd (by simpa using he) hc.quote
    case mpr =>
      rintro ⟨_, _, he, _⟩
      exact absurd (List.cons.inj he).left hc.quote

end Spells

/-!
Whole texts.
-/

theorem TokenStream.scan_token {gap text rest : List Char} {x : Lexeme} (hg : Trivia gap)
    (h : Spells text rest x) (l : Location) :
    scan l (gap ++ text ++ rest) =
      (scan ((l.after gap).after text) rest).push ⟨x, l.after gap⟩ := by
  obtain ⟨c, cs, rfl, hi, ht⟩ := h.token_eq
  have hs : skipTrivia l false (gap ++ (c :: cs) ++ rest) = (l.after gap, c :: (cs ++ rest)) := by
    rw [List.append_assoc, hg.skip, List.cons_append, hi.skip]
  rw [scan_of_cons hs, ht]

-- A tiling is what is scanned.
theorem Tiles.eq_scan {before cs : List Char} {ts : List Token} (h : Tiles before cs ts) :
    ts = (TokenStream.scan (.behind before) cs).pending := by
  induction h
  case stop h => rw [TokenStream.scan_of_nil (h.skip _)]
  case token gap text rest x before ts hg hx _ hi =>
    rw [TokenStream.scan_token hg hx, TokenStream.push, ← Location.behind_append,
      ← Location.behind_append, ← hi]

-- What is scanned is a tiling.
theorem tiles_scan (before cs : List Char) :
    Tiles before cs (TokenStream.scan (.behind before) cs).pending := by
  induction hn : cs.length using Nat.strongRecOn generalizing before cs
  case ind n hi =>
    cases opening cs
    case last h =>
      rw [TokenStream.scan_of_nil (h.skip _)]
      exact .stop h
    case token gap c rest hg hc =>
      have hx := Scan.spells_token hc
      have hr := Scan.text_append_rest c rest
      have hl := Scan.length_rest_lt c rest
      rw [List.length_append] at hn
      have hi := hi (Scan.token c rest).rest.length (by omega)
        (before ++ gap ++ (Scan.token c rest).text) (Scan.token c rest).rest rfl
      rw [← hr, ← List.append_assoc, TokenStream.scan_token hg hx, TokenStream.push,
        ← Location.behind_append, ← Location.behind_append]
      exact .token hg hx hi

namespace TokenStream

-- What the given number of steps read.
def read : Nat → TokenStream → List Token
  | 0, _ => []
  | n + 1, s => s.current :: s.advance.read n

-- Once all tokens have been read, it is the end of the text that is read, time and again.
theorem read_eq (s : TokenStream) (k : Nat) :
    s.read (s.size + k) = s.pending ++ List.replicate k s.eof := by
  obtain ⟨ts, stop⟩ := s
  induction ts
  case nil =>
    simp only [size, List.length_nil, Nat.zero_add, List.nil_append]
    induction k
    case zero => rfl
    case succ k hk => rw [read, List.replicate_succ, ← hk]; rfl
  case cons t ts hi =>
    simp only [size, List.length_cons, Nat.add_right_comm _ 1, read] at hi ⊢
    exact congrArg (t :: ·) hi

end TokenStream

-- Every token of a tiling is spelled by some text.
theorem Tiles.spelled {before cs : List Char} {ts : List Token} (h : Tiles before cs ts) :
    ∀ t ∈ ts, ∃ text rest, Spells text rest t.lexeme := by
  induction h
  case stop => exact nofun
  case token text rest _ _ _ _ hx _ hi => exact List.forall_mem_cons.mpr ⟨⟨text, rest, hx⟩, hi⟩

theorem Tiles.kind_ne_eof {before cs : List Char} {ts : List Token} (h : Tiles before cs ts) :
    ∀ t ∈ ts, t.kind ≠ .eof := by
  induction h
  case stop => exact nofun
  case token hx _ hi =>
    refine List.forall_mem_cons.mpr ⟨?_, hi⟩
    cases hx <;> exact nofun

-- The tokens of a source text are its one tiling. They are read one after another, and then it is
-- the end of the text that is read, as often as one likes. Each of them has a text of its own,
-- which tells what it is; one that is illegal begins with a quote if it is a string literal that
-- the source does not close.
theorem ofSource_tiles (source : String) :
    let s := TokenStream.ofSource source
    Tiles [] source.toList s.pending ∧
    (∀ ts, Tiles [] source.toList ts → ts = s.pending) ∧
    (∀ k, s.read (s.size + k) =
      s.pending ++ List.replicate k ⟨.eof, .behind source.toList⟩) ∧
    (∀ t ∈ s.pending, t.kind ≠ .eof) ∧
    (∀ text rest x, Spells text rest x →
      text ≠ [] ∧ ∀ rest' x', Spells text rest' x' → x' = x) ∧
    ∀ text rest t, Spells text rest (.illegal t) →
      (t.toList.head? = some '"' ↔ rest = [] ∧ ∃ body, text = '"' :: body ∧ Unclosed body) := by
  intro s
  have ht : Tiles [] source.toList s.pending := tiles_scan [] source.toList
  have hs : s.eof = ⟨.eof, .behind source.toList⟩ := by
    rw [TokenStream.eof, Location.behind_eq_after]
    exact congrArg _ (TokenStream.stop_scan .start source.toList)
  refine ⟨ht, fun ts h => h.eq_scan, fun k => ?_, ht.kind_ne_eof, fun text rest x h => ?_,
    fun text rest t h => h.head?_illegal⟩
  · rw [s.read_eq, hs]
  · exact ⟨h.text_ne_nil, fun rest' x' h' => h'.unique h⟩

end Marmoset
