import Marmoset.Text.Blank
import Marmoset.Token.Stream

/-!
Where a text is cut at the end of a line, its tokens and comments are those of the two parts, as
long as the first part has no token that is illegal. `getLast?_scan` says when such a part ends in
a semicolon.
-/

namespace Marmoset

-- The comments that `skipTrivia` passes over, from the slashes to the end of the line.
def leadingComments (inComment : Bool) : List Char → List (List Char)
  | [] => []
  | c :: cs =>
    if inComment then leadingComments (c ≠ '\n') cs
    else if Text.isBlank c then leadingComments false cs
    else if c = '/' ∧ cs.head? = some '/' then
      (c :: cs).takeWhile (· ≠ '\n') :: leadingComments true cs
    else []

-- All comments of a text.
def comments (cs : List Char) : List (List Char) :=
  match _h : skipTrivia .start false cs with
  | (_, []) => leadingComments false cs
  | (_, c :: rest) => leadingComments false cs ++ comments (Scan.token c rest).rest
termination_by cs.length
decreasing_by
  have h₁ := length_skipTrivia_le .start false cs
  have h₂ := Scan.length_rest_lt c rest
  rw [_h] at h₁
  exact Nat.lt_of_lt_of_le h₂ h₁

-- The last character that is not blank.
def lastInk (cs : List Char) : Option Char :=
  cs.reverse.find? (!Text.isBlank ·)

theorem lastInk_append (cs ds : List Char) : lastInk (cs ++ ds) = (lastInk ds).or (lastInk cs) := by
  simp [lastInk]

theorem lastInk_eq_none {cs : List Char} : lastInk cs = none ↔ ∀ c ∈ cs, Text.isBlank c := by
  simp [lastInk]

section

variable {p : α → Bool} {a : α}

theorem takeWhile_append_cons (h : p a = false) (xs ys : List α) :
    (xs ++ a :: ys).takeWhile p = xs.takeWhile p := by
  induction xs
  case nil => simp [h]
  case cons x xs hi =>
    simp only [List.cons_append, List.takeWhile_cons]
    split
    · rw [hi]
    · rfl

theorem dropWhile_append_cons (h : p a = false) (xs ys : List α) :
    (xs ++ a :: ys).dropWhile p = xs.dropWhile p ++ a :: ys := by
  induction xs
  case nil => simp [h]
  case cons x xs hi =>
    simp only [List.cons_append, List.dropWhile_cons]
    split
    · exact hi
    · rfl

end

section

variable {l here : Location} {b : Bool} {cs rest ds : List Char} {c : Char}

theorem after_skipTrivia (h : skipTrivia l b cs = (here, rest)) :
    here.after rest = l.after cs := by
  induction cs generalizing l b
  case nil =>
    cases h
    rfl
  case cons c cs hi =>
    unfold skipTrivia at h
    split at h
    · exact hi h
    · split at h
      · exact hi h
      · split at h
        · exact hi h
        · cases h
          rfl

theorem head?_append_newline (cs ds : List Char) :
    (cs ++ '\n' :: ds).head? = some '/' ↔ cs.head? = some '/' := by
  cases cs <;> simp

theorem takeWhile_append_newline (cs ds : List Char) :
    (cs ++ '\n' :: ds).takeWhile (· ≠ '\n') = cs.takeWhile (· ≠ '\n') :=
  takeWhile_append_cons (by decide) cs ds

-- Where there is trivia only, a line end leads out of a comment.
theorem trivia_append_of_nil (h : skipTrivia l b cs = (here, [])) (ds : List Char) :
    skipTrivia l b (cs ++ '\n' :: ds) = skipTrivia (l.after (cs ++ ['\n'])) false ds ∧
      leadingComments b (cs ++ '\n' :: ds) = leadingComments b cs ++ leadingComments false ds := by
  induction cs generalizing l b
  case nil =>
    have hn : Text.isBlank '\n' := by decide
    cases b <;> simp [skipTrivia, leadingComments, hn]
  case cons c cs hi =>
    unfold skipTrivia at h
    simp only [List.cons_append, skipTrivia, leadingComments, Location.after_cons]
    split at h
    case isTrue hb => simpa only [if_pos hb] using hi h
    case isFalse hb =>
      split at h
      case isTrue hc => simpa only [if_neg hb, if_pos hc] using hi h
      case isFalse hc =>
        split at h
        case isTrue hs =>
          simp only [if_neg hb, if_neg hc, head?_append_newline, if_pos hs, (hi h).left,
            (hi h).right, ← List.cons_append, takeWhile_append_newline, and_self]
        case isFalse => cases h

-- A token keeps what comes after it apart from the trivia in front of it.
theorem trivia_append_of_cons (h : skipTrivia l b cs = (here, c :: rest)) (ds : List Char) :
    skipTrivia l b (cs ++ '\n' :: ds) = (here, c :: (rest ++ '\n' :: ds)) ∧
      leadingComments b (cs ++ '\n' :: ds) = leadingComments b cs := by
  induction cs generalizing l b
  case nil => cases h
  case cons c cs hi =>
    unfold skipTrivia at h
    simp only [List.cons_append, skipTrivia, leadingComments]
    split at h
    case isTrue hb => simpa only [if_pos hb] using hi h
    case isFalse hb =>
      split at h
      case isTrue hc => simpa only [if_neg hb, if_pos hc] using hi h
      case isFalse hc =>
        split at h
        case isTrue hs =>
          simp only [if_neg hb, if_neg hc, head?_append_newline, if_pos hs, (hi h).left,
            (hi h).right, ← List.cons_append, takeWhile_append_newline, and_self]
        case isFalse hs =>
          cases h
          simp only [if_neg hb, if_neg hc, head?_append_newline, if_neg hs, and_self]

end

namespace Scan

variable {c : Char} {cs ds : List Char}

theorem literalBody?_append_rest {contents text rest : List Char}
    (h : literalBody? cs = some (contents, text, rest)) (ds : List Char) :
    literalBody? (cs ++ ds) = some (contents, text, rest ++ ds) := by
  fun_induction literalBody? cs generalizing contents text rest
  case case1 => cases h
  case case2 => cases h; rfl
  case case3 c cs hi =>
    obtain ⟨⟨x, t, r⟩, hr, he⟩ := Option.map_eq_some_iff.mp h
    cases he
    rw [List.cons_append, List.cons_append, literalBody?, hi hr]
    rfl
  case case4 c cs hq hb hi =>
    obtain ⟨⟨x, t, r⟩, hr, he⟩ := Option.map_eq_some_iff.mp h
    cases he
    cases cs
    case nil => cases hr
    case cons d cs =>
      rw [List.cons_append, literalBody?, hi hr]
      · rfl
      · exact hq
      · exact fun _ _ he _ => hb d cs he rfl

theorem ofChars?_of_head (c : Char) (h : cs.head? ≠ some '=') :
    Symbol.ofChars? (c :: cs) = Symbol.ofChars? [c] := by
  unfold Symbol.ofChars?
  split
  case h_20 => simp_all
  all_goals
    next he => cases he; first | rfl | contradiction

theorem ofChars?_cons_eq (c : Char) (cs ds : List Char) :
    Symbol.ofChars? (c :: '=' :: cs) = Symbol.ofChars? (c :: '=' :: ds) := by
  unfold Symbol.ofChars?
  split
  case h_20 => simp_all
  all_goals
    next he => cases he; first | rfl | simp_all

-- What comes next does not matter to a symbol unless it makes a longer one of it.
theorem symbol_append (c : Char) (h : (cs ++ ds).head? = some '=' → cs.head? = some '=') :
    symbol c (cs ++ ds) = { symbol c cs with rest := (symbol c cs).rest ++ ds } := by
  have h : Symbol.ofChars? (c :: (cs ++ ds)) = Symbol.ofChars? (c :: cs) := by
    by_cases hc : cs.head? = some '='
    case pos =>
      obtain ⟨cs, rfl⟩ := List.head?_eq_some_iff.mp hc
      exact ofChars?_cons_eq c _ cs
    case neg => rw [ofChars?_of_head c hc, ofChars?_of_head c (mt h hc)]
  unfold symbol
  rw [h]
  cases hs : Symbol.ofChars? (c :: cs)
  case none => rfl
  case some y =>
    have hl := congrArg List.length (Symbol.text_append_of_ofChars? hs)
    rw [List.length_append, String.length_toList] at hl
    simp only [← List.cons_append]
    rw [List.drop_append_of_le_length (by omega)]

-- A token other than an illegal one is not touched by what comes after the line.
theorem token_append (h : ∀ x, (token c cs).lexeme ≠ .illegal x) (ds : List Char) :
    token c (cs ++ '\n' :: ds) =
      { token c cs with rest := (token c cs).rest ++ '\n' :: ds } := by
  unfold token at h ⊢
  split
  case isTrue hq =>
    rw [if_pos hq] at h
    unfold stringLiteral at h ⊢
    cases hl : literalBody? cs
    case none => exact absurd rfl (hl ▸ h _)
    case some r => rw [literalBody?_append_rest hl]
  case isFalse hq =>
    split
    case isTrue =>
      have hn : isWordChar '\n' = false := by decide
      simp only [word, ← List.cons_append, takeWhile_append_cons hn, dropWhile_append_cons hn]
    case isFalse =>
      split
      case isTrue =>
        have hn : Char.isDigit '\n' = false := by decide
        simp only [integer, ← List.cons_append, takeWhile_append_cons hn, dropWhile_append_cons hn]
      case isFalse =>
        refine symbol_append c fun hc => ?_
        cases cs
        case nil => simp at hc
        case cons => exact hc

end Scan

namespace TokenStream

variable {l here : Location} {cs rest : List Char} {c : Char}

theorem scan_of_nil (h : skipTrivia l false cs = (here, [])) : scan l cs = ⟨[], here⟩ := by
  rw [scan]
  split
  · next h' =>
    cases h.symm.trans h'
    rfl
  · next h' => cases h.symm.trans h'

theorem scan_nil (l : Location) : scan l [] = ⟨[], l⟩ :=
  scan_of_nil rfl

theorem scan_of_cons (h : skipTrivia l false cs = (here, c :: rest)) :
    scan l cs = (scan (here.after (Scan.token c rest).text) (Scan.token c rest).rest).push
      ⟨(Scan.token c rest).lexeme, here⟩ := by
  rw [scan]
  split
  · next h' => cases h.symm.trans h'
  · next h' =>
    cases h.symm.trans h'
    rfl

end TokenStream

-- Where a text begins does not matter to what is trivia.
theorem skipTrivia_snd (l l' : Location) (b : Bool) (cs : List Char) :
    (skipTrivia l b cs).2 = (skipTrivia l' b cs).2 := by
  induction cs generalizing l l' b
  case nil => rfl
  case cons c cs hi =>
    unfold skipTrivia
    split
    · exact hi ..
    · split
      · exact hi ..
      · split
        · exact hi ..
        · rfl

theorem exists_skipTrivia {l here : Location} {b : Bool} {cs rest : List Char} (l' : Location)
    (h : skipTrivia l b cs = (here, rest)) : ∃ here', skipTrivia l' b cs = (here', rest) := by
  refine ⟨(skipTrivia l' b cs).1, ?_⟩
  rw [← show (skipTrivia l b cs).2 = rest from congrArg Prod.snd h, skipTrivia_snd l l']

theorem comments_of_nil {l here : Location} {cs : List Char}
    (h : skipTrivia l false cs = (here, [])) : comments cs = leadingComments false cs := by
  have ⟨here', hs⟩ := exists_skipTrivia .start h
  rw [comments]
  split
  · rfl
  · next h' => cases hs.symm.trans h'

theorem comments_of_cons {l here : Location} {cs rest : List Char} {c : Char}
    (h : skipTrivia l false cs = (here, c :: rest)) :
    comments cs = leadingComments false cs ++ comments (Scan.token c rest).rest := by
  have ⟨here', hs⟩ := exists_skipTrivia .start h
  rw [comments]
  split
  · next h' => cases hs.symm.trans h'
  · next h' =>
    cases hs.symm.trans h'
    rfl

-- A text is trivia, or what comes behind its first token is a shorter one.
theorem scan_induction {P : Location → List Char → Prop}
    (trivia : ∀ l cs here, skipTrivia l false cs = (here, []) → P l cs)
    (token : ∀ l cs here c rest, skipTrivia l false cs = (here, c :: rest) →
      P (here.after (Scan.token c rest).text) (Scan.token c rest).rest → P l cs)
    (l : Location) (cs : List Char) : P l cs := by
  induction hn : cs.length using Nat.strongRecOn generalizing l cs
  case ind n hi =>
    rcases ht : skipTrivia l false cs with ⟨here, _ | ⟨c, rest⟩⟩
    case nil => exact trivia l cs here ht
    case cons =>
      have h₁ := length_skipTrivia_le l false cs
      have h₂ := Scan.length_rest_lt c rest
      rw [ht] at h₁
      exact token l cs here c rest ht (hi _ (hn ▸ Nat.lt_of_lt_of_le h₂ h₁) _ _ rfl)

-- No token of the text is an illegal one.
def TokenStream.Legal (s : TokenStream) : Prop :=
  ∀ t ∈ s.pending, ∀ x, t.lexeme ≠ .illegal x

-- What is scanned of a text whose first part is legal, up to the end of a line, and of its rest.
theorem scan_append (l : Location) (cs ds : List Char) (h : (TokenStream.scan l cs).Legal) :
    TokenStream.scan l (cs ++ '\n' :: ds) =
        ⟨(TokenStream.scan l cs).pending ++ (TokenStream.scan (l.after (cs ++ ['\n'])) ds).pending,
          (TokenStream.scan (l.after (cs ++ ['\n'])) ds).stop⟩ ∧
      comments (cs ++ '\n' :: ds) = comments cs ++ comments ds := by
  induction l, cs using scan_induction
  case trivia l cs here ht =>
    have ⟨hs, hc⟩ := trivia_append_of_nil ht ds
    rw [TokenStream.scan_of_nil ht, comments_of_nil ht]
    rcases hd : skipTrivia (l.after (cs ++ ['\n'])) false ds with ⟨here', _ | ⟨c, rest⟩⟩
    case nil =>
      rw [hd] at hs
      rw [TokenStream.scan_of_nil hs, TokenStream.scan_of_nil hd, comments_of_nil hs,
        comments_of_nil hd]
      exact ⟨rfl, hc⟩
    case cons =>
      rw [hd] at hs
      rw [TokenStream.scan_of_cons hs, TokenStream.scan_of_cons hd, comments_of_cons hs,
        comments_of_cons hd, hc, List.append_assoc]
      exact ⟨rfl, rfl⟩
  case token l cs here c rest ht hi =>
    have ⟨hs, hc⟩ := trivia_append_of_cons ht ds
    have ha : l.after (cs ++ ['\n']) =
        (here.after (Scan.token c rest).text).after ((Scan.token c rest).rest ++ ['\n']) := by
      rw [Location.after_append, ← after_skipTrivia ht, ← Scan.text_append_rest c rest,
        Location.after_append, Location.after_append]
    rw [TokenStream.scan_of_cons ht] at h ⊢
    have hl (x : String) : (Scan.token c rest).lexeme ≠ .illegal x := h _ List.mem_cons_self x
    have ⟨hi, hc'⟩ := hi fun t ht => h t (List.mem_cons_of_mem _ ht)
    rw [TokenStream.scan_of_cons hs, comments_of_cons hs, comments_of_cons ht,
      Scan.token_append hl, hi, hc, hc', ha, List.append_assoc]
    exact ⟨rfl, rfl⟩

theorem lastInk_cons (c : Char) (cs : List Char) :
    lastInk (c :: cs) = (lastInk cs).or (lastInk [c]) :=
  lastInk_append [c] cs

theorem lastInk_append_cons {c : Char} (hc : Text.isBlank c = false) (cs ds : List Char) :
    lastInk (cs ++ c :: ds) = lastInk (c :: ds) := by
  rw [lastInk_append, lastInk_cons]
  cases lastInk ds <;> simp [lastInk, hc]

theorem mem_of_lastInk {x : Char} {cs : List Char} (h : lastInk cs = some x) : x ∈ cs :=
  List.mem_reverse.mp (List.mem_of_find?_eq_some h)

theorem lastInk_takeWhile_cons {c x : Char} {cs : List Char} (hc : c ≠ '\n')
    (h : lastInk (c :: cs) = some x) :
    lastInk cs = some x ∨ lastInk ((c :: cs).takeWhile (· ≠ '\n')) = some x := by
  cases hs : lastInk cs
  case some y =>
    rw [lastInk_cons, hs] at h
    exact .inl h
  case none =>
    have hb : lastInk (cs.takeWhile (· ≠ '\n')) = none :=
      lastInk_eq_none.mpr fun d hd => lastInk_eq_none.mp hs d ((List.takeWhile_prefix _).subset hd)
    rw [lastInk_cons, hs] at h
    rw [List.takeWhile_cons_of_pos (by simpa using hc), lastInk_cons, hb]
    exact .inr h

theorem lastInk_takeWhile_of_tail {c x : Char} {cs : List Char} (hc : c ≠ '\n')
    (h : lastInk (cs.takeWhile (· ≠ '\n')) = some x) :
    lastInk ((c :: cs).takeWhile (· ≠ '\n')) = some x := by
  rw [List.takeWhile_cons_of_pos (by simpa using hc), lastInk_cons, h]
  rfl

-- The ink of a text that is all trivia belongs to its comments.
theorem lastInk_trivia {l here : Location} {b : Bool} {cs : List Char} {x : Char}
    (h : skipTrivia l b cs = (here, [])) (hx : lastInk cs = some x) :
    (∃ t ∈ leadingComments b cs, lastInk t = some x) ∨
      b ∧ lastInk (cs.takeWhile (· ≠ '\n')) = some x := by
  induction cs generalizing l b
  case nil => cases hx
  case cons c cs hi =>
    unfold skipTrivia at h
    unfold leadingComments
    split at h
    case isTrue hb =>
      rw [if_pos hb]
      by_cases hc : c = '\n'
      case pos =>
        subst hc
        rw [lastInk_cons, show lastInk ['\n'] = none by decide, Option.or_none] at hx
        exact .inl ((hi h hx).resolve_right (by simp))
      case neg =>
        obtain hx | hx := lastInk_takeWhile_cons hc hx
        · exact (hi h hx).imp id fun h => ⟨hb, lastInk_takeWhile_of_tail hc h.right⟩
        · exact .inr ⟨hb, hx⟩
    case isFalse hb =>
      rw [if_neg hb]
      split at h
      case isTrue hc =>
        have hn : lastInk [c] = none := lastInk_eq_none.mpr (by simpa using hc)
        rw [lastInk_cons, hn, Option.or_none] at hx
        rw [if_pos hc]
        exact .inl ((hi h hx).resolve_right (by simp))
      case isFalse hc =>
        rw [if_neg hc]
        split at h
        case isTrue hs =>
          have hc : c ≠ '\n' := by simp [hs.left]
          rw [if_pos hs]
          refine .inl ?_
          obtain hx | hx := lastInk_takeWhile_cons hc hx
          · obtain ⟨t, ht, hx⟩ | ⟨_, hx⟩ := hi h hx
            · exact ⟨t, List.mem_cons_of_mem _ ht, hx⟩
            · exact ⟨_, List.mem_cons_self, lastInk_takeWhile_of_tail hc hx⟩
          · exact ⟨_, List.mem_cons_self, hx⟩
        case isFalse => cases h

theorem skipTrivia_suffix {l here : Location} {b : Bool} {c : Char} {cs rest : List Char}
    (h : skipTrivia l b cs = (here, c :: rest)) :
    ∃ pre, cs = pre ++ c :: rest ∧ Text.isBlank c = false := by
  induction cs generalizing l b
  case nil => cases h
  case cons d cs hi =>
    have more {l b} (h : skipTrivia l b cs = (here, c :: rest)) :
        ∃ pre, d :: cs = pre ++ c :: rest ∧ Text.isBlank c = false := by
      have ⟨pre, hp, hc⟩ := hi h
      exact ⟨d :: pre, by rw [hp, List.cons_append], hc⟩
    unfold skipTrivia at h
    split at h
    · exact more h
    · split at h
      · exact more h
      · split at h
        · exact more h
        · cases h
          exact ⟨[], rfl, by simpa using ‹¬Text.isBlank c = true›⟩

theorem skipTrivia_of_blank {cs : List Char} (h : ∀ c ∈ cs, Text.isBlank c) (l : Location) :
    skipTrivia l false cs = (l.after cs, []) := by
  induction cs generalizing l
  case nil => rfl
  case cons c cs hi =>
    rw [skipTrivia, if_neg Bool.false_ne_true, if_pos (h c List.mem_cons_self), Location.after_cons]
    exact hi (fun d hd => h d (List.mem_cons_of_mem _ hd)) _

theorem Symbol.eq_semicolon {y : Symbol} (h : lastInk y.text.toList = some ';') :
    y = .semicolon := by
  cases y <;> first | rfl | exact absurd h (by decide)

namespace Scan

variable {c : Char} {cs : List Char}

theorem lastInk_literalBody? {contents text rest : List Char}
    (h : literalBody? cs = some (contents, text, rest)) : lastInk text = some '"' := by
  fun_induction literalBody? cs generalizing contents text rest
  case case1 => cases h
  case case2 =>
    cases h
    decide
  case case3 c cs hi =>
    obtain ⟨⟨x, t, r⟩, hr, he⟩ := Option.map_eq_some_iff.mp h
    cases he
    rw [lastInk_cons, lastInk_cons, hi hr]
    rfl
  case case4 c cs hq hb hi =>
    obtain ⟨⟨x, t, r⟩, hr, he⟩ := Option.map_eq_some_iff.mp h
    cases he
    rw [lastInk_cons, hi hr]
    rfl

-- No other token ends in a semicolon.
theorem lexeme_of_lastInk (hl : ∀ x, (token c cs).lexeme ≠ .illegal x)
    (h : lastInk (token c cs).text = some ';') : (token c cs).lexeme = .symbol .semicolon := by
  unfold token at hl h ⊢
  split at h
  case isTrue hq =>
    rw [if_pos hq] at hl
    unfold stringLiteral at hl h
    cases hb : literalBody? cs
    case none => exact absurd rfl (hb ▸ hl _)
    case some r =>
      rw [hb] at h
      dsimp only at h
      rw [lastInk_cons, lastInk_literalBody? hb] at h
      cases h
  case isFalse hq =>
    rw [if_neg hq] at hl ⊢
    split at h
    case isTrue hw =>
      exact absurd (List.all_eq_true.mp List.all_takeWhile _ (mem_of_lastInk h)) (by decide)
    case isFalse hw =>
      rw [if_neg hw] at hl ⊢
      split at h
      case isTrue hd =>
        exact absurd (List.all_eq_true.mp List.all_takeWhile _ (mem_of_lastInk h)) (by decide)
      case isFalse hd =>
        rw [if_neg hd] at hl ⊢
        unfold symbol at hl h ⊢
        cases hs : Symbol.ofChars? (c :: cs) <;> rw [hs] at hl h
        case none => exact absurd rfl (hl _)
        case some y => exact congrArg Lexeme.symbol (Symbol.eq_semicolon h)

end Scan

-- If a semicolon is the last ink of a text and of none of its comments, it is the last token.
theorem getLast?_scan (l : Location) {cs : List Char} (h : (TokenStream.scan l cs).Legal)
    (hc : ∀ t ∈ comments cs, lastInk t ≠ some ';') (hl : lastInk cs = some ';') :
    ∃ t ∈ (TokenStream.scan l cs).pending.getLast?, t.lexeme = .symbol .semicolon := by
  induction l, cs using scan_induction
  case trivia l cs here ht =>
    rw [comments_of_nil ht] at hc
    obtain ⟨t, ht, hx⟩ | ⟨hb, _⟩ := lastInk_trivia ht hl
    · exact absurd hx (hc t ht)
    · cases hb
  case token l cs here c rest ht hi =>
    have ⟨pre, hp, hb⟩ := skipTrivia_suffix ht
    rw [TokenStream.scan_of_cons ht] at h ⊢
    rw [comments_of_cons ht] at hc
    rw [hp, lastInk_append_cons hb, ← Scan.text_append_rest, lastInk_append] at hl
    cases hr : lastInk (Scan.token c rest).rest
    case some y =>
      rw [hr] at hl
      have ⟨t, hg, hx⟩ := hi (fun t ht => h t (List.mem_cons_of_mem _ ht))
        (fun t ht => hc t (List.mem_append_right _ ht)) (hr.trans hl)
      refine ⟨t, ?_, hx⟩
      rw [TokenStream.push, List.getLast?_cons, hg]
      rfl
    case none =>
      -- Behind the token there are blanks only.
      have hn := skipTrivia_of_blank (lastInk_eq_none.mp hr) (here.after (Scan.token c rest).text)
      rw [TokenStream.scan_of_nil hn]
      rw [hr] at hl
      exact ⟨_, rfl, Scan.lexeme_of_lastInk (h _ List.mem_cons_self) hl⟩

end Marmoset
