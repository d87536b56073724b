import Marmoset.Proofs.Locality

/-!
Two source texts, the first of which ends in a semicolon, are scanned and parsed together as they
are each on their own, but for the places of the second (`parse_append`).
-/

namespace Marmoset

namespace Location

-- Where `l`, a place in a text, comes to be when the text is put behind `cs`.
def shift (cs : List Char) (l : Location) : Location where
  line := l.line + cs.count '\n'
  -- Only the first line has something to the left of it, the last line of `cs`.
  column := if l.line = 1 then l.column + (cs.reverse.takeWhile (· ≠ '\n')).length else l.column

theorem shift_start (cs : List Char) : shift cs start = start.after cs := by
  obtain ⟨ds, rfl⟩ : ∃ ds, cs = ds.reverse := ⟨cs.reverse, cs.reverse_reverse.symm⟩
  induction ds
  case nil => rfl
  case cons d ds hi =>
    rw [List.reverse_cons, after_append, ← hi]
    by_cases hd : d = '\n' <;> simp [shift, start, next, hd] <;> omega

theorem shift_next (cs : List Char) {l : Location} (hl : 1 ≤ l.line) (c : Char) :
    shift cs (l.next c) = (shift cs l).next c := by
  by_cases hc : c = '\n'
  case pos =>
    have hn : l.line + 1 ≠ 1 := by omega
    simp [shift, next, hc, hn]
    omega
  case neg =>
    simp only [shift, next, if_neg hc, mk.injEq, true_and]
    split <;> omega

theorem next_inj {l l' : Location} {c : Char} (hc : c ≠ '\n') (h : l.next c = l'.next c) :
    l = l' := by
  simp only [next, if_neg hc, mk.injEq] at h
  exact Location.ext h.left (by omega)

theorem line_next_le (l : Location) (c : Char) : l.line ≤ (l.next c).line := by
  unfold next
  split
  · exact Int.le_of_lt (Int.lt_succ _)
  · exact Int.le_refl _

theorem shift_after (cs : List Char) {l : Location} (hl : 1 ≤ l.line) (ds : List Char) :
    shift cs (l.after ds) = (shift cs l).after ds ∧ 1 ≤ (l.after ds).line := by
  induction ds generalizing l
  case nil => exact ⟨rfl, hl⟩
  case cons d ds hi =>
    rw [after_cons, after_cons, ← shift_next cs hl]
    exact hi (Int.le_trans hl (line_next_le l d))

-- A text that does not lead to a later place is empty.
theorem eq_nil_of_after {l : Location} {cs : List Char} (h : l.after cs = l) : cs = [] := by
  have later (l : Location) (cs : List Char) : l.line < (l.after cs).line ∨
      l.line = (l.after cs).line ∧ (l.after cs).column = l.column + cs.length := by
    induction cs generalizing l
    case nil => exact .inr ⟨rfl, (Int.add_zero _).symm⟩
    case cons c cs hi =>
      rw [after_cons, List.length_cons]
      have hi := hi (l.next c)
      by_cases hc : c = '\n' <;> simp only [next, hc, if_true, if_false] at hi ⊢ <;> omega
  have := h ▸ later l cs
  refine List.length_eq_zero_iff.mp ?_
  omega

end Location

section

variable {l here : Location} {b : Bool} {cs rest ds : List Char} {c : Char}

-- Where a token begins that has more than a slash in front of the end, what is behind the end does
-- not make a comment of it.
theorem skipTrivia_append (h : skipTrivia l b cs = (here, c :: rest)) (hr : rest ≠ [] ∨ c ≠ '/')
    (ds : List Char) : skipTrivia l b (cs ++ ds) = (here, c :: (rest ++ ds)) := by
  induction cs generalizing l b
  case nil => cases h
  case cons d cs hi =>
    rw [List.cons_append]
    unfold skipTrivia at h ⊢
    split at h
    case isTrue hb => simpa only [if_pos hb] using hi h
    case isFalse hb =>
      split at h
      case isTrue hd => simpa only [if_neg hb, if_pos hd] using hi h
      case isFalse hd =>
        split at h
        case isTrue hs =>
          have hs : d = '/' ∧ (cs ++ ds).head? = some '/' := by simp [hs]
          simpa only [if_neg hb, if_neg hd, if_pos hs] using hi h
        case isFalse hs =>
          cases h
          have hs : ¬(c = '/' ∧ (rest ++ ds).head? = some '/') := by
            cases rest
            case nil => exact fun h => hr.elim (absurd rfl) (absurd h.left)
            case cons => exact hs
          simp only [if_neg hb, if_neg hd, if_neg hs]

theorem skipTrivia_shift (xs : List Char) (hl : 1 ≤ l.line)
    (h : skipTrivia l b cs = (here, rest)) :
    skipTrivia (Location.shift xs l) b cs = (Location.shift xs here, rest) ∧ 1 ≤ here.line := by
  induction cs generalizing l b
  case nil =>
    cases h
    exact ⟨rfl, hl⟩
  case cons c cs hi =>
    have hn := Int.le_trans hl (l.line_next_le c)
    unfold skipTrivia at h ⊢
    rw [← Location.shift_next xs hl c]
    split at h
    case isTrue hb => simpa only [if_pos hb] using hi hn h
    case isFalse hb =>
      split at h
      case isTrue hd => simpa only [if_neg hb, if_pos hd] using hi hn h
      case isFalse hd =>
        split at h
        case isTrue hs => simpa only [if_neg hb, if_neg hd, if_pos hs] using hi hn h
        case isFalse hs =>
          cases h
          simpa only [if_neg hb, if_neg hd, if_neg hs, true_and] using hl

namespace Scan

theorem takeWhile_append {p : α → Bool} {xs : List α} (h : xs.dropWhile p ≠ []) (ys : List α) :
    (xs ++ ys).takeWhile p = xs.takeWhile p ∧ (xs ++ ys).dropWhile p = xs.dropWhile p ++ ys := by
  constructor
  case left =>
    rw [List.takeWhile_append, if_neg]
    intro hl
    have ht := congrArg List.length (List.takeWhile_append_dropWhile (p := p) (l := xs))
    rw [List.length_append, hl] at ht
    exact h (List.length_eq_zero_iff.mp (by omega))
  case right => rw [List.dropWhile_append, if_neg (by simpa using h)]

-- A token that does not reach to the end is not touched by what is behind the end.
theorem token_append_of_rest (h : (token c cs).rest ≠ []) (ds : List Char) :
    token c (cs ++ ds) = { token c cs with rest := (token c cs).rest ++ ds } := by
  have hn : cs ≠ [] := by
    rintro rfl
    exact h (List.length_eq_zero_iff.mp (Nat.lt_one_iff.mp (length_rest_lt c [])))
  unfold token at h ⊢
  split
  case isTrue hq =>
    rw [if_pos hq] at h
    unfold stringLiteral at h ⊢
    cases hl : literalBody? cs
    case none => simp [hl] at h
    case some r => rw [literalBody?_append_rest hl]
  case isFalse hq =>
    rw [if_neg hq] at h
    split
    case isTrue hw =>
      rw [if_pos hw] at h
      obtain ⟨ht, hd⟩ := takeWhile_append h ds
      simp only [word, ← List.cons_append, ht, hd]
    case isFalse hw =>
      rw [if_neg hw] at h
      split
      case isTrue hd =>
        rw [if_pos hd] at h
        obtain ⟨ht, hd⟩ := takeWhile_append h ds
        simp only [integer, ← List.cons_append, ht, hd]
      case isFalse hd =>
        rw [if_neg hd] at h
        refine symbol_append c fun hc => ?_
        cases cs
        case nil => exact absurd rfl hn
        case cons => exact hc

theorem text_of_symbol {y : Symbol} (h : (token c cs).lexeme = .symbol y) :
    (token c cs).text = y.text.toList := by
  unfold token at h ⊢
  split at h
  case isTrue hq =>
    unfold stringLiteral at h
    split at h <;> cases h
  case isFalse hq =>
    rw [if_neg hq]
    split at h
    case isTrue hw =>
      simp only [word] at h
      cases hk : Keyword.ofText? (String.ofList ((c :: cs).takeWhile isWordChar)) <;>
        simp [hk] at h
    case isFalse hw =>
      rw [if_neg hw]
      split at h
      case isTrue => cases h
      case isFalse hd =>
        rw [if_neg hd]
        unfold symbol at h ⊢
        split at h <;> cases h
        rfl

end Scan

end

namespace TokenStream

-- The last character of the text is a token, the semicolon.
def EndsInSemicolon (l : Location) (cs : List Char) : Prop :=
  ∃ body, cs = body ++ [';'] ∧
    (scan l cs).pending.getLast? = some ⟨.symbol .semicolon, l.after body⟩

variable {l here : Location} {cs rest : List Char} {c : Char}

theorem EndsInSemicolon.behind (h : EndsInSemicolon l cs)
    (ht : skipTrivia l false cs = (here, c :: rest)) :
    c = ';' ∧ rest = [] ∨ (Scan.token c rest).rest ≠ [] ∧
      EndsInSemicolon (here.after (Scan.token c rest).text) (Scan.token c rest).rest := by
  obtain ⟨body, rfl, h⟩ := h
  have ha := after_skipTrivia ht
  have hr := Scan.text_append_rest c rest
  rw [scan_of_cons ht, push, List.getLast?_cons] at h
  rw [← hr] at ha
  simp only [Location.after_append, Location.after_cons, Location.after_nil] at ha
  cases hp : (scan (here.after (Scan.token c rest).text) (Scan.token c rest).rest).pending.getLast?
  case none =>
    -- The token is the last one, and behind the semicolon that it is there is nothing.
    rw [hp] at h
    obtain ⟨hl, hb⟩ := Token.mk.inj (Option.some.inj h)
    rw [Scan.text_of_symbol hl] at hr ha
    obtain ⟨rfl, he⟩ := List.cons.inj hr
    rw [← hb] at ha
    rw [Location.eq_nil_of_after ha] at he
    exact .inl ⟨rfl, he.symm⟩
  case some t =>
    rw [hp] at h
    have hn : (Scan.token c rest).rest ≠ [] := by
      intro hn
      rw [hn, scan_nil] at hp
      cases hp
    obtain ⟨ys, y, he⟩ := (List.eq_nil_or_concat _).resolve_left hn
    rw [List.concat_eq_append] at he
    obtain ⟨pre, hs, _⟩ := skipTrivia_suffix ht
    rw [← hr, he, ← List.append_assoc, ← List.append_assoc] at hs
    obtain ⟨rfl, hy⟩ := List.append_inj' hs rfl
    cases hy
    rw [he, Location.after_append] at ha
    have ha := Location.next_inj (show ';' ≠ '\n' by decide) ha
    exact .inr ⟨hn, ys, he, by rw [hp, ha]; exact h⟩

-- Where the last character is a token, the semicolon, a text goes on as a new one does.
theorem scan_append_of_ends (h : EndsInSemicolon l cs) (ds : List Char) :
    scan l (cs ++ ds) = scan l cs ++ scan (l.after cs) ds := by
  induction l, cs using scan_induction
  case trivia l cs here ht =>
    have ⟨body, _, h⟩ := h
    rw [scan_of_nil ht] at h
    cases h
  case token l cs here c rest ht hi =>
    have ha := after_skipTrivia ht
    obtain ⟨rfl, rfl⟩ | ⟨hn, hb⟩ := h.behind ht
    case inl =>
      have hs := skipTrivia_append ht (.inr (by decide)) ds
      have hd (ds : List Char) : Scan.token ';' ds = ⟨.symbol .semicolon, [';'], ds⟩ := rfl
      rw [scan_of_cons hs, scan_of_cons ht, ← ha, hd, hd, scan_nil]
      rfl
    case inr =>
      have hr : rest ≠ [] := by
        rintro rfl
        exact hn (List.length_eq_zero_iff.mp (Nat.lt_one_iff.mp (Scan.length_rest_lt c [])))
      have hs := skipTrivia_append ht (.inl hr) ds
      rw [scan_of_cons hs, scan_of_cons ht, Scan.token_append_of_rest hn, hi hb, ← ha,
        ← Scan.text_append_rest c rest, Location.after_append]
      rfl

-- The tokens of a text that is put behind another are moved.
theorem scan_shift (xs : List Char) {l : Location} (hl : 1 ≤ l.line) (cs : List Char) :
    (scan l cs).relocate (Location.shift xs) = scan (Location.shift xs l) cs := by
  induction l, cs using scan_induction
  case trivia l cs here ht =>
    have ⟨ht', _⟩ := skipTrivia_shift xs hl ht
    rw [scan_of_nil ht, scan_of_nil ht']
    rfl
  case token l cs here c rest ht hi =>
    have ⟨ht', hl⟩ := skipTrivia_shift xs hl ht
    have ⟨ha, hl⟩ := Location.shift_after xs hl (Scan.token c rest).text
    rw [scan_of_cons ht, scan_of_cons ht', push_relocate, hi hl, ha]
    rfl

theorem ofSource_append {first : String} (h : EndsInSemicolon .start first.toList)
    (second : String) :
    ofSource (first ++ second) =
      ofSource first ++ (ofSource second).relocate (Location.shift first.toList) := by
  rw [ofSource, ofSource, ofSource, String.toList_append, scan_append_of_ends h,
    scan_shift _ (show 1 ≤ Location.start.line by decide), Location.shift_start]

theorem stop_scan (l : Location) (cs : List Char) : (scan l cs).stop = l.after cs := by
  induction l, cs using scan_induction
  case trivia ht =>
    rw [scan_of_nil ht, ← after_skipTrivia ht]
    rfl
  case token c rest ht hi =>
    rw [scan_of_cons ht, push, hi, ← after_skipTrivia ht, ← Location.after_append,
      Scan.text_append_rest]

theorem EndsInSemicolon.terminated {l : Location} {cs : List Char} (h : EndsInSemicolon l cs) :
    Terminated (scan l cs).pending := by
  have ⟨body, _, h⟩ := h
  intro t ht
  cases h.symm.trans ht
  rfl

end TokenStream

-- If the first source ends in a semicolon and nothing is wrong at its end, then the statements and
-- errors of both sources are those of the first and those of the second.
theorem parse_append (frames : Nat) {first second : String}
    (h : TokenStream.EndsInSemicolon .start first.toList)
    (he : ∀ e ∈ (parse frames first).errors,
      e.location ≠ some (Location.start.after first.toList) ∧ e.cause ≠ .tooDeep) :
    let shift := Location.shift first.toList
    let whole := parse frames (first ++ second)
    whole.program.statements = (parse frames first).program.statements ++
        (parse frames second).program.statements.map (·.relocate shift) ∧
      whole.errors = (parse frames first).errors ++
        (parse frames second).errors.map (·.relocate shift) := by
  intro shift whole
  have hr : ∀ r ∈ (parse frames first).recoveries,
      r.error.location ≠ some (TokenStream.ofSource first).stop ∧ r.error ≠ .tooDeep := by
    intro r hr
    have ⟨hl, hc⟩ := he r.error (List.mem_map_of_mem hr)
    rw [TokenStream.ofSource, TokenStream.stop_scan]
    exact ⟨hl, fun hd => hc (congrArg SyntaxError.cause hd)⟩
  have hs := Parse.statements_append_of_terminated
    (u := (TokenStream.ofSource second).relocate shift)
    (Nat.le_refl _) (Nat.le_refl _) h.terminated hr
  rw [Parse.ReadApart, ← TokenStream.ofSource, ← TokenStream.ofSource_append h,
    TokenStream.size_relocate, Parse.statements_relocate] at hs
  refine ⟨hs.left, ?_⟩
  have he := congrArg (List.map (·.error)) hs.right
  rw [List.map_append, List.map_map] at he
  refine he.trans (congrArg (_ ++ ·) ?_)
  rw [parse, Parse.errors, List.map_map]
  rfl

-- Both sources have errors, and the second begins on the last line of the first.
theorem parse_append_broken :
    let first := "let x 5;\nlet y = 6;"
    let second := "let 7; y\n + z; #"
    let whole := parse defaultFrames (first ++ second)
    whole.errors.map (·.location) = [some ⟨1, 7⟩, some ⟨2, 15⟩, some ⟨3, 7⟩] ∧
    whole.errors = (parse defaultFrames first).errors ++ (parse defaultFrames second).errors.map
      (·.relocate (Location.shift first.toList)) ∧
    whole.program.source = "let y = 6;\n(y + z)" := by
  intro first second whole
  have hf : TokenStream.EndsInSemicolon .start first.toList :=
    ⟨"let x 5;\nlet y = 6".toList, by decide +kernel, by decide +kernel⟩
  have he : ∀ e ∈ (parse defaultFrames first).errors,
      e.location ≠ some (Location.start.after first.toList) ∧ e.cause ≠ .tooDeep := by
    decide +kernel
  exact ⟨by decide +kernel, (parse_append defaultFrames hf he).right, by decide +kernel⟩

end Marmoset
