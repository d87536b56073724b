import Mathlib.Data.List.Basic
import Marmoset.Proofs.Guided
import Marmoset.Proofs.Layout
import Marmoset.Proofs.Recovery
import Marmoset.Proofs.Separated

/-!
The first error that names a token is at the first token that cannot go on from what is in front of
it (`parse_first_error`): what is in front of it can be completed, and with it nothing can.
-/

namespace Marmoset

/-!
Texts.
-/

-- A token is still the same where what follows it begins alike, or with a blank.
theorem Spells.before {text rest cs : List Char} {x : Lexeme} (h : Spells text rest x)
    (hx : x.kind ≠ .illegal) (hc : cs.head? = rest.head? ∨ Parted cs) : Spells text cs x := by
  have breaks (hb : Breaks rest) : Breaks cs :=
    hc.elim (fun hc d hd => hb d (hc ▸ hd)) (·.breaks)
  have ne {d : Char} (hb : Text.isBlank d = false) (hd : rest.head? ≠ some d) :
      cs.head? ≠ some d := hc.elim (· ▸ hd) (·.head?_ne hb)
  cases h
  case symbol y ha hs =>
    exact .symbol y (fun hy => ne (by decide) (ha hy)) fun hy => ne (by decide) (hs hy)
  case keyword k hb => exact .keyword k (breaks hb)
  case ident hs hw hk hb => exact .ident hs hw hk (breaks hb)
  case int hs hd hr =>
    exact .int hs hd (hc.elim (fun hc d hd => hr d (hc ▸ hd)) (·.isDigit_eq_false))
  case string hd => exact .string hd
  case unterminated => exact absurd rfl hx
  case stray => exact absurd rfl hx

theorem Trivia.append {cs ds : List Char} (h : Trivia cs) (hd : Trivia ds) :
    Trivia (cs ++ ds) := by
  induction h
  case nil => exact hd
  case blank hb _ hi => exact .blank hb hi
  case comment hb _ hi =>
    simp only [List.cons_append, List.append_assoc]
    exact .comment hb hi

-- A line end closes a comment.
theorem LastTrivia.newline {cs : List Char} (h : LastTrivia cs) : Trivia (cs ++ ['\n']) := by
  cases h
  case closed h => exact h.append (.blank (by decide) .nil)
  case comment h hb =>
    rw [List.append_assoc]
    exact h.append (.comment hb .nil)

-- A text has no two beginnings that end at one place.
theorem Location.eq_of_behind {cs ds cs' ds' : List Char} (h : cs ++ ds = cs' ++ ds')
    (hl : behind cs = behind cs') : cs = cs' := by
  obtain ⟨es, rfl, _⟩ | ⟨es, rfl, _⟩ := List.append_eq_append_iff.mp h
  case inl =>
    rw [behind_append] at hl
    rw [eq_nil_of_after hl.symm, List.append_nil]
  case inr =>
    rw [behind_append] at hl
    rw [eq_nil_of_after hl, List.append_nil]

theorem exists_spaced (xs : List Lexeme) : ∃ cs, Spaced xs cs := by
  induction xs
  case nil => exact ⟨[], .nil⟩
  case cons x xs hi =>
    obtain ⟨cs, h⟩ := hi
    cases xs
    case nil => exact ⟨_, .single x⟩
    case cons => exact ⟨_, .cons x (.mk (c := ' ') (by decide) .nil) h⟩

-- Where a text is cut in front of a token, other tokens can be put behind it on a new line.
theorem Tiles.cut {before cs : List Char} {ts us : List Token} {xs : List Lexeme}
    (h : Tiles before cs (ts ++ us)) (ht : ∀ t ∈ ts, t.kind ≠ .illegal)
    (hx : ∀ x ∈ xs, x.Writable) : ∃ head tail, cs = head ++ tail ∧
      (us = [] → tail = []) ∧ (∀ u ∈ us.head?, u.location = .behind (before ++ head)) ∧
      ∃ ds vs, Tiles before (head ++ '\n' :: ds) (ts ++ vs) ∧ vs.map (·.lexeme) = xs := by
  induction ts generalizing before cs
  case nil =>
    -- What is left of the text is trivial up to a line end, whether a token follows or not.
    obtain ⟨ds, hd⟩ := exists_spaced xs
    have behind {gap : List Char} (hg : Trivia (gap ++ ['\n'])) :
        ∃ ds vs, Tiles before (gap ++ '\n' :: ds) ([] ++ vs) ∧ vs.map (·.lexeme) = xs := by
      obtain ⟨vs, hv, he⟩ :=
        hd.tiles hg (fun x hm => (hx x hm).spelled) (fun x hm => (hx x hm).legal) before
      exact ⟨ds, vs, by simpa using hv, he⟩
    cases h
    case stop h => exact ⟨cs, [], by simp, fun _ => rfl, nofun, behind h.newline⟩
    case token gap text rest x ts hg hs _ =>
      refine ⟨gap, text ++ rest, by simp, nofun, ?_, behind (LastTrivia.closed hg).newline⟩
      rintro _ ⟨⟩
      rfl
  case cons t ts hi =>
    cases h
    case token gap text rest x hg hs h =>
      obtain ⟨hl, ht⟩ := List.forall_mem_cons.mp ht
      obtain ⟨head, tail, rfl, he, hu, ds, vs, hv, hvs⟩ := hi h ht
      refine ⟨gap ++ text ++ head, tail, by simp, he, by simpa using hu, ds, vs, ?_, hvs⟩
      have hn : (head ++ '\n' :: ds).head? = (head ++ tail).head? ∨
          Parted (head ++ '\n' :: ds) := by
        cases head
        case nil => exact .inr (by rintro _ ⟨⟩; decide)
        case cons => exact .inl rfl
      rw [List.append_assoc (gap ++ text)]
      exact .token hg (hs.before hl hn) hv

namespace TokenStream

variable {source : String} {t : Token}

theorem exists_head (h : t ∈ (ofSource source).toList) :
    ∃ head tail : String, source = head ++ tail ∧ .behind head.toList = t.location := by
  obtain h | h := List.mem_append.mp h
  case inl =>
    have ht : Tiles [] source.toList (ofSource source).pending := tiles_scan [] source.toList
    obtain ⟨cs, text, rest, he, hl, _⟩ := ht.exists_spells t h
    refine ⟨String.ofList cs, String.ofList (text ++ rest), ?_, by simp [hl]⟩
    rw [← String.ofList_append, ← List.append_assoc, ← he, String.ofList_toList]
  case inr =>
    obtain rfl := List.mem_singleton.mp h
    exact ⟨source, "", by simp, (stop_ofSource source).symm⟩

-- No two tokens are at one place.
theorem split_unique (h : (ofSource source).toList = ts ++ t :: us)
    (h' : (ofSource source).toList = ts' ++ t' :: us') (hl : t.location = t'.location) :
    ts = ts' ∧ t = t' := by
  have ho := toList_ordered source
  rw [h, List.map_append, List.map_cons] at ho
  obtain ⟨_, hu, ht⟩ := List.pairwise_append.mp ho
  have hts : t' ∉ ts := fun hm =>
    Location.lt_irrefl _ (hl ▸ ht _ (List.mem_map_of_mem hm) _ List.mem_cons_self)
  have hus : t' ∉ us := fun hm =>
    Location.lt_irrefl _ (hl ▸ (List.pairwise_cons.mp hu).left _ (List.mem_map_of_mem hm))
  have ⟨hs, ht, _⟩ := (List.append_cons_inj_of_notMem hts hus).mp (h.symm.trans h')
  exact ⟨hs, ht⟩

-- So a source text can be cut in front of every token.
theorem exists_completion {s : TokenStream} {p : List Token} {xs : List Lexeme}
    (hs : ofSource source = s.prepend p) (hp : ∀ t ∈ p, t.kind ≠ .illegal)
    (hx : ∀ x ∈ xs, x.Writable) : ∃ head tail : String, source = head ++ tail ∧
      .behind head.toList = s.current.location ∧
      ∃ u, (ofSource (head ++ u)).pending.map (·.lexeme) = p.map (·.lexeme) ++ xs := by
  have ht : Tiles [] source.toList (p ++ s.pending) := by
    have ht : Tiles [] source.toList (ofSource source).pending := tiles_scan [] source.toList
    rwa [hs] at ht
  obtain ⟨cs, es, he, hn, hl, ds, vs, hv, rfl⟩ := ht.cut hp hx
  refine ⟨String.ofList cs, String.ofList es, ?_, ?_, String.ofList ('\n' :: ds), ?_⟩
  case refine_1 => rw [← String.ofList_append, ← he, String.ofList_toList]
  case refine_2 =>
    rw [String.toList_ofList]
    cases h : s.pending
    case nil =>
      have hc := congrArg stop hs
      rw [stop_ofSource, he, hn h, List.append_nil] at hc
      rw [current, h]
      exact hc
    case cons u us =>
      rw [current, h]
      exact (hl u (h ▸ rfl)).symm
  case refine_3 =>
    have hv := hv.eq_scan
    rw [ofSource, String.toList_append, String.toList_ofList, String.toList_ofList,
      ← List.map_append]
    exact congrArg _ hv.symm

end TokenStream

/-!
Statements up to the first error.
-/

-- Reading goes on from `s` without errors up to the first one, which is raised in front of `s'`.
inductive Stops (frames : Nat) (e : SyntaxError) : TokenStream → TokenStream → Prop
  | here : s.pending ≠ [] → Parser.statement frames s = .error e s' → Stops frames e s s'
  | later : s.pending ≠ [] → Parser.statement frames s = .ok x s₁ → Stops frames e s₁ s' →
    Stops frames e s s'

namespace Stops

open TokenStream

variable {frames n : Nat} {e : SyntaxError} {s s' : TokenStream}

theorem of_head? (h : (Parse.statements frames n s).2.1.head? = some r) :
    ∃ s', Stops frames r.error s s' := by
  induction n generalizing s
  case zero => cases h
  case succ n hi =>
    by_cases hp : s.pending = []
    case pos =>
      rw [Parse.statements_of_nil hp] at h
      cases h
    case neg =>
      cases hx : Parser.statement frames s
      case ok x s₁ =>
        rw [Parse.statements_of_ok hp hx] at h
        obtain ⟨s', hs⟩ := hi h
        exact ⟨s', .later hp hx hs⟩
      case error e s' =>
        rw [Parse.statements_of_error hp hx] at h
        cases h
        exact ⟨s', .here hp hx⟩

theorem errors_ne_nil (h : Stops frames e s s') (hn : s.size ≤ n) :
    (Parse.statements frames n s).2.1 ≠ [] := by
  induction h generalizing n
  case here s s' hp hx =>
    obtain ⟨n, rfl⟩ := Nat.exists_eq_add_one.mpr (Nat.lt_of_lt_of_le (size_pos hp) hn)
    rw [Parse.statements_of_error hp hx]
    exact List.cons_ne_nil _ _
  case later s x s₁ s' hp hx _ hi =>
    obtain ⟨n, rfl⟩ := Nat.exists_eq_add_one.mpr (Nat.lt_of_lt_of_le (size_pos hp) hn)
    have hl := Parser.shortens_statement frames s x s₁ hx
    rw [Parse.statements_of_ok hp hx]
    exact hi (by omega)

-- More frames do not help, unless it is frames that are lacking.
theorem widen (h : Stops frames e s s') (he : e ≠ .tooDeep) (hk : frames ≤ k) :
    Stops k e s s' := by
  induction h
  case here s s' hp hx =>
    have hw := (Parser.widening_of_le hk).statement s
    rw [hx] at hw
    exact .here hp (hw (by simpa using he))
  case later s x s₁ s' hp hx _ hi =>
    have hw := (Parser.widening_of_le hk).statement s
    rw [hx] at hw
    exact .later hp (hw (by simp)) hi

theorem relocate (f : Location → Location) (h : Stops frames e s s') :
    Stops frames (e.relocate f) (s.relocate f) (s'.relocate f) := by
  have ne {s : TokenStream} (hp : s.pending ≠ []) : (s.relocate f).pending ≠ [] := by
    simpa [TokenStream.relocate] using hp
  have hs := (Parser.natural f frames).statement
  induction h
  case here hp hx => exact .here (ne hp) (hs.of_error hx)
  case later hp hx _ hi => exact .later (ne hp) (hs.of_ok hx) hi

-- The error is settled by the tokens in front of it and the one that it is raised at.
theorem settled (h : Stops frames e s s') : ∃ p, s = s'.prepend p ∧ e.Raised p s'.current ∧
    ∀ v, s'.SameHead v → Stops frames e (v.prepend p) v := by
  have ne {s v : TokenStream} {p : List Token} (hp : (s.prepend p).pending ≠ [])
      (hv : s.SameHead v) : (v.prepend p).pending ≠ [] := by
    obtain he | ⟨t, _, ht⟩ := hv.prepend p
    · rwa [he]
    · intro hn
      rw [hn] at ht
      cases ht
  induction h
  case here s s' hp hx =>
    obtain ⟨p, rfl, he, hv⟩ := ((Parser.settled frames).statement [] s).error e s' hx
    exact ⟨p, rfl, he, fun v hs => .here (ne hp hs) (hv v hs)⟩
  case later s x s₁ s' hp hx _ hi =>
    obtain ⟨p, rfl, hv⟩ := ((Parser.settled frames).statement [] s).ok x s₁ hx
    obtain ⟨q, rfl, he, hw⟩ := hi
    refine ⟨p ++ q, (prepend_append ..).symm, he.mono (by simp +contextual), fun v hs => ?_⟩
    rw [prepend_append]
    exact .later (ne hp (hs.prepend q)) (hv _ (hs.prepend q)) (hw v hs)

-- If the error names a token, the tokens in front of it begin statements.
theorem begins (h : Stops frames e s s') (he : e.cause.found? ≠ none) :
    ∃ p, s = s'.prepend p ∧ (DistinctParams p → Parser.BeginsStmts p) := by
  induction h
  case here s s' _ hx =>
    obtain ⟨p, hp, hq⟩ := (Parser.guided frames).statement.error s e s' hx he
    exact ⟨p, hp, fun hd => .stmt (hq hd)⟩
  case later s x s₁ s' hp hx _ hi =>
    obtain ⟨p, rfl, _⟩ := ((Parser.settled frames).statement [] s).ok x s₁ hx
    obtain ⟨q, rfl, hq⟩ := hi
    have hd := (Parser.sound frames).statement _ x _ hx
    exact ⟨p ++ q, (prepend_append ..).symm, fun hn => .cons hd (hq hn.of_append)⟩

end Stops

/-!
The first error.
-/

-- What a message begins with tells what it is about.
theorem head?_message {a : String} {d : Char} (h : a.toList.head? = some d) (b : String) :
    (a ++ b).toList.head? = some d := by
  rw [String.toList_append, List.head?_append, h, Option.some_or]

-- Only the errors that name a token say what is expected.
theorem SyntaxError.Cause.found?_of_message {c : Cause} {x y : String}
    (h : c.message = "expected " ++ x ++ ", found " ++ y) : c.found? ≠ none := by
  have he : c.message.toList.head? = some 'e' := by
    rw [h, String.append_assoc, String.append_assoc]
    exact head?_message (by decide) _
  have other (a b : String) (d : Char) (ha : a.toList.head? = some d) (hd : d ≠ 'e') :
      (a ++ b).toList.head? ≠ some 'e' := by
    rw [head?_message ha]
    exact fun hs => hd (Option.some.inj hs)
  cases c
  case expected | expectedExpression | expectedBoolean => exact Option.some_ne_none _
  case unterminatedString | tooDeep => exact absurd he (by decide)
  case illegalCharacter => exact absurd he (other _ _ 'i' (by decide) (by decide))
  case duplicateParameter => exact absurd he (other _ _ 'd' (by decide) (by decide))
  case integerTooLarge =>
    exact absurd he (other _ _ 'c' (head?_message (by decide) _) (by decide))
theorem SyntaxError.Raised.location_of_found {e : SyntaxError} {ts : List Token} {t : Token}
    (h : e.Raised ts t) (hf : e.cause.found? ≠ none) : e.location = some t.location := by
  cases h
  case found => rfl
  case passed hc _ => exact absurd hc hf
  case tooDeep => exact absurd rfl hf

-- A text with the tokens of statements is read without errors, given the frames for it.
theorem parse_of_derives {source : String} {ts : List Token} {xs : List Stmt}
    (h : Derives .stmts ts xs [])
    (ht : (TokenStream.ofSource source).pending.map (·.lexeme) = ts.map (·.lexeme)) :
    ∃ n, ∀ k, n ≤ k → (parse k source).errors = [] := by
  refine ⟨2 * ts.length + 2, fun k hk => ?_⟩
  let s : TokenStream := ⟨ts, .start⟩
  have hs : s.relocate nowhere = (TokenStream.ofSource source).relocate nowhere := by
    have he := congrArg (List.map (Token.mk · .start)) ht
    simp only [List.map_map] at he
    exact congrArg (TokenStream.mk · .start) he.symm
  have hr : (Parse.ofStream k s).recoveries = [] := by
    have hc : Parse.statements k ts.length s = (xs, [], ⟨[], .start⟩) :=
      (Parse.statements_complete (Nat.le_refl _) h).resolve_right fun ⟨hl, _⟩ => by omega
    exact congrArg (·.2.1) hc
  exact List.map_eq_nil_iff.mpr (Parse.ofStream_congr hs hr).left

namespace Stops

open TokenStream

variable {frames : Nat} {e : SyntaxError} {s' w : TokenStream} {p : List Token}

-- Wherever the same tokens come up to the error, it comes up there.
theorem recurs (h : Stops frames e (s'.prepend p) s') (hk : s'.current.kind ≠ .eof)
    (hw : (p ++ [s'.current]).map (fun t => (t.kind, t.literal)) <+:
      w.toList.map fun t => (t.kind, t.literal)) :
    ∃ w', Stops frames (e.relocate nowhere) (w.relocate nowhere) w' := by
  obtain ⟨q, hq, _, hv⟩ := (h.relocate nowhere).settled
  have hq : p.map (·.relocate nowhere) = q := by
    have hq := congrArg pending hq
    simp only [TokenStream.relocate, prepend, List.map_append] at hq
    exact List.append_cancel_right hq
  have hp : (p ++ [s'.current]).map (·.relocate nowhere) <+:
      w.toList.map (·.relocate nowhere) := by
    have hw := hw.map fun x => Token.mk (x.1.lexeme x.2) .start
    simp only [List.map_map, Function.comp_def, Lexeme.lexeme_kind] at hw
    exact hw
  rw [toList, List.map_append, List.map_append, List.map_singleton, List.map_singleton] at hp
  obtain hp | ⟨us, hp⟩ := List.prefix_concat_iff.mp hp
  case inl =>
    -- The last token would be the end of the text.
    have hl := List.singleton_inj.mp (List.append_inj' hp rfl).right
    exact absurd (congrArg Token.kind hl) hk
  case inr =>
    let v : TokenStream := ⟨s'.current.relocate nowhere :: us, .start⟩
    have hw : w.relocate nowhere = v.prepend q := by
      rw [TokenStream.relocate, ← hp, hq, List.append_assoc]
      rfl
    have hs : (s'.relocate nowhere).SameHead v := by
      refine .inr ⟨s'.current.relocate nowhere, ?_, rfl⟩
      rw [eq_prepend hk]
      rfl
    exact ⟨v, hw ▸ hv v hs⟩

-- The text in front of the token that the error names can be completed.
theorem completed {source head tail : String} (h : Stops frames e (ofSource source) s')
    (hf : e.cause.found? ≠ none) (hp : ofSource source = s'.prepend p) (hs : source = head ++ tail)
    (hl : .behind head.toList = s'.current.location) (hd : DistinctParams p) :
    ∃ u n, ∀ k, n ≤ k → (parse k (head ++ u)).errors = [] := by
  obtain ⟨q, hq, hb⟩ := h.begins hf
  obtain rfl := prepend_inj (hp.symm.trans hq)
  obtain ⟨ts, xs, hw, _, hx⟩ := hb hd
  have hx : Derives .stmts (p ++ ts) xs [] := by simpa using hx [] nofun
  have hi : ∀ t ∈ p, t.kind ≠ .illegal := by
    intro t hm hk
    obtain ⟨x, l⟩ := t
    cases x <;> cases hk
    exact hx.legal nofun _ (List.mem_append_left ts hm) _ rfl
  have hw : ∀ x ∈ ts.map (·.lexeme), x.Writable := by simpa using hw
  obtain ⟨head', tail', hs', hl', u, hu⟩ := exists_completion hp hi hw
  obtain rfl : head' = head := by
    have hc := congrArg String.toList (hs'.symm.trans hs)
    rw [String.toList_append, String.toList_append] at hc
    exact String.toList_injective (Location.eq_of_behind hc (hl'.trans hl.symm))
  exact ⟨u, parse_of_derives hx (by rw [hu, List.map_append])⟩

-- No text that begins with the tokens through the one that the error names is read without errors.
theorem refutes {source other : String} (h : Stops frames e (ofSource source) s')
    (hf : e.cause.found? ≠ none) (hp : ofSource source = s'.prepend p)
    (hk : s'.current.kind ≠ .eof)
    (hw : (p ++ [s'.current]).map (fun t => (t.kind, t.literal)) <+:
      (ofSource other).toList.map fun t => (t.kind, t.literal)) :
    (parse k other).errors ≠ [] := by
  intro hn
  -- With frames enough for both texts, the other one is read as before, and the error recurs.
  have hr : parse (max frames k) other = parse k other :=
    parse_of_le (Nat.le_max_right frames k) (by simp [Parse.Overflows, hn])
  have hn : (parse (max frames k) other).errors = [] := hr ▸ hn
  have hd : e ≠ .tooDeep := by
    rintro rfl
    exact hf rfl
  have h := h.widen hd (Nat.le_max_left frames k)
  rw [hp] at h
  obtain ⟨w', hw⟩ := h.recurs hk hw
  refine hw.errors_ne_nil (Nat.le_refl _) ?_
  rw [Parse.statements_relocate, size_relocate]
  exact List.map_eq_nil_iff.mpr (List.map_eq_nil_iff.mp hn)

end Stops

-- The first error that says what is expected instead of a token is at the first token that cannot
-- go on from what is in front of it. The text in front of it can be completed, if no function that
-- begins there repeats a parameter; and unless the token is the end of the text, no text that begins
-- with the tokens through it is read without errors, whatever the limit on frames.
theorem parse_first_error {frames : Nat} {source x y : String} {e : SyntaxError}
    (he : (parse frames source).errors.head? = some e)
    (hm : e.message = "expected " ++ x ++ ", found " ++ y) :
    let tokens := (TokenStream.ofSource source).toList
    (∃ before t after, tokens = before ++ t :: after ∧ e.location = some t.location) ∧
    ∀ before t after, tokens = before ++ t :: after → e.location = some t.location →
      (∃ head tail : String, source = head ++ tail ∧ .behind head.toList = t.location ∧
        (DistinctParams before → ∃ u n, ∀ k, n ≤ k → (parse k (head ++ u)).errors = [])) ∧
      (t.kind ≠ .eof → ∀ k other,
        (before ++ [t]).map (fun t => (t.kind, t.literal)) <+:
          (TokenStream.ofSource other).toList.map (fun t => (t.kind, t.literal)) →
        (parse k other).errors ≠ []) := by
  intro tokens
  have hf := SyntaxError.Cause.found?_of_message hm
  obtain ⟨r, hr, rfl⟩ : ∃ r, (Parse.statements frames (TokenStream.ofSource source).size
      (TokenStream.ofSource source)).2.1.head? = some r ∧ r.error = e := by
    simpa [parse, Parse.ofStream, Parse.errors] using he
  obtain ⟨s', hs⟩ := Stops.of_head? hr
  obtain ⟨p, hp, hl, _⟩ := hs.settled
  have hl := hl.location_of_found hf
  obtain ⟨us, hu⟩ := List.head?_eq_some_iff.mp s'.head?_toList
  have ht : tokens = p ++ s'.current :: us := by rw [← hu, ← s'.toList_prepend, ← hp]
  refine ⟨⟨p, _, us, ht, hl⟩, fun before t after ht' hl' => ?_⟩
  obtain ⟨rfl, rfl⟩ := TokenStream.split_unique ht ht' (Option.some.inj (hl.symm.trans hl'))
  have hm : s'.current ∈ tokens := ht ▸ List.mem_append_right p List.mem_cons_self
  obtain ⟨head, tail, hh, hb⟩ := TokenStream.exists_head hm
  exact ⟨⟨head, tail, hh, hb, hs.completed hf hp hh hb⟩, fun hk k other hw => hs.refutes hf hp hk hw⟩

-- Where an operand is missing, a function, two blocks, two literals and an operator are half read.
-- The other text goes on with what would close them, on one line.
theorem parse_first_error_nested :
    let source := "let x = 1;\nlet f = fn(a, b) \x7b if (a < x) \x7b [b, \x7b\"k\": a * ] \x7d"
    let other := "let x = 1; let f = fn(a, b) \x7b if (a < x) \x7b [b, \x7b\"k\": a * ] \x7d] \x7d \x7d"
    let before := (TokenStream.ofSource source).toList.take 30
    let t : Token := ⟨.symbol .rbracket, ⟨2, 47⟩⟩
    let e : SyntaxError := ⟨some ⟨2, 47⟩, .expectedExpression (.symbol .rbracket)⟩
    (parse defaultFrames source).errors.head? = some e ∧
      e.message = "expected " ++ "expression" ++ ", found " ++ Text.quote "]" ∧
      (∃ after, (TokenStream.ofSource source).toList = before ++ t :: after) ∧
      DistinctParams before ∧
      (∃ head tail : String, source = head ++ tail ∧ .behind head.toList = t.location ∧
        ∃ u n, ∀ k, n ≤ k → (parse k (head ++ u)).errors = []) ∧
      ∀ k, (parse k other).errors ≠ [] := by
  intro source other before t e
  have he : (parse defaultFrames source).errors.head? = some e := by decide +kernel
  have hm : e.message = "expected " ++ "expression" ++ ", found " ++ Text.quote "]" := by
    decide +kernel
  have hs : (TokenStream.ofSource source).toList =
      before ++ t :: (TokenStream.ofSource source).toList.drop 31 := by decide +kernel
  have hd : DistinctParams before := by decide +kernel
  have hw : (before ++ [t]).map (fun t => (t.kind, t.literal)) <+:
      (TokenStream.ofSource other).toList.map (fun t => (t.kind, t.literal)) := by decide +kernel
  have ⟨_, h⟩ := parse_first_error he hm
  have ⟨⟨head, tail, hh, hb, hc⟩, ho⟩ := h before t _ hs rfl
  exact ⟨he, hm, ⟨_, hs⟩, hd, ⟨head, tail, hh, hb, hc hd⟩, fun k => ho nofun k other hw⟩

end Marmoset
