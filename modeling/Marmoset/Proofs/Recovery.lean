import Marmoset.Proofs.Limit.Program
import Marmoset.Proofs.Lookahead
import Marmoset.Proofs.Tiling

/-!
How reading a source text goes on behind errors. The tokens of the text fall into regions, one
behind the other: each is a statement that is returned or what is passed over for an error
(`parse_recovers`). As the places of tokens increase, so do those of the errors.
-/

namespace Marmoset

/-!
The order of places.
-/

namespace Location

-- By lines, and on one line by columns.
instance : LT Location :=
  ⟨fun l l' => l.line < l'.line ∨ l.line = l'.line ∧ l.column < l'.column⟩

instance (l l' : Location) : Decidable (l < l') :=
  inferInstanceAs (Decidable (_ ∨ _))

theorem lt_def {l l' : Location} :
    l < l' ↔ l.line < l'.line ∨ l.line = l'.line ∧ l.column < l'.column :=
  Iff.rfl

theorem lt_irrefl (l : Location) : ¬l < l := by
  rw [lt_def]
  omega

theorem lt_trans {l l' l'' : Location} (h : l < l') (h' : l' < l'') : l < l'' := by
  rw [lt_def] at *
  omega

theorem lt_next (l : Location) (c : Char) : l < l.next c := by
  rw [lt_def, next]
  split <;> dsimp only <;> omega

theorem lt_after (l : Location) {cs : List Char} (h : cs ≠ []) : l < l.after cs := by
  induction cs generalizing l
  case nil => exact absurd rfl h
  case cons c cs hi =>
    cases cs
    case nil => exact l.lt_next c
    case cons d ds => exact lt_trans (l.lt_next c) (hi (l.next c) (List.cons_ne_nil d ds))

end Location

-- Where a token is, its text is.
theorem Tiles.exists_spells {before cs : List Char} {ts : List Token} (h : Tiles before cs ts) :
    ∀ t ∈ ts, ∃ ds text rest, cs = ds ++ text ++ rest ∧ t.location = .behind (before ++ ds) ∧
      Spells text rest t.lexeme := by
  induction h
  case stop => exact nofun
  case token gap text rest x before ts hg hx _ hi =>
    refine List.forall_mem_cons.mpr ⟨⟨gap, text, rest, rfl, rfl, hx⟩, fun t ht => ?_⟩
    obtain ⟨ds, text', rest', rfl, hl, ht⟩ := hi t ht
    exact ⟨gap ++ text ++ ds, text', rest', by simp, by simpa using hl, ht⟩

-- No two tokens begin at the same place, and the text ends behind all of them.
theorem Tiles.ordered {before cs : List Char} {ts : List Token} (h : Tiles before cs ts) :
    (ts.map Token.location ++ [Location.behind (before ++ cs)]).Pairwise (· < ·) := by
  induction h
  case stop => exact List.pairwise_singleton ..
  case token gap text rest x before ts hg hx ht hi =>
    have hn (ds : List Char) : Location.behind (before ++ gap) <
        .behind (before ++ gap ++ text ++ ds) := by
      rw [List.append_assoc _ text, Location.behind_append (before ++ gap)]
      exact Location.lt_after _ (List.append_ne_nil_of_left_ne_nil hx.text_ne_nil ds)
    have he : before ++ (gap ++ text ++ rest) = before ++ gap ++ text ++ rest := by simp
    rw [List.map_cons, List.cons_append, he]
    refine List.pairwise_cons.mpr ⟨fun l hl => ?_, hi⟩
    obtain hl | hl := List.mem_append.mp hl
    · obtain ⟨t, hm, rfl⟩ := List.mem_map.mp hl
      have ⟨ds, _, _, _, hd, _⟩ := ht.exists_spells t hm
      exact hd ▸ hn ds
    · exact List.mem_singleton.mp hl ▸ hn rest

theorem TokenStream.stop_ofSource (source : String) :
    (ofSource source).stop = .behind source.toList := by
  rw [Location.behind_eq_after]
  exact stop_scan .start source.toList

theorem TokenStream.toList_ordered (source : String) :
    ((ofSource source).toList.map Token.location).Pairwise (· < ·) := by
  have ht : Tiles [] source.toList (ofSource source).pending := tiles_scan [] source.toList
  rw [toList, List.map_append, List.map_singleton, eof, stop_ofSource]
  exact ht.ordered

/-!
Regions.
-/

theorem SyntaxError.Raised.exists_token {e : SyntaxError} {ts : List Token} {t : Token}
    (h : e.Raised ts t) (he : e ≠ .tooDeep) :
    ∃ u, (u ∈ ts ∨ u = t) ∧ e.location = some u.location := by
  cases h
  case found => exact ⟨t, .inr rfl, rfl⟩
  case passed hu => exact ⟨_, .inl hu, rfl⟩
  case tooDeep => exact absurd rfl he

-- A statement with its tokens, or an error with those that had been read when it was raised and
-- those that were dropped then.
inductive Region
  | statement (tokens : List Token) (tree : Stmt)
  | skipped (taken dropped : List Token) (error : SyntaxError)

namespace Region

def tokens : Region → List Token
  | statement ts _ => ts
  | skipped taken dropped _ => taken ++ dropped

def tree? : Region → Option Stmt
  | statement _ x => some x
  | skipped .. => none

def error? : Region → Option SyntaxError
  | statement .. => none
  | skipped _ _ e => some e

def trees (rs : List Region) : List Stmt :=
  rs.filterMap tree?

def errors (rs : List Region) : List SyntaxError :=
  rs.filterMap error?

variable {ts taken dropped : List Token} {x : Stmt} {e : SyntaxError} {rs : List Region}

@[simp]
theorem errors_statement : errors (statement ts x :: rs) = errors rs :=
  rfl

@[simp]
theorem errors_skipped : errors (skipped taken dropped e :: rs) = e :: errors rs :=
  rfl

end Region

abbrev Token.IsSemicolon (t : Token) : Prop :=
  t.kind = .symbol .semicolon

-- The tokens through the next semicolon, or up to the end if there is none.
inductive Dropped : List Token → List Token → Prop
  | toSemicolon : (∀ t ∈ body, ¬t.IsSemicolon) → Dropped (body ++ [.symbol .semicolon c]) us
  | toEnd : (∀ t ∈ body, ¬t.IsSemicolon) → Dropped body []

namespace Dropped

variable {taken dropped us : List Token} {eof t : Token}

theorem eq_nil (h : Dropped dropped us) (hd : dropped = []) : us = [] := by
  cases h
  case toSemicolon => simp at hd
  case toEnd => rfl

theorem cons (h : Dropped dropped us) (ht : ¬t.IsSemicolon) : Dropped (t :: dropped) us := by
  cases h
  case toSemicolon body c hb =>
    rw [← List.cons_append]
    exact .toSemicolon (List.forall_mem_cons.mpr ⟨ht, hb⟩)
  case toEnd hb => exact .toEnd (List.forall_mem_cons.mpr ⟨ht, hb⟩)

-- What is found where tokens are dropped is the first of them, or the end of the text.
theorem found (h : Dropped dropped us) (ht : t ∈ taken ∨ t = dropped.headD eof) :
    t ∈ taken ++ dropped ∨ dropped = [] ∧ us = [] ∧ t = eof := by
  obtain ht | rfl := ht
  case inl => exact .inl (List.mem_append_left _ ht)
  case inr =>
    cases dropped
    case cons d ds => exact .inl (by simp)
    case nil => exact .inr ⟨rfl, h.eq_nil rfl, rfl⟩

end Dropped

-- The tokens fall into the regions, and behind them there is only the end of the text.
inductive Regions (eof : Token) : List Token → List Region → Prop
  | nil : Regions eof [] []
  | statement : ts ≠ [] → Derives .stmt (ts ++ us) x us → Regions eof us rs →
    Regions eof (ts ++ us) (.statement ts x :: rs)
  | skipped : taken ++ dropped ≠ [] → e.Raised taken (dropped.headD eof) → Dropped dropped us →
    Regions eof us rs → Regions eof (taken ++ dropped ++ us) (.skipped taken dropped e :: rs)

namespace Regions

variable {eof : Token} {ts : List Token} {rs : List Region}

theorem tokens_eq (h : Regions eof ts rs) : rs.flatMap Region.tokens = ts := by
  induction h
  case nil => rfl
  case statement hi => rw [List.flatMap_cons, hi, Region.tokens]
  case skipped hi => rw [List.flatMap_cons, hi, Region.tokens]

theorem eq_nil (h : Regions eof [] rs) : rs = [] := by
  have he := h.tokens_eq
  generalize hu : [] = us at h he
  cases h
  case nil => rfl
  case statement hn _ _ => exact absurd (List.append_eq_nil_iff.mp hu.symm).left hn
  case skipped hn _ _ _ => exact absurd (List.append_eq_nil_iff.mp hu.symm).left hn

-- Unless frames are lacking, each error is at a token, and the errors come in the order of these.
theorem places (h : Regions eof ts rs) (he : .tooDeep ∉ Region.errors rs) :
    ∃ ls : List Location, (Region.errors rs).map (·.location) = ls.map some ∧
      ls.Sublist ((ts ++ [eof]).map (·.location)) := by
  induction h
  case nil => exact ⟨[], rfl, List.nil_sublist _⟩
  case statement ts us x rs hn hd hr hi =>
    have ⟨ls, hl, hs⟩ := hi he
    refine ⟨ls, hl, hs.trans ?_⟩
    rw [List.append_assoc]
    exact (List.sublist_append_right ts _).map _
  case skipped taken dropped us rs e hn hx hd hr hi =>
    rw [Region.errors_skipped, List.mem_cons, not_or] at he
    have ⟨ls, hl, hs⟩ := hi he.right
    have ⟨t, ht, hp⟩ := hx.exists_token (Ne.symm he.left)
    refine ⟨t.location :: ls, ?_, ?_⟩
    · rw [Region.errors_skipped, List.map_cons, List.map_cons, hp, hl]
    obtain ht | ⟨rfl, rfl, rfl⟩ := hd.found ht
    case inl =>
      have ht := List.singleton_sublist.mpr (List.mem_map_of_mem (f := (·.location)) ht)
      have hs := ht.append hs
      rwa [← List.map_append, ← List.append_assoc] at hs
    case inr =>
      -- Behind an error at the end of the text there is no other.
      rw [hr.eq_nil] at hl
      rw [List.map_eq_nil_iff.mp hl.symm]
      exact List.singleton_sublist.mpr (List.mem_map_of_mem (by simp))

-- Every region of an error but the last one ends in a semicolon.
theorem length_errors_le (h : Regions eof ts rs) :
    (Region.errors rs).length ≤ ts.countP (·.IsSemicolon) + 1 := by
  induction h
  case nil => exact Nat.zero_le _
  case statement ts us x rs hn hd hr hi =>
    rw [Region.errors_statement, List.countP_append]
    omega
  case skipped taken dropped us rs e hn hx hd hr hi =>
    rw [Region.errors_skipped, List.length_cons, List.countP_append, List.countP_append]
    cases hd
    case toSemicolon body c hb =>
      have hc : [Token.symbol .semicolon c].countP (·.IsSemicolon) = 1 := rfl
      have ha : (body ++ [Token.symbol .semicolon c]).countP (·.IsSemicolon) = _ :=
        List.countP_append
      omega
    case toEnd =>
      rw [hr.eq_nil]
      exact Nat.le_add_left _ _

end Regions

theorem TokenStream.exists_dropped (s : TokenStream) :
    ∃ ts, s = s.skipStatement.prepend ts ∧ Dropped ts s.skipStatement.pending := by
  obtain ⟨ts, stop⟩ := s
  induction ts
  case nil => exact ⟨[], rfl, .toEnd nofun⟩
  case cons t ts hi =>
    by_cases ht : t.IsSemicolon
    case pos =>
      have hs : (⟨t :: ts, stop⟩ : TokenStream).skipStatement = ⟨ts, stop⟩ := by
        rw [skipStatement, List.dropWhile_cons_of_neg (by simpa using ht), List.tail_cons]
      obtain ⟨x, c⟩ := t
      obtain rfl : x = .symbol .semicolon := Token.lexeme_of_symbol ht
      have hd : Dropped ([] ++ [.symbol .semicolon c]) ts := .toSemicolon nofun
      exact ⟨[.symbol .semicolon c], by rw [hs]; rfl, hs ▸ hd⟩
    case neg =>
      have hs : (⟨t :: ts, stop⟩ : TokenStream).skipStatement =
          (⟨ts, stop⟩ : TokenStream).skipStatement := by
        rw [skipStatement, List.dropWhile_cons_of_pos (by simpa using ht)]
        rfl
      obtain ⟨us, he, hd⟩ := hi
      refine ⟨t :: us, ?_, hs ▸ hd.cons ht⟩
      rw [hs]
      exact congrArg (fun s => TokenStream.mk (t :: s.pending) s.stop) he

theorem Dropped.current_eq {dropped : List Token} {s u : TokenStream}
    (h : Dropped dropped u.pending) (hs : s = u.prepend dropped) : s.current = dropped.headD u.eof := by
  subst hs
  cases dropped
  case nil => rw [TokenStream.prepend_nil, TokenStream.current, h.eq_nil rfl]
  case cons => rfl

namespace Parse

open TokenStream

variable {n : Nat} {s : TokenStream}

-- Reading comes to the end of the text, and has gone through regions then.
theorem statements_regions (frames : Nat) (hn : s.size ≤ n) : ∃ rs, Regions s.eof s.pending rs ∧
    Region.trees rs = (statements frames n s).1 ∧
    Region.errors rs = (statements frames n s).2.1.map (·.error) ∧
    (statements frames n s).2.2 = ⟨[], s.stop⟩ := by
  induction n generalizing s
  case zero =>
    have hp : s.pending = [] := List.length_eq_zero_iff.mp (Nat.le_zero.mp hn)
    rw [statements_of_nil hp, hp]
    exact ⟨[], .nil, rfl, rfl, by rw [← hp]⟩
  case succ n hi =>
    by_cases hp : s.pending = []
    case pos =>
      rw [statements_of_nil hp, hp]
      exact ⟨[], .nil, rfl, rfl, by rw [← hp]⟩
    case neg =>
      cases hx : Parser.statement frames s
      case ok x s' =>
        obtain ⟨ts, rfl, _⟩ := ((Parser.settled frames).statement [] s).ok x s' hx
        have hd := (Parser.sound frames).statement _ x s' hx
        have hl := Parser.shortens_statement frames _ x s' hx
        rw [TokenStream.size_prepend] at hn hl
        have ⟨rs, hr, ht, he, hs⟩ := hi (s := s') (by omega)
        rw [statements_of_ok hp hx]
        refine ⟨_, .statement ?_ hd hr, congrArg (x :: ·) ht, he, hs⟩
        exact List.ne_nil_of_length_pos (by omega)
      case error e s' =>
        obtain ⟨taken, rfl, hr, _⟩ := ((Parser.settled frames).statement [] s).error e s' hx
        have ⟨dropped, hd, hu⟩ := s'.exists_dropped
        have hl := size_skipStatement_lt (s'.restOf_prepend taken) hp
        have ⟨rs, hrs, ht, he, hq⟩ := hi (s := s'.skipStatement) (by omega)
        have hs : (s'.prepend taken).pending = taken ++ dropped ++ s'.skipStatement.pending := by
          rw [List.append_assoc]
          exact congrArg (taken ++ ·.pending) hd
        rw [hu.current_eq hd] at hr
        rw [statements_of_error hp hx]
        refine ⟨.skipped taken dropped e :: rs, ?_, ht, congrArg (e :: ·) he, hq⟩
        rw [hs]
        refine .skipped (fun hn => ?_) hr hu hrs
        rw [size, size, hs, hn] at hl
        exact Nat.lt_irrefl _ hl

end Parse

-- Reading a text comes to its end. On the way, every token is taken once, for a statement that is
-- returned or for an error. Unless frames are lacking, the errors are at tokens, one behind the
-- other, and each of them but the last one uses up a semicolon.
theorem parse_recovers (frames : Nat) (source : String)
    (h : ¬(parse frames source).Overflows) :
    let tokens := TokenStream.ofSource source
    let result := parse frames source
    result.rest = ⟨[], tokens.stop⟩ ∧
    (∃ rs, Regions tokens.eof tokens.pending rs ∧ rs.flatMap Region.tokens = tokens.pending ∧
      Region.trees rs = result.program.statements ∧ Region.errors rs = result.errors) ∧
    (∃ ls : List Location, result.errors.map (·.location) = ls.map some ∧
      (∀ l ∈ ls, ∃ t ∈ tokens.toList, t.location = l) ∧ ls.Pairwise (· < ·)) ∧
    result.errors.length ≤ tokens.toList.countP (·.IsSemicolon) + 1 := by
  intro tokens result
  have ⟨rs, hr, ht, he, hs⟩ := Parse.statements_regions frames (Nat.le_refl tokens.size)
  have he : Region.errors rs = result.errors := he
  have ⟨ls, hl, hp⟩ := hr.places (he ▸ h)
  refine ⟨hs, ⟨rs, hr, hr.tokens_eq, ht, he⟩, ⟨ls, he ▸ hl, fun l hm => ?_, ?_⟩, ?_⟩
  · exact List.mem_map.mp (hp.subset hm)
  · exact (TokenStream.toList_ordered source).sublist hp
  · have hc := hr.length_errors_le
    rw [he] at hc
    rw [TokenStream.toList, List.countP_append]
    omega

-- Errors in front of, at and behind the token that is found, and one at the end of the text.
theorem parse_recovers_broken :
    let source := "let x 5;\nlet y = 6;\n7 fn(a, a) { a };\nz + 9223372036854775808 + 1; (y"
    let result := parse defaultFrames source
    ¬result.Overflows ∧ result.program.source = "let y = 6;\n7" ∧
      result.errors.map (·.location) = [some ⟨1, 7⟩, some ⟨3, 9⟩, some ⟨4, 5⟩, some ⟨4, 32⟩] ∧
      result.errors.length ≤
        (TokenStream.ofSource source).toList.countP (·.IsSemicolon) + 1 := by
  intro source result
  have hf : ¬result.Overflows := by decide +kernel
  have ⟨_, _, _, hc⟩ := parse_recovers defaultFrames source hf
  exact ⟨hf, by decide +kernel, by decide +kernel, hc⟩

end Marmoset
