import Marmoset.Proofs.Completion

/-!
The rules of the grammar (`Parser.guided`): where one of them misses a token, what it has read so
far begins a phrase of its kind.
-/

namespace Marmoset

namespace Parser

open TokenStream Nonterminal

variable {s s' : TokenStream} {α β : Type} {D : List Token → Prop}

namespace Completes

variable {Q : List Token → α → Prop}

-- A rule that asks for a token, and that misses nothing once it has it.
theorem expect_bind {k : TokenKind} {f : Token → Parser α} (hd : Completable Q)
    (hf : ∀ t s e s', f t s = .error e s' → e.cause.found? = none) :
    Completes D Q (expect k >>= f) s := by
  intro e s' h he
  obtain h | ⟨t, s₁, _, h⟩ := bind_error h
  case inl => exact ⟨[], by rw [expect_error h]; rfl, fun _ => hd⟩
  case inr => exact absurd (hf t s₁ e s' h) he

theorem current_bind {f : Token → Parser α} (h : Completes D Q (f s.current) s) :
    Completes D Q (current >>= f) s :=
  h

theorem advance_bind {f : Token → Parser α} (hs : s.pending ≠ [])
    (h : Completes DistinctParams (fun q => Q (s.current :: q)) (f s.current) s.advance) :
    Completes DistinctParams Q (advance >>= f) s := by
  obtain ⟨_ | ⟨t, us⟩, stop⟩ := s
  case nil => contradiction
  case cons =>
    intro e s' he hc
    obtain ⟨p, hp, hq⟩ := h e s' he hc
    have hs : TokenStream.mk (t :: us) stop = s'.prepend (t :: p) :=
      congrArg (fun s => TokenStream.mk (t :: s.pending) s.stop) hp
    exact ⟨t :: p, hs, fun hd => hq hd.tail⟩

theorem fail {t : Token} {c : SyntaxError.Cause} (hd : Completable Q) :
    Completes D Q (fail t c) s := by
  intro e s' h _
  cases h
  exact ⟨[], rfl, fun _ => hd⟩

theorem tooDeep : Completes D Q (tooDeep : Parser α) s := by
  intro _ _ h he
  cases h
  exact absurd rfl he

end Completes

namespace Completes

variable {Q : List Token → Expr → Prop} (hd : Completable Q)
include hd

theorem identifier : Completes D Q identifier s :=
  expect_bind hd fun _ _ _ _ h => nomatch h

theorem string : Completes D Q string s :=
  expect_bind hd fun _ _ _ _ h => nomatch h

theorem integer : Completes D Q integer s := by
  rw [integer_eq]
  refine expect_bind hd fun t _ _ _ h => ?_
  split at h <;> cases h
  rfl

theorem illegal : Completes D Q illegal s := by
  refine expect_bind hd fun t _ _ _ h => ?_
  split at h <;> cases h <;> rfl

theorem boolean : Completes D Q boolean s := by
  refine current_bind ?_
  generalize s.current = t
  split
  · exact fun _ _ h => nomatch h
  · exact fun _ _ h => nomatch h
  · exact fail hd

end Completes

-- What the rules read, and what they can be completed to, with that many frames.
structure Guided (n : Nat) : Prop where
  expression : ∀ p : Precedence, p.rank ≤ Precedence.prefixOp.rank →
    Guides (expr p.level).Phrase (expression n p)
  -- Behind an operand, the rest of an expression.
  suffixed : ∀ (p : Precedence) l ts x e s, p.rank ≤ Precedence.prefixOp.rank →
    (expr l).Phrase ts e → x.precedence.rank ≤ l.cap →
    Suffix.ofLexeme? s.current.lexeme = some x → p < x.precedence →
    Completes DistinctParams (fun q => (expr p.level).Phrase (ts ++ q)) (suffixed n x e) s
  prefixed : ∀ s, s.current.lexeme = .symbol .bang ∨ s.current.lexeme = .symbol .minus →
    Completes DistinctParams (expr .unary).Phrase (prefixed n) s
  grouped : Guides (expr .primary).Phrase (grouped n)
  conditional : Guides (expr .primary).Phrase (conditional n)
  function : Guides (expr .primary).Phrase (function n)
  array : Guides (expr .primary).Phrase (array n)
  hash : Guides (expr .primary).Phrase (hash n)
  block : Guides Nonterminal.block.Phrase (block n)
  statement : Guides stmt.Phrase (statement n)
  letStatement : Guides stmt.Phrase (letStatement n)
  returnStatement : Guides stmt.Phrase (returnStatement n)
  expressionStatement : Guides stmt.Phrase (expressionStatement n)

-- Parameters with the bracket behind them.
def ParamList (p : List Token) (ps : List Binder) : Prop :=
  ∃ q d, p = q ++ [.symbol .rparen d] ∧ ParamsPhrase q ps ∧ (ps.map (·.name)).Nodup

theorem BeginsParams.list {p : List Token} {bs : List Binder} (h : BeginsParams p bs)
    (hn : (bs.map (·.name)).Nodup) : Completable fun ts => ParamList (p ++ ts) := by
  refine (h.completable hn).bind fun ts ps hp => ⟨[.symbol .rparen .start], ps, ?_, ?_⟩
  · simp [Lexeme.Writable.symbol]
  · exact ⟨p ++ ts, .start, by simp, hp⟩

theorem completable_fn {p : List Token} {ps : List Binder} (o c d : Location)
    (hp : ParamsPhrase p ps) (hn : (ps.map (·.name)).Nodup) : Completable fun ts =>
      (expr .primary).Phrase
        (.keyword .kwFn o :: .symbol .lparen c :: (p ++ .symbol .rparen d :: ts)) := by
  obtain ⟨ts, b, hw, hb⟩ := completable_block
  exact ⟨ts, _, hw, .fn hp hn hb⟩

theorem completable_noParams (o c : Location) : Completable fun ts =>
    (expr .primary).Phrase (.keyword .kwFn o :: .symbol .lparen c :: ts) := by
  have hp : ParamsPhrase [] [] := fun _ => .none
  exact .cons (o := .start) (.symbol .rparen) (completable_fn o c .start hp .nil)

theorem Guides.tooDeep {Q : List Token → α → Prop} (hd : Completable Q) :
    Guides Q (tooDeep : Parser α) where
  ok _ _ _ h := by cases h
  error _ := .tooDeep
  default := hd

namespace Guided

theorem zero : Guided 0 := by
  constructor
  case expression => exact fun p _ => .tooDeep (completable_expr p.level)
  case suffixed => exact fun _ _ _ _ _ _ _ _ _ _ _ => .tooDeep
  case prefixed => exact fun _ _ => .tooDeep
  case block => exact .tooDeep completable_block
  case statement | letStatement | returnStatement | expressionStatement =>
    exact .tooDeep completable_stmt
  all_goals exact .tooDeep (completable_expr .primary)

variable {n : Nat} (h : Guided n)
include h

theorem expression_lowest : Guides (expr .equality).Phrase (Parser.expression n .lowest) :=
  h.expression .lowest (by decide)

theorem grouped_succ : Guides (expr .primary).Phrase (Parser.grouped (n + 1)) := by
  rw [Parser.grouped]
  refine (Guides.skip .lparen).bind ?_
  rintro _ _ ⟨o, rfl⟩
  refine h.expression_lowest.bind fun p e he => (Guides.skip .rparen).bind ?_
  rintro _ _ ⟨c, rfl⟩
  exact .pure (by simpa using he.group)

theorem conditional_succ : Guides (expr .primary).Phrase (Parser.conditional (n + 1)) := by
  rw [Parser.conditional]
  refine (Guides.keyword .kwIf).bind ?_
  rintro _ t rfl
  refine (Guides.skip .lparen).bind ?_
  rintro _ _ ⟨o, rfl⟩
  refine h.expression_lowest.bind fun p c hc => (Guides.skip .rparen).bind ?_
  rintro _ _ ⟨q, rfl⟩
  refine h.block.bind fun r b hb => .ifAt (k := .keyword .kwElse) (by simp) (fun u hu => ?_) ?_
  · refine h.block.bind fun v a ha => .pure ?_
    rw [Token.eq_mk (Token.lexeme_of_keyword hu)]
    simpa using hc.condElse hb ha
  · exact .pure (by simpa using hc.cond hb)

theorem array_succ : Guides (expr .primary).Phrase (Parser.array (n + 1)) := by
  rw [Parser.array]
  refine (Guides.symbol .lbracket).bind ?_
  rintro _ t rfl
  refine (Lists.exprs.items h.expression_lowest).bind ?_
  rintro _ es ⟨p, c, rfl, hp⟩
  exact .pure (by simpa using hp.array)

theorem pair : Guides Nonterminal.pair.Phrase (Parser.pair n) := by
  refine h.expression_lowest.bind fun p k hk => (Guides.skip .colon).bind ?_
  rintro _ _ ⟨c, rfl⟩
  refine h.expression_lowest.bind fun q v hv => .pure ?_
  simpa using hk.pair hv

theorem hash_succ : Guides (expr .primary).Phrase (Parser.hash (n + 1)) := by
  rw [Parser.hash]
  refine (Guides.symbol .lbrace).bind ?_
  rintro _ t rfl
  refine (Lists.pairs.items h.pair).bind ?_
  rintro _ ps ⟨p, c, rfl, hp⟩
  exact .pure (by simpa using hp.hash)

theorem block_succ : Guides Nonterminal.block.Phrase (Parser.block (n + 1)) := by
  rw [Parser.block]
  refine (Guides.symbol .lbrace).bind ?_
  rintro _ t rfl
  refine (Guides.statements h.statement.error).bind fun p xs hx => (Guides.skip .rbrace).bind ?_
  rintro _ _ ⟨c, rfl⟩
  exact .pure (by simpa using hx.block)

theorem letStatement_succ : Guides stmt.Phrase (Parser.letStatement (n + 1)) := by
  rw [Parser.letStatement]
  refine (Guides.keyword .kwLet).bind ?_
  rintro _ t rfl
  refine Guides.binder.bind ?_
  rintro _ b rfl
  refine (Guides.skip .assign).bind ?_
  rintro _ _ ⟨a, rfl⟩
  refine h.expression_lowest.bind fun p e he => Guides.skipSemicolon.bind fun q _ hq => .pure ?_
  simpa using he.bind.ended hq

theorem returnStatement_succ : Guides stmt.Phrase (Parser.returnStatement (n + 1)) := by
  rw [Parser.returnStatement]
  refine (Guides.keyword .kwReturn).bind ?_
  rintro _ t rfl
  refine h.expression_lowest.bind fun p e he => Guides.skipSemicolon.bind fun q _ hq => .pure ?_
  simpa using he.ret.ended hq

theorem expressionStatement_succ : Guides stmt.Phrase (Parser.expressionStatement (n + 1)) := by
  rw [Parser.expressionStatement]
  refine h.expression_lowest.bind fun p e he => Guides.skipSemicolon.bind fun q _ hq => .pure ?_
  simpa using he.exprClause.ended hq

theorem statement_succ : Guides stmt.Phrase (Parser.statement (n + 1)) := by
  rw [Parser.statement]
  refine .current_bind fun t => ?_
  split
  · exact h.letStatement
  · exact h.returnStatement
  · exact h.expressionStatement

-- Behind its opening bracket, a function with the parameters that it has there.
theorem function_rest (o c : Location) (s : TokenStream) :
    Completes (fun q => DistinctParams (.keyword .kwFn o :: .symbol .lparen c :: q))
      (fun q => (expr .primary).Phrase (.keyword .kwFn o :: .symbol .lparen c :: q))
      (do
        let params ← items false .rparen binder
        let b ← Parser.block n
        match repeated? params with
        | some b => throw ⟨some b.location, .duplicateParameter b.name⟩
        | none => return Expr.fn o params b) s := by
  refine Completes.bind (Q := ParamList) ?_ (fun p ps hp => ?_) fun ps s₁ hp => ?_
  case refine_1 =>
    intro e s' he _
    obtain ⟨p, bs, hs, hb⟩ := items_params_error he
    refine ⟨p, hs, fun hd => ?_⟩
    obtain ⟨us, hp⟩ := hb.exists_params
    exact hb.list (hd o c p List.suffix_rfl bs us hp)
  case refine_2 =>
    obtain ⟨q, d, rfl, hq, hn⟩ := hp
    exact (completable_fn o c d hq hn).imp fun ts e he => by simpa using he
  case refine_3 =>
    -- Whether names repeat is not asked before the block, so it is carried along.
    obtain ⟨p, d, rfl, hq⟩ := items_params_ok hp
    refine ⟨_, rfl, Completes.bind
      (Q := fun q b => Nonterminal.block.Phrase q b ∧ (ps.map (·.name)).Nodup)
      ((h.block.error s₁).imp (fun q hd => ?_) fun q ts b hd hb => ⟨hb, ?_⟩)
      (fun q b ⟨hb, hn⟩ => .of_nil (.fn o ps b) ?_) fun b s₂ hb => ?_⟩
    · exact hd.tail.tail.of_append
    · exact hd o c _ List.suffix_rfl ps (.symbol .rparen d :: q) (by simpa using hq _)
    · simpa using Phrase.fn hq hn hb
    · obtain ⟨q, rfl, _⟩ := h.block.ok s₁ b s₂ hb
      refine ⟨q, rfl, fun e s' he hc => ?_⟩
      -- A name that repeats is an error, but no token is missed for it.
      cases hr : repeated? ps <;> rw [hr] at he <;> cases he
      exact absurd rfl hc

theorem function_succ : Guides (expr .primary).Phrase (Parser.function (n + 1)) := by
  refine .of_reads (settled (n + 1)).function (sound (n + 1)).function (fun s => ?_)
    (completable_expr .primary)
  rw [Parser.function]
  refine ((Guides.keyword .kwFn).error s).bind ?_ fun t s₁ ht => ?_
  case refine_1 =>
    rintro _ t rfl
    exact .cons (o := .start) (.symbol .lparen) (completable_noParams t.location .start)
  case refine_2 =>
    obtain ⟨_, hs, rfl⟩ := (Guides.keyword .kwFn).ok s t s₁ ht
    refine ⟨_, hs, ((Guides.skip .lparen).shift _ s₁).bind ?_ fun _ s₂ hc => ?_⟩
    case refine_1 =>
      rintro _ _ ⟨c, rfl⟩
      exact completable_noParams t.location c
    case refine_2 =>
      obtain ⟨_, hs, c, rfl⟩ := (Guides.skip .lparen).ok s₁ _ s₂ hc
      exact ⟨_, hs, h.function_rest t.location c s₂⟩

theorem prefixed_succ (hs : s.current.lexeme = .symbol .bang ∨ s.current.lexeme = .symbol .minus) :
    Completes DistinctParams (expr .unary).Phrase (Parser.prefixed (n + 1)) s := by
  obtain ⟨y, hy, hs⟩ : ∃ y, (y = Symbol.bang ∨ y = .minus) ∧ s.current.lexeme = .symbol y := by
    obtain hs | hs := hs
    · exact ⟨_, .inl rfl, hs⟩
    · exact ⟨_, .inr rfl, hs⟩
  rw [Parser.prefixed]
  have hn : s.pending ≠ [] := by
    rw [pending_of_lexeme hs (by simp)]
    exact List.cons_ne_nil _ _
  refine .advance_bind hn ?_
  refine ((h.expression .prefixOp (by decide)).bind fun p e he => .pure ?_).error _
  rw [Token.eq_mk hs, List.append_nil]
  exact he.prefixOp hy

-- What an expression begins with is a phrase of that level, or a tighter one.
theorem leading (s : TokenStream) :
    Completes DistinctParams (expr .unary).Phrase (Parser.leading n) s := by
  have hd := completable_expr .unary
  have primary {x : Parser Expr} (hx : Guides (expr .primary).Phrase x) (s : TokenStream) :
      Completes DistinctParams (expr .unary).Phrase x s :=
    (hx.mono fun _ _ he => he.loosen (by decide)).error s
  refine .current_bind ?_
  generalize hc : s.current = t
  obtain ⟨x, l⟩ := t
  cases x
  case ident => exact .identifier hd
  case int => exact .integer hd
  case string => exact .string hd
  case illegal => exact .illegal hd
  case eof => exact .fail hd
  case keyword k =>
    cases k
    case kwTrue | kwFalse => exact .boolean hd
    case kwIf => exact primary h.conditional _
    case kwFn => exact primary h.function _
    all_goals exact .fail hd
  case symbol y =>
    cases y
    case bang | minus => exact h.prefixed _ (by simp [hc])
    case lparen => exact primary h.grouped _
    case lbracket => exact primary h.array _
    case lbrace => exact primary h.hash _
    all_goals exact .fail hd

theorem suffixed_succ {p : Precedence} {l : Level} {ts : List Token} {x : Suffix} {e : Expr}
    (hp : p.rank ≤ Precedence.prefixOp.rank) (he : (expr l).Phrase ts e)
    (hl : x.precedence.rank ≤ l.cap) (hx : Suffix.ofLexeme? s.current.lexeme = some x)
    (hlt : p < x.precedence) :
    Completes DistinctParams (fun q => (expr p.level).Phrase (ts ++ q))
      (Parser.suffixed (n + 1) x e) s := by
  rw [Parser.suffixed]
  refine .advance_bind (ne_nil_of_suffix hx) ?_
  have hd : p.level.depth ≤ Level.suffixed.depth := Level.depth_level_le (Nat.lt_succ_of_le hp)
  obtain op | _ | _ := x
  case infixOp =>
    rw [Token.eq_mk (Suffix.eq_infixOp hx)]
    refine ((h.expression op.precedence (by cases op <;> decide)).bind fun q b hb =>
      .pure ?_).error _
    have ha := he.loosen (Level.depth_le_of_rank_le_cap hl)
    rw [List.append_nil]
    exact (ha.infixOp op.tighter_level hb).loosen (Level.depth_level_le (op.floor_level ▸ hlt))
  case call =>
    rw [Token.eq_mk (Suffix.eq_call hx)]
    refine ((Lists.exprs.items h.expression_lowest).bind ?_).error _
    rintro _ as ⟨q, c, rfl, ha⟩
    have hf := he.loosen (Level.depth_suffixed_le hl)
    have hr := (hf.call (o := s.current.location) (c := c) ha).loosen hd
    exact .pure (by rwa [List.append_nil])
  case index =>
    rw [Token.eq_mk (Suffix.eq_index hx)]
    refine (h.expression_lowest.bind fun q i hi => (Guides.skip .rbracket).bind ?_).error _
    rintro _ _ ⟨c, rfl⟩
    have ha := he.loosen (Level.depth_suffixed_le (Nat.le_trans (by decide) hl))
    have hr := (ha.index (o := s.current.location) (c := c) hi).loosen hd
    exact .pure (by simpa using hr)

-- An operand is extended as far as it goes.
theorem extend_go {p : Precedence} (hp : p.rank ≤ Precedence.prefixOp.rank) {m : Nat} {e : Expr}
    {ts : List Token} (hm : s.size ≤ m) (ho : Operand p (ts ++ s.pending) e s) :
    Completes DistinctParams (fun q => (expr p.level).Phrase (ts ++ q))
      (extend.go p (Parser.suffixed n) m e) s := by
  induction m generalizing e ts s
  case zero => exact .pure e
  case succ m hi =>
    by_cases hr : s.rank ≤ p.rank
    case pos => exact fun _ _ he => nomatch (extend_go_of_rank_le hr).symm.trans he
    case neg =>
      obtain ⟨x, hx, hlt⟩ := TokenStream.exists_suffix (Nat.not_le.mp hr)
      refine .congr ?_ (extend_go_succ hx hlt)
      obtain ⟨l, hd, hf, hl⟩ := id ho
      rw [TokenStream.rank_of_suffix hx] at hl
      refine (h.suffixed p l ts x e s hp hd.phrase hl hx hlt).bind (fun q a ha => ?_)
        fun e₁ s₁ he => ?_
      case refine_1 => exact .of_nil a (by rwa [List.append_nil])
      case refine_2 =>
        obtain ⟨q, rfl, _⟩ := ((settled n).suffixed x e [] s).ok e₁ s₁ he
        obtain ⟨ho, hs⟩ := (sound n).suffixed p _ x e _ e₁ s₁ hp ho hx hlt he
        have ho : Operand p (ts ++ q ++ s₁.pending) e₁ s₁ := by rwa [List.append_assoc]
        refine ⟨q, rfl, (hi (by omega) ho).imp (fun _ => .of_append) fun r us a _ ha => ?_⟩
        rwa [List.append_assoc] at ha

theorem expression_succ {p : Precedence} (hp : p.rank ≤ Precedence.prefixOp.rank) :
    Guides (expr p.level).Phrase (Parser.expression (n + 1) p) where
  ok s e s' hr := by
    obtain ⟨q, rfl, _⟩ := ((settled (n + 1)).expression p [] s).ok e s' hr
    exact ⟨q, rfl, ((sound (n + 1)).expression p _ e s' hp hr).left.phrase⟩
  error s := by
    rw [Parser.expression_succ]
    refine (h.leading s).bind (fun q a ha => .of_nil a ?_) fun e s₁ he => ?_
    case refine_1 =>
      rw [List.append_nil]
      exact ha.loosen (Level.depth_level_le (l := .unary) (Nat.lt_succ_of_le hp))
    case refine_2 =>
      obtain ⟨q, rfl, _⟩ := ((settled n).leading [] s).ok e s₁ he
      have ho := (sound n).leading_operand hp he
      have hg : Completes DistinctParams (fun r => (expr p.level).Phrase (q ++ r))
        (extend p (Parser.suffixed n) e) s₁ := h.extend_go hp (Nat.le_refl _) ho
      exact ⟨q, rfl, hg.imp (fun _ => .of_append) fun _ _ _ _ => id⟩
  default := completable_expr p.level

theorem succ : Guided (n + 1) where
  expression _ := h.expression_succ
  suffixed _ _ _ _ _ _ := h.suffixed_succ
  prefixed _ := h.prefixed_succ
  grouped := h.grouped_succ
  conditional := h.conditional_succ
  function := h.function_succ
  array := h.array_succ
  hash := h.hash_succ
  block := h.block_succ
  statement := h.statement_succ
  letStatement := h.letStatement_succ
  returnStatement := h.returnStatement_succ
  expressionStatement := h.expressionStatement_succ

end Guided

theorem guided (n : Nat) : Guided n := by
  induction n
  case zero => exact .zero
  case succ hi => exact hi.succ

end Parser

end Marmoset
