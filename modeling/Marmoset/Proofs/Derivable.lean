import Marmoset.Proofs.Accepted

/-!
What the grammar derives the parser reads, if it has the frames for it: two for each token are
enough. So the parser accepts what the grammar derives and nothing else.
-/

namespace Marmoset

namespace Parser

variable {α β : Type} {c c' : Prop} {s s' : TokenStream} {x : Parser α} {f : α → Parser β}

-- The rule comes to `r`, unless it lacks frames; for that `c` has to hold.
def Gives (c : Prop) (x : Parser α) (s : TokenStream)
    (r : EStateM.Result SyntaxError TokenStream α) : Prop :=
  x s = r ∨ c ∧ ∃ s', x s = .error .tooDeep s'

theorem bind_eq (hx : x s = .ok a s') : (x >>= f) s = f a s' := by
  simp only [bind, EStateM.bind, hx]

theorem bind_eq_error {e : SyntaxError} (hx : x s = .error e s') : (x >>= f) s = .error e s' := by
  simp only [bind, EStateM.bind, hx]

namespace Gives

theorem mono {r : EStateM.Result SyntaxError TokenStream α} (h : x.Gives c s r) (hc : c → c') :
    x.Gives c' s r :=
  h.imp id fun ⟨h, he⟩ => ⟨hc h, he⟩

theorem eq_of_ok {r : EStateM.Result SyntaxError TokenStream α} (h : x.Gives c s r)
    (hx : ∃ a s', x s = .ok a s') : x s = r := by
  have ⟨a, s', hx⟩ := hx
  refine h.resolve_right fun ⟨_, _, he⟩ => ?_
  cases hx.symm.trans he

variable {r : EStateM.Result SyntaxError TokenStream β}

theorem tooDeep (h : c) : (tooDeep : Parser β).Gives c s r :=
  .inr ⟨h, s, rfl⟩

theorem bind_eq (hx : x s = .ok a s') (hf : (f a).Gives c s' r) : (x >>= f).Gives c s r := by
  rw [Gives, Parser.bind_eq hx]
  exact hf

theorem bind (hx : x.Gives c s (.ok a s')) (hf : (f a).Gives c s' r) : (x >>= f).Gives c s r := by
  cases hx
  case inl hx => exact bind_eq hx hf
  case inr hx =>
    have ⟨hc, s', he⟩ := hx
    exact .inr ⟨hc, s', by simp only [Bind.bind, EStateM.bind, he]⟩

theorem trans {y : Parser β} {x : Parser β} (hx : x.Gives c s (y s')) (hy : y.Gives c s' r) :
    x.Gives c s r := by
  cases hx
  case inl hx =>
    rw [Gives, hx]
    exact hy
  case inr hx => exact .inr hx

end Gives

end Parser

namespace TokenStream

-- An expression ends in front of `s`, where suffixes of a higher rank than `r` belong to it.
structure Follows (r : Nat) (s : TokenStream) : Prop where
  rank : s.rank ≤ r
  noElse : s.current.lexeme ≠ .keyword .kwElse

variable {r r' : Nat} {s : TokenStream}

theorem Follows.mono (h : s.Follows r) (hr : r ≤ r') : s.Follows r' :=
  ⟨Nat.le_trans h.rank hr, h.noElse⟩

theorem follows_symbol {y : Symbol} (h : Suffix.ofLexeme? (.symbol y) = none) {o : Location}
    {us : List Token} {stop : Location} : (⟨.symbol y o :: us, stop⟩ : TokenStream).Follows r :=
  ⟨by simp [rank, current, h], by simp [current]⟩

theorem follows_op {op : InfixOp} {o : Location} {us : List Token} {stop : Location} :
    (⟨.symbol op.symbol o :: us, stop⟩ : TokenStream).Follows op.level.cap :=
  ⟨by cases op <;> exact Nat.le_refl _, by simp [current]⟩

theorem follows_suffixed {y : Symbol} {o : Location} {us : List Token} {stop : Location} :
    (⟨.symbol y o :: us, stop⟩ : TokenStream).Follows Level.suffixed.cap :=
  ⟨rank_le, by simp [current]⟩

theorem current_of_head {P : Lexeme → Prop} {ts : List Token} (stop : Location)
    (h : ∃ t ∈ ts.head?, P t.lexeme) : P (⟨ts, stop⟩ : TokenStream).current.lexeme := by
  have ⟨t, ht, hp⟩ := h
  cases ts
  case nil => cases ht
  case cons => cases ht; exact hp

end TokenStream

theorem TokenStream.rank_le_of_not_continues {us : List Token} {stop : Location}
    (h : ∀ t ∈ us.head?, ¬t.Continues) :
    (⟨us, stop⟩ : TokenStream).rank ≤ Precedence.lowest.rank := by
  refine Nat.le_of_not_lt fun hr => ?_
  have ⟨x, hx, _⟩ := exists_suffix hr
  cases us
  case nil => contradiction
  case cons t us =>
    refine h t rfl ?_
    obtain op | _ | _ := x
    · exact .inr (.inr ⟨op, Suffix.eq_infixOp hx⟩)
    · exact .inl (Suffix.eq_call hx)
    · exact .inr (.inl (Suffix.eq_index hx))

-- What follows a statement, or ends a list of them, does not begin one.
theorem Lexeme.StartsStmt.ne {l : Lexeme} (h : l.StartsStmt) :
    l ≠ .symbol .semicolon ∧ l ≠ .symbol .rbrace ∧ l ≠ .keyword .kwElse ∧ l.kind ≠ .eof := by
  refine ⟨?_, ?_, ?_, ?_⟩
  case refine_4 =>
    intro hk
    cases l <;> simp_all [Lexeme.StartsStmt, Lexeme.StartsExpr, Lexeme.kind]
  all_goals
    rintro rfl
    simp [Lexeme.StartsStmt, Lexeme.StartsExpr] at h

-- The symbols that lists end with.
def Symbol.Closes (y : Symbol) : Prop :=
  y = .rparen ∨ y = .rbracket ∨ y = .rbrace

theorem Symbol.Closes.not_startsExpr {y : Symbol} (h : y.Closes) :
    ¬(Lexeme.symbol y).StartsExpr := by
  obtain rfl | rfl | rfl := h <;> simp [Lexeme.StartsExpr]

theorem Symbol.Closes.follows {y : Symbol} (h : y.Closes) {r : Nat} {c : Location}
    {us : List Token} {stop : Location} : (⟨.symbol y c :: us, stop⟩ : TokenStream).Follows r := by
  obtain rfl | rfl | rfl := h <;> exact TokenStream.follows_symbol rfl

namespace Parser

section

variable {k : TokenKind} {t : Token} {ts us : List Token} {stop : Location}

theorem expect_cons (h : t.kind = k) : expect k ⟨t :: ts, stop⟩ = .ok t ⟨ts, stop⟩ := by
  simp [expect, current, TokenStream.current, bind, EStateM.bind, h, advance, TokenStream.advance]

theorem skip_cons (h : t.kind = k) : discard (expect k) ⟨t :: ts, stop⟩ = .ok () ⟨ts, stop⟩ := by
  simp only [discard, Functor.discard, Functor.mapConst, EStateM.map, Function.comp,
    expect_cons h]

theorem integer_of_lt {digits : String} {o : Location} (h : decimal digits < integerBound) :
    integer ⟨⟨.int digits, o⟩ :: us, stop⟩ =
      .ok (.int o (Int64.ofNat (decimal digits))) ⟨us, stop⟩ := by
  rw [integer_eq, bind_eq (expect_cons (k := .int) rfl)]
  exact congrFun (if_pos h) _

theorem isAt_of_ne {s : TokenStream} (h : s.current.kind ≠ k) : isAt k s = .ok false s := by
  simp [isAt, h]

theorem isAt_of_eq {s : TokenStream} (h : s.current.kind = k) : isAt k s = .ok true s := by
  simp [isAt, h]

variable {trailing : Bool} {y : Symbol} {item : Parser α} {m : Nat} {c : Prop}

theorem items_go_none {s : TokenStream} (h : s.current.kind = .symbol y) :
    items.go trailing y item m true s = .ok [] s := by
  cases m
  case zero => rfl
  case succ =>
    rw [items.go, bind_eq (isAt_of_eq h)]
    rfl

theorem items_go_some {s : TokenStream} (h : s.current.kind ≠ .symbol y) :
    items.go trailing y item (m + 1) true s = (do
      let x ← item
      return x :: (← items.go trailing y item m false)) s := by
  rw [items.go, bind_eq (isAt_of_ne h)]
  rfl

theorem items_go_comma {o : Location} (hy : y ≠ .comma)
    (h : trailing ∨ (⟨us, stop⟩ : TokenStream).current.kind ≠ .symbol y) :
    items.go trailing y item (m + 1) false ⟨.symbol .comma o :: us, stop⟩ =
      items.go trailing y item (m + 1) true ⟨us, stop⟩ := by
  have hc : (⟨.symbol .comma o :: us, stop⟩ : TokenStream).current.kind ≠ .symbol y :=
    fun h => hy (TokenKind.symbol.inj h).symm
  rw [items.go, bind_eq (isAt_of_ne hc)]
  simp only [Bool.false_eq_true, if_false]
  rw [bind_eq (skip_cons (k := .symbol .comma) rfl)]
  by_cases ht : (⟨us, stop⟩ : TokenStream).current.kind = .symbol y
  case pos =>
    rw [bind_eq (isAt_of_eq ht), items_go_none ht, h.resolve_right (not_not_intro ht)]
    rfl
  case neg =>
    rw [bind_eq (isAt_of_ne ht), items_go_some ht, Bool.and_false]
    rfl

-- Once an item has been read, the list ends or goes on behind a comma.
theorem items_go_last {s : TokenStream} (hs : s.current.kind ≠ .symbol y) {x : α} {o : Location}
    (hx : item.Gives c s (.ok x ⟨.symbol y o :: us, stop⟩)) :
    (items.go trailing y item (m + 1) true).Gives c s (.ok [x] ⟨.symbol y o :: us, stop⟩) := by
  rw [Gives, items_go_some hs]
  refine Gives.bind hx (.bind_eq ?_ (.inl rfl))
  cases m
  case zero => rfl
  case succ =>
    rw [items.go, bind_eq (isAt_of_eq (k := .symbol y) rfl)]
    rfl

theorem items_go_more {s s' : TokenStream} (hs : s.current.kind ≠ .symbol y) {x : α}
    {o : Location} (hy : y ≠ .comma)
    (h : trailing ∨ (⟨us, stop⟩ : TokenStream).current.kind ≠ .symbol y)
    (hx : item.Gives c s (.ok x ⟨.symbol .comma o :: us, stop⟩))
    (hg : (items.go trailing y item (m + 1) true).Gives c ⟨us, stop⟩ (.ok xs s')) :
    (items.go trailing y item (m + 2) true).Gives c s (.ok (x :: xs) s') := by
  rw [Gives, items_go_some hs]
  refine Gives.bind hx (Gives.bind ?_ (.inl rfl))
  rw [Gives, items_go_comma hy h]
  exact hg

theorem skipSemicolon_cons {o : Location} :
    skipSemicolon ⟨.symbol .semicolon o :: us, stop⟩ = .ok () ⟨us, stop⟩ := by
  rw [skipSemicolon, bind_eq (isAt_of_eq (k := .symbol .semicolon) rfl)]
  rfl

theorem skipSemicolon_of_ne {s : TokenStream} (h : s.current.kind ≠ .symbol .semicolon) :
    skipSemicolon s = .ok () s := by
  rw [skipSemicolon, bind_eq (isAt_of_ne h)]
  rfl

end

theorem kind_ne {s : TokenStream} {y : Symbol} (h : s.current.lexeme ≠ .symbol y) :
    s.current.kind ≠ .symbol y :=
  fun hk => h (Token.lexeme_of_symbol hk)

theorem current_eq (s : TokenStream) : current s = .ok s.current s :=
  rfl

theorem leading_of_int {n : Nat} {s : TokenStream} {digits : String}
    (h : s.current.lexeme = .int digits) : leading n s = integer s := by
  rw [leading, bind_eq (current_eq s), h]

theorem statement_of_let {n : Nat} {s : TokenStream} (h : s.current.lexeme = .keyword .kwLet) :
    statement (n + 1) s = letStatement n s := by
  rw [statement, bind_eq (current_eq s), h]

theorem statement_of_return {n : Nat} {s : TokenStream}
    (h : s.current.lexeme = .keyword .kwReturn) : statement (n + 1) s = returnStatement n s := by
  rw [statement, bind_eq (current_eq s), h]

theorem statement_of_startsExpr {n : Nat} {s : TokenStream} (h : s.current.lexeme.StartsExpr) :
    statement (n + 1) s = expressionStatement n s := by
  rw [statement, bind_eq (current_eq s)]
  generalize s.current = t at h
  obtain ⟨x, l⟩ := t
  cases x
  case keyword k => cases k <;> first | rfl | simp [Lexeme.StartsExpr] at h
  all_goals rfl

-- The rule reads `xs` as a list of items, and stops in front of the symbol that closes it.
def ListRead (stop : Location) (trailing : Bool) (item : Parser α) (c : Prop) (ts : List Token)
    (xs : List α) (us : List Token) : Prop :=
  ∀ m y o vs, y.Closes → us = .symbol y o :: vs → ts.length < m →
    (items.go trailing y item m true).Gives c ⟨ts, stop⟩ (.ok xs ⟨us, stop⟩)

def Unclosed (s : TokenStream) : Prop :=
  ∀ y : Symbol, y.Closes → s.current.kind ≠ .symbol y

theorem unclosed_of_startsExpr {ts : List Token} (stop : Location)
    (h : ∃ t ∈ ts.head?, t.lexeme.StartsExpr) : Unclosed ⟨ts, stop⟩ := by
  intro y hy hk
  have hs := TokenStream.current_of_head stop h
  rw [Token.lexeme_of_symbol hk] at hs
  exact hy.not_startsExpr hs

namespace ListRead

variable {stop : Location} {trailing : Bool} {item : Parser α} {c : Prop} {ts us vs : List Token}
    {x : α} {xs : List α}

theorem none : ListRead stop trailing item c us [] us := by
  rintro m y o vs hy rfl hm
  exact .inl (items_go_none rfl)

theorem mono {c' : Prop} (hc : c → c') (h : ListRead stop trailing item c ts xs us) :
    ListRead stop trailing item c' ts xs us :=
  fun m y o vs hy hv hm => (h m y o vs hy hv hm).mono hc

theorem last (hs : Unclosed ⟨ts, stop⟩)
    (hx : TokenStream.Follows Precedence.lowest.rank ⟨us, stop⟩ →
      item.Gives c ⟨ts, stop⟩ (.ok x ⟨us, stop⟩)) :
    ListRead stop trailing item c ts [x] us := by
  rintro m y o vs hy rfl hm
  cases m
  case zero => contradiction
  case succ => exact items_go_last (hs y hy) (hx hy.follows)

theorem more (hs : Unclosed ⟨ts, stop⟩) {o : Location}
    (hx : item.Gives c ⟨ts, stop⟩ (.ok x ⟨.symbol .comma o :: us, stop⟩))
    (hl : us.length + 1 < ts.length) (h : trailing ∨ Unclosed ⟨us, stop⟩)
    (hg : ListRead stop trailing item c us xs vs) :
    ListRead stop trailing item c ts (x :: xs) vs := by
  intro m y q ws hy hv hm
  obtain _ | _ | m := m
  · contradiction
  · omega
  · refine items_go_more (hs y hy) ?_ (h.imp id fun h => h y hy) hx (hg _ y q ws hy hv (by omega))
    obtain rfl | rfl | rfl := hy <;> decide

theorem items {y : Symbol} {o : Location} (hy : y.Closes)
    (h : ListRead stop trailing item c ts xs (.symbol y o :: us)) :
    (Parser.items trailing y item).Gives c ⟨ts, stop⟩ (.ok xs ⟨us, stop⟩) := by
  refine .bind_eq rfl (.bind (h _ y o us hy rfl (Nat.lt_succ_self _)) ?_)
  exact .bind_eq (skip_cons rfl) (.inl rfl)

end ListRead

-- The rule for the statements of a block, which stops in front of its brace.
def BlockRead (stop : Location) (statement : Parser Stmt) (c : Prop) (ts : List Token)
    (xs : List Stmt) (us : List Token) : Prop :=
  ∀ m o vs, us = .symbol .rbrace o :: vs → ts.length < m →
    (statements.go statement m).Gives c ⟨ts, stop⟩ (.ok xs ⟨us, stop⟩)

namespace BlockRead

variable {stop : Location} {statement : Parser Stmt} {c : Prop} {ts us vs : List Token}
    {x : Stmt} {xs : List Stmt}

theorem none : BlockRead stop statement c us [] us := by
  rintro m o vs rfl hm
  cases m
  case zero => contradiction
  case succ =>
    rw [Gives, statements.go, bind_eq (isAt_of_eq (k := .symbol .rbrace) rfl)]
    exact .inl rfl

theorem mono {c' : Prop} (hc : c → c') (h : BlockRead stop statement c ts xs us) :
    BlockRead stop statement c' ts xs us :=
  fun m o vs hv hm => (h m o vs hv hm).mono hc

theorem more (hb : (⟨ts, stop⟩ : TokenStream).current.kind ≠ .symbol .rbrace)
    (he : (⟨ts, stop⟩ : TokenStream).current.kind ≠ .eof) (hl : us.length < ts.length)
    (hx : statement.Gives c ⟨ts, stop⟩ (.ok x ⟨us, stop⟩))
    (hg : BlockRead stop statement c us xs vs) : BlockRead stop statement c ts (x :: xs) vs := by
  intro m o ws hv hm
  cases m
  case zero => contradiction
  case succ m =>
    rw [Gives, statements.go, bind_eq (isAt_of_ne hb)]
    refine Gives.bind_eq (isAt_of_ne he) (Gives.bind hx (Gives.bind ?_ (.inl rfl)))
    exact hg m o ws hv (by omega)

theorem statements {o : Location} (h : BlockRead stop statement c ts xs (.symbol .rbrace o :: us)) :
    (Parser.statements statement).Gives c ⟨ts, stop⟩ (.ok xs ⟨.symbol .rbrace o :: us, stop⟩) :=
  .bind_eq rfl (h _ o us rfl (Nat.lt_succ_self _))

end BlockRead

theorem ListRead.params {ts us : List Token} {ps : List Binder} {stop : Location} {c : Prop}
    (h : Params ts ps us) : ListRead stop false binder c ts ps us := by
  have unclosed {x o} {us : List Token} : Unclosed ⟨⟨.ident x, o⟩ :: us, stop⟩ := by
    intro y hy hk
    cases hk
  induction h
  case none => exact .none
  case last => exact .last unclosed fun _ => .bind_eq (expect_cons rfl) (.inl rfl)
  case more hp hi =>
    refine .more unclosed (.bind_eq (expect_cons rfl) (.inl rfl)) ?_ (.inr ?_) hi
    · simp
    · cases hp <;> exact unclosed

theorem repeated?_eq_none_of_nodup {bs : List Binder} (h : (bs.map (·.name)).Nodup) :
    repeated? bs = none := by
  induction bs
  case nil => rfl
  case cons b bs hi =>
    rw [List.map_cons, List.nodup_cons] at h
    rw [repeated?, hi h.right, Option.or_none, List.find?_eq_none]
    intro c hc he
    exact h.left (List.mem_map.mpr ⟨c, hc, of_decide_eq_true he⟩)

def pair (n : Nat) : Parser (Expr × Expr) := do
  let k ← expression n .lowest
  discard (expect (.symbol .colon))
  return (k, ← expression n .lowest)

end Parser

open Marmoset.Parser TokenStream

-- What the grammar has to give a rule of the parser for it to read the phrase.
def Nonterminal.Read (stop : Location) :
    (k : Nonterminal) → List Token → k.Tree → List Token → Prop
  | expr l, ts, e, us => ∀ n p, p.rank < l.floor → Follows l.cap ⟨us, stop⟩ →
    ∃ m, us.length ≤ m ∧ (expression n p).Gives (n + 2 * us.length < 2 * ts.length) ⟨ts, stop⟩
      (extend.go p (suffixed (n - 1)) m e ⟨us, stop⟩)
  | exprs, ts, es, us => ∀ n, ListRead stop true (expression n .lowest)
      (n + 2 * us.length < 2 * ts.length) ts es us
  | pair, ts, p, us => ∀ n, Follows Precedence.lowest.rank ⟨us, stop⟩ →
    (Parser.pair n).Gives (n + 2 * us.length < 2 * ts.length) ⟨ts, stop⟩ (.ok p ⟨us, stop⟩)
  | pairs, ts, ps, us => ∀ n, ListRead stop true (Parser.pair n)
      (n + 2 * us.length < 2 * ts.length) ts ps us
  | clause, ts, x, us => ∀ n, Follows Precedence.lowest.rank ⟨us, stop⟩ →
    (statement n).Gives (n + 2 * us.length < 2 * ts.length + 2) ⟨ts, stop⟩
      ((do skipSemicolon; return x : Parser Stmt) ⟨us, stop⟩)
  | stmt, ts, x, us => ∀ n, (⟨us, stop⟩ : TokenStream).current.kind ≠ .symbol .semicolon →
    (⟨us, stop⟩ : TokenStream).current.lexeme ≠ .keyword .kwElse →
    (statement n).Gives (n + 2 * us.length < 2 * ts.length + 2) ⟨ts, stop⟩ (.ok x ⟨us, stop⟩)
  | stmts, ts, xs, us => ∀ n, BlockRead stop (statement n)
      (n + 2 * us.length < 2 * ts.length + 2) ts xs us
  | block, ts, b, us => ∀ n, (Parser.block n).Gives (n + 2 * us.length < 2 * ts.length) ⟨ts, stop⟩
      (.ok b ⟨us, stop⟩)

namespace Nonterminal.Read

variable {stop : Location} {ts us vs : List Token}

theorem whole {p : Precedence} (hp : p.rank ≤ Precedence.prefixOp.rank)
    (h : (expr p.level).Read stop ts e us) (hf : Follows p.rank ⟨us, stop⟩) (n : Nat) :
    (expression n p).Gives (n + 2 * us.length < 2 * ts.length) ⟨ts, stop⟩ (.ok e ⟨us, stop⟩) := by
  have hl : p.rank < p.level.floor ∧ p.rank ≤ p.level.cap := by
    cases p <;> first | decide | (revert hp; decide)
  have ⟨m, _, h⟩ := h n p hl.left (hf.mono hl.right)
  rwa [extend_go_of_rank_le hf.rank] at h

theorem tighter {l l' : Level} (hl : l.tighter? = some l') (h : (expr l').Read stop ts e us) :
    (expr l).Read stop ts e us := by
  have hm : l.floor ≤ l'.floor ∧ l.cap ≤ l'.cap := by cases l <;> cases hl <;> decide
  intro n p hp hf
  exact h n p (Nat.lt_of_lt_of_le hp hm.left) (hf.mono hm.right)

-- A suffix that binds tightly enough makes the loop go on with a larger expression.
theorem suffix {n : Nat} {p : Precedence} {x : Suffix} {c : Prop} {t : Token} {a e : Expr}
    (hx : Suffix.ofLexeme? t.lexeme = some x) (hp : p < x.precedence)
    (ha : ∃ m, (t :: us).length ≤ m ∧ (expression n p).Gives c ⟨ts, stop⟩
      (extend.go p (suffixed (n - 1)) m a ⟨t :: us, stop⟩))
    (hs : (suffixed (n - 1) x a).Gives c ⟨t :: us, stop⟩ (.ok e ⟨vs, stop⟩))
    (hl : vs.length ≤ us.length) :
    ∃ m, vs.length ≤ m ∧ (expression n p).Gives c ⟨ts, stop⟩
      (extend.go p (suffixed (n - 1)) m e ⟨vs, stop⟩) := by
  have ⟨m, hm, ha⟩ := ha
  cases m
  case zero => contradiction
  case succ m =>
    refine ⟨m, Nat.le_trans hl (Nat.le_of_succ_le_succ hm), ha.trans ?_⟩
    rw [Gives, extend_go_succ (s := ⟨t :: us, stop⟩) hx hp]
    exact Gives.bind hs (.inl rfl)

theorem infixOp {op : InfixOp} {l : Level} {o : Location} (hl : op.level.tighter? = some l)
    (ha : (expr op.level).Read stop ts a (.symbol op.symbol o :: us))
    (hb : (expr l).Read stop us b vs)
    (hs : us.length + 1 < ts.length) (ht : vs.length < us.length) :
    (expr op.level).Read stop ts (.infixOp o op a b) vs := by
  cases op.tighter_level.symm.trans hl
  intro n p hp hf
  rw [op.floor_level] at hp
  rw [op.cap_level] at hf
  have ⟨m, hm, ha⟩ := ha n p (op.floor_level ▸ hp) follows_op
  rw [List.length_cons] at hm ha
  refine suffix (x := .infixOp op) (by cases op <;> rfl) hp ⟨m, hm, ha.mono (by omega)⟩ ?_
    (Nat.le_of_lt ht)
  cases hk : n - 1
  case zero => exact .tooDeep (by omega)
  case succ k =>
    rw [Gives, suffixed]
    refine Gives.bind_eq rfl (Gives.bind ((hb.whole ?_ hf k).mono (by omega)) (.inl rfl))
    cases op <;> decide

theorem call {o c : Location} (hf : (expr .suffixed).Read stop ts f (.symbol .lparen o :: us))
    (ha : exprs.Read stop us as (.symbol .rparen c :: vs)) (hs : us.length + 1 < ts.length)
    (ht : vs.length < us.length) : (expr .suffixed).Read stop ts (.call o f as) vs := by
  intro n p hp _
  have hl : p.rank < Suffix.call.precedence.rank := hp
  have ⟨m, hm, hf⟩ := hf n p hp follows_suffixed
  rw [List.length_cons] at hm hf
  refine suffix (x := .call) rfl hl ⟨m, hm, hf.mono (by omega)⟩ ?_ (Nat.le_of_lt ht)
  cases hk : n - 1
  case zero => exact .tooDeep (by omega)
  case succ k =>
    rw [Gives, suffixed]
    have ha := (ha k).items (.inl rfl)
    rw [List.length_cons] at ha
    exact Gives.bind_eq rfl (Gives.bind (ha.mono (by omega)) (.inl rfl))

theorem index {o c : Location} (ha : (expr .suffixed).Read stop ts a (.symbol .lbracket o :: us))
    (hi : (expr .equality).Read stop us i (.symbol .rbracket c :: vs))
    (hs : us.length + 1 < ts.length) (ht : vs.length < us.length) :
    (expr .suffixed).Read stop ts (.index o a i) vs := by
  intro n p hp _
  have hl : p.rank < Suffix.index.precedence.rank := Nat.lt_succ_of_lt hp
  have ⟨m, hm, ha⟩ := ha n p hp follows_suffixed
  rw [List.length_cons] at hm ha
  refine suffix (x := .index) rfl hl ⟨m, hm, ha.mono (by omega)⟩ ?_ (Nat.le_of_lt ht)
  cases hk : n - 1
  case zero => exact .tooDeep (by omega)
  case succ k =>
    rw [Gives, suffixed]
    have hi := hi.whole (p := .lowest) (by decide) (follows_symbol rfl) k
    rw [List.length_cons] at hi
    refine Gives.bind_eq rfl (Gives.bind (hi.mono (by omega)) ?_)
    exact Gives.bind_eq (skip_cons rfl) (.inl rfl)

theorem leading {l : Level} (hl : us.length < ts.length)
    (h : ∀ n, Follows l.cap ⟨us, stop⟩ →
      (Parser.leading n).Gives (n + 1 + 2 * us.length < 2 * ts.length) ⟨ts, stop⟩
        (.ok e ⟨us, stop⟩)) : (expr l).Read stop ts e us := by
  intro n p hp hf
  refine ⟨us.length, Nat.le_refl _, ?_⟩
  cases n
  case zero => exact .tooDeep (by omega)
  case succ n =>
    rw [expression_succ]
    exact .bind (h n hf) (.inl rfl)

-- A token that is an expression by itself.
theorem token {t : Token} (h : ∀ n, Parser.leading n ⟨t :: us, stop⟩ = .ok e ⟨us, stop⟩) :
    (expr .primary).Read stop (t :: us) e us :=
  leading (Nat.lt_succ_self _) fun n _ => .inl (h n)

theorem int {digits : String} {o : Location} (h : decimal digits < integerBound) :
    (expr .primary).Read stop (⟨.int digits, o⟩ :: us) (.int o (Int64.ofNat (decimal digits))) us := by
  refine token fun n => ?_
  rw [leading_of_int rfl, integer_of_lt h]

theorem prefixOp {y : Symbol} {op : PrefixOp} {o : Location} (hy : y = .bang ∨ y = .minus)
    (ho : .ofText y.text = op) (h : (expr .unary).Read stop ts e us) (hs : us.length < ts.length) :
    (expr .unary).Read stop (.symbol y o :: ts) (.prefixOp o op e) us := by
  refine leading (Nat.lt_succ_of_lt hs) fun n hf => ?_
  rw [List.length_cons]
  have hp : Parser.leading n ⟨.symbol y o :: ts, stop⟩ = prefixed n ⟨.symbol y o :: ts, stop⟩ := by
    obtain rfl | rfl := hy <;> rfl
  rw [Gives, hp]
  cases n
  case zero => exact Gives.tooDeep (by omega)
  case succ n =>
    rw [prefixed, ← ho]
    have h := h.whole (p := .prefixOp) (by decide) hf n
    exact Gives.bind_eq rfl (Gives.bind (h.mono (by omega)) (.inl rfl))

theorem group {o c : Location} (h : (expr .equality).Read stop ts e (.symbol .rparen c :: us))
    (hs : us.length + 1 < ts.length) :
    (expr .primary).Read stop (.symbol .lparen o :: ts) e us := by
  refine leading (by rw [List.length_cons]; omega) fun n _ => ?_
  rw [List.length_cons]
  change (grouped n).Gives _ _ _
  cases n
  case zero => exact .tooDeep (by omega)
  case succ n =>
    have h := h.whole (p := .lowest) (by decide) (follows_symbol rfl) n
    rw [List.length_cons] at h
    rw [grouped]
    refine .bind_eq (skip_cons rfl) (.bind (h.mono (by omega)) ?_)
    exact .bind_eq (skip_cons rfl) (.inl rfl)

theorem cond {c : Expr} {b : Block} {o p q : Location}
    (hc : (expr .equality).Read stop ts c (.symbol .rparen q :: us)) (hb : block.Read stop us b vs)
    (hs : us.length + 1 < ts.length) (ht : vs.length < us.length) :
    (expr .primary).Read stop (.keyword .kwIf o :: .symbol .lparen p :: ts) (.cond o c b none)
      vs := by
  refine leading (by simp only [List.length_cons]; omega) fun n hf => ?_
  simp only [List.length_cons]
  change (conditional n).Gives _ _ _
  cases n
  case zero => exact .tooDeep (by omega)
  case succ n =>
    have hc := hc.whole (p := .lowest) (by decide) (follows_symbol rfl) n
    rw [List.length_cons] at hc
    rw [conditional]
    refine .bind_eq (expect_cons rfl) (.bind_eq (skip_cons rfl) (.bind (hc.mono (by omega)) ?_))
    refine .bind_eq (skip_cons rfl) (.bind ((hb n).mono (by omega)) ?_)
    refine .bind_eq (isAt_of_ne fun hk => hf.noElse ?_) (.inl rfl)
    exact Token.lexeme_of_keyword hk

theorem condElse {c : Expr} {b a : Block} {o p q r : Location}
    (hc : (expr .equality).Read stop ts c (.symbol .rparen q :: us))
    (hb : block.Read stop us b (.keyword .kwElse r :: vs)) (ha : block.Read stop vs a ws)
    (hs : us.length + 1 < ts.length) (ht : vs.length + 1 < us.length)
    (hv : ws.length < vs.length) :
    (expr .primary).Read stop (.keyword .kwIf o :: .symbol .lparen p :: ts)
      (.cond o c b (some a)) ws := by
  refine leading (by simp only [List.length_cons]; omega) fun n _ => ?_
  simp only [List.length_cons]
  change (conditional n).Gives _ _ _
  cases n
  case zero => exact .tooDeep (by omega)
  case succ n =>
    have hc := hc.whole (p := .lowest) (by decide) (follows_symbol rfl) n
    have hb := hb n
    rw [List.length_cons] at hc hb
    rw [conditional]
    refine .bind_eq (expect_cons rfl) (.bind_eq (skip_cons rfl) (.bind (hc.mono (by omega)) ?_))
    refine .bind_eq (skip_cons rfl) (.bind (hb.mono (by omega)) ?_)
    refine .bind_eq (isAt_of_eq rfl) (.bind_eq rfl (.bind ((ha n).mono (by omega)) (.inl rfl)))

theorem fn {ps : List Binder} {b : Block} {o p q : Location}
    (hp : Params ts ps (.symbol .rparen q :: us)) (hn : (ps.map (·.name)).Nodup)
    (hb : block.Read stop us b vs) (ht : vs.length < us.length) :
    (expr .primary).Read stop (.keyword .kwFn o :: .symbol .lparen p :: ts) (.fn o ps b) vs := by
  have hl := hp.length_le
  rw [List.length_cons] at hl
  refine leading (by simp only [List.length_cons]; omega) fun n _ => ?_
  simp only [List.length_cons]
  change (function n).Gives _ _ _
  cases n
  case zero => exact .tooDeep (by omega)
  case succ n =>
    rw [function]
    refine .bind_eq (expect_cons rfl) (.bind_eq (skip_cons rfl) ?_)
    refine .bind ((ListRead.params hp).items (.inl rfl)) (.bind ((hb n).mono (by omega)) ?_)
    rw [repeated?_eq_none_of_nodup hn]
    exact .inl rfl

theorem array {es : List Expr} {o c : Location}
    (h : exprs.Read stop ts es (.symbol .rbracket c :: us)) (hs : us.length < ts.length) :
    (expr .primary).Read stop (.symbol .lbracket o :: ts) (.array o es) us := by
  refine leading (by simp only [List.length_cons]; omega) fun n _ => ?_
  rw [List.length_cons]
  change (Parser.array n).Gives _ _ _
  cases n
  case zero => exact .tooDeep (by omega)
  case succ n =>
    have h := (h n).items (.inr (.inl rfl))
    rw [List.length_cons] at h
    rw [Parser.array]
    exact .bind_eq (expect_cons rfl) (.bind (h.mono (by omega)) (.inl rfl))

theorem hash {ps : List (Expr × Expr)} {o c : Location}
    (h : pairs.Read stop ts ps (.symbol .rbrace c :: us)) (hs : us.length < ts.length) :
    (expr .primary).Read stop (.symbol .lbrace o :: ts) (.hash o ps) us := by
  refine leading (by simp only [List.length_cons]; omega) fun n _ => ?_
  rw [List.length_cons]
  change (Parser.hash n).Gives _ _ _
  cases n
  case zero => exact .tooDeep (by omega)
  case succ n =>
    have h := (h n).items (.inr (.inr rfl))
    rw [List.length_cons] at h
    rw [Parser.hash]
    exact .bind_eq (expect_cons rfl) (.bind (h.mono (by omega)) (.inl rfl))

theorem noExprs : exprs.Read stop us [] us :=
  fun _ => .none

theorem lastExpr (hs : ∃ t ∈ ts.head?, t.lexeme.StartsExpr)
    (h : (expr .equality).Read stop ts e us) : exprs.Read stop ts [e] us :=
  fun n => .last (unclosed_of_startsExpr stop hs) fun hf => h.whole (p := .lowest) (by decide) hf n

theorem moreExprs {o : Location} (hs : ∃ t ∈ ts.head?, t.lexeme.StartsExpr)
    (h : (expr .equality).Read stop ts e (.symbol .comma o :: us)) (hg : exprs.Read stop us es vs)
    (hl : us.length + 1 < ts.length) (hm : vs.length ≤ us.length) :
    exprs.Read stop ts (e :: es) vs := by
  intro n
  have h := h.whole (p := .lowest) (by decide) (follows_symbol rfl) n
  rw [List.length_cons] at h
  refine .more (unclosed_of_startsExpr stop hs) (h.mono (by omega)) hl (.inl rfl) ?_
  exact (hg n).mono (by omega)

theorem pair {k v : Expr} {o : Location}
    (hk : (expr .equality).Read stop ts k (.symbol .colon o :: us))
    (hv : (expr .equality).Read stop us v vs) (hl : us.length + 1 < ts.length)
    (hm : vs.length < us.length) : Nonterminal.pair.Read stop ts (k, v) vs := by
  intro n hf
  have hk := hk.whole (p := .lowest) (by decide) (follows_symbol rfl) n
  have hv := hv.whole (p := .lowest) (by decide) hf n
  rw [List.length_cons] at hk
  refine .bind (hk.mono (by omega)) (.bind_eq (skip_cons rfl) ?_)
  exact .bind (hv.mono (by omega)) (.inl rfl)

theorem noPairs : pairs.Read stop us [] us :=
  fun _ => .none

theorem lastPair (hs : ∃ t ∈ ts.head?, t.lexeme.StartsExpr)
    (h : Nonterminal.pair.Read stop ts q us) : pairs.Read stop ts [q] us :=
  fun n => .last (unclosed_of_startsExpr stop hs) (h n)

theorem morePairs {o : Location} (hs : ∃ t ∈ ts.head?, t.lexeme.StartsExpr)
    (h : Nonterminal.pair.Read stop ts q (.symbol .comma o :: us)) (hg : pairs.Read stop us ps vs)
    (hl : us.length + 1 < ts.length) (hm : vs.length ≤ us.length) :
    pairs.Read stop ts (q :: ps) vs := by
  intro n
  have h := h n (follows_symbol rfl)
  rw [List.length_cons] at h
  refine .more (unclosed_of_startsExpr stop hs) (h.mono (by omega)) hl (.inl rfl) ?_
  exact (hg n).mono (by omega)

theorem bind {o b a : Location} {x : String} (h : (expr .equality).Read stop ts e us)
    (hl : us.length < ts.length) :
    clause.Read stop (.keyword .kwLet o :: ⟨.ident x, b⟩ :: .symbol .assign a :: ts)
      (.bind o ⟨b, x⟩ e) us := by
  intro n hf
  simp only [List.length_cons]
  obtain _ | _ | n := n
  · exact .tooDeep (by omega)
  · rw [Gives, statement_of_let rfl]
    exact .inr ⟨by omega, _, rfl⟩
  · have h := h.whole (p := .lowest) (by decide) hf n
    rw [Gives, statement_of_let rfl, letStatement]
    refine Gives.bind_eq (expect_cons rfl) (.bind_eq (.trans (bind_eq (expect_cons rfl)) rfl) ?_)
    exact .bind_eq (skip_cons rfl) (.bind (h.mono (by omega)) (.inl rfl))

theorem ret {o : Location} (h : (expr .equality).Read stop ts e us)
    (hl : us.length < ts.length) :
    clause.Read stop (.keyword .kwReturn o :: ts) (.ret o e) us := by
  intro n hf
  simp only [List.length_cons]
  obtain _ | _ | n := n
  · exact .tooDeep (by omega)
  · rw [Gives, statement_of_return rfl]
    exact .inr ⟨by omega, _, rfl⟩
  · have h := h.whole (p := .lowest) (by decide) hf n
    rw [Gives, statement_of_return rfl, returnStatement]
    exact Gives.bind_eq (expect_cons rfl) (.bind (h.mono (by omega)) (.inl rfl))

theorem exprClause (hs : ∃ t ∈ ts.head?, t.lexeme.StartsExpr)
    (h : (expr .equality).Read stop ts e us) (hl : us.length < ts.length) :
    clause.Read stop ts (.expr e) us := by
  intro n hf
  have hs := current_of_head stop hs
  obtain _ | _ | n := n
  · exact .tooDeep (by omega)
  · rw [Gives, statement_of_startsExpr hs]
    exact .inr ⟨by omega, _, rfl⟩
  · rw [Gives, statement_of_startsExpr hs, expressionStatement]
    have h := h.whole (p := .lowest) (by decide) hf n
    exact Gives.bind (h.mono (by omega)) (.inl rfl)

-- Once a statement has its semicolon, it does not matter what follows.
theorem terminated {o : Location} (h : clause.Read stop ts x (.symbol .semicolon o :: us))
    (n : Nat) : (statement n).Gives (n + 2 * us.length < 2 * ts.length + 2) ⟨ts, stop⟩
      (.ok x ⟨us, stop⟩) := by
  have h := h n (follows_symbol rfl)
  rw [List.length_cons] at h
  refine (h.mono (by omega)).trans ?_
  exact .bind_eq skipSemicolon_cons (.inl rfl)

theorem closed {o : Location} (h : clause.Read stop ts x (.symbol .semicolon o :: us)) :
    stmt.Read stop ts x us :=
  fun n _ _ => h.terminated n

theorem unclosed (h : clause.Read stop ts x us) (hc : ∀ t ∈ us.head?, ¬t.Continues) :
    stmt.Read stop ts x us := by
  intro n hs he
  refine (h n ⟨rank_le_of_not_continues hc, he⟩).trans ?_
  exact .bind_eq (skipSemicolon_of_ne hs) (.inl rfl)

theorem noStmts : stmts.Read stop us [] us :=
  fun _ => .none

theorem moreStmts (hs : ∃ t ∈ ts.head?, t.lexeme.StartsStmt)
    (hn : us = vs ∨ ∃ t ∈ us.head?, t.lexeme.StartsStmt) (h : stmt.Read stop ts x us)
    (hg : stmts.Read stop us xs vs) (hl : us.length < ts.length) (hm : vs.length ≤ us.length) :
    stmts.Read stop ts (x :: xs) vs := by
  intro n m o ws hv hm
  have hs := (current_of_head stop hs).ne
  have hu : (⟨us, stop⟩ : TokenStream).current.lexeme ≠ .symbol .semicolon ∧
      (⟨us, stop⟩ : TokenStream).current.lexeme ≠ .keyword .kwElse := by
    obtain rfl | hn := hn
    · rw [hv]
      exact ⟨by simp [TokenStream.current], by simp [TokenStream.current]⟩
    · have hn := (current_of_head stop hn).ne
      exact ⟨hn.left, hn.right.right.left⟩
  refine BlockRead.more (kind_ne hs.right.left) hs.right.right.right hl
    ((h n (kind_ne hu.left) hu.right).mono (by omega)) ((hg n).mono (by omega)) m o ws hv hm

theorem block {o c : Location} (h : stmts.Read stop ts xs (.symbol .rbrace c :: us))
    (hl : us.length < ts.length) :
    Nonterminal.block.Read stop (.symbol .lbrace o :: ts) (.mk o xs) us := by
  intro n
  rw [List.length_cons]
  cases n
  case zero => exact .tooDeep (by omega)
  case succ n =>
    have h := (h n).statements
    rw [List.length_cons] at h
    rw [Parser.block]
    refine .bind_eq (expect_cons rfl) (.bind (h.mono (by omega)) ?_)
    exact .bind_eq (skip_cons rfl) (.inl rfl)

end Nonterminal.Read

open Nonterminal in
theorem Derives.read {k : Nonterminal} {t : k.Tree} (stop : Location) (h : Derives k ts t us) :
    k.Read stop ts t us := by
  induction h
  case tighter hl _ h => exact .tighter hl h
  case infixOp hl ha hb ha' hb' => exact .infixOp hl ha' hb' ha.shortens hb.shortens
  case not h h' => exact .prefixOp (.inl rfl) rfl h' h.shortens
  case negate h h' => exact .prefixOp (.inr rfl) rfl h' h.shortens
  case call hf ha hf' ha' => exact .call hf' ha' hf.shortens ha.shortens
  case index ha hi ha' hi' => exact .index ha' hi' ha.shortens (Nat.lt_of_succ_lt hi.shortens)
  case ident | string | true | false => exact .token fun _ => rfl
  case int hd => exact .int hd
  case group h h' => exact .group h' h.shortens
  case cond hc hb hc' hb' => exact .cond hc' hb' hc.shortens hb.shortens
  case condElse hc hb ha hc' hb' ha' =>
    exact .condElse hc' hb' ha' hc.shortens hb.shortens ha.shortens
  case fn hp hn hb hb' => exact .fn hp hn hb' hb.shortens
  case array h h' => exact .array h' h.shortens
  case hash h h' => exact .hash h' h.shortens
  case noExprs => exact .noExprs
  case lastExpr h h' => exact .lastExpr h.heads h'
  case moreExprs h hg h' hg' => exact .moreExprs h.heads h' hg' h.shortens hg.shortens
  case pair hk hv hk' hv' => exact .pair hk' hv' hk.shortens hv.shortens
  case noPairs => exact .noPairs
  case lastPair h h' => exact .lastPair h.heads h'
  case morePairs h hg h' hg' => exact .morePairs h.heads h' hg' h.shortens hg.shortens
  case bind h h' => exact .bind h' h.shortens
  case ret h h' => exact .ret h' h.shortens
  case expr h h' => exact .exprClause h.heads h' h.shortens
  case closed h => exact .closed h
  case unclosed hc h => exact .unclosed h hc
  case noStmts => exact .noStmts
  case moreStmts h hg h' hg' =>
    exact .moreStmts h.heads hg.heads h' hg' h.shortens hg.shortens
  case block h h' => exact .block h' h.shortens

-- The limit on frames is the only reason to refuse what the grammar derives.
theorem Parse.statements_complete {frames n : Nat} {stop : Location} (hn : ts.length ≤ n)
    (h : Derives .stmts ts xs []) :
    statements frames n ⟨ts, stop⟩ = (xs, [], ⟨[], stop⟩) ∨
      frames < 2 * ts.length + 2 ∧
        ∃ r ∈ (statements frames n ⟨ts, stop⟩).2.1, r.error.cause = .tooDeep := by
  induction n generalizing ts xs
  case zero =>
    cases List.length_eq_zero_iff.mp (Nat.le_zero.mp hn)
    cases h
    case noStmts => exact .inl rfl
    case moreStmts hx _ => exact absurd hx.shortens (Nat.not_lt_zero _)
  case succ n hi =>
    cases h
    case noStmts => exact .inl rfl
    case moreStmts x us xs hx hg =>
      have hl : us.length < ts.length := hx.shortens
      have hp : ts ≠ [] := List.ne_nil_of_length_pos (Nat.lt_of_le_of_lt (Nat.zero_le _) hl)
      have hu : (⟨us, stop⟩ : TokenStream).current.lexeme ≠ .symbol .semicolon ∧
          (⟨us, stop⟩ : TokenStream).current.lexeme ≠ .keyword .kwElse := by
        obtain rfl | hs := hg.heads
        · exact ⟨by simp [TokenStream.current, TokenStream.eof],
            by simp [TokenStream.current, TokenStream.eof]⟩
        · have hs := (TokenStream.current_of_head stop hs).ne
          exact ⟨hs.left, hs.right.right.left⟩
      unfold statements
      rw [if_neg hp]
      obtain hx | ⟨hc, s', hx⟩ := hx.read stop frames (kind_ne hu.left) hu.right <;> rw [hx]
      · obtain hg | ⟨hc, hr⟩ := hi (by omega) hg
        · exact .inl (by simp only [hg])
        · exact .inr ⟨by omega, hr⟩
      · exact .inr ⟨by omega, _, List.mem_cons_self, rfl⟩

-- Two derivations have the same tree: what the parser reads, given the frames for it.
theorem Derives.stmts_unique (h : Derives .stmts ts xs []) (h' : Derives .stmts ts ys []) :
    xs = ys := by
  have read {xs} (h : Derives .stmts ts xs []) :
      (Parse.statements (2 * ts.length + 2) ts.length ⟨ts, .start⟩).1 = xs := by
    obtain hr | ⟨hc, _⟩ := Parse.statements_complete (Nat.le_refl _) h
    · rw [hr]
    · omega
  rw [← read h, read h']

theorem parse_exact (frames : Nat) (source : String) :
    let tokens := (TokenStream.ofSource source).pending
    let result := parse frames source
    (result.errors = [] → Derives .stmts tokens result.program.statements []) ∧
    (∀ xs, Derives .stmts tokens xs [] →
      result.errors = [] ∧ result.program.statements = xs ∨
        frames < 2 * tokens.length + 2 ∧ ∃ e ∈ result.errors, e.cause = .tooDeep) ∧
    ∀ xs ys, Derives .stmts tokens xs [] → Derives .stmts tokens ys [] → xs = ys := by
  refine ⟨parse_sound, fun xs h => ?_, fun xs ys => Derives.stmts_unique⟩
  have hs : (parse frames source).errors = (Parse.statements frames
      (TokenStream.ofSource source).size (TokenStream.ofSource source)).2.1.map (·.error) := rfl
  have hp : (parse frames source).program.statements = (Parse.statements frames
      (TokenStream.ofSource source).size (TokenStream.ofSource source)).1 := rfl
  rw [hs, hp]
  obtain hr | ⟨hc, r, hr, he⟩ := Parse.statements_complete (Nat.le_refl _) h
  · have hr : Parse.statements frames (TokenStream.ofSource source).size
        (TokenStream.ofSource source) = _ := hr
    rw [hr]
    exact .inl ⟨rfl, rfl⟩
  · exact .inr ⟨hc, _, List.mem_map_of_mem hr, he⟩

end Marmoset
