import Marmoset.Proofs.Grammar

/-!
Phrases by themselves. What a phrase is does not depend on what follows it, except that a statement
without its semicolon must not be followed by what would go on with it (`Derives.phrase`). So
phrases may be put together apart from the text that they were found in.
-/

namespace Marmoset

namespace Nonterminal

-- What may follow the phrase.
def MayPrecede : Nonterminal → List Token → Prop
  | stmt, us | stmts, us => ∀ t ∈ us.head?, ¬t.Continues
  | _, _ => True

-- The tokens are a phrase with that tree, whatever follows them.
def Phrase (k : Nonterminal) (ts : List Token) (t : k.Tree) : Prop :=
  ∀ us, k.MayPrecede us → Derives k (ts ++ us) t us

end Nonterminal

-- `ts` becomes `ts'` where `us` at its end is replaced by `us'`.
def Replaces (us us' ts ts' : List Token) : Prop :=
  ∃ p, ts = p ++ us ∧ ts' = p ++ us'

namespace Replaces

variable {us us' ts ts' : List Token}

theorem refl : Replaces us us' us us' :=
  ⟨[], rfl, rfl⟩

theorem cons (h : Replaces us us' ts ts') : Replaces us us' (t :: ts) (t :: ts') := by
  obtain ⟨p, rfl, rfl⟩ := h
  exact ⟨t :: p, rfl, rfl⟩

theorem tail (h : Replaces (t :: us) (t :: us') ts ts') : Replaces us us' ts ts' := by
  obtain ⟨p, rfl, rfl⟩ := h
  exact ⟨p ++ [t], by simp, by simp⟩

theorem trans (h : Replaces us us' ts ts') (h' : Replaces vs vs' us us') :
    Replaces vs vs' ts ts' := by
  obtain ⟨p, rfl, rfl⟩ := h
  obtain ⟨q, rfl, rfl⟩ := h'
  exact ⟨p ++ q, by simp, by simp⟩

-- If something is left in front, the texts go on alike.
theorem mayPrecede {k : Nonterminal} (h : Replaces us us' ts ts')
    (hs : k.MayPrecede us → k.MayPrecede us') (ht : k.MayPrecede ts) : k.MayPrecede ts' := by
  obtain ⟨p, rfl, rfl⟩ := h
  cases p
  case nil => exact hs ht
  case cons => cases k <;> exact ht

end Replaces

theorem Params.replace {ts us : List Token} {ps : List Binder} (h : Params ts ps us)
    (vs : List Token) : ∃ ts', Replaces us vs ts ts' ∧ Params ts' ps vs := by
  induction h
  case none => exact ⟨vs, .refl, .none⟩
  case last => exact ⟨_, .cons .refl, .last⟩
  case more hi =>
    have ⟨ts', hr, hp⟩ := hi
    exact ⟨_, hr.cons.cons, .more hp⟩

namespace Derives

variable {ts us : List Token}

theorem replace {k : Nonterminal} {t : k.Tree} (h : Derives k ts t us) (vs : List Token)
    (hs : k.MayPrecede us → k.MayPrecede vs) :
    ∃ ts', Replaces us vs ts ts' ∧ Derives k ts' t vs := by
  induction h generalizing vs
  case tighter hl _ h =>
    have ⟨us', hr, h⟩ := h vs hs
    exact ⟨_, hr, .tighter hl h⟩
  case infixOp hl _ _ ha hb =>
    have ⟨us', hr, hb⟩ := hb vs hs
    obtain ⟨ts', hr', ha⟩ := ha (_ :: us') id
    exact ⟨_, hr'.tail.trans hr, .infixOp hl ha hb⟩
  case not h =>
    have ⟨us', hr, h⟩ := h vs hs
    exact ⟨_, hr.cons, .not h⟩
  case negate h =>
    have ⟨us', hr, h⟩ := h vs hs
    exact ⟨_, hr.cons, .negate h⟩
  case call hf ha =>
    obtain ⟨us', hr, ha⟩ := ha (_ :: vs) id
    obtain ⟨ts', hr', hf⟩ := hf (_ :: us') id
    exact ⟨_, hr'.tail.trans hr.tail, .call hf ha⟩
  case index ha hi =>
    obtain ⟨us', hr, hi⟩ := hi (_ :: vs) id
    obtain ⟨ts', hr', ha⟩ := ha (_ :: us') id
    exact ⟨_, hr'.tail.trans hr.tail, .index ha hi⟩
  case ident => exact ⟨_, .cons .refl, .ident⟩
  case int hd => exact ⟨_, .cons .refl, .int hd⟩
  case string => exact ⟨_, .cons .refl, .string⟩
  case true => exact ⟨_, .cons .refl, .true⟩
  case false => exact ⟨_, .cons .refl, .false⟩
  case group h =>
    obtain ⟨us', hr, h⟩ := h (_ :: vs) id
    exact ⟨_, hr.tail.cons, .group h⟩
  case cond hc hb =>
    have ⟨us', hr, hb⟩ := hb vs hs
    obtain ⟨ts', hr', hc⟩ := hc (_ :: us') id
    exact ⟨_, (hr'.tail.trans hr).cons.cons, .cond hc hb⟩
  case condElse hc hb ha =>
    have ⟨us', hr, ha⟩ := ha vs hs
    obtain ⟨ts', hr', hb⟩ := hb (_ :: us') id
    obtain ⟨ts'', hr'', hc⟩ := hc (_ :: ts') id
    exact ⟨_, (hr''.tail.trans (hr'.tail.trans hr)).cons.cons, .condElse hc hb ha⟩
  case fn hp hn _ hb =>
    have ⟨us', hr, hb⟩ := hb vs hs
    obtain ⟨ts', hr', hp⟩ := hp.replace (_ :: us')
    exact ⟨_, (hr'.tail.trans hr).cons.cons, .fn hp hn hb⟩
  case array h =>
    obtain ⟨us', hr, h⟩ := h (_ :: vs) id
    exact ⟨_, hr.tail.cons, .array h⟩
  case hash h =>
    obtain ⟨us', hr, h⟩ := h (_ :: vs) id
    exact ⟨_, hr.tail.cons, .hash h⟩
  case noExprs => exact ⟨vs, .refl, .noExprs⟩
  case lastExpr h =>
    have ⟨us', hr, h⟩ := h vs hs
    exact ⟨_, hr, .lastExpr h⟩
  case moreExprs h hg =>
    have ⟨us', hr, hg⟩ := hg vs hs
    obtain ⟨ts', hr', h⟩ := h (_ :: us') id
    exact ⟨_, hr'.tail.trans hr, .moreExprs h hg⟩
  case pair hk hv =>
    have ⟨us', hr, hv⟩ := hv vs hs
    obtain ⟨ts', hr', hk⟩ := hk (_ :: us') id
    exact ⟨_, hr'.tail.trans hr, .pair hk hv⟩
  case noPairs => exact ⟨vs, .refl, .noPairs⟩
  case lastPair h =>
    have ⟨us', hr, h⟩ := h vs hs
    exact ⟨_, hr, .lastPair h⟩
  case morePairs h hg =>
    have ⟨us', hr, hg⟩ := hg vs hs
    obtain ⟨ts', hr', h⟩ := h (_ :: us') id
    exact ⟨_, hr'.tail.trans hr, .morePairs h hg⟩
  case bind h =>
    have ⟨us', hr, h⟩ := h vs hs
    exact ⟨_, hr.cons.cons.cons, .bind h⟩
  case ret h =>
    have ⟨us', hr, h⟩ := h vs hs
    exact ⟨_, hr.cons, .ret h⟩
  case expr h =>
    have ⟨us', hr, h⟩ := h vs hs
    exact ⟨_, hr, .expr h⟩
  case closed h =>
    obtain ⟨us', hr, h⟩ := h (_ :: vs) id
    exact ⟨_, hr.tail, .closed h⟩
  case unclosed hc h =>
    have ⟨us', hr, h⟩ := h vs fun _ => trivial
    exact ⟨_, hr, .unclosed h (hs hc)⟩
  case noStmts => exact ⟨vs, .refl, .noStmts⟩
  case moreStmts h hg =>
    have ⟨us', hr, hg⟩ := hg vs hs
    have ⟨ts', hr', h⟩ := h us' (hr.mayPrecede hs)
    exact ⟨_, hr'.trans hr, .moreStmts h hg⟩
  case block h =>
    obtain ⟨us', hr, h⟩ := h (_ :: vs) id
    exact ⟨_, hr.tail.cons, .block h⟩

-- Behind the same tokens something else may follow.
theorem follow {k : Nonterminal} {p : List Token} {t : k.Tree} (h : Derives k (p ++ us) t us)
    (vs : List Token) (hs : k.MayPrecede us → k.MayPrecede vs) : Derives k (p ++ vs) t vs := by
  obtain ⟨ts, ⟨q, he, rfl⟩, h⟩ := h.replace vs hs
  rwa [List.append_cancel_right he]

theorem phrase {k : Nonterminal} {p : List Token} {t : k.Tree} (h : Derives k (p ++ us) t us) :
    k.Phrase p t :=
  fun vs hs => h.follow vs fun _ => hs

end Derives

-- The tokens are parameters, whatever follows them.
def ParamsPhrase (ts : List Token) (ps : List Binder) : Prop :=
  ∀ us, Params (ts ++ us) ps us

theorem Params.phrase {p us : List Token} {ps : List Binder} (h : Params (p ++ us) ps us) :
    ParamsPhrase p ps := by
  intro vs
  obtain ⟨ts, ⟨q, he, rfl⟩, h⟩ := h.replace vs
  rwa [List.append_cancel_right he]

namespace Nonterminal.Phrase

variable {p q r : List Token} {o c d : Location} {e a b : Expr}

theorem loosen {l l' : Level} (hl : l'.depth ≤ l.depth) (h : (expr l).Phrase p e) :
    (expr l').Phrase p e :=
  fun us hu => (h us hu).loosen hl

theorem true (l : Level) (o : Location) : (expr l).Phrase [.keyword .kwTrue o] (.bool o .true) := by
  have h : (expr .primary).Phrase [.keyword .kwTrue o] (.bool o .true) := fun us _ => .true
  exact h.loosen (by cases l <;> decide)

theorem infixOp {op : InfixOp} {l : Level} (hl : op.level.tighter? = some l)
    (ha : (expr op.level).Phrase p a) (hb : (expr l).Phrase q b) :
    (expr op.level).Phrase (p ++ .symbol op.symbol o :: q) (.infixOp o op a b) := by
  intro us _
  rw [List.append_assoc]
  exact .infixOp hl (ha _ trivial) (hb us trivial)

theorem prefixOp {y : Symbol} (hy : y = .bang ∨ y = .minus) (h : (expr .unary).Phrase p e) :
    (expr .unary).Phrase (.symbol y o :: p) (.prefixOp o (.ofText y.text) e) := by
  intro us _
  obtain rfl | rfl := hy
  · exact .not (h us trivial)
  · exact .negate (h us trivial)

theorem call {as : List Expr} (hf : (expr .suffixed).Phrase p e) (ha : exprs.Phrase q as) :
    (expr .suffixed).Phrase (p ++ .symbol .lparen o :: (q ++ [.symbol .rparen c]))
      (.call o e as) := by
  intro us _
  have h := Derives.call (hf (.symbol .lparen o :: (q ++ .symbol .rparen c :: us)) trivial)
    (ha _ trivial)
  simpa using h

theorem index (ha : (expr .suffixed).Phrase p a) (hi : (expr .equality).Phrase q b) :
    (expr .suffixed).Phrase (p ++ .symbol .lbracket o :: (q ++ [.symbol .rbracket c]))
      (.index o a b) := by
  intro us _
  have h := Derives.index (ha (.symbol .lbracket o :: (q ++ .symbol .rbracket c :: us)) trivial)
    (hi _ trivial)
  simpa using h

theorem group (h : (expr .equality).Phrase p e) :
    (expr .primary).Phrase (.symbol .lparen o :: (p ++ [.symbol .rparen c])) e := by
  intro us _
  have h := Derives.group (o := o) (h (.symbol .rparen c :: us) trivial)
  simpa using h

theorem cond {x : Block} (hc : (expr .equality).Phrase p e) (hb : block.Phrase q x) :
    (expr .primary).Phrase
      (.keyword .kwIf o :: .symbol .lparen c :: (p ++ .symbol .rparen d :: q))
      (.cond o e x none) := by
  intro us _
  have h := Derives.cond (o := o) (p := c) (hc (.symbol .rparen d :: (q ++ us)) trivial)
    (hb us trivial)
  simpa using h

theorem condElse {l : Location} {x y : Block} (hc : (expr .equality).Phrase p e)
    (hb : block.Phrase q x) (ha : block.Phrase r y) :
    (expr .primary).Phrase (.keyword .kwIf o :: .symbol .lparen c ::
      (p ++ .symbol .rparen d :: (q ++ .keyword .kwElse l :: r))) (.cond o e x (some y)) := by
  intro us _
  have h := Derives.condElse (o := o) (p := c)
    (hc (.symbol .rparen d :: (q ++ .keyword .kwElse l :: (r ++ us))) trivial)
    (hb _ trivial) (ha us trivial)
  simpa using h

theorem fn {ps : List Binder} {x : Block} (hp : ParamsPhrase p ps)
    (hn : (ps.map (·.name)).Nodup) (hb : block.Phrase q x) :
    (expr .primary).Phrase
      (.keyword .kwFn o :: .symbol .lparen c :: (p ++ .symbol .rparen d :: q)) (.fn o ps x) := by
  intro us _
  have h := Derives.fn (o := o) (p := c) (hp (.symbol .rparen d :: (q ++ us))) hn (hb us trivial)
  simpa using h

theorem array {es : List Expr} (h : exprs.Phrase p es) :
    (expr .primary).Phrase (.symbol .lbracket o :: (p ++ [.symbol .rbracket c])) (.array o es) := by
  intro us _
  have h := Derives.array (o := o) (h (.symbol .rbracket c :: us) trivial)
  simpa using h

theorem hash {ps : List (Expr × Expr)} (h : pairs.Phrase p ps) :
    (expr .primary).Phrase (.symbol .lbrace o :: (p ++ [.symbol .rbrace c])) (.hash o ps) := by
  intro us _
  have h := Derives.hash (o := o) (h (.symbol .rbrace c :: us) trivial)
  simpa using h

theorem pair (hk : (expr .equality).Phrase p a) (hv : (expr .equality).Phrase q b) :
    Nonterminal.pair.Phrase (p ++ .symbol .colon c :: q) (a, b) := by
  intro us _
  rw [List.append_assoc]
  exact .pair (hk _ trivial) (hv us trivial)

theorem bind {x : String} (h : (expr .equality).Phrase p e) :
    clause.Phrase (.keyword .kwLet o :: ⟨.ident x, c⟩ :: .symbol .assign d :: p)
      (.bind o ⟨c, x⟩ e) :=
  fun us _ => .bind (h us trivial)

theorem ret (h : (expr .equality).Phrase p e) :
    clause.Phrase (.keyword .kwReturn o :: p) (.ret o e) :=
  fun us _ => .ret (h us trivial)

theorem exprClause (h : (expr .equality).Phrase p e) : clause.Phrase p (.expr e) :=
  fun us _ => .expr (h us trivial)

theorem closed {x : Stmt} (h : clause.Phrase p x) :
    stmt.Phrase (p ++ [.symbol .semicolon c]) x := by
  intro us _
  have h := Derives.closed (h (.symbol .semicolon c :: us) trivial)
  simpa using h

theorem unclosed {x : Stmt} (h : clause.Phrase p x) : stmt.Phrase p x :=
  fun us hu => .unclosed (h us trivial) hu

-- With or without a semicolon.
theorem ended {x : Stmt} (h : clause.Phrase p x) (hq : q = [] ∨ ∃ c, q = [.symbol .semicolon c]) :
    stmt.Phrase (p ++ q) x := by
  obtain rfl | ⟨c, rfl⟩ := hq
  · rw [List.append_nil]
    exact h.unclosed
  · exact h.closed

theorem noStmts : stmts.Phrase [] [] :=
  fun _ _ => .noStmts

theorem oneStmt {x : Stmt} (h : stmt.Phrase p x) : stmts.Phrase p [x] :=
  fun us hu => .moreStmts (h us hu) .noStmts

theorem block {xs : List Stmt} (h : stmts.Phrase p xs) :
    Nonterminal.block.Phrase (.symbol .lbrace o :: (p ++ [.symbol .rbrace c])) (.mk o xs) := by
  intro us _
  have hc : ¬(Token.symbol .rbrace c).Continues := by
    simp only [Token.Continues, not_or, not_exists]
    exact ⟨nofun, nofun, fun op => by cases op <;> decide⟩
  have h := Derives.block (o := o) (h (.symbol .rbrace c :: us) (by simpa [MayPrecede] using hc))
  simpa using h

end Nonterminal.Phrase

end Marmoset
