import Marmoset.Program.Parser

/-!
The grammar of the language, apart from how it is read. `Derives k ts t us` says that the tokens
`ts` begin with a phrase of the kind `k`, of which the tree is `t`, and go on with `us`.
-/

namespace List.IsSuffix

theorem cons (h : us <:+ ts) : us <:+ a :: ts :=
  h.trans (suffix_cons a ts)

theorem tail (h : a :: us <:+ ts) : us <:+ ts :=
  (suffix_cons a us).trans h

end List.IsSuffix

namespace Marmoset

abbrev Token.symbol (s : Symbol) (l : Location) : Token :=
  ⟨.symbol s, l⟩

abbrev Token.keyword (k : Keyword) (l : Location) : Token :=
  ⟨.keyword k, l⟩

-- How expressions are layered, the loosest layer first.
inductive Level
  | equality | order | sum | product | unary | suffixed | primary
deriving DecidableEq

namespace Level

def tighter? : Level → Option Level
  | equality => some order
  | order => some sum
  | sum => some product
  | product => some unary
  | unary => some suffixed
  | suffixed => some primary
  | primary => none

def depth : Level → Nat
  | equality => 0
  | order => 1
  | sum => 2
  | product => 3
  | unary => 4
  | suffixed => 5
  | primary => 6

end Level

namespace InfixOp

def symbol : InfixOp → Symbol
  | add => .plus
  | sub => .minus
  | mul => .asterisk
  | div => .slash
  | lt => .lt
  | gt => .gt
  | eq => .eq
  | notEq => .notEq

def level : InfixOp → Level
  | eq | notEq => .equality
  | lt | gt => .order
  | add | sub => .sum
  | mul | div => .product

end InfixOp

-- In front of these a semicolon may not be left out.
def Token.Continues (t : Token) : Prop :=
  t.lexeme = .symbol .lparen ∨ t.lexeme = .symbol .lbracket ∨
    ∃ op : InfixOp, t.lexeme = .symbol op.symbol

-- The parameters of a function; no comma follows the last one.
inductive Params : List Token → List Binder → List Token → Prop
  | none : Params us [] us
  | last : Params (⟨.ident x, o⟩ :: us) [⟨o, x⟩] us
  | more : Params ts (b :: bs) us →
      Params (⟨.ident x, o⟩ :: .symbol .comma c :: ts) (⟨o, x⟩ :: b :: bs) us

inductive Nonterminal
  | expr (l : Level)
  | exprs
  | pair
  | pairs
  -- A statement without its semicolon.
  | clause
  | stmt
  | stmts
  | block

abbrev Nonterminal.Tree : Nonterminal → Type
  | expr _ => Expr
  | exprs => List Expr
  | pair => Expr × Expr
  | pairs => List (Expr × Expr)
  | clause | stmt => Stmt
  | stmts => List Stmt
  | block => Block

inductive Derives : (k : Nonterminal) → List Token → k.Tree → List Token → Prop
  | tighter : l.tighter? = some l' → Derives (.expr l') ts e us → Derives (.expr l) ts e us
  -- To the left of an operator there may be one of the same level, to the right there may not.
  | infixOp : op.level.tighter? = some l →
      Derives (.expr op.level) ts a (.symbol op.symbol o :: us) → Derives (.expr l) us b vs →
      Derives (.expr op.level) ts (.infixOp o op a b) vs
  | not : Derives (.expr .unary) ts e us →
      Derives (.expr .unary) (.symbol .bang o :: ts) (.prefixOp o .not e) us
  | negate : Derives (.expr .unary) ts e us →
      Derives (.expr .unary) (.symbol .minus o :: ts) (.prefixOp o .negate e) us
  | call : Derives (.expr .suffixed) ts f (.symbol .lparen o :: us) →
      Derives .exprs us as (.symbol .rparen c :: vs) →
      Derives (.expr .suffixed) ts (.call o f as) vs
  | index : Derives (.expr .suffixed) ts a (.symbol .lbracket o :: us) →
      Derives (.expr .equality) us i (.symbol .rbracket c :: vs) →
      Derives (.expr .suffixed) ts (.index o a i) vs
  | ident : Derives (.expr .primary) (⟨.ident x, o⟩ :: us) (.ident o x) us
  | int : Parser.decimal digits < Parser.integerBound →
      Derives (.expr .primary) (⟨.int digits, o⟩ :: us)
        (.int o (Int64.ofNat (Parser.decimal digits))) us
  | string : Derives (.expr .primary) (⟨.string x, o⟩ :: us) (.string o x) us
  | true : Derives (.expr .primary) (.keyword .kwTrue o :: us) (.bool o .true) us
  | false : Derives (.expr .primary) (.keyword .kwFalse o :: us) (.bool o .false) us
  | group : Derives (.expr .equality) ts e (.symbol .rparen c :: us) →
      Derives (.expr .primary) (.symbol .lparen o :: ts) e us
  | cond : Derives (.expr .equality) ts c (.symbol .rparen q :: us) → Derives .block us b vs →
      Derives (.expr .primary) (.keyword .kwIf o :: .symbol .lparen p :: ts) (.cond o c b none) vs
  | condElse : Derives (.expr .equality) ts c (.symbol .rparen q :: us) →
      Derives .block us b (.keyword .kwElse r :: vs) → Derives .block vs a ws →
      Derives (.expr .primary) (.keyword .kwIf o :: .symbol .lparen p :: ts)
        (.cond o c b (some a)) ws
  | fn : Params ts ps (.symbol .rparen q :: us) → (ps.map (·.name)).Nodup →
      Derives .block us b vs →
      Derives (.expr .primary) (.keyword .kwFn o :: .symbol .lparen p :: ts) (.fn o ps b) vs
  | array : Derives .exprs ts es (.symbol .rbracket c :: us) →
      Derives (.expr .primary) (.symbol .lbracket o :: ts) (.array o es) us
  | hash : Derives .pairs ts ps (.symbol .rbrace c :: us) →
      Derives (.expr .primary) (.symbol .lbrace o :: ts) (.hash o ps) us
  | noExprs : Derives .exprs us [] us
  | lastExpr : Derives (.expr .equality) ts e us → Derives .exprs ts [e] us
  | moreExprs : Derives (.expr .equality) ts e (.symbol .comma c :: us) →
      Derives .exprs us es vs → Derives .exprs ts (e :: es) vs
  | pair : Derives (.expr .equality) ts k (.symbol .colon c :: us) →
      Derives (.expr .equality) us v vs → Derives .pair ts (k, v) vs
  | noPairs : Derives .pairs us [] us
  | lastPair : Derives .pair ts p us → Derives .pairs ts [p] us
  | morePairs : Derives .pair ts p (.symbol .comma c :: us) → Derives .pairs us ps vs →
      Derives .pairs ts (p :: ps) vs
  | bind : Derives (.expr .equality) ts e us →
      Derives .clause (.keyword .kwLet o :: ⟨.ident x, b⟩ :: .symbol .assign a :: ts)
        (.bind o ⟨b, x⟩ e) us
  | ret : Derives (.expr .equality) ts e us →
      Derives .clause (.keyword .kwReturn o :: ts) (.ret o e) us
  | expr : Derives (.expr .equality) ts e us → Derives .clause ts (.expr e) us
  | closed : Derives .clause ts x (.symbol .semicolon c :: us) → Derives .stmt ts x us
  | unclosed : Derives .clause ts x us → (∀ t ∈ us.head?, ¬t.Continues) → Derives .stmt ts x us
  | noStmts : Derives .stmts us [] us
  | moreStmts : Derives .stmt ts x us → Derives .stmts us xs vs → Derives .stmts ts (x :: xs) vs
  | block : Derives .stmts ts xs (.symbol .rbrace c :: us) →
      Derives .block (.symbol .lbrace o :: ts) (.mk o xs) us

-- What an expression may begin with.
def Lexeme.StartsExpr : Lexeme → Prop
  | .ident _ | .int _ | .string _ => True
  | .keyword k => k = .kwTrue ∨ k = .kwFalse ∨ k = .kwIf ∨ k = .kwFn
  | .symbol s => s = .bang ∨ s = .minus ∨ s = .lparen ∨ s = .lbracket ∨ s = .lbrace
  | _ => False

def Lexeme.StartsStmt (l : Lexeme) : Prop :=
  l.StartsExpr ∨ l = .keyword .kwLet ∨ l = .keyword .kwReturn

namespace Level

theorem depth_tighter {l l' : Level} (h : l.tighter? = some l') : l'.depth = l.depth + 1 := by
  cases l <;> cases h <;> rfl

theorem depth_inj {l l' : Level} (h : l.depth = l'.depth) : l = l' := by
  cases l <;> cases l' <;> first | rfl | contradiction

theorem exists_tighter {l l' : Level} (h : l.depth < l'.depth) : ∃ m, l.tighter? = some m := by
  cases l
  case primary => cases l' <;> contradiction
  all_goals exact ⟨_, rfl⟩

end Level

theorem Params.length_le {ts us : List Token} {ps : List Binder} (h : Params ts ps us) :
    us.length ≤ ts.length := by
  induction h <;> grind

theorem Params.suffix {ts us : List Token} {ps : List Binder} (h : Params ts ps us) :
    us <:+ ts := by
  induction h
  case none => exact List.suffix_rfl
  case last => exact List.suffix_cons ..
  case more hi => exact (hi.trans (List.suffix_cons ..)).trans (List.suffix_cons ..)

theorem Params.legal {ts us : List Token} {ps : List Binder} (h : Params ts ps us)
    (hu : ∀ t ∈ us, ∀ x, t.lexeme ≠ .illegal x) : ∀ t ∈ ts, ∀ x, t.lexeme ≠ .illegal x := by
  induction h <;> simp_all

theorem Params.append {ts us : List Token} {ps : List Binder} (h : Params ts ps us)
    (vs : List Token) : Params (ts ++ vs) ps (us ++ vs) := by
  induction h
  case none => exact .none
  case last => exact .last
  case more hi => exact .more hi

namespace Nonterminal

-- A phrase has a token, unless it is a list.
def Shortens : Nonterminal → List Token → List Token → Prop
  | exprs, ts, us | pairs, ts, us | stmts, ts, us => us.length ≤ ts.length
  | _, ts, us => us.length < ts.length

-- How a phrase ends, which may be anyhow if it is a list or a statement.
def Ends : Nonterminal → List Token → List Token → Prop
  | exprs, ts, us | pairs, ts, us | stmt, ts, us | stmts, ts, us => us <:+ ts
  | _, ts, us => ∃ t : Token, t.lexeme ≠ .symbol .semicolon ∧ t :: us <:+ ts

-- How a phrase begins.
def Heads : Nonterminal → List Token → List Token → Prop
  | expr _, ts, _ | pair, ts, _ => ∃ t ∈ ts.head?, t.lexeme.StartsExpr
  | exprs, ts, us | pairs, ts, us => ts = us ∨ ∃ t ∈ ts.head?, t.lexeme.StartsExpr
  | clause, ts, _ | stmt, ts, _ => ∃ t ∈ ts.head?, t.lexeme.StartsStmt
  | stmts, ts, us => ts = us ∨ ∃ t ∈ ts.head?, t.lexeme.StartsStmt
  | block, ts, _ => ∃ t ∈ ts.head?, t.lexeme = .symbol .lbrace

namespace Ends

theorem suffix {k : Nonterminal} {ts us : List Token} (h : k.Ends ts us) : us <:+ ts := by
  cases k
  case exprs | pairs | stmt | stmts => exact h
  all_goals
    have ⟨t, _, hs⟩ := h
    exact hs.tail

theorem behind {us vs ts : List Token}
    (h : ∃ t : Token, t.lexeme ≠ .symbol .semicolon ∧ t :: vs <:+ us) (hs : us <:+ ts) :
    ∃ t : Token, t.lexeme ≠ .symbol .semicolon ∧ t :: vs <:+ ts := by
  have ⟨t, ht, hu⟩ := h
  exact ⟨t, ht, hu.trans hs⟩

end Ends

end Nonterminal

namespace Derives

variable {ts us : List Token}

-- Every expression of a tighter level is one of a looser level too.
theorem loosen {l l' : Level} (hl : l'.depth ≤ l.depth) (h : Derives (.expr l) ts e us) :
    Derives (.expr l') ts e us := by
  obtain ⟨n, hn⟩ := Nat.exists_eq_add_of_le hl
  induction n generalizing l'
  case zero =>
    rw [Level.depth_inj hn] at h
    exact h
  case succ n hi =>
    have ⟨m, hm⟩ := Level.exists_tighter (show l'.depth < l.depth by omega)
    have hd := Level.depth_tighter hm
    exact .tighter hm (hi (by omega) (by omega))

theorem shortens {k : Nonterminal} {t : k.Tree} (h : Derives k ts t us) : k.Shortens ts us := by
  induction h
  case fn hp _ _ _ =>
    have := hp.length_le
    simp only [Nonterminal.Shortens, List.length_cons] at *
    omega
  all_goals
    simp only [Nonterminal.Shortens, List.length_cons] at *
    omega

theorem legal {k : Nonterminal} {t : k.Tree} (h : Derives k ts t us)
    (hu : ∀ t ∈ us, ∀ x, t.lexeme ≠ .illegal x) : ∀ t ∈ ts, ∀ x, t.lexeme ≠ .illegal x := by
  induction h
  case fn hp _ _ _ => have := hp.legal; simp_all
  all_goals simp_all

theorem heads {k : Nonterminal} {t : k.Tree} (h : Derives k ts t us) : k.Heads ts us := by
  induction h
  case bind | ret => exact ⟨_, rfl, by simp [Lexeme.StartsStmt]⟩
  case expr hi =>
    have ⟨t, ht, hs⟩ := hi
    exact ⟨t, ht, .inl hs⟩
  case block => exact ⟨_, rfl, rfl⟩
  case noExprs | noPairs | noStmts => exact .inl rfl
  case lastExpr hi | lastPair hi => exact .inr hi
  case moreExprs hi _ | morePairs hi _ | moreStmts hi _ => exact .inr hi
  case tighter hi | closed hi | unclosed hi => exact hi
  case infixOp hi _ | call hi _ | index hi _ | pair hi _ => exact hi
  all_goals exact ⟨_, rfl, by simp [Lexeme.StartsExpr]⟩

-- An expression, and what ends in one or in a bracket, does not end in a semicolon.
theorem ends {k : Nonterminal} {t : k.Tree} (h : Derives k ts t us) : k.Ends ts us := by
  induction h
  case tighter h | expr h => exact h
  case infixOp ha hb => exact Nonterminal.Ends.behind hb ha.suffix.tail
  case not h | negate h => exact Nonterminal.Ends.behind h (List.suffix_cons ..)
  case call hf ha => exact ⟨_, by simp, ha.trans hf.suffix.tail⟩
  case index ha hi => exact ⟨_, by simp, hi.suffix.trans ha.suffix.tail⟩
  case ident | int | string | true | false => exact ⟨_, by simp, List.suffix_rfl⟩
  case group h => exact ⟨_, by simp, h.suffix.cons⟩
  case cond hc hb => exact Nonterminal.Ends.behind hb hc.suffix.tail.cons.cons
  case condElse hc hb ha =>
    have hs := hb.suffix.tail.trans hc.suffix.tail
    exact Nonterminal.Ends.behind ha hs.cons.cons
  case fn hp _ _ hb => exact Nonterminal.Ends.behind hb hp.suffix.tail.cons.cons
  case array h | hash h => exact ⟨_, by simp, h.cons⟩
  case noExprs | noPairs | noStmts => exact List.suffix_rfl
  case lastExpr h | lastPair h => exact h.suffix
  case moreExprs h hg | morePairs h hg => exact hg.trans h.suffix.tail
  case pair hk hv => exact Nonterminal.Ends.behind hv hk.suffix.tail
  case bind h => exact Nonterminal.Ends.behind h (List.suffix_rfl.cons.cons.cons)
  case ret h => exact Nonterminal.Ends.behind h (List.suffix_cons ..)
  case closed h => exact h.suffix.tail
  case unclosed h => exact h.suffix
  case moreStmts h hg => exact hg.trans h
  case block h => exact ⟨_, by simp, h.cons⟩

-- What follows a phrase may go on, if there is something that follows it.
theorem append {k : Nonterminal} {t : k.Tree} (h : Derives k ts t us) (hu : us ≠ [])
    (vs : List Token) : Derives k (ts ++ vs) t (us ++ vs) := by
  induction h
  case tighter hl _ h => exact .tighter hl (h hu)
  case infixOp hl _ _ ha hb => exact .infixOp hl (ha nofun) (hb hu)
  case not h => exact .not (h hu)
  case negate h => exact .negate (h hu)
  case call hf ha => exact .call (hf nofun) (ha nofun)
  case index ha hi => exact .index (ha nofun) (hi nofun)
  case ident => exact .ident
  case int hd => exact .int hd
  case string => exact .string
  case true => exact .true
  case false => exact .false
  case group h => exact .group (h nofun)
  case cond hc hb => exact .cond (hc nofun) (hb hu)
  case condElse hc hb ha =>
    exact .condElse (hc nofun) (hb nofun) (ha hu)
  case fn hp hn _ hb => exact .fn (hp.append vs) hn (hb hu)
  case array h => exact .array (h nofun)
  case hash h => exact .hash (h nofun)
  case noExprs => exact .noExprs
  case lastExpr h => exact .lastExpr (h hu)
  case moreExprs h hg => exact .moreExprs (h nofun) (hg hu)
  case pair hk hv => exact .pair (hk nofun) (hv hu)
  case noPairs => exact .noPairs
  case lastPair h => exact .lastPair (h hu)
  case morePairs h hg => exact .morePairs (h nofun) (hg hu)
  case bind h => exact .bind (h hu)
  case ret h => exact .ret (h hu)
  case expr h => exact .expr (h hu)
  case closed h => exact .closed (h nofun)
  case unclosed hc h =>
    obtain ⟨t, us, rfl⟩ := List.exists_cons_of_ne_nil hu
    exact .unclosed (h hu) hc
  case noStmts => exact .noStmts
  case moreStmts hg h hg' =>
    exact .moreStmts (h (hg.ends.suffix.ne_nil hu)) (hg' hu)
  case block h => exact .block (h nofun)

end Derives

end Marmoset
