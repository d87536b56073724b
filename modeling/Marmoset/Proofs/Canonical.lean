import Marmoset.Program.Source
import Marmoset.Proofs.Spelling

/-!
The canonical text of a program is read as the program (`parse_source`), as long as it is
`readable`. Two things are not written that a reader may need: parentheses around the condition of
an `if`, and a semicolon behind an expression that is a statement.
-/

namespace Marmoset

-- The text of the expression is in parentheses.
def Expr.isBracketed : Expr → Bool
  | .prefixOp .. | .infixOp .. | .index .. => true
  | _ => false

-- The text of the expression begins with a parenthesis or a bracket.
def Expr.opens : Expr → Bool
  | .prefixOp .. | .infixOp .. | .index .. | .array .. => true
  | .call _ f _ => f.opens
  | _ => false

namespace Stmt

def opens : Stmt → Bool
  | .expr e => e.opens
  | _ => false

-- The text of the statement ends in a semicolon.
def isTerminated : Stmt → Bool
  | .expr _ => false
  | _ => true

-- The text of the statement does not go on with that of the next one.
def isApart (x : Stmt) (xs : List Stmt) : Bool :=
  x.isTerminated || !xs.head?.any (·.opens)

end Stmt

/-!
A text is `readable` if all conditions in it are in parentheses and all statements are apart.
-/

mutual

def Expr.readable : Expr → Bool
  | .ident .. | .int .. | .string .. | .bool .. => true
  | .prefixOp _ _ e => e.readable
  | .infixOp _ _ a b => a.readable && b.readable
  | .cond _ c b none => c.isBracketed && c.readable && b.readable
  | .cond _ c b (some a) => c.isBracketed && c.readable && b.readable && a.readable
  | .fn _ _ b => b.readable
  | .call _ f as => f.readable && Expr.allReadable as
  | .array _ es => Expr.allReadable es
  | .hash _ ps => Expr.pairsReadable ps
  | .index _ c i => c.readable && i.readable

def Expr.allReadable : List Expr → Bool
  | [] => true
  | e :: es => e.readable && Expr.allReadable es

def Expr.pairsReadable : List (Expr × Expr) → Bool
  | [] => true
  | (k, v) :: ps => k.readable && v.readable && Expr.pairsReadable ps

def Stmt.readable : Stmt → Bool
  | .bind _ _ e | .ret _ e | .expr e => e.readable

def Stmt.allReadable : List Stmt → Bool
  | [] => true
  | x :: xs => x.readable && x.isApart xs && Stmt.allReadable xs

def Block.readable : Block → Bool
  | .mk _ xs => Stmt.allReadable xs

end

def Program.readable (p : Program) : Bool :=
  Stmt.allReadable p.statements

abbrev nowhere : Location → Location :=
  fun _ => .start

-- Tokens without places.
def tokens (xs : List Lexeme) : List Token :=
  xs.map (⟨·, .start⟩)

@[simp]
theorem tokens_nil : tokens [] = [] :=
  rfl

@[simp]
theorem tokens_cons (x : Lexeme) (xs : List Lexeme) : tokens (x :: xs) = ⟨x, .start⟩ :: tokens xs :=
  rfl

@[simp]
theorem tokens_append (xs ys : List Lexeme) : tokens (xs ++ ys) = tokens xs ++ tokens ys :=
  List.map_append

-- Behind an expression, only parentheses, brackets and operators are taken for a part of it.
theorem not_continues {x : Lexeme} (h : ∀ y, x = .symbol y → y = .lbrace ∨ y = .rbrace)
    (us : List Token) : ∀ t ∈ (⟨x, .start⟩ :: us : List Token).head?, ¬t.Continues := by
  rintro _ ⟨⟩ hc
  obtain hc | hc | ⟨op, hc⟩ := hc
  case inr.inr =>
    have hy := h _ hc
    cases op <;> simp [InfixOp.symbol] at hy
  all_goals simpa using h _ hc

-- The text is read as what `D` says, whatever follows.
def Writes (s : String) (D : List Token → List Token → Prop) : Prop :=
  ∃ xs, Lexes s.toList xs ∧ ∀ us, D (tokens xs ++ us) us

-- Texts of items with commas between them are read as the list of the items.
theorem Writes.list {trailing : Bool} {I : List Token → β → List Token → Prop}
    {D : List Token → List β → List Token → Prop} (h : Parser.Listed trailing I D)
    (text : α → String) (g : α → β) {xs : List α} (hx : ∀ x ∈ xs, Writes (text x) (I · (g x) ·)) :
    Writes (", ".intercalate (xs.map text)) (D · (xs.map g) ·) := by
  induction xs
  case nil => exact ⟨[], .nil, fun _ => h.none⟩
  case cons x xs hi =>
    have ⟨⟨ys, hl, hd⟩, hs⟩ := List.forall_mem_cons.mp hx
    cases xs
    case nil => exact ⟨ys, by simpa using hl, fun us => h.last (hd us)⟩
    case cons y xs =>
      obtain ⟨zs, hm, he⟩ := hi hs
      have ht : (", ".intercalate ((x :: y :: xs).map text)).toList = (text x).toList ++
          (Symbol.comma.text.toList ++ ' ' :: (", ".intercalate ((y :: xs).map text)).toList) := by
        simp [Symbol.text]
      refine ⟨ys ++ .symbol .comma :: zs, ?_, fun us => ?_⟩
      case refine_1 =>
        rw [ht]
        exact hl.before rfl (hm.blank rfl)
      case refine_2 =>
        simp only [tokens_append, tokens_cons, List.append_assoc, List.cons_append]
        exact h.more (hd _) (he us) nofun

-- No expression begins with what begins with a `=`.
theorem lexemes_assign (cs : List Char) :
    ∃ y ys, lexemes ('=' :: cs) = .symbol y :: ys ∧ ¬(Lexeme.symbol y).StartsExpr := by
  by_cases hq : cs.head? = some '='
  case pos =>
    obtain ⟨ds, rfl⟩ := List.head?_eq_some_iff.mp hq
    refine ⟨.eq, lexemes ds, ?_, by simp [Lexeme.StartsExpr]⟩
    exact (Spells.symbol .eq (by simp) (by simp)).lexemes_append
  case neg =>
    refine ⟨.assign, lexemes cs, ?_, by simp [Lexeme.StartsExpr]⟩
    exact (Spells.symbol .assign (fun _ => hq) (by simp)).lexemes_append

def Block.Legible (b : Block) : Prop :=
  Writes b.source fun ts us => Derives .block ts (b.relocate nowhere) us

namespace Expr

-- The text of the expression is scanned as `xs`, which derive the expression.
structure Written (e : Expr) (xs : List Lexeme) : Prop where
  lexes : Lexes e.source.toList xs
  derives : ∀ us, Derives (.expr .suffixed) (tokens xs ++ us) (e.relocate nowhere) us
  opens : e.opens = false → ∀ us, ∀ t ∈ (tokens xs ++ us).head?, ¬t.Continues

-- Between the parentheses around the text, it is scanned as `xs`.
structure Enclosed (e : Expr) (xs : List Lexeme) : Prop where
  lexes : Lexes e.source.toList (.symbol .lparen :: (xs ++ [.symbol .rparen]))
  derives : ∀ us, Derives (.expr .equality) (tokens xs ++ us) (e.relocate nowhere) us

structure Legible (e : Expr) : Prop where
  written : ∃ xs, e.Written xs
  enclosed : e.isBracketed → ∃ xs, e.Enclosed xs

variable {e : Expr} {xs : List Lexeme}

theorem Enclosed.written (h : e.Enclosed xs) (ho : e.opens) :
    e.Written (.symbol .lparen :: (xs ++ [.symbol .rparen])) where
  lexes := h.lexes
  derives us := by
    simp only [tokens_cons, tokens_append, tokens_nil, List.cons_append, List.append_assoc]
    exact .tighter rfl (.group (h.derives _))
  opens hn := by simp [ho] at hn

theorem Enclosed.legible (h : e.Enclosed xs) (ho : e.opens) : e.Legible :=
  ⟨⟨_, h.written ho⟩, fun _ => ⟨_, h⟩⟩

theorem Written.legible (h : e.Written xs) (hb : e.isBracketed = false) : e.Legible :=
  ⟨⟨_, h⟩, fun he => by simp [hb] at he⟩

theorem Written.derives_of (h : e.Written xs) {l : Level} (hl : l.depth ≤ Level.suffixed.depth)
    (us : List Token) : Derives (.expr l) (tokens xs ++ us) (e.relocate nowhere) us :=
  (h.derives us).loosen hl

-- The text of an expression does not begin with what makes an operator of a `!` in front of it.
theorem Written.head (h : e.Written xs) : ∃ c ∈ e.source.toList.head?, c ≠ '=' := by
  have ⟨t, ht, hs⟩ := (h.derives []).heads
  have hx := h.lexes.eq
  cases hc : e.source.toList
  case nil =>
    rw [hc, lexemes_nil] at hx
    subst hx
    cases ht
  case cons c cs =>
    refine ⟨c, rfl, ?_⟩
    rintro rfl
    have ⟨y, ys, hl, hn⟩ := lexemes_assign cs
    rw [hc, hl] at hx
    subst hx
    cases ht
    exact hn hs

-- An expression that is a primary one, by the token that its text begins with.
theorem Legible.primary {x : Lexeme} (hl : Lexes e.source.toList (x :: xs))
    (hd : ∀ us, Derives (.expr .primary) (⟨x, .start⟩ :: (tokens xs ++ us))
      (e.relocate nowhere) us) (hb : e.isBracketed = false)
    (ho : e.opens = false → ∀ y, x = .symbol y → y = .lbrace) : e.Legible := by
  have hw : e.Written (x :: xs) := by
    refine ⟨hl, fun us => .tighter rfl (hd us), fun hn us => ?_⟩
    exact not_continues (fun y hy => .inl (ho hn y hy)) _
  exact hw.legible hb

namespace Legible

variable {o : Location}

theorem ident {x : String} (hx : (Lexeme.ident x).Spelled) : (ident o x).Legible :=
  .primary (Lexes.ident hx) (fun _ => .ident) rfl (by simp)

theorem int {n : Nat} (hn : n < Parser.integerBound) : (int o (Int64.ofNat n)).Legible := by
  have hs : (Expr.int o (Int64.ofNat n)).source = toString n := by
    rw [source, Int64.toInt_ofNat_of_lt hn]
    rfl
  have hl : Lexes (Expr.int o (Int64.ofNat n)).source.toList [.int (toString n)] :=
    hs.symm ▸ Lexes.number n
  refine .primary hl (fun us => ?_) rfl (by simp)
  have hd : Derives (.expr .primary) (⟨.int (toString n), .start⟩ :: us)
      (.int .start (Int64.ofNat (Parser.decimal (toString n)))) us :=
    .int ((Parser.decimal_toString n).symm ▸ hn)
  rwa [Parser.decimal_toString] at hd

theorem string {x : String} : (string o x).Legible :=
  .primary (Lexes.literal x) (fun _ => .string) rfl (by simp)

theorem bool {b : Bool} : (bool o b).Legible := by
  cases b
  case true => exact .primary (Lexes.keyword .kwTrue) (fun _ => .true) rfl (by simp)
  case false => exact .primary (Lexes.keyword .kwFalse) (fun _ => .false) rfl (by simp)

theorem prefixOp {op : PrefixOp} {y : Symbol} (hy : y ≠ .slash) (ht : op.text = y.text)
    (hd : ∀ {ts us e}, Derives (.expr .unary) ts e us →
      Derives (.expr .unary) (.symbol y .start :: ts) (.prefixOp .start op e) us)
    (h : e.Legible) : (prefixOp o op e).Legible := by
  obtain ⟨xs, hw⟩ := h.written
  have ht : (Expr.prefixOp o op e).source.toList = Symbol.lparen.text.toList ++
      (y.text.toList ++ (e.source.toList ++ (Symbol.rparen.text.toList ++ []))) := by
    simp [ht, Symbol.text]
  have he : (Expr.prefixOp o op e).Enclosed (.symbol y :: xs) := by
    constructor
    case lexes =>
      have ⟨c, hc, hn⟩ := hw.head
      rw [ht]
      refine .symbol rfl (.prefixed hy ⟨c, ?_, hn⟩ (hw.lexes.before rfl .nil))
      simp [List.head?_append, Option.mem_def.mp hc]
    case derives => exact fun us => .loosen (by decide) (hd (hw.derives_of (by decide) us))
  exact he.legible rfl

theorem infixOp {op : InfixOp} {a b : Expr} (ha : a.Legible) (hb : b.Legible) :
    (infixOp o op a b).Legible := by
  obtain ⟨xs, ha⟩ := ha.written
  obtain ⟨ys, hb⟩ := hb.written
  have ho : op.text = op.symbol.text := by cases op <;> rfl
  have ht : (Expr.infixOp o op a b).source.toList = Symbol.lparen.text.toList ++
      (a.source.toList ++ ' ' :: (op.symbol.text.toList ++ ' ' ::
        (b.source.toList ++ (Symbol.rparen.text.toList ++ [])))) := by
    simp [ho, Symbol.text]
  have he : (Expr.infixOp o op a b).Enclosed (xs ++ .symbol op.symbol :: ys) := by
    constructor
    case lexes =>
      rw [ht, List.append_assoc]
      exact .symbol rfl (ha.lexes.space (.spaced op.symbol (hb.lexes.before rfl .nil)))
    case derives =>
      intro us
      simp only [tokens_append, tokens_cons, List.append_assoc, List.cons_append]
      have hl : op.level.depth ≤ Level.suffixed.depth := by cases op <;> decide
      have hr : op.precedence.level.depth ≤ Level.suffixed.depth := by cases op <;> decide
      exact .loosen (Nat.zero_le _)
        (.infixOp op.tighter_level (ha.derives_of hl _) (hb.derives_of hr us))
  exact he.legible rfl

theorem index {c i : Expr} (hc : c.Legible) (hi : i.Legible) : (index o c i).Legible := by
  obtain ⟨xs, hc⟩ := hc.written
  obtain ⟨ys, hi⟩ := hi.written
  have ht : (Expr.index o c i).source.toList = Symbol.lparen.text.toList ++
      (c.source.toList ++ (Symbol.lbracket.text.toList ++ (i.source.toList ++
        (Symbol.rbracket.text.toList ++ (Symbol.rparen.text.toList ++ []))))) := by
    simp [Symbol.text]
  have he : (Expr.index o c i).Enclosed
      (xs ++ .symbol .lbracket :: (ys ++ [.symbol .rbracket])) := by
    constructor
    case lexes =>
      rw [ht]
      simp only [List.append_assoc, List.cons_append]
      exact .symbol rfl (hc.lexes.before rfl (hi.lexes.before rfl (.symbol rfl .nil)))
    case derives =>
      intro us
      simp only [tokens_append, tokens_cons, tokens_nil, List.append_assoc, List.cons_append]
      exact .loosen (by decide) (.index (hc.derives _) (hi.derives_of (by decide) _))
  exact he.legible rfl

-- The condition brings the parentheses that have to be around it.
theorem cond {c : Expr} {b : Block} (hc : ∃ xs, c.Enclosed xs) (hb : b.Legible) :
    (cond o c b none).Legible := by
  obtain ⟨xs, hc⟩ := hc
  obtain ⟨ys, hl, hb⟩ := hb
  have ht : (Expr.cond o c b none).source.toList =
      Keyword.kwIf.text.toList ++ ' ' :: (c.source.toList ++ ' ' :: b.source.toList) := by
    simp [Keyword.text]
  have hl : Lexes (Expr.cond o c b none).source.toList
      (.keyword .kwIf :: .symbol .lparen :: (xs ++ .symbol .rparen :: ys)) := by
    rw [ht]
    simpa using (Lexes.keyword .kwIf).space (hc.lexes.space hl)
  refine .primary hl (fun us => ?_) rfl (by simp)
  simp only [tokens_append, tokens_cons, List.append_assoc, List.cons_append]
  exact .cond (hc.derives _) (hb us)

theorem condElse {c : Expr} {b a : Block} (hc : ∃ xs, c.Enclosed xs) (hb : b.Legible)
    (ha : a.Legible) : (Expr.cond o c b (some a)).Legible := by
  obtain ⟨xs, hc⟩ := hc
  obtain ⟨ys, hl, hb⟩ := hb
  obtain ⟨zs, hm, ha⟩ := ha
  have ht : (Expr.cond o c b (some a)).source.toList = Keyword.kwIf.text.toList ++ ' ' ::
      (c.source.toList ++ ' ' :: (b.source.toList ++ ' ' ::
        (Keyword.kwElse.text.toList ++ ' ' :: a.source.toList))) := by
    simp [Keyword.text]
  have hl : Lexes (Expr.cond o c b (some a)).source.toList (.keyword .kwIf :: .symbol .lparen ::
      (xs ++ .symbol .rparen :: (ys ++ .keyword .kwElse :: zs))) := by
    rw [ht]
    simpa using (Lexes.keyword .kwIf).space
      (hc.lexes.space (hl.space ((Lexes.keyword .kwElse).space hm)))
  refine .primary hl (fun us => ?_) rfl (by simp)
  simp only [tokens_append, tokens_cons, List.append_assoc, List.cons_append]
  exact .condElse (hc.derives _) (hb _) (ha us)

theorem params_writes {ps : List Binder} (hp : ∀ p ∈ ps, (Lexeme.ident p.name).Spelled) :
    Writes (", ".intercalate (ps.map (·.name))) fun ts us =>
      Params ts (ps.map (·.relocate nowhere)) us := by
  refine Writes.list .params _ _ fun p hm => ⟨[.ident p.name], .ident (hp p hm), fun us => ?_⟩
  rfl

theorem fn {ps : List Binder} {b : Block} (hp : ∀ p ∈ ps, (Lexeme.ident p.name).Spelled)
    (hn : (ps.map (·.name)).Nodup) (hb : b.Legible) : (fn o ps b).Legible := by
  obtain ⟨xs, hl, hp⟩ := params_writes hp
  obtain ⟨ys, hm, hb⟩ := hb
  have ht : (Expr.fn o ps b).source.toList = Keyword.kwFn.text.toList ++
      (Symbol.lparen.text.toList ++ ((", ".intercalate (ps.map (·.name))).toList ++
        (Symbol.rparen.text.toList ++ ' ' :: b.source.toList))) := by
    simp [Keyword.text, Symbol.text]
  have hn : ((ps.map (·.relocate nowhere)).map (·.name)).Nodup := by
    rwa [List.map_map]
  have hl : Lexes (Expr.fn o ps b).source.toList
      (.keyword .kwFn :: .symbol .lparen :: (xs ++ .symbol .rparen :: ys)) := by
    rw [ht]
    exact (Lexes.keyword .kwFn).before rfl (hl.before rfl (hm.blank rfl))
  refine .primary hl (fun us => ?_) rfl (by simp)
  simp only [tokens_append, tokens_cons, List.append_assoc, List.cons_append]
  exact .fn (hp _) hn (hb us)

theorem writes (h : e.Legible) :
    Writes e.source fun ts us => Derives (.expr .equality) ts (e.relocate nowhere) us :=
  have ⟨xs, hw⟩ := h.written
  ⟨xs, hw.lexes, hw.derives_of (by decide)⟩

theorem pair_writes {k v : Expr} (hk : k.Legible) (hv : v.Legible) :
    Writes (k.source ++ ": " ++ v.source) fun ts us =>
      Derives .pair ts (k.relocate nowhere, v.relocate nowhere) us := by
  obtain ⟨xs, hl, hk⟩ := hk.writes
  obtain ⟨ys, hm, hv⟩ := hv.writes
  have ht : (k.source ++ ": " ++ v.source).toList =
      k.source.toList ++ (Symbol.colon.text.toList ++ ' ' :: v.source.toList) := by
    simp [Symbol.text]
  refine ⟨xs ++ .symbol .colon :: ys, ?_, fun us => ?_⟩
  case refine_1 =>
    rw [ht]
    exact hl.before rfl (hm.blank rfl)
  case refine_2 =>
    simp only [tokens_append, tokens_cons, List.append_assoc, List.cons_append]
    exact .pair (hk _) (hv us)

theorem sources_writes {es : List Expr} (h : ∀ e ∈ es, e.Legible) :
    Writes (", ".intercalate (sources es)) fun ts us =>
      Derives .exprs ts (relocateAll nowhere es) us := by
  rw [sources_eq_map, relocateAll_eq_map]
  exact Writes.list .exprs _ _ fun e he => (h e he).writes

theorem pairSources_writes {ps : List (Expr × Expr)} (h : ∀ p ∈ ps, p.1.Legible ∧ p.2.Legible) :
    Writes (", ".intercalate (pairSources ps)) fun ts us =>
      Derives .pairs ts (relocatePairs nowhere ps) us := by
  rw [pairSources_eq_map, relocatePairs_eq_map]
  exact Writes.list .pairs _ _ fun p hp => (h p hp).left.pair_writes (h p hp).right

theorem array {es : List Expr} (h : ∀ e ∈ es, e.Legible) : (array o es).Legible := by
  obtain ⟨xs, hl, he⟩ := sources_writes h
  have ht : (Expr.array o es).source.toList = Symbol.lbracket.text.toList ++
      ((", ".intercalate (sources es)).toList ++ (Symbol.rbracket.text.toList ++ [])) := by
    simp [Symbol.text]
  have hl : Lexes (Expr.array o es).source.toList
      (.symbol .lbracket :: (xs ++ [.symbol .rbracket])) := by
    rw [ht]
    exact .symbol rfl (hl.before rfl .nil)
  refine .primary hl (fun us => ?_) rfl (by simp [opens])
  simp only [tokens_append, tokens_cons, tokens_nil, List.append_assoc, List.cons_append]
  exact .array (he _)

theorem hash {ps : List (Expr × Expr)} (h : ∀ p ∈ ps, p.1.Legible ∧ p.2.Legible) :
    (hash o ps).Legible := by
  obtain ⟨xs, hl, hp⟩ := pairSources_writes h
  have ht : (Expr.hash o ps).source.toList = Symbol.lbrace.text.toList ++
      ((", ".intercalate (pairSources ps)).toList ++ (Symbol.rbrace.text.toList ++ [])) := by
    simp [Symbol.text]
  have hl : Lexes (Expr.hash o ps).source.toList
      (.symbol .lbrace :: (xs ++ [.symbol .rbrace])) := by
    rw [ht]
    exact .symbol rfl (hl.before rfl .nil)
  refine .primary hl (fun us => ?_) rfl fun _ y hy => (Lexeme.symbol.inj hy).symm
  simp only [tokens_append, tokens_cons, tokens_nil, List.append_assoc, List.cons_append]
  exact .hash (hp _)

theorem call {f : Expr} {as : List Expr} (hf : f.Legible) (h : ∀ e ∈ as, e.Legible) :
    (call o f as).Legible := by
  obtain ⟨xs, hf⟩ := hf.written
  obtain ⟨ys, hl, ha⟩ := sources_writes h
  have ht : (Expr.call o f as).source.toList = f.source.toList ++ (Symbol.lparen.text.toList ++
      ((", ".intercalate (sources as)).toList ++ (Symbol.rparen.text.toList ++ []))) := by
    simp [Symbol.text]
  have hw : (Expr.call o f as).Written
      (xs ++ .symbol .lparen :: (ys ++ [.symbol .rparen])) := by
    constructor
    case lexes =>
      rw [ht]
      exact hf.lexes.before rfl (hl.before rfl .nil)
    case derives =>
      intro us
      simp only [tokens_append, tokens_cons, tokens_nil, List.append_assoc, List.cons_append]
      exact .call (hf.derives _) (ha _)
    case opens =>
      intro ho us
      rw [tokens_append, List.append_assoc]
      exact hf.opens (by rwa [opens] at ho) _
  exact hw.legible rfl

end Legible

end Expr

namespace Stmt

-- The text of the statement is scanned as `xs`, which derive the statement. Without a semicolon at
-- its end, that depends on what follows.
structure Written (x : Stmt) (xs : List Lexeme) : Prop where
  lexes : Lexes x.source.toList xs
  derives : ∀ us, (x.isTerminated = false → ∀ t ∈ us.head?, ¬t.Continues) →
    Derives .stmt (tokens xs ++ us) (x.relocate nowhere) us
  opens : x.opens = false → ∀ us, ∀ t ∈ (tokens xs ++ us).head?, ¬t.Continues

def Legible (x : Stmt) : Prop :=
  ∃ xs, x.Written xs

namespace Legible

variable {o : Location} {e : Expr}

theorem bind {b : Binder} (hb : (Lexeme.ident b.name).Spelled) (h : e.Legible) :
    (bind o b e).Legible := by
  obtain ⟨xs, hl, hd⟩ := h.writes
  have ht : (Stmt.bind o b e).source.toList = Keyword.kwLet.text.toList ++ ' ' ::
      (b.name.toList ++ ' ' :: (Symbol.assign.text.toList ++ ' ' ::
        (e.source.toList ++ (Symbol.semicolon.text.toList ++ [])))) := by
    simp [Keyword.text, Symbol.text]
  refine ⟨.keyword .kwLet :: .ident b.name :: .symbol .assign :: (xs ++ [.symbol .semicolon]),
    ?lexes, fun us _ => ?derives, fun _ us => not_continues (x := .keyword _) nofun _⟩
  case lexes =>
    rw [ht]
    exact (Lexes.keyword .kwLet).space
      ((Lexes.ident hb).space (.spaced .assign (hl.before rfl .nil)))
  case derives =>
    simp only [tokens_append, tokens_cons, tokens_nil, List.append_assoc, List.cons_append]
    exact .closed (.bind (hd _))

theorem ret (h : e.Legible) : (ret o e).Legible := by
  obtain ⟨xs, hl, hd⟩ := h.writes
  have ht : (Stmt.ret o e).source.toList = Keyword.kwReturn.text.toList ++ ' ' ::
      (e.source.toList ++ (Symbol.semicolon.text.toList ++ [])) := by
    simp [Keyword.text, Symbol.text]
  refine ⟨.keyword .kwReturn :: (xs ++ [.symbol .semicolon]),
    ?lexes, fun us _ => ?derives, fun _ us => not_continues (x := .keyword _) nofun _⟩
  case lexes =>
    rw [ht]
    exact (Lexes.keyword .kwReturn).space (hl.before rfl .nil)
  case derives =>
    simp only [tokens_append, tokens_cons, tokens_nil, List.append_assoc, List.cons_append]
    exact .closed (.ret (hd _))

theorem expr (h : e.Legible) : (Stmt.expr e).Legible :=
  have ⟨xs, hw⟩ := h.written
  ⟨xs, hw.lexes, fun us hu => .unclosed (.expr (hw.derives_of (by decide) us)) (hu rfl), hw.opens⟩

end Legible

-- The statements are read back from their texts with `sep` between these.
structure AllWritten (sep : String) (xs : List Stmt) (ys : List Lexeme) : Prop where
  lexes : Lexes (sep.intercalate (xs.map source)).toList ys
  derives : ∀ us, (∀ t ∈ us.head?, ¬t.Continues) →
    Derives .stmts (tokens ys ++ us) (xs.map (·.relocate nowhere)) us
  opens : xs.head?.any (·.opens) = false → ∀ us, (∀ t ∈ us.head?, ¬t.Continues) →
    ∀ t ∈ (tokens ys ++ us).head?, ¬t.Continues

-- Whatever blank there is between the statements, it is enough if they are apart.
theorem allWritten (sep : String) {c : Char} (hc : sep.toList = [c]) (hb : Text.isBlank c)
    (hw : isWordChar c = false) {xs : List Stmt} (ha : allReadable xs)
    (h : ∀ x ∈ xs, x.Legible) : ∃ ys, AllWritten sep xs ys := by
  induction xs
  case nil => exact ⟨[], .nil, fun _ _ => .noStmts, fun _ _ hu => hu⟩
  case cons x xs hi =>
    simp only [allReadable, Bool.and_eq_true] at ha
    have ⟨⟨ys, hx⟩, hs⟩ := List.forall_mem_cons.mp h
    obtain ⟨zs, hz⟩ := hi ha.right hs
    have hl : Lexes (sep.intercalate ((x :: xs).map source)).toList (ys ++ zs) := by
      cases xs
      case nil =>
        have hn : zs = [] := by simpa using hz.lexes.eq.symm
        simpa [hn] using hx.lexes
      case cons y xs =>
        have ht : (sep.intercalate ((x :: y :: xs).map source)).toList =
            x.source.toList ++ c :: (sep.intercalate ((y :: xs).map source)).toList := by
          simp [hc]
        rw [ht]
        refine hx.lexes.append (hz.lexes.blank hb) ?_
        rintro _ ⟨⟩
        exact hw
    refine ⟨ys ++ zs, hl, fun us hu => ?derives, fun ho us _ => ?opens⟩
    case derives =>
      rw [tokens_append, List.append_assoc]
      refine .moreStmts (hx.derives _ fun hn => hz.opens ?_ us hu) (hz.derives us hu)
      simpa [isApart, hn] using ha.left.right
    case opens =>
      rw [tokens_append, List.append_assoc]
      exact hx.opens (by simpa using ho) _

end Stmt

theorem Block.Legible.mk {o : Location} {xs : List Stmt} (ha : Stmt.allReadable xs)
    (h : ∀ x ∈ xs, x.Legible) : (Block.mk o xs).Legible := by
  cases xs
  case nil =>
    have ht : (Block.mk o []).source.toList =
        Symbol.lbrace.text.toList ++ (Symbol.rbrace.text.toList ++ []) := by
      simp [Symbol.text]
    refine ⟨[.symbol .lbrace, .symbol .rbrace], ?_, fun us => .block .noStmts⟩
    rw [ht]
    exact .symbol rfl (.symbol rfl .nil)
  case cons x xs =>
    obtain ⟨ys, hw⟩ := Stmt.allWritten " " rfl rfl (by decide) ha h
    have ht : (Block.mk o (x :: xs)).source.toList = Symbol.lbrace.text.toList ++ ' ' ::
        ((" ".intercalate ((x :: xs).map Stmt.source)).toList ++ ' ' ::
          (Symbol.rbrace.text.toList ++ [])) := by
      simp [Stmt.sources_eq_map, Symbol.text]
    refine ⟨.symbol .lbrace :: (ys ++ [.symbol .rbrace]), ?_, fun us => ?_⟩
    case refine_1 =>
      rw [ht]
      exact .spaced .lbrace (hw.lexes.space (.symbol rfl .nil))
    case refine_2 =>
      simp only [tokens_append, tokens_cons, tokens_nil, List.append_assoc, List.cons_append,
        relocate, Stmt.relocateAll_eq_map]
      exact .block (hw.derives _ (not_continues (by simp) us))

namespace Nonterminal

-- A readable phrase is read back from its text.
def Restored : (k : Nonterminal) → k.Tree → Prop
  | expr _, e => e.readable → e.Legible
  | exprs, es => Expr.allReadable es → ∀ e ∈ es, e.Legible
  | pair, p => p.1.readable → p.2.readable → p.1.Legible ∧ p.2.Legible
  | pairs, ps => Expr.pairsReadable ps → ∀ p ∈ ps, p.1.Legible ∧ p.2.Legible
  | clause, x | stmt, x => x.readable → x.Legible
  | stmts, xs => Stmt.allReadable xs → ∀ x ∈ xs, x.Legible
  | block, b => b.readable → b.Legible

end Nonterminal

-- The names among the tokens are spelled as those of a text.
def AllSpelled (ts : List Token) : Prop :=
  ∀ t ∈ ts, t.lexeme.Spelled

theorem AllSpelled.tail {t : Token} {ts : List Token} (h : AllSpelled (t :: ts)) : AllSpelled ts :=
  (List.forall_mem_cons.mp h).right

theorem AllSpelled.behind {k : Nonterminal} {ts us : List Token} {t : k.Tree} (h : AllSpelled ts)
    (hd : Derives k ts t us) : AllSpelled us :=
  fun t ht => h t (hd.ends.suffix.mem ht)

theorem Params.spelled {ts us : List Token} {ps : List Binder} (h : Params ts ps us)
    (hs : AllSpelled ts) : (∀ p ∈ ps, (Lexeme.ident p.name).Spelled) ∧ AllSpelled us := by
  induction h
  case none => exact ⟨nofun, hs⟩
  case last =>
    have ⟨hx, hs⟩ := List.forall_mem_cons.mp hs
    exact ⟨List.forall_mem_singleton.mpr hx, hs⟩
  case more hi =>
    have ⟨hx, hs⟩ := List.forall_mem_cons.mp hs
    have ⟨hp, hs⟩ := hi (AllSpelled.tail hs)
    exact ⟨List.forall_mem_cons.mpr ⟨hx, hp⟩, hs⟩

-- By induction on how a phrase is derived from tokens that are spelled as those of a text.
theorem Derives.restored {k : Nonterminal} {ts us : List Token} {t : k.Tree} (h : Derives k ts t us)
    (hs : AllSpelled ts) : k.Restored t := by
  induction h
  case tighter hi => exact hi hs
  case infixOp ha _ hi hj =>
    intro hr
    have ⟨ra, rb⟩ := Bool.and_eq_true_iff.mp hr
    exact .infixOp (hi hs ra) (hj (hs.behind ha).tail rb)
  case not hi => exact fun hr => .prefixOp (y := .bang) (by decide) rfl .not (hi hs.tail hr)
  case negate hi => exact fun hr => .prefixOp (y := .minus) (by decide) rfl .negate (hi hs.tail hr)
  case call hf _ hi hj =>
    intro hr
    have ⟨rf, ra⟩ := Bool.and_eq_true_iff.mp hr
    exact .call (hi hs rf) (hj (hs.behind hf).tail ra)
  case index ha _ hi hj =>
    intro hr
    have ⟨ra, ri⟩ := Bool.and_eq_true_iff.mp hr
    exact .index (hi hs ra) (hj (hs.behind ha).tail ri)
  case ident => exact fun _ => .ident (List.forall_mem_cons.mp hs).left
  case int hd => exact fun _ => .int hd
  case string => exact fun _ => .string
  case true | false => exact fun _ => .bool
  case group hi => exact hi hs.tail
  case cond hc _ hi hj =>
    intro hr
    have ⟨hr, rb⟩ := Bool.and_eq_true_iff.mp hr
    have ⟨bc, rc⟩ := Bool.and_eq_true_iff.mp hr
    exact .cond ((hi hs.tail.tail rc).enclosed bc) (hj (hs.tail.tail.behind hc).tail rb)
  case condElse hc hb _ hi hj hk =>
    intro hr
    have ⟨hr, ra⟩ := Bool.and_eq_true_iff.mp hr
    have ⟨hr, rb⟩ := Bool.and_eq_true_iff.mp hr
    have ⟨bc, rc⟩ := Bool.and_eq_true_iff.mp hr
    have hu := (hs.tail.tail.behind hc).tail
    exact .condElse ((hi hs.tail.tail rc).enclosed bc) (hj hu rb) (hk (hu.behind hb).tail ra)
  case fn hp hn _ hi =>
    intro hr
    have ⟨hx, hu⟩ := hp.spelled hs.tail.tail
    exact .fn hx hn (hi hu.tail hr)
  case array hi => exact fun hr => .array (hi hs.tail hr)
  case hash hi => exact fun hr => .hash (hi hs.tail hr)
  case noExprs | noPairs | noStmts => exact nofun
  case lastExpr hi =>
    intro hr
    have ⟨re, _⟩ := Bool.and_eq_true_iff.mp hr
    exact List.forall_mem_singleton.mpr (hi hs re)
  case moreExprs he _ hi hj =>
    intro hr
    have ⟨re, rs⟩ := Bool.and_eq_true_iff.mp hr
    exact List.forall_mem_cons.mpr ⟨hi hs re, hj (hs.behind he).tail rs⟩
  case pair hk _ hi hj => exact fun rk rv => ⟨hi hs rk, hj (hs.behind hk).tail rv⟩
  case lastPair hi =>
    intro hr
    have ⟨hr, _⟩ := Bool.and_eq_true_iff.mp hr
    have ⟨rk, rv⟩ := Bool.and_eq_true_iff.mp hr
    exact List.forall_mem_singleton.mpr (hi hs rk rv)
  case morePairs hp _ hi hj =>
    intro hr
    have ⟨hr, rs⟩ := Bool.and_eq_true_iff.mp hr
    have ⟨rk, rv⟩ := Bool.and_eq_true_iff.mp hr
    exact List.forall_mem_cons.mpr ⟨hi hs rk rv, hj (hs.behind hp).tail rs⟩
  case bind hi => exact fun hr => .bind (hs.tail _ List.mem_cons_self) (hi hs.tail.tail.tail hr)
  case ret hi => exact fun hr => .ret (hi hs.tail hr)
  case expr hi => exact fun hr => .expr (hi hs hr)
  case closed hi => exact hi hs
  case unclosed hi => exact hi hs
  case moreStmts hx _ hi hj =>
    intro hr
    have ⟨hr, rs⟩ := Bool.and_eq_true_iff.mp hr
    have ⟨rx, _⟩ := Bool.and_eq_true_iff.mp hr
    exact List.forall_mem_cons.mpr ⟨hi hs rx, hj (hs.behind hx) rs⟩
  case block hi => exact fun hr => .mk hr (hi hs.tail hr)

section

variable {f : Location → Location}

mutual

theorem Expr.source_relocate : ∀ e : Expr, (e.relocate f).source = e.source
  | .ident .. | .int .. | .string .. | .bool .. => rfl
  | .prefixOp _ _ e => by simp only [Expr.relocate, Expr.source, e.source_relocate]
  | .infixOp _ _ a b | .index _ a b => by
    simp only [Expr.relocate, Expr.source, a.source_relocate, b.source_relocate]
  | .cond _ c b none => by
    simp only [Expr.relocate, Expr.source, c.source_relocate, b.source_relocate]
  | .cond _ c b (some a) => by
    simp only [Expr.relocate, Expr.source, c.source_relocate, b.source_relocate, a.source_relocate]
  | .fn _ ps b => by
    simp only [Expr.relocate, Expr.source, List.map_map, b.source_relocate]
    rfl
  | .call _ e as => by
    simp only [Expr.relocate, Expr.source, e.source_relocate, Expr.sources_relocate as]
  | .array _ es => by simp only [Expr.relocate, Expr.source, Expr.sources_relocate es]
  | .hash _ ps => by simp only [Expr.relocate, Expr.source, Expr.pairSources_relocate ps]

theorem Expr.sources_relocate :
    ∀ es : List Expr, Expr.sources (Expr.relocateAll f es) = Expr.sources es
  | [] => rfl
  | e :: es => by
    simp only [Expr.relocateAll, Expr.sources, e.source_relocate, Expr.sources_relocate es]

theorem Expr.pairSources_relocate :
    ∀ ps : List (Expr × Expr), Expr.pairSources (Expr.relocatePairs f ps) = Expr.pairSources ps
  | [] => rfl
  | (k, v) :: ps => by
    simp only [Expr.relocatePairs, Expr.pairSources, k.source_relocate, v.source_relocate,
      Expr.pairSources_relocate ps]

theorem Stmt.source_relocate : ∀ x : Stmt, (x.relocate f).source = x.source
  | .bind _ b e => by simp only [Stmt.relocate, Stmt.source, e.source_relocate, Binder.relocate]
  | .ret _ e | .expr e => by simp only [Stmt.relocate, Stmt.source, e.source_relocate]

theorem Stmt.sources_relocate :
    ∀ xs : List Stmt, Stmt.sources (Stmt.relocateAll f xs) = Stmt.sources xs
  | [] => rfl
  | x :: xs => by
    simp only [Stmt.relocateAll, Stmt.sources, x.source_relocate, Stmt.sources_relocate xs]

theorem Block.source_relocate : ∀ b : Block, (b.relocate f).source = b.source
  | .mk _ [] => by simp only [Block.relocate, Stmt.relocateAll, Block.source]
  | .mk _ (x :: xs) => by
    simp only [Block.relocate, Stmt.relocateAll, Block.source, x.source_relocate,
      Stmt.sources_relocate xs]

end

end

-- The text of a program tells nothing about where its parts are.
theorem Program.source_eq {p q : Program} {f : Location → Location}
    (h : q.statements.map (·.relocate f) = p.statements.map (·.relocate f)) :
    q.source = p.source := by
  have hs (xs : List Stmt) : (xs.map (·.relocate f)).map Stmt.source = xs.map Stmt.source := by
    simp [Stmt.source_relocate]
  rw [source, ← hs, h, hs, source]

theorem TokenStream.ofSource_relocate (source : String) :
    (ofSource source).relocate nowhere = ⟨tokens (lexemes source.toList), .start⟩ := by
  rw [relocate, ofSource, lexemes, tokens, List.map_map]
  rfl

-- A readable program that was read without errors is read from its own text again, if there are
-- frames enough.
theorem parse_source (frames again : Nat) {source : String}
    (he : (parse frames source).errors = []) (hr : (parse frames source).program.readable) :
    let program := (parse frames source).program
    let reread := parse again program.source
    reread.errors = [] ∧ reread.program.source = program.source ∧
        reread.program.statements.map (·.relocate nowhere) =
          program.statements.map (·.relocate nowhere) ∨
      again < 2 * (TokenStream.ofSource program.source).size + 2 ∧
        ∃ e ∈ reread.errors, e.cause = .tooDeep := by
  intro program reread
  obtain ⟨xs, hw⟩ := Stmt.allWritten "\n" rfl rfl (by decide) hr
    ((parse_sound he).restored (TokenStream.spelled_scan .start _) hr)
  have ht : (TokenStream.ofSource program.source).relocate nowhere = ⟨tokens xs, .start⟩ := by
    rw [TokenStream.ofSource_relocate, show lexemes program.source.toList = xs from hw.lexes.eq]
  have hl : (tokens xs).length = (TokenStream.ofSource program.source).size :=
    (congrArg TokenStream.size ht.symm).trans (TokenStream.size_relocate _)
  have hd := hw.derives [] nofun
  rw [List.append_nil] at hd
  have hc : Parse.statements again _ ⟨tokens xs, .start⟩ = _ ∨ _ :=
    Parse.statements_complete (Nat.le_of_eq hl) hd
  rw [← ht, Parse.statements_relocate, hl] at hc
  obtain hc | ⟨hn, r, hm, hc⟩ := hc
  case inl =>
    have ⟨hp, hc⟩ := Prod.mk.inj hc
    have he := List.map_eq_nil_iff.mp (Prod.mk.inj hc).left
    exact .inl ⟨List.map_eq_nil_iff.mpr he, Program.source_eq hp, hp⟩
  case inr =>
    obtain ⟨r, hr, rfl⟩ := List.mem_map.mp hm
    exact .inr ⟨hn, r.error, List.mem_map_of_mem hr, hc⟩

theorem parse_source_nested :
    let source := "let f = fn(x, y) \x7b if (x < y) \x7b return -x \x7d; y \x7d; f(1, 2)[0 + 1]"
    let program := (parse defaultFrames source).program
    let reread := parse defaultFrames program.source
    (parse defaultFrames source).errors = [] ∧ program.readable ∧
      reread.errors = [] ∧ reread.program.source = program.source := by
  intro source program reread
  have he : (parse defaultFrames source).errors = [] := by decide +kernel
  have hr : program.readable := by decide +kernel
  have hn : ¬defaultFrames < 2 * (TokenStream.ofSource program.source).size + 2 := by
    decide +kernel
  have ⟨hq, hs, _⟩ :=
    (parse_source defaultFrames defaultFrames he hr).resolve_right fun h => hn h.left
  exact ⟨he, hr, hq, hs⟩

-- The condition of an `if` is written without the parentheses that have to be around it.
theorem parse_source_condition :
    let program := (parse defaultFrames "if (x) \x7b 1 \x7d").program
    (parse defaultFrames "if (x) \x7b 1 \x7d").errors = [] ∧ program.source = "if x \x7b 1 \x7d" ∧
      (parse defaultFrames program.source).errors.map (·.location) = [some ⟨1, 4⟩] := by
  decide +kernel

-- An expression in parentheses is taken for the arguments of a call of the statement before it.
example :
    let program := (parse defaultFrames "a; (b + c)").program
    (parse defaultFrames "a; (b + c)").errors = [] ∧ program.source = "a\n(b + c)" ∧
      (parse defaultFrames program.source).errors = [] ∧
      (parse defaultFrames program.source).program.source = "a((b + c))" := by
  decide +kernel

end Marmoset
