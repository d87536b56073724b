import Marmoset.Program.Parse
import Marmoset.Proofs.Grammar
import Marmoset.Proofs.Numerals

/-!
What the parser reads is derived by the grammar. A precedence corresponds to the level whose
expressions are read under it; as an expression is extended, its level stays above the precedence
(`Level.floor`), and what follows does not bind more tightly than the level allows (`Level.cap`).
-/

namespace Marmoset

-- The level of the expressions that are read where `p` holds the operand to the left.
def Precedence.level : Precedence → Level
  | lowest => .equality
  | equality => .order
  | order => .sum
  | sum => .product
  | _ => .unary

namespace Level

-- An expression of the level is read under precedences of lower rank only.
def floor : Level → Nat
  | equality => 2
  | order => 3
  | sum => 4
  | product => 5
  | unary | suffixed | primary => 7

-- An expression of the level is complete only if what follows it has no higher rank.
def cap : Level → Nat
  | equality => 2
  | order => 3
  | sum => 4
  | product => 5
  | unary => 6
  | suffixed | primary => 8

theorem depth_level_le {l : Level} {p : Precedence} (h : p.rank < l.floor) :
    p.level.depth ≤ l.depth := by
  cases p <;> cases l <;> first | decide | (revert h; decide)

theorem depth_le_of_rank_le_cap {l : Level} {op : InfixOp} (h : op.precedence.rank ≤ l.cap) :
    op.level.depth ≤ l.depth := by
  cases op <;> cases l <;> first | decide | (revert h; decide)

theorem depth_suffixed_le {l : Level} (h : Precedence.call.rank ≤ l.cap) :
    suffixed.depth ≤ l.depth := by
  cases l <;> first | decide | (revert h; decide)

end Level

namespace InfixOp

variable (op : InfixOp)

theorem floor_level : op.level.floor = op.precedence.rank := by
  cases op <;> rfl

theorem cap_level : op.level.cap = op.precedence.rank := by
  cases op <;> rfl

theorem tighter_level : op.level.tighter? = some op.precedence.level := by
  cases op <;> rfl

theorem eq_symbol {op : InfixOp} {s : Symbol} (h : ofSymbol? s = some op) : s = op.symbol := by
  cases s <;> cases h <;> rfl

end InfixOp

theorem Suffix.rank_le (x : Suffix) : x.precedence.rank ≤ Level.primary.cap := by
  cases x
  case infixOp op => cases op <;> decide
  all_goals decide

theorem Suffix.eq_infixOp {l : Lexeme} {op : InfixOp} (h : ofLexeme? l = some (.infixOp op)) :
    l = .symbol op.symbol := by
  unfold ofLexeme? at h
  split at h
  case h_3 =>
    have ⟨_, ho, he⟩ := Option.map_eq_some_iff.mp h
    cases he
    rw [InfixOp.eq_symbol ho]
  all_goals cases h

theorem Suffix.eq_call {l : Lexeme} (h : ofLexeme? l = some .call) : l = .symbol .lparen := by
  unfold ofLexeme? at h
  split at h <;> simp_all

theorem Suffix.eq_index {l : Lexeme} (h : ofLexeme? l = some .index) : l = .symbol .lbracket := by
  unfold ofLexeme? at h
  split at h <;> simp_all

namespace TokenStream

variable {s : TokenStream}

-- How tightly what comes next would bind an expression in front of it.
def rank (s : TokenStream) : Nat :=
  match Suffix.ofLexeme? s.current.lexeme with
  | some x => x.precedence.rank
  | none => 0

theorem rank_le : s.rank ≤ Level.primary.cap := by
  unfold rank
  split
  case h_1 x _ => exact x.rank_le
  case h_2 => decide

theorem rank_of_size_le (h : s.size ≤ 0) : s.rank = 0 := by
  obtain ⟨ts, l⟩ := s
  cases ts
  case nil => rfl
  case cons => contradiction

theorem exists_suffix {p : Precedence} (h : p.rank < s.rank) :
    ∃ x, Suffix.ofLexeme? s.current.lexeme = some x ∧ p < x.precedence := by
  unfold rank at h
  split at h
  case h_1 x hx => exact ⟨x, hx, h⟩
  case h_2 => contradiction

theorem rank_of_suffix {x : Suffix} (h : Suffix.ofLexeme? s.current.lexeme = some x) :
    s.rank = x.precedence.rank := by
  simp [rank, h]

theorem pending_of_current {t : Token} (h : s.current = t) (ht : t.lexeme ≠ .eof) :
    s.pending = t :: s.advance.pending := by
  obtain ⟨ts, l⟩ := s
  cases ts
  case nil => exact absurd (congrArg Token.lexeme h).symm ht
  case cons => cases h; rfl

theorem pending_of_lexeme {x : Lexeme} (h : s.current.lexeme = x) (hx : x ≠ .eof) :
    s.pending = ⟨x, s.current.location⟩ :: s.advance.pending := by
  subst h
  exact pending_of_current rfl hx

end TokenStream

theorem Token.lexeme_of_symbol {t : Token} {y : Symbol} (h : t.kind = .symbol y) :
    t.lexeme = .symbol y := by
  obtain ⟨x, l⟩ := t
  cases x <;> cases h
  rfl

theorem Token.lexeme_of_keyword {t : Token} {k : Keyword} (h : t.kind = .keyword k) :
    t.lexeme = .keyword k := by
  obtain ⟨x, l⟩ := t
  cases x <;> cases h
  rfl

namespace Parser

variable {s s' : TokenStream}

section

variable {x : Parser α} {f : α → Parser β}

theorem bind_ok (h : (x >>= f) s = .ok b s') : ∃ a s₁, x s = .ok a s₁ ∧ f a s₁ = .ok b s' := by
  simp only [bind, EStateM.bind] at h
  split at h
  case h_1 a s₁ he => exact ⟨a, s₁, he, h⟩
  case h_2 => cases h

theorem discard_ok (h : discard x s = .ok u s') : ∃ a, x s = .ok a s' := by
  simp only [discard, Functor.discard, Functor.mapConst, EStateM.map, Function.comp] at h
  split at h
  case h_1 a _ he => cases h; exact ⟨a, he⟩
  case h_2 => cases h

theorem isAt_ok {g : Bool → Parser β} (h : (isAt k >>= g) s = .ok b s') :
    s.current.kind = k ∧ g true s = .ok b s' ∨ s.current.kind ≠ k ∧ g false s = .ok b s' := by
  change g (decide (s.current.kind = k)) s = .ok b s' at h
  by_cases hk : s.current.kind = k
  case pos => exact .inl ⟨hk, by rwa [decide_eq_true hk] at h⟩
  case neg => exact .inr ⟨hk, by rwa [decide_eq_false hk] at h⟩

end

theorem expect_ok {k : TokenKind} (h : expect k s = .ok t s') (hk : k ≠ .eof) :
    t.kind = k ∧ s.pending = t :: s'.pending := by
  have ⟨_, _, hc, h⟩ := bind_ok h
  cases hc
  split at h
  case isTrue he =>
    cases h
    exact ⟨he, TokenStream.pending_of_current rfl fun hx => hk (he ▸ congrArg Lexeme.kind hx)⟩
  case isFalse => cases h

theorem symbol_ok {y : Symbol} (h : expect (.symbol y) s = .ok t s') :
    s.pending = .symbol y t.location :: s'.pending := by
  have ⟨hk, hp⟩ := expect_ok h (by simp)
  obtain ⟨x, l⟩ := t
  cases x <;> cases hk
  exact hp

theorem keyword_ok {k : Keyword} (h : expect (.keyword k) s = .ok t s') :
    s.pending = .keyword k t.location :: s'.pending := by
  have ⟨hk, hp⟩ := expect_ok h (by simp)
  obtain ⟨x, l⟩ := t
  cases x <;> cases hk
  exact hp

theorem skip_ok {y : Symbol} (h : discard (expect (.symbol y)) s = .ok u s') :
    ∃ l, s.pending = .symbol y l :: s'.pending := by
  have ⟨t, h⟩ := discard_ok h
  exact ⟨t.location, symbol_ok h⟩

-- Where the rule succeeds, it has read what `D` says.
def Reads (D : List Token → α → List Token → Prop) (x : Parser α) : Prop :=
  ∀ s a s', x s = .ok a s' → D s.pending a s'.pending

-- What may be read behind an item: nothing, or a comma and either more or the end of the list.
def ReadsRest (trailing : Bool) (D : List Token → List α → List Token → Prop)
    (x : Parser (List α)) : Prop :=
  ∀ s xs s', x s = .ok xs s' → xs = [] ∧ s' = s ∨
    ∃ c us, s.pending = .symbol .comma c :: us ∧ D us xs s'.pending ∧ (xs = [] → trailing)

-- Lists of `I`, with commas between them and with `trailing` perhaps one behind.
structure Listed (trailing : Bool) (I : List Token → α → List Token → Prop)
    (D : List Token → List α → List Token → Prop) : Prop where
  none : D us [] us
  last : I ts x us → D ts [x] us
  more : I ts x (.symbol .comma c :: us) → D us xs vs → (xs = [] → trailing) → D ts (x :: xs) vs

namespace Listed

theorem exprs : Listed true (Derives (.expr .equality)) (Derives .exprs) :=
  ⟨.noExprs, .lastExpr, fun h hs _ => .moreExprs h hs⟩

theorem pairs : Listed true (Derives .pair) (Derives .pairs) :=
  ⟨.noPairs, .lastPair, fun h hs _ => .morePairs h hs⟩

theorem params :
    Listed false (fun ts (b : Binder) us => ts = ⟨.ident b.name, b.location⟩ :: us) Params := by
  refine ⟨.none, ?last, ?more⟩
  case last =>
    rintro _ _ _ rfl
    exact .last
  case more =>
    rintro _ _ _ _ xs _ rfl hs hn
    cases xs
    case nil => exact absurd (hn rfl) (by decide)
    case cons => exact .more hs

variable {trailing : Bool} {I : List Token → α → List Token → Prop} {close : Symbol}
    {D : List Token → List α → List Token → Prop} {item : Parser α}

section

variable (h : Listed trailing I D) (hi : item.Reads I)
include h hi

-- What is read from an item on, given what may be read behind it.
theorem item_reads {n : Nat} (hn : (items.go trailing close item n false).ReadsRest trailing D) :
    (do let x ← item; return x :: (← items.go trailing close item n false) : Parser (List α)).Reads
      fun ts xs us => D ts xs us ∧ xs ≠ [] := by
  intro s xs s' hr
  have ⟨x, s₁, hx, hr⟩ := bind_ok hr
  have ⟨ys, s₂, hy, hr⟩ := bind_ok hr
  cases hr
  refine ⟨?_, List.cons_ne_nil x ys⟩
  have hx := hi s x s₁ hx
  obtain ⟨rfl, rfl⟩ | ⟨c, us, hc, hd, ht⟩ := hn s₁ ys s' hy
  · exact h.last hx
  · exact h.more (hc ▸ hx) hd ht

theorem rest_reads (n : Nat) :
    (items.go trailing close item n false).ReadsRest trailing D := by
  induction n
  case zero =>
    intro s xs s' hr
    cases hr
    exact .inl ⟨rfl, rfl⟩
  case succ n hn =>
    intro s xs s' hr
    obtain ⟨_, hr⟩ | ⟨_, hr⟩ := isAt_ok hr
    case inl =>
      cases hr
      exact .inl ⟨rfl, rfl⟩
    case inr =>
      have ⟨_, s₁, hc, hr⟩ := bind_ok hr
      have ⟨c, hc⟩ := skip_ok hc
      refine .inr ⟨c, s₁.pending, hc, ?_⟩
      have ⟨_, _, ha, hr⟩ := bind_ok hr
      cases ha
      split at hr
      case isTrue ht =>
        cases hr
        exact ⟨h.none, fun _ => (Bool.and_eq_true _ _ ▸ ht).left⟩
      case isFalse =>
        have ⟨hd, hne⟩ := h.item_reads hi hn _ _ _ hr
        exact ⟨hd, fun he => absurd he hne⟩

theorem first_reads (n : Nat) : (items.go trailing close item n true).Reads D := by
  intro s xs s' hr
  cases n
  case zero =>
    cases hr
    exact h.none
  case succ n =>
    obtain ⟨_, hr⟩ | ⟨_, hr⟩ := isAt_ok hr
    case inl =>
      cases hr
      exact h.none
    case inr => exact (h.item_reads hi (h.rest_reads hi n) _ _ _ hr).left

end

theorem items_reads (h : Listed trailing I D) (hi : item.Reads I) :
    (items trailing close item).Reads fun ts xs us => ∃ c, D ts xs (.symbol close c :: us) := by
  intro s xs s' hr
  have ⟨_, _, hz, hr⟩ := bind_ok hr
  cases hz
  have ⟨ys, s₁, hg, hr⟩ := bind_ok hr
  have ⟨_, _, hc, hr⟩ := bind_ok hr
  cases hr
  have ⟨c, hc⟩ := skip_ok hc
  exact ⟨c, hc ▸ h.first_reads hi _ s _ s₁ hg⟩

end Listed

theorem statements_go_reads {statement : Parser Stmt} (h : statement.Reads (Derives .stmt))
    (n : Nat) : (statements.go statement n).Reads (Derives .stmts) := by
  induction n
  case zero =>
    intro s xs s' hr
    cases hr
    exact .noStmts
  case succ n hi =>
    intro s xs s' hr
    obtain ⟨_, hr⟩ | ⟨_, hr⟩ := isAt_ok hr
    case inl =>
      cases hr
      exact .noStmts
    case inr =>
      obtain ⟨he, hr⟩ | ⟨_, hr⟩ := isAt_ok hr
      case inl =>
        -- The brace is missing, and asking for it fails.
        have ⟨_, s₁, hb, hr⟩ := bind_ok hr
        have ⟨b, hb⟩ := skip_ok hb
        rw [TokenStream.current, hb] at he
        cases he
      case inr =>
        have ⟨x, s₁, hx, hr⟩ := bind_ok hr
        have ⟨ys, s₂, hy, hr⟩ := bind_ok hr
        cases hr
        exact .moreStmts (h s x s₁ hx) (hi s₁ ys s' hy)

theorem statements_reads {statement : Parser Stmt} (h : statement.Reads (Derives .stmt)) :
    (statements statement).Reads (Derives .stmts) := by
  intro s xs s' hr
  have ⟨_, _, hz, hr⟩ := bind_ok hr
  cases hz
  exact statements_go_reads h _ s xs s' hr

-- The names of parameters are pairwise different if none repeats an earlier one.
theorem repeated?_eq_none (h : repeated? bs = none) : (bs.map (·.name)).Nodup := by
  induction bs
  case nil => exact .nil
  case cons b bs hi =>
    have ⟨hb, hbs⟩ := Option.or_eq_none_iff.mp h
    rw [List.map_cons, List.nodup_cons]
    refine ⟨fun hm => ?_, hi hbs⟩
    have ⟨c, hc, he⟩ := List.mem_map.mp hm
    exact absurd (decide_eq_true he) (List.find?_eq_none.mp hb c hc)

theorem binder_reads :
    binder.Reads fun ts b us => ts = ⟨.ident b.name, b.location⟩ :: us := by
  intro s b s' h
  have ⟨⟨x, l⟩, s₁, ht, h⟩ := bind_ok h
  cases h
  have ⟨hk, hp⟩ := expect_ok ht (by simp)
  cases x <;> cases hk
  exact hp

theorem identifier_reads : identifier.Reads (Derives (.expr .primary)) := by
  intro s e s' h
  have ⟨⟨x, l⟩, s₁, ht, h⟩ := bind_ok h
  cases h
  have ⟨hk, hp⟩ := expect_ok ht (by simp)
  cases x <;> cases hk
  rw [hp]
  exact .ident

theorem integer_reads : integer.Reads (Derives (.expr .primary)) := by
  rw [integer_eq]
  intro s e s' h
  have ⟨⟨x, l⟩, s₁, ht, h⟩ := bind_ok h
  have ⟨hk, hp⟩ := expect_ok ht (by simp)
  cases x <;> cases hk
  dsimp only at h
  split at h
  case isTrue hn =>
    cases h
    rw [hp]
    exact .int hn
  case isFalse => cases h

theorem string_reads : string.Reads (Derives (.expr .primary)) := by
  intro s e s' h
  have ⟨⟨x, l⟩, s₁, ht, h⟩ := bind_ok h
  cases h
  have ⟨hk, hp⟩ := expect_ok ht (by simp)
  cases x <;> cases hk
  rw [hp]
  exact .string

theorem current_ok (h : current s = .ok t s') : s.current = t ∧ s' = s := by
  cases h
  exact ⟨rfl, rfl⟩

theorem boolean_reads : boolean.Reads (Derives (.expr .primary)) := by
  intro s e s' h
  have ⟨⟨x, l⟩, s₁, ht, h⟩ := bind_ok h
  have ⟨hc, hs⟩ := current_ok ht
  have hp := TokenStream.pending_of_current hc
  cases x
  case keyword k =>
    rw [hp (by simp)]
    subst hs
    cases k
    case kwTrue => cases h; exact .true
    case kwFalse => cases h; exact .false
    all_goals cases h
  all_goals cases h

theorem illegal_reads (D : List Token → Expr → List Token → Prop) : illegal.Reads D := by
  intro s e s' h
  have ⟨t, s₁, ht, h⟩ := bind_ok h
  split at h
  · cases h
  · cases h

theorem lt_rank_of_continues (h : t ∈ s.pending.head?) (ht : t.Continues) :
    Precedence.lowest.rank < s.rank := by
  have hc : s.current = t := by
    rw [TokenStream.current, List.headD_eq_head?_getD, h]
    rfl
  obtain hl | hl | ⟨op, hl⟩ := ht <;> rw [TokenStream.rank, hc, hl]
  · decide
  · decide
  · cases op <;> decide

theorem skipSemicolon_ok (h : skipSemicolon s = .ok u s') (hs : s.rank ≤ Precedence.lowest.rank)
    (hd : Derives .clause ts x s.pending) : Derives .stmt ts x s'.pending := by
  obtain ⟨he, h⟩ | ⟨_, h⟩ := isAt_ok h
  case inl =>
    have ⟨_, h⟩ := discard_ok h
    cases h
    rw [TokenStream.pending_of_lexeme (Token.lexeme_of_symbol he) (by simp)] at hd
    exact .closed hd
  case inr =>
    cases h
    exact .unclosed hd fun t ht hc => absurd hs (Nat.not_le_of_lt (lt_rank_of_continues ht hc))

-- `e` has been read from `ts` on, as an operand that `p` holds to its left.
def Operand (p : Precedence) (ts : List Token) (e : Expr) (s : TokenStream) : Prop :=
  ∃ l, Derives (.expr l) ts e s.pending ∧ p.rank < l.floor ∧ s.rank ≤ l.cap

-- An expression that nothing more belongs to.
def Whole (p : Precedence) (s : TokenStream) (e : Expr) (s' : TokenStream) : Prop :=
  Derives (.expr p.level) s.pending e s'.pending ∧ s'.rank ≤ p.rank

-- What the rules read, given that many frames.
structure Sound (n : Nat) : Prop where
  expression : ∀ p s e s', p.rank ≤ Precedence.prefixOp.rank → expression n p s = .ok e s' →
    Whole p s e s'
  suffixed : ∀ p ts x e s e' s', p.rank ≤ Precedence.prefixOp.rank → Operand p ts e s →
    Suffix.ofLexeme? s.current.lexeme = some x → p < x.precedence →
    suffixed n x e s = .ok e' s' → Operand p ts e' s' ∧ s'.size < s.size
  prefixed : ∀ s e s', s.current.lexeme = .symbol .bang ∨ s.current.lexeme = .symbol .minus →
    prefixed n s = .ok e s' → Derives (.expr .unary) s.pending e s'.pending ∧ s'.rank ≤ Level.unary.cap
  grouped : (grouped n).Reads (Derives (.expr .primary))
  conditional : (conditional n).Reads (Derives (.expr .primary))
  function : (function n).Reads (Derives (.expr .primary))
  array : (array n).Reads (Derives (.expr .primary))
  hash : (hash n).Reads (Derives (.expr .primary))
  block : (block n).Reads (Derives .block)
  statement : (statement n).Reads (Derives .stmt)
  letStatement : (letStatement n).Reads (Derives .stmt)
  returnStatement : (returnStatement n).Reads (Derives .stmt)
  expressionStatement : (expressionStatement n).Reads (Derives .stmt)

theorem Sound.zero : Sound 0 := by
  constructor <;> repeat intro
  all_goals contradiction

section

variable {step : Suffix → Expr → Parser Expr} {p : Precedence} {n : Nat} {e : Expr}

theorem extend_go_of_rank_le (h : s.rank ≤ p.rank) : extend.go p step n e s = .ok e s := by
  cases n
  case zero => rfl
  case succ n =>
    simp only [extend.go, bind, EStateM.bind, current]
    cases hx : Suffix.ofLexeme? s.current.lexeme
    case none => rfl
    case some x =>
      have hp : ¬p < x.precedence := Nat.not_lt.mpr (TokenStream.rank_of_suffix hx ▸ h)
      simp only [if_neg hp]
      rfl

theorem extend_go_succ {x : Suffix} (hx : Suffix.ofLexeme? s.current.lexeme = some x)
    (hp : p < x.precedence) :
    extend.go p step (n + 1) e s = (step x e >>= extend.go p step n) s := by
  simp only [extend.go, bind, EStateM.bind, current, hx, if_pos hp]

theorem extend_whole {ts : List Token} {e' : Expr}
    (hs : ∀ x e s e' s', Operand p ts e s → Suffix.ofLexeme? s.current.lexeme = some x →
      p < x.precedence → step x e s = .ok e' s' → Operand p ts e' s' ∧ s'.size < s.size)
    (ho : Operand p ts e s) (h : extend p step e s = .ok e' s') :
    Derives (.expr p.level) ts e' s'.pending ∧ s'.rank ≤ p.rank := by
  have stop {e : Expr} {s : TokenStream} (ho : Operand p ts e s) (hr : s.rank ≤ p.rank) :
      Derives (.expr p.level) ts e s.pending ∧ s.rank ≤ p.rank := by
    have ⟨l, hd, hp, _⟩ := ho
    exact ⟨hd.loosen (Level.depth_level_le hp), hr⟩
  have go (n : Nat) (e : Expr) (s : TokenStream) (hn : s.size ≤ n) (ho : Operand p ts e s)
      (h : extend.go p step n e s = .ok e' s') :
      Derives (.expr p.level) ts e' s'.pending ∧ s'.rank ≤ p.rank := by
    induction n generalizing e s
    case zero =>
      cases h
      exact stop ho (TokenStream.rank_of_size_le hn ▸ Nat.zero_le _)
    case succ n hi =>
      by_cases hr : s.rank ≤ p.rank
      case pos =>
        rw [extend_go_of_rank_le hr] at h
        cases h
        exact stop ho hr
      case neg =>
        have ⟨x, hx, hp⟩ := TokenStream.exists_suffix (Nat.not_le.mp hr)
        rw [extend_go_succ hx hp] at h
        have ⟨e₁, s₁, he, h⟩ := bind_ok h
        have ⟨ho, hl⟩ := hs x e s e₁ s₁ ho hx hp he
        exact hi e₁ s₁ (by omega) ho h
  have ⟨_, _, hz, h⟩ := bind_ok h
  cases hz
  exact go s.size e s (Nat.le_refl _) ho h

end

namespace Sound

variable {n : Nat} (h : Sound n)
include h

theorem expression_lowest : (Parser.expression n .lowest).Reads (Derives (.expr .equality)) :=
  fun s e s' hr => (h.expression .lowest s e s' (by decide) hr).left

theorem leading_operand {p : Precedence} (hp : p.rank ≤ Precedence.prefixOp.rank)
    (hr : leading n s = .ok e s') : Operand p s.pending e s' := by
  have primary {e s'} (hd : Derives (.expr .primary) s.pending e s'.pending) :
      Operand p s.pending e s' := ⟨.primary, hd, Nat.lt_succ_of_le hp, TokenStream.rank_le⟩
  have ⟨⟨x, l⟩, s₁, ht, hr⟩ := bind_ok hr
  obtain ⟨hc, rfl⟩ := current_ok ht
  cases x
  case ident => exact primary (identifier_reads _ _ _ hr)
  case int => exact primary (integer_reads _ _ _ hr)
  case string => exact primary (string_reads _ _ _ hr)
  case illegal => exact primary (illegal_reads _ _ _ _ hr)
  case eof => cases hr
  case keyword k =>
    cases k
    case kwTrue | kwFalse => exact primary (boolean_reads _ _ _ hr)
    case kwIf => exact primary (h.conditional _ _ _ hr)
    case kwFn => exact primary (h.function _ _ _ hr)
    all_goals cases hr
  case symbol y =>
    cases y
    case bang | minus =>
      have ⟨hd, hl⟩ := h.prefixed _ _ _ (by simp [hc]) hr
      exact ⟨.unary, hd, Nat.lt_succ_of_le hp, hl⟩
    case lparen => exact primary (h.grouped _ _ _ hr)
    case lbracket => exact primary (h.array _ _ _ hr)
    case lbrace => exact primary (h.hash _ _ _ hr)
    all_goals cases hr

theorem expression_succ {p : Precedence} (hp : p.rank ≤ Precedence.prefixOp.rank)
    (hr : Parser.expression (n + 1) p s = .ok e s') : Whole p s e s' := by
  rw [Parser.expression_succ] at hr
  have ⟨e₁, s₁, hl, hr⟩ := bind_ok hr
  refine extend_whole (fun x e s e' s' ho hx hlt hs => ?_) (h.leading_operand hp hl) hr
  exact h.suffixed p _ x e s e' s' hp ho hx hlt hs

section

variable {ts : List Token} {e : Expr} {l : Level} {o : Location} {p : Precedence}

theorem infixOp_operand {op : InfixOp} (hp : p < op.precedence)
    (hd : Derives (.expr l) ts e (.symbol op.symbol o :: s.pending))
    (hl : op.precedence.rank ≤ l.cap) (hb : Parser.expression n op.precedence s = .ok b s') :
    Operand p ts (.infixOp o op e b) s' ∧ s'.pending.length ≤ s.pending.length := by
  have ⟨hb, hr⟩ := h.expression op.precedence _ _ _ (by cases op <;> decide) hb
  refine ⟨⟨op.level, ?_, op.floor_level ▸ hp, op.cap_level ▸ hr⟩, Nat.le_of_lt hb.shortens⟩
  exact .infixOp op.tighter_level (hd.loosen (Level.depth_le_of_rank_le_cap hl)) hb

variable (hp : p.rank ≤ Precedence.prefixOp.rank)
include hp

theorem call_operand (hd : Derives (.expr l) ts e (.symbol .lparen o :: s.pending))
    (hl : Precedence.call.rank ≤ l.cap)
    (ha : items true .rparen (Parser.expression n .lowest) s = .ok as s') :
    Operand p ts (.call o e as) s' ∧ s'.pending.length ≤ s.pending.length := by
  obtain ⟨c, ha⟩ := Listed.exprs.items_reads h.expression_lowest _ _ _ ha
  have hs := ha.shortens
  refine ⟨⟨.suffixed, ?_, Nat.lt_succ_of_le hp, TokenStream.rank_le⟩, Nat.le_of_succ_le hs⟩
  exact .call (hd.loosen (Level.depth_suffixed_le hl)) ha

theorem index_operand {s₁ s₂ : TokenStream}
    (hd : Derives (.expr l) ts e (.symbol .lbracket o :: s.pending))
    (hl : Precedence.index.rank ≤ l.cap) (hi : Parser.expression n .lowest s = .ok i s₁)
    (hc : discard (expect (.symbol .rbracket)) s₁ = .ok u s₂) :
    Operand p ts (.index o e i) s₂ ∧ s₂.pending.length ≤ s.pending.length := by
  obtain ⟨c, hc⟩ := skip_ok hc
  have hi := hc ▸ h.expression_lowest _ _ _ hi
  have hs := hi.shortens
  refine ⟨⟨.suffixed, ?_, Nat.lt_succ_of_le hp, TokenStream.rank_le⟩,
    Nat.le_of_succ_le (Nat.le_of_lt hs)⟩
  exact .index (hd.loosen (Level.depth_suffixed_le (Nat.le_trans (by decide) hl))) hi

end

theorem suffixed_succ {p : Precedence} {x : Suffix} (hp : p.rank ≤ Precedence.prefixOp.rank)
    (ho : Operand p ts e s) (hx : Suffix.ofLexeme? s.current.lexeme = some x)
    (hlt : p < x.precedence) (hr : Parser.suffixed (n + 1) x e s = .ok e' s') :
    Operand p ts e' s' ∧ s'.size < s.size := by
  have ⟨l, hd, hf, hl⟩ := ho
  rw [TokenStream.rank_of_suffix hx] at hl
  rw [Parser.suffixed] at hr
  have ⟨t, s₁, ha, hr⟩ := bind_ok hr
  obtain ⟨rfl, rfl⟩ := EStateM.Result.ok.inj ha
  have hn : s.current.lexeme ≠ .eof := by
    intro he
    rw [he] at hx
    cases hx
  have hs := TokenStream.pending_of_lexeme rfl hn
  -- Reading goes on behind the suffix, so the stream gets shorter.
  suffices Operand p ts e' s' ∧ s'.pending.length ≤ s.advance.pending.length by
    refine this.imp id fun hl => ?_
    rw [TokenStream.size, TokenStream.size, hs, List.length_cons]
    exact Nat.lt_succ_of_le hl
  rw [hs] at hd
  obtain op | _ | _ := x
  case infixOp =>
    rw [Suffix.eq_infixOp hx] at hd
    have ⟨b, s₂, hb, hr⟩ := bind_ok hr
    cases hr
    exact h.infixOp_operand hlt hd hl hb
  case call =>
    rw [Suffix.eq_call hx] at hd
    have ⟨as, s₂, has, hr⟩ := bind_ok hr
    cases hr
    exact h.call_operand hp hd hl has
  case index =>
    rw [Suffix.eq_index hx] at hd
    have ⟨i, s₂, hi, hr⟩ := bind_ok hr
    have ⟨_, s₃, hc, hr⟩ := bind_ok hr
    cases hr
    exact h.index_operand hp hd hl hi hc

theorem prefixed_succ (hc : s.current.lexeme = .symbol .bang ∨ s.current.lexeme = .symbol .minus)
    (hr : Parser.prefixed (n + 1) s = .ok e s') :
    Derives (.expr .unary) s.pending e s'.pending ∧ s'.rank ≤ Level.unary.cap := by
  have ⟨t, s₁, ha, hr⟩ := bind_ok hr
  obtain ⟨rfl, rfl⟩ := EStateM.Result.ok.inj ha
  have ⟨e₁, s₂, he, hr⟩ := bind_ok hr
  cases hr
  have ⟨hd, hl⟩ := h.expression .prefixOp _ _ _ (by decide) he
  refine ⟨?_, hl⟩
  cases hc
  case inl hc =>
    rw [TokenStream.pending_of_lexeme hc (by simp), Token.literal, hc]
    exact .not hd
  case inr hc =>
    rw [TokenStream.pending_of_lexeme hc (by simp), Token.literal, hc]
    exact .negate hd

theorem grouped_succ : (Parser.grouped (n + 1)).Reads (Derives (.expr .primary)) := by
  intro s e s' hr
  have ⟨_, s₁, ho, hr⟩ := bind_ok hr
  have ⟨e₁, s₂, he, hr⟩ := bind_ok hr
  have ⟨_, s₃, hc, hr⟩ := bind_ok hr
  cases hr
  have ⟨o, ho⟩ := skip_ok ho
  have ⟨c, hc⟩ := skip_ok hc
  rw [ho]
  exact .group (hc ▸ h.expression_lowest _ _ _ he)

theorem conditional_succ : (Parser.conditional (n + 1)).Reads (Derives (.expr .primary)) := by
  intro s e s' hr
  have ⟨t, s₁, ht, hr⟩ := bind_ok hr
  have ⟨_, s₂, ho, hr⟩ := bind_ok hr
  have ⟨c, s₃, hc, hr⟩ := bind_ok hr
  have ⟨_, s₄, hq, hr⟩ := bind_ok hr
  have ⟨b, s₅, hb, hr⟩ := bind_ok hr
  have ⟨o, ho⟩ := skip_ok ho
  have ⟨q, hq⟩ := skip_ok hq
  have hc := hq ▸ h.expression_lowest _ _ _ hc
  have hb := h.block _ _ _ hb
  rw [keyword_ok ht, ho]
  obtain ⟨he, hr⟩ | ⟨_, hr⟩ := isAt_ok hr
  case inl =>
    have ⟨_, s₆, hr', hr⟩ := bind_ok hr
    have ⟨_, hr'⟩ := discard_ok hr'
    have ⟨a, s₇, ha, hr⟩ := bind_ok hr
    cases hr
    cases hr'
    rw [TokenStream.pending_of_lexeme (Token.lexeme_of_keyword he) (by simp)] at hb
    exact .condElse hc hb (h.block _ _ _ ha)
  case inr =>
    cases hr
    exact .cond hc hb

theorem function_succ : (Parser.function (n + 1)).Reads (Derives (.expr .primary)) := by
  intro s e s' hr
  have ⟨t, s₁, ht, hr⟩ := bind_ok hr
  have ⟨_, s₂, ho, hr⟩ := bind_ok hr
  have ⟨ps, s₃, hp, hr⟩ := bind_ok hr
  have ⟨b, s₄, hb, hr⟩ := bind_ok hr
  have ⟨o, ho⟩ := skip_ok ho
  have ⟨q, hp⟩ := Listed.params.items_reads binder_reads _ _ _ hp
  have hb := h.block _ _ _ hb
  rw [keyword_ok ht, ho]
  cases hn : repeated? ps <;> simp only [hn] at hr <;> cases hr
  exact .fn hp (repeated?_eq_none hn) hb

theorem array_succ : (Parser.array (n + 1)).Reads (Derives (.expr .primary)) := by
  intro s e s' hr
  have ⟨t, s₁, ht, hr⟩ := bind_ok hr
  have ⟨es, s₂, he, hr⟩ := bind_ok hr
  cases hr
  have ⟨c, he⟩ := Listed.exprs.items_reads h.expression_lowest _ _ _ he
  rw [symbol_ok ht]
  exact .array he

theorem hash_succ : (Parser.hash (n + 1)).Reads (Derives (.expr .primary)) := by
  intro s e s' hr
  have ⟨t, s₁, ht, hr⟩ := bind_ok hr
  have ⟨ps, s₂, hp, hr⟩ := bind_ok hr
  cases hr
  have ⟨c, hp⟩ := Listed.pairs.items_reads (fun s p s' hr => ?_) _ _ _ hp
  case refine_1 =>
    have ⟨k, s₁, hk, hr⟩ := bind_ok hr
    have ⟨_, s₂, hc, hr⟩ := bind_ok hr
    have ⟨v, s₃, hv, hr⟩ := bind_ok hr
    cases hr
    have ⟨c, hc⟩ := skip_ok hc
    exact .pair (hc ▸ h.expression_lowest _ _ _ hk) (h.expression_lowest _ _ _ hv)
  rw [symbol_ok ht]
  exact .hash hp

theorem block_succ : (Parser.block (n + 1)).Reads (Derives .block) := by
  intro s b s' hr
  have ⟨t, s₁, ht, hr⟩ := bind_ok hr
  have ⟨xs, s₂, hx, hr⟩ := bind_ok hr
  have ⟨_, s₃, hc, hr⟩ := bind_ok hr
  cases hr
  have ⟨c, hc⟩ := skip_ok hc
  rw [symbol_ok ht]
  exact .block (hc ▸ statements_reads h.statement _ _ _ hx)

theorem statement_succ : (Parser.statement (n + 1)).Reads (Derives .stmt) := by
  intro s x s' hr
  have ⟨⟨y, l⟩, s₁, ht, hr⟩ := bind_ok hr
  obtain ⟨-, rfl⟩ := current_ok ht
  cases y
  case keyword k =>
    cases k
    case kwLet => exact h.letStatement _ _ _ hr
    case kwReturn => exact h.returnStatement _ _ _ hr
    all_goals exact h.expressionStatement _ _ _ hr
  all_goals exact h.expressionStatement _ _ _ hr

theorem letStatement_succ : (Parser.letStatement (n + 1)).Reads (Derives .stmt) := by
  intro s x s' hr
  have ⟨t, s₁, ht, hr⟩ := bind_ok hr
  have ⟨b, s₂, hb, hr⟩ := bind_ok hr
  have ⟨_, s₃, ha, hr⟩ := bind_ok hr
  have ⟨e, s₄, he, hr⟩ := bind_ok hr
  have ⟨_, s₅, hs, hr⟩ := bind_ok hr
  cases hr
  have ⟨a, ha⟩ := skip_ok ha
  have ⟨he, hl⟩ := h.expression .lowest _ _ _ (by decide) he
  rw [keyword_ok ht, binder_reads _ _ _ hb, ha]
  exact skipSemicolon_ok hs hl (.bind he)

theorem returnStatement_succ : (Parser.returnStatement (n + 1)).Reads (Derives .stmt) := by
  intro s x s' hr
  have ⟨t, s₁, ht, hr⟩ := bind_ok hr
  have ⟨e, s₂, he, hr⟩ := bind_ok hr
  have ⟨_, s₃, hs, hr⟩ := bind_ok hr
  cases hr
  have ⟨he, hl⟩ := h.expression .lowest _ _ _ (by decide) he
  rw [keyword_ok ht]
  exact skipSemicolon_ok hs hl (.ret he)

theorem expressionStatement_succ :
    (Parser.expressionStatement (n + 1)).Reads (Derives .stmt) := by
  intro s x s' hr
  have ⟨e, s₁, he, hr⟩ := bind_ok hr
  have ⟨_, s₂, hs, hr⟩ := bind_ok hr
  cases hr
  have ⟨he, hl⟩ := h.expression .lowest _ _ _ (by decide) he
  exact skipSemicolon_ok hs hl (.expr he)

theorem succ : Sound (n + 1) where
  expression _ _ _ _ := h.expression_succ
  suffixed _ _ _ _ _ _ _ := h.suffixed_succ
  prefixed _ _ _ := h.prefixed_succ
  grouped := h.grouped_succ
  conditional := h.conditional_succ
  function := h.function_succ
  array := h.array_succ
  hash := h.hash_succ
  block := h.block_succ
  statement := h.statement_succ
  letStatement := h.letStatement_succ
  returnStatement := h.returnStatement_succ
  expressionStatement := h.expressionStatement_succ

end Sound

theorem sound (n : Nat) : Sound n := by
  induction n
  case zero => exact .zero
  case succ hi => exact hi.succ

end Parser

-- Where nothing is reported, the statements are those of the grammar.
theorem Parse.statements_sound {frames n : Nat} {s : TokenStream} (hn : s.size ≤ n)
    (h : (statements frames n s).2.1 = []) :
    Derives .stmts s.pending (statements frames n s).1 [] := by
  induction n generalizing s
  case zero =>
    rw [List.length_eq_zero_iff.mp (Nat.le_zero.mp hn)]
    exact .noStmts
  case succ n hi =>
    unfold statements at h ⊢
    by_cases hp : s.pending = []
    case pos =>
      rw [if_pos hp, hp]
      exact .noStmts
    case neg =>
      rw [if_neg hp] at h ⊢
      cases hx : Parser.statement frames s
      case error => simp [hx] at h
      case ok x s₁ =>
        simp only [hx] at h ⊢
        have hx := (Parser.sound frames).statement s x s₁ hx
        have hl : s₁.pending.length < s.pending.length := hx.shortens
        exact .moreStmts hx (hi (Nat.le_of_lt_succ (Nat.lt_of_lt_of_le hl hn)) h)

theorem parse_sound {frames : Nat} {source : String} (h : (parse frames source).errors = []) :
    Derives .stmts (TokenStream.ofSource source).pending
      (parse frames source).program.statements [] :=
  Parse.statements_sound (Nat.le_refl _) (List.map_eq_nil_iff.mp h)

end Marmoset
