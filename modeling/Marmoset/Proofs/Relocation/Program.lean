import Marmoset.Program.Parse
import Marmoset.Proofs.Numerals

/-!
Programs whose places are moved. Parsing takes moved tokens to the moved program: no rule looks at
a place, it only hands it on.
-/

namespace Marmoset

-- One computation does what the other does, along maps of states, errors and results.
def Simulates (f : σ → σ) (g : ε → ε) (h : α → β) (x : EStateM ε σ α) (y : EStateM ε σ β) :
    Prop :=
  ∀ s, match x s with
    | .ok a s' => y (f s) = .ok (h a) (f s')
    | .error e s' => y (f s) = .error (g e) (f s')

namespace Simulates

variable {f : σ → σ} {g : ε → ε} {h : α → β} {x : EStateM ε σ α} {y : EStateM ε σ β}

theorem of_ok (hx : Simulates f g h x y) (he : x s = .ok a s') : y (f s) = .ok (h a) (f s') := by
  have := hx s
  rwa [he] at this

theorem of_error (hx : Simulates f g h x y) (he : x s = .error e s') :
    y (f s) = .error (g e) (f s') := by
  have := hx s
  rwa [he] at this

protected theorem pure (a : α) :
    Simulates f g h (pure a : EStateM ε σ α) (pure (h a) : EStateM ε σ β) :=
  fun _ => rfl

theorem pure_eq {b : β} (hb : b = h a) :
    Simulates f g h (pure a : EStateM ε σ α) (pure b : EStateM ε σ β) :=
  hb ▸ .pure a

protected theorem bind {k : γ → δ} {p : α → EStateM ε σ γ} {q : β → EStateM ε σ δ}
    (hx : Simulates f g h x y) (hp : ∀ a, Simulates f g k (p a) (q (h a))) :
    Simulates f g k (x >>= p) (y >>= q) := by
  intro s
  cases he : x s
  case ok a s' =>
    have hq := hp a s'
    simp only [bind, EStateM.bind, he, hx.of_ok he]
    exact hq
  case error e s' => simp only [bind, EStateM.bind, he, hx.of_error he]

protected theorem map {k : γ → δ} {p : α → γ} {q : β → δ} (hx : Simulates f g h x y)
    (hp : ∀ a, q (h a) = k (p a)) : Simulates f g k (p <$> x) (q <$> y) := by
  intro s
  cases he : x s
  case ok a s' => simp only [Functor.map, EStateM.map, he, hx.of_ok he, hp]
  case error e s' => simp only [Functor.map, EStateM.map, he, hx.of_error he]

protected theorem discard (hx : Simulates f g h x y) : Simulates f g id (discard x) (discard y) :=
  hx.map fun _ => rfl

theorem ite {c : Prop} [Decidable c] {x' : EStateM ε σ α} {y' : EStateM ε σ β}
    (hx : Simulates f g h x y) (hx' : Simulates f g h x' y') :
    Simulates f g h (if c then x else x') (if c then y else y') := by
  split
  · exact hx
  · exact hx'

end Simulates

variable (f : Location → Location)

def Token.relocate (t : Token) : Token :=
  { t with location := f t.location }

def TokenStream.relocate (s : TokenStream) : TokenStream :=
  ⟨s.pending.map (·.relocate f), f s.stop⟩

def SyntaxError.relocate (e : SyntaxError) : SyntaxError :=
  { e with location := e.location.map f }

def Recovery.relocate (r : Recovery) : Recovery :=
  ⟨r.error.relocate f, f r.skippedFrom⟩

def Binder.relocate (b : Binder) : Binder :=
  { b with location := f b.location }

mutual

def Expr.relocate : Expr → Expr
  | .ident l x => .ident (f l) x
  | .int l n => .int (f l) n
  | .string l s => .string (f l) s
  | .bool l b => .bool (f l) b
  | .prefixOp l op e => .prefixOp (f l) op e.relocate
  | .infixOp l op a b => .infixOp (f l) op a.relocate b.relocate
  | .cond l c b none => .cond (f l) c.relocate b.relocate none
  | .cond l c b (some a) => .cond (f l) c.relocate b.relocate (some a.relocate)
  | .fn l ps b => .fn (f l) (ps.map (·.relocate f)) b.relocate
  | .call l e as => .call (f l) e.relocate (Expr.relocateAll as)
  | .array l es => .array (f l) (Expr.relocateAll es)
  | .hash l ps => .hash (f l) (Expr.relocatePairs ps)
  | .index l c i => .index (f l) c.relocate i.relocate

def Expr.relocateAll : List Expr → List Expr
  | [] => []
  | e :: es => e.relocate :: Expr.relocateAll es

def Expr.relocatePairs : List (Expr × Expr) → List (Expr × Expr)
  | [] => []
  | (k, v) :: ps => (k.relocate, v.relocate) :: Expr.relocatePairs ps

def Stmt.relocate : Stmt → Stmt
  | .bind l b e => .bind (f l) (b.relocate f) e.relocate
  | .ret l e => .ret (f l) e.relocate
  | .expr e => .expr e.relocate

def Stmt.relocateAll : List Stmt → List Stmt
  | [] => []
  | s :: ss => s.relocate :: Stmt.relocateAll ss

def Block.relocate : Block → Block
  | .mk l ss => .mk (f l) (Stmt.relocateAll ss)

end

variable {f : Location → Location}

@[simp]
theorem Expr.relocateAll_eq_map (es : List Expr) : relocateAll f es = es.map (·.relocate f) := by
  induction es <;> simp_all [relocateAll]

@[simp]
theorem Expr.relocatePairs_eq_map (ps : List (Expr × Expr)) :
    relocatePairs f ps = ps.map fun p => (p.1.relocate f, p.2.relocate f) := by
  induction ps <;> simp_all [relocatePairs]

@[simp]
theorem Stmt.relocateAll_eq_map (ss : List Stmt) : relocateAll f ss = ss.map (·.relocate f) := by
  induction ss <;> simp_all [relocateAll]

namespace TokenStream

variable (s : TokenStream)

@[simp]
theorem current_relocate : (s.relocate f).current = s.current.relocate f := by
  obtain ⟨ts, l⟩ := s
  cases ts <;> rfl

@[simp]
theorem size_relocate : (s.relocate f).size = s.size :=
  List.length_map _

theorem advance_relocate : (s.relocate f).advance = s.advance.relocate f := by
  simp [advance, relocate, List.map_tail]

theorem push_relocate (t : Token) : (s.push t).relocate f = (s.relocate f).push (t.relocate f) :=
  rfl

theorem skipStatement_relocate : (s.relocate f).skipStatement = s.skipStatement.relocate f := by
  simp only [skipStatement, relocate, TokenStream.mk.injEq, and_true]
  induction s.pending
  case nil => rfl
  case cons t ts hi =>
    simp only [List.map_cons, List.dropWhile_cons, Token.relocate, Token.kind]
    split
    · exact hi
    · rfl

end TokenStream

namespace Parser

-- The rule `y` reads moved tokens as `x` reads the tokens themselves.
abbrev Moves (f : Location → Location) (h : α → α) (x y : Parser α) : Prop :=
  Simulates (TokenStream.relocate f) (SyntaxError.relocate f) h x y

theorem current_moves : Moves f (Token.relocate f) current current :=
  fun s => by simp [current]

theorem advance_moves : Moves f (Token.relocate f) advance advance :=
  fun s => by simp [advance, TokenStream.advance_relocate]

theorem isAt_moves (k : TokenKind) : Moves f id (isAt k) (isAt k) :=
  fun s => by simp [isAt, Token.relocate, Token.kind]

theorem size_moves : Moves f id size size :=
  fun s => by simp [size]

theorem fail_moves {h : α → α} (t : Token) (c : SyntaxError.Cause) :
    Moves f h (fail t c) (fail (t.relocate f) c) :=
  fun _ => rfl

theorem tooDeep_moves {h : α → α} : Moves f h tooDeep tooDeep :=
  fun _ => rfl

theorem expect_moves (k : TokenKind) : Moves f (Token.relocate f) (expect k) (expect k) :=
  current_moves.bind fun t => .ite advance_moves (fail_moves t _)

theorem skip_moves (k : TokenKind) : Moves f id (discard (expect k)) (discard (expect k)) :=
  (expect_moves k).discard

theorem skipSemicolon_moves : Moves f id skipSemicolon skipSemicolon :=
  (isAt_moves _).bind fun _ => .ite advance_moves.discard (.pure ())

theorem items_moves {trailing : Bool} {close : Symbol} {item : Parser α} {h : α → α}
    (hi : Moves f h item item) :
    Moves f (List.map h) (items trailing close item) (items trailing close item) := by
  have go (n : Nat) (first : Bool) : Moves f (List.map h) (items.go trailing close item n first)
      (items.go trailing close item n first) := by
    induction n generalizing first
    case zero => exact .pure []
    case succ n hn =>
      have next : Moves f (List.map h)
          (item >>= fun x => items.go trailing close item n false >>= fun xs => pure (x :: xs))
          (item >>= fun x => items.go trailing close item n false >>= fun xs => pure (x :: xs)) :=
        hi.bind fun x => (hn false).bind fun xs => .pure (x :: xs)
      refine (isAt_moves _).bind fun _ => .ite (.pure []) (.ite next ?_)
      exact (skip_moves _).bind fun _ => (isAt_moves _).bind fun _ => .ite (.pure []) next
  exact size_moves.bind fun n => (go _ true).bind fun xs => (skip_moves _).bind fun _ => .pure xs

theorem extend_moves {p : Precedence} {step : Suffix → Expr → Parser Expr}
    (hs : ∀ x e, Moves f (Expr.relocate f) (step x e) (step x (e.relocate f))) (e : Expr) :
    Moves f (Expr.relocate f) (extend p step e) (extend p step (e.relocate f)) := by
  have go (n : Nat) (e : Expr) :
      Moves f (Expr.relocate f) (extend.go p step n e) (extend.go p step n (e.relocate f)) := by
    induction n generalizing e
    case zero => exact .pure e
    case succ n hn =>
      refine current_moves.bind fun t => ?_
      dsimp only [Token.relocate]
      split
      · exact .ite ((hs _ e).bind hn) (.pure e)
      · exact .pure e
  exact size_moves.bind fun n => go n e

theorem statements_moves {statement : Parser Stmt}
    (hs : Moves f (Stmt.relocate f) statement statement) :
    Moves f (List.map (Stmt.relocate f)) (statements statement) (statements statement) := by
  have go (n : Nat) : Moves f (List.map (Stmt.relocate f)) (statements.go statement n)
      (statements.go statement n) := by
    induction n
    case zero => exact .pure []
    case succ n hn =>
      have next : Moves f (List.map (Stmt.relocate f))
          (statement >>= fun x => statements.go statement n >>= fun xs => pure (x :: xs))
          (statement >>= fun x => statements.go statement n >>= fun xs => pure (x :: xs)) :=
        hs.bind fun x => hn.bind fun xs => .pure (x :: xs)
      refine (isAt_moves _).bind fun _ => .ite (.pure []) ((isAt_moves _).bind fun _ => ?_)
      exact .ite ((skip_moves _).bind fun _ => next) next
  exact size_moves.bind fun n => go _

theorem binder_moves : Moves f (Binder.relocate f) binder binder :=
  (expect_moves _).bind fun t => .pure (Binder.mk t.location t.literal)

theorem identifier_moves : Moves f (Expr.relocate f) identifier identifier :=
  (expect_moves _).bind fun t => .pure (Expr.ident t.location t.literal)

theorem integer_moves : Moves f (Expr.relocate f) integer integer := by
  rw [integer_eq]
  exact (expect_moves _).bind fun t => .ite (.pure (Expr.int t.location _)) (fail_moves t _)

theorem string_moves : Moves f (Expr.relocate f) string string :=
  (expect_moves _).bind fun t => .pure (Expr.string t.location t.literal)

theorem boolean_moves : Moves f (Expr.relocate f) boolean boolean := by
  refine current_moves.bind fun t => ?_
  dsimp only [Token.relocate]
  split
  · exact advance_moves.discard.bind fun _ => .pure (Expr.bool t.location true)
  · exact advance_moves.discard.bind fun _ => .pure (Expr.bool t.location false)
  · exact fail_moves t _

theorem illegal_moves : Moves f (Expr.relocate f) illegal illegal :=
  (expect_moves _).bind fun t => .ite (fail_moves t _) (fail_moves t _)

theorem repeated?_relocate (bs : List Binder) :
    repeated? (bs.map (·.relocate f)) = (repeated? bs).map (·.relocate f) := by
  induction bs
  case nil => rfl
  case cons b bs hi =>
    rw [List.map_cons, repeated?, hi, repeated?, List.find?_map]
    have hf : (fun c : Binder => decide (c.name = (b.relocate f).name)) ∘ Binder.relocate f =
        fun c => decide (c.name = b.name) := rfl
    rw [hf]
    cases bs.find? fun c => decide (c.name = b.name) <;> rfl

-- What the rules make of moved tokens, given that many frames.
structure Natural (f : Location → Location) (n : Nat) : Prop where
  expression : ∀ p, Moves f (Expr.relocate f) (expression n p) (expression n p)
  suffixed : ∀ x e, Moves f (Expr.relocate f) (suffixed n x e) (suffixed n x (e.relocate f))
  prefixed : Moves f (Expr.relocate f) (prefixed n) (prefixed n)
  grouped : Moves f (Expr.relocate f) (grouped n) (grouped n)
  conditional : Moves f (Expr.relocate f) (conditional n) (conditional n)
  function : Moves f (Expr.relocate f) (function n) (function n)
  array : Moves f (Expr.relocate f) (array n) (array n)
  hash : Moves f (Expr.relocate f) (hash n) (hash n)
  block : Moves f (Block.relocate f) (block n) (block n)
  statement : Moves f (Stmt.relocate f) (statement n) (statement n)
  letStatement : Moves f (Stmt.relocate f) (letStatement n) (letStatement n)
  returnStatement : Moves f (Stmt.relocate f) (returnStatement n) (returnStatement n)
  expressionStatement : Moves f (Stmt.relocate f) (expressionStatement n) (expressionStatement n)

namespace Natural

theorem zero : Natural f 0 := by
  constructor
  case expression => exact fun _ => tooDeep_moves
  case suffixed => exact fun _ _ => tooDeep_moves
  all_goals exact tooDeep_moves

variable {n : Nat} (h : Natural f n)
include h

theorem leading_moves : Moves f (Expr.relocate f) (leading n) (leading n) := by
  refine current_moves.bind fun ⟨x, l⟩ => ?_
  cases x
  case ident => exact identifier_moves
  case int => exact integer_moves
  case string => exact string_moves
  case illegal => exact illegal_moves
  case eof => exact fail_moves _ _
  case keyword k =>
    cases k
    case kwTrue | kwFalse => exact boolean_moves
    case kwIf => exact h.conditional
    case kwFn => exact h.function
    all_goals exact fail_moves _ _
  case symbol y =>
    cases y
    case bang | minus => exact h.prefixed
    case lparen => exact h.grouped
    case lbracket => exact h.array
    case lbrace => exact h.hash
    all_goals exact fail_moves _ _

theorem expression_succ (p : Precedence) :
    Moves f (Expr.relocate f) (Parser.expression (n + 1) p) (Parser.expression (n + 1) p) := by
  rw [Parser.expression_succ]
  exact h.leading_moves.bind fun e => extend_moves h.suffixed e

theorem suffixed_succ (x : Suffix) (e : Expr) : Moves f (Expr.relocate f)
    (Parser.suffixed (n + 1) x e) (Parser.suffixed (n + 1) x (e.relocate f)) := by
  rw [Parser.suffixed, Parser.suffixed]
  refine advance_moves.bind fun t => ?_
  obtain op | _ | _ := x
  case infixOp =>
    exact (h.expression _).bind fun b => .pure (Expr.infixOp t.location op e b)
  case call =>
    refine (items_moves (h.expression _)).bind fun as => .pure_eq ?_
    rw [Expr.relocate, Expr.relocateAll_eq_map]
    rfl
  case index =>
    exact (h.expression _).bind fun i => (skip_moves _).bind fun _ =>
      .pure (Expr.index t.location e i)

theorem grouped_succ :
    Moves f (Expr.relocate f) (Parser.grouped (n + 1)) (Parser.grouped (n + 1)) := by
  rw [Parser.grouped]
  exact (skip_moves _).bind fun _ => (h.expression _).bind fun e => (skip_moves _).bind fun _ =>
    .pure e

theorem prefixed_succ :
    Moves f (Expr.relocate f) (Parser.prefixed (n + 1)) (Parser.prefixed (n + 1)) := by
  rw [Parser.prefixed]
  exact advance_moves.bind fun t => (h.expression _).bind fun e =>
    .pure (Expr.prefixOp t.location (.ofText t.literal) e)

theorem conditional_succ :
    Moves f (Expr.relocate f) (Parser.conditional (n + 1)) (Parser.conditional (n + 1)) := by
  rw [Parser.conditional]
  refine (expect_moves _).bind fun t => (skip_moves _).bind fun _ => (h.expression _).bind fun c =>
    (skip_moves _).bind fun _ => h.block.bind fun b => (isAt_moves _).bind fun _ => .ite ?_ ?_
  · exact advance_moves.discard.bind fun _ => h.block.bind fun a =>
      .pure (Expr.cond t.location c b (some a))
  · exact .pure (Expr.cond t.location c b none)

theorem function_succ :
    Moves f (Expr.relocate f) (Parser.function (n + 1)) (Parser.function (n + 1)) := by
  rw [Parser.function]
  refine (expect_moves _).bind fun t => (skip_moves _).bind fun _ =>
    (items_moves binder_moves).bind fun ps => h.block.bind fun b => ?_
  rw [repeated?_relocate]
  cases repeated? ps
  case none => exact .pure (Expr.fn t.location ps b)
  case some => exact fun _ => rfl

theorem array_succ :
    Moves f (Expr.relocate f) (Parser.array (n + 1)) (Parser.array (n + 1)) := by
  rw [Parser.array]
  refine (expect_moves _).bind fun t => (items_moves (h.expression _)).bind fun es => .pure_eq ?_
  rw [Expr.relocate, Expr.relocateAll_eq_map]
  rfl

theorem hash_succ :
    Moves f (Expr.relocate f) (Parser.hash (n + 1)) (Parser.hash (n + 1)) := by
  rw [Parser.hash]
  refine (expect_moves _).bind fun t => (items_moves (h := fun p =>
    (p.1.relocate f, p.2.relocate f)) ?_).bind fun ps => .pure_eq ?_
  · exact (h.expression _).bind fun k => (skip_moves _).bind fun _ =>
      (h.expression _).bind fun v => .pure (k, v)
  · rw [Expr.relocate, Expr.relocatePairs_eq_map]
    rfl

theorem block_succ :
    Moves f (Block.relocate f) (Parser.block (n + 1)) (Parser.block (n + 1)) := by
  rw [Parser.block]
  refine (expect_moves _).bind fun t => (statements_moves h.statement).bind fun ss =>
    (skip_moves _).bind fun _ => .pure_eq ?_
  rw [Block.relocate, Stmt.relocateAll_eq_map]
  rfl

theorem statement_succ :
    Moves f (Stmt.relocate f) (Parser.statement (n + 1)) (Parser.statement (n + 1)) := by
  rw [Parser.statement]
  refine current_moves.bind fun ⟨x, l⟩ => ?_
  cases x
  case keyword k =>
    cases k
    case kwLet => exact h.letStatement
    case kwReturn => exact h.returnStatement
    all_goals exact h.expressionStatement
  all_goals exact h.expressionStatement

theorem letStatement_succ :
    Moves f (Stmt.relocate f) (Parser.letStatement (n + 1)) (Parser.letStatement (n + 1)) := by
  rw [Parser.letStatement]
  exact (expect_moves _).bind fun t => binder_moves.bind fun b => (skip_moves _).bind fun _ =>
    (h.expression _).bind fun e => skipSemicolon_moves.bind fun _ => .pure (Stmt.bind t.location b e)

theorem returnStatement_succ : Moves f (Stmt.relocate f) (Parser.returnStatement (n + 1))
    (Parser.returnStatement (n + 1)) := by
  rw [Parser.returnStatement]
  exact (expect_moves _).bind fun t => (h.expression _).bind fun e =>
    skipSemicolon_moves.bind fun _ => .pure (Stmt.ret t.location e)

theorem expressionStatement_succ : Moves f (Stmt.relocate f) (Parser.expressionStatement (n + 1))
    (Parser.expressionStatement (n + 1)) := by
  rw [Parser.expressionStatement]
  exact (h.expression _).bind fun e => skipSemicolon_moves.bind fun _ => .pure (Stmt.expr e)

theorem succ : Natural f (n + 1) where
  expression := h.expression_succ
  suffixed := h.suffixed_succ
  prefixed := h.prefixed_succ
  grouped := h.grouped_succ
  conditional := h.conditional_succ
  function := h.function_succ
  array := h.array_succ
  hash := h.hash_succ
  block := h.block_succ
  statement := h.statement_succ
  letStatement := h.letStatement_succ
  returnStatement := h.returnStatement_succ
  expressionStatement := h.expressionStatement_succ

end Natural

theorem natural (f : Location → Location) (n : Nat) : Natural f n := by
  induction n
  case zero => exact .zero
  case succ hi => exact hi.succ

end Parser

-- Reading moved tokens gives the moved statements and reports the same errors at moved places.
theorem Parse.statements_relocate (frames n : Nat) (s : TokenStream) :
    statements frames n (s.relocate f) =
      ((statements frames n s).1.map (·.relocate f), (statements frames n s).2.1.map (·.relocate f),
        (statements frames n s).2.2.relocate f) := by
  induction n generalizing s
  case zero => rfl
  case succ n hi =>
    unfold statements
    by_cases hp : s.pending = []
    case pos => simp [hp, TokenStream.relocate]
    case neg =>
      have hp' : (s.relocate f).pending ≠ [] := by simpa [TokenStream.relocate] using hp
      rw [if_neg hp, if_neg hp']
      have hs := (Parser.natural f frames).statement
      cases hx : Parser.statement frames s
      case ok x s₁ =>
        rw [hs.of_ok hx]
        simp only [hi s₁, List.map_cons]
      case error e s₁ =>
        rw [hs.of_error hx]
        simp only [TokenStream.skipStatement_relocate, hi, TokenStream.current_relocate,
          List.map_cons]
        rfl

def Parse.relocate (f : Location → Location) (p : Parse) : Parse where
  program := ⟨f p.program.location, p.program.statements.map (·.relocate f)⟩
  recoveries := p.recoveries.map (·.relocate f)
  rest := p.rest.relocate f

theorem Parse.ofStream_relocate (frames : Nat) (s : TokenStream) :
    ofStream frames (s.relocate f) = (ofStream frames s).relocate f := by
  simp only [ofStream, TokenStream.size_relocate, statements_relocate,
    TokenStream.current_relocate]
  rfl

end Marmoset
