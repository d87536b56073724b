import Marmoset.Proofs.Checks.Scan
import Marmoset.Proofs.Locality
import Marmoset.Proofs.Tiling

/-!
Parsing with checks. Which rule a token calls for, how tightly an operator holds its operands, which
operator a text is and which number digits are is looked up where it is needed, and a check fails
where there is no answer. In a text no check ever does, whatever else is wrong with it
(`expression_eq`).
-/

namespace Marmoset

-- Why parsing is cut short.
inductive Stop
  | reported (e : SyntaxError)
  | defect (d : Defect)

abbrev CheckedParser := EStateM Stop TokenStream

namespace Parser

-- The rule, of which all failures are reported.
def reporting (x : Parser α) : CheckedParser α :=
  fun s =>
    match x s with
    | .ok a s' => .ok a s'
    | .error e s' => .error (.reported e) s'

-- The rules that begin an expression.
inductive PrefixRule
  | identifier | integer | string | boolean | prefixed | grouped | conditional | function | array
  | hash | illegal

-- Those that extend one.
inductive InfixRule
  | infixed | call | index

def prefixRules : List (TokenKind × PrefixRule) :=
  [(.ident, .identifier), (.int, .integer), (.string, .string), (.keyword .kwTrue, .boolean),
    (.keyword .kwFalse, .boolean), (.symbol .bang, .prefixed), (.symbol .minus, .prefixed),
    (.symbol .lparen, .grouped), (.keyword .kwIf, .conditional), (.keyword .kwFn, .function),
    (.symbol .lbracket, .array), (.symbol .lbrace, .hash), (.illegal, .illegal)]

def infixRules : List (TokenKind × InfixRule) :=
  [(.symbol .plus, .infixed), (.symbol .minus, .infixed), (.symbol .asterisk, .infixed),
    (.symbol .slash, .infixed), (.symbol .eq, .infixed), (.symbol .notEq, .infixed),
    (.symbol .lt, .infixed), (.symbol .gt, .infixed), (.symbol .lparen, .call),
    (.symbol .lbracket, .index)]

def precedences : List (TokenKind × Precedence) :=
  [(.symbol .eq, .equality), (.symbol .notEq, .equality), (.symbol .lt, .order),
    (.symbol .gt, .order), (.symbol .plus, .sum), (.symbol .minus, .sum),
    (.symbol .asterisk, .product), (.symbol .slash, .product), (.symbol .lparen, .call),
    (.symbol .lbracket, .index)]

def infixOps : List InfixOp :=
  [.add, .sub, .mul, .div, .lt, .gt, .eq, .notEq]

-- The number that digits stand for: not any number of them can be read.
def number? (digits : List Char) : Option Nat :=
  if digits ≠ [] ∧ digits.all Char.isDigit ∧ digits.length ≤ 4300 then
    some (decimal (String.ofList digits))
  else none

end Parser

open Marmoset.Parser

namespace CheckedParser

def defect (d : Defect) : CheckedParser α :=
  throw (.defect d)

-- The answer to a question that is supposed to have one.
def known (d : Defect) : Option α → CheckedParser α
  | some a => return a
  | none => defect d

-- What remains of a number without its leading zeros may be nothing.
def value (text : String) (digits : List Char) : CheckedParser Nat :=
  if digits = [] then return 0 else known (.unreadable text) (number? digits)

-- The greatest number has nineteen digits, so no more are read.
def integer : CheckedParser Expr := do
  let t ← reporting (expect .int)
  let digits := t.literal.toList.dropWhile (· = '0')
  if 19 < digits.length then reporting (fail t (.integerTooLarge t.literal))
  else
    let n ← value t.literal digits
    if n < integerBound then return .int t.location (Int64.ofNat n)
    else reporting (fail t (.integerTooLarge t.literal))

def prefixed : Nat → CheckedParser Expr
  | 0 => reporting Parser.tooDeep
  | n + 1 => do
    let t ← reporting advance
    let op ← known (.unknownOperator t.literal) ([.not, .negate].find? (·.text = t.literal))
    return .prefixOp t.location op (← reporting (expression n .prefixOp))

def infixed : Nat → Expr → CheckedParser Expr
  | 0, _ => reporting Parser.tooDeep
  | n + 1, e => do
    let t ← reporting advance
    let p ← known (.noPrecedence t.kind) (precedences.lookup t.kind)
    let op ← known (.unknownOperator t.literal) (infixOps.find? (·.text = t.literal))
    return .infixOp t.location op e (← reporting (expression n p))

-- What the rule does, given that many frames.
def begin (n : Nat) : PrefixRule → CheckedParser Expr
  | .identifier => reporting identifier
  | .integer => integer
  | .string => reporting string
  | .boolean => reporting boolean
  | .prefixed => prefixed n
  | .grouped => reporting (grouped n)
  | .conditional => reporting (conditional n)
  | .function => reporting (function n)
  | .array => reporting (array n)
  | .hash => reporting (hash n)
  | .illegal => reporting illegal

def go (n : Nat) (e : Expr) : InfixRule → CheckedParser Expr
  | .infixed => infixed n e
  | .call => reporting (suffixed n .call e)
  | .index => reporting (suffixed n .index e)

-- At most so many steps extend an expression; a token that holds tightly needs a rule.
def extend (n : Nat) (p : Precedence) : Nat → Expr → CheckedParser Expr
  | 0, e => return e
  | k + 1, e => do
    let t ← reporting current
    if p < (precedences.lookup t.kind).getD .lowest then
      extend n p k (← go n e (← known (.noRule t.kind) (infixRules.lookup t.kind)))
    else return e

-- An expression, each part of which that is not checked here is one in turn.
def expression (n : Nat) (p : Precedence) : CheckedParser Expr := do
  let t ← reporting current
  match prefixRules.lookup t.kind with
  | some rule =>
    let e ← begin n rule
    extend n p (← reporting size) e
  | none => reporting (fail t (.expectedExpression t.lexeme))

end CheckedParser

-- The digits of all numbers that are to come are digits.
def TokenStream.Numeric (s : TokenStream) : Prop :=
  ∀ t ∈ s.pending, ∀ digits, t.lexeme = .int digits → ∀ c ∈ digits.toList, c.isDigit

namespace TokenStream

theorem Numeric.rest {s s' : TokenStream} (h : s.Numeric) (hs : s'.RestOf s) : s'.Numeric :=
  fun t ht => h t (hs.suffix.subset ht)

theorem numeric_ofSource (source : String) : (ofSource source).Numeric := by
  intro t ht digits hd
  have ⟨text, rest, hx⟩ := (tiles_scan [] source.toList).spelled t ht
  rw [hd] at hx
  cases hx
  case int c cs hc hcs _ => simpa [hc] using hcs

end TokenStream

/-!
The tables agree with each other and with what the rules look for.
-/

namespace Suffix

def rule : Suffix → InfixRule
  | infixOp _ => .infixed
  | call => .call
  | index => .index

theorem lookup_of_some {l : Lexeme} {x : Suffix} (h : ofLexeme? l = some x) :
    precedences.lookup l.kind = some x.precedence ∧ infixRules.lookup l.kind = some x.rule := by
  cases l
  case symbol y => cases y <;> cases h <;> exact ⟨rfl, rfl⟩
  all_goals cases h

theorem lookup_of_none {l : Lexeme} (h : ofLexeme? l = none) :
    precedences.lookup l.kind = none := by
  cases l
  case symbol y => cases y <;> first | rfl | cases h
  case keyword k => cases k <;> rfl
  all_goals rfl

theorem find?_infixOp {l : Lexeme} {op : InfixOp} (h : ofLexeme? l = some (.infixOp op)) :
    infixOps.find? (·.text = l.literal) = some op := by
  cases l
  case symbol y => cases y <;> cases h <;> decide
  all_goals cases h

end Suffix

/-!
Numbers.
-/

-- Of digits, none but the zero itself counts for nothing.
theorem Parser.toNat_sub_eq_zero_iff {c : Char} (hc : c.isDigit) :
    c.toNat - '0'.toNat = 0 ↔ c = '0' := by
  have hl : '0'.toNat ≤ c.toNat := by
    simp only [Char.isDigit, Bool.and_eq_true, decide_eq_true_eq] at hc
    exact UInt32.le_iff_toNat_le.mp hc.left
  rw [Nat.sub_eq_zero_iff_le, ← Char.toNat_inj]
  exact ⟨fun h => Nat.le_antisymm h hl, fun h => Nat.le_of_eq h⟩

theorem Parser.toList_significant {digits : String} (hd : ∀ c ∈ digits.toList, c.isDigit) :
    (significant digits).toList = digits.toList.dropWhile (· = '0') := by
  rw [significant, String.toList_ofList]
  generalize digits.toList = cs at hd
  induction cs
  case nil => rfl
  case cons c cs hi =>
    obtain ⟨hc, hd⟩ := List.forall_mem_cons.mp hd
    simp only [List.dropWhile_cons, toNat_sub_eq_zero_iff hc, hi hd]

/-!
No check fails.
-/

namespace CheckedParser

variable {s : TokenStream}

theorem bind_eq {x : CheckedParser α} {f : α → CheckedParser β} {x' : Parser α} {f' : α → Parser β}
    (hx : x s = reporting x' s)
    (hf : ∀ a s', x' s = .ok a s' → f a s' = reporting (f' a) s') :
    (x >>= f) s = reporting (x' >>= f') s := by
  simp only [bind, EStateM.bind, hx, reporting]
  cases h : x' s
  case ok a s' => simpa only [reporting] using hf a s' h
  case error => rfl

-- Up to nineteen digits are always made a number.
theorem value_eq (text : String) {cs : List Char} (hc : ∀ c ∈ cs, c.isDigit)
    (hl : cs.length ≤ 19) : value text cs = pure (Nat.ofDigitChars 10 cs 0) := by
  unfold value
  split
  case isTrue h => rw [h]; rfl
  case isFalse h =>
    rw [number?, if_pos ⟨h, List.all_eq_true.mpr hc, by omega⟩, decimal, String.toList_ofList]
    rfl

theorem integer_eq (hs : s.Numeric) : integer s = reporting Parser.integer s := by
  refine bind_eq rfl fun t s' ht => ?_
  obtain ⟨hk, hp⟩ := expect_ok ht nofun
  have hd : ∀ c ∈ t.literal.toList, c.isDigit := by
    obtain ⟨x, l⟩ := t
    cases x
    case int digits => exact hs _ (hp ▸ List.mem_cons_self) digits rfl
    all_goals cases hk
  have hc : ∀ c ∈ (significant t.literal).toList, c.isDigit := fun c h =>
    hd c ((List.dropWhile_suffix _).subset (toList_significant hd ▸ h))
  dsimp only
  rw [← toList_significant hd, String.length_toList, maxDigits_eq]
  split
  case isTrue => rfl
  case isFalse hl =>
    rw [value_eq _ hc (Nat.le_of_not_lt hl), pure_bind, ← decimal_eq]
    split <;> rfl

theorem prefixed_eq (n : Nat)
    (hs : s.current.lexeme = .symbol .bang ∨ s.current.lexeme = .symbol .minus) :
    prefixed n s = reporting (Parser.prefixed n) s := by
  cases n
  case zero => rfl
  case succ n =>
    rw [prefixed, Parser.prefixed]
    refine bind_eq rfl fun t s' ht => ?_
    cases ht
    have hk (d : Defect) : known d (([.not, .negate] : List PrefixOp).find?
        (·.text = s.current.literal)) = pure (.ofText s.current.literal) := by
      obtain h | h := hs <;> rw [Token.literal, h] <;> rfl
    rw [hk, pure_bind]
    exact bind_eq rfl fun e s' _ => rfl

-- Elsewhere the rule would meet an operator that it does not know.
example : prefixed 1 ⟨[⟨.symbol .plus, .start⟩], .start⟩ =
    .error (.defect (.unknownOperator "+")) ⟨[], .start⟩ :=
  rfl

theorem go_eq (n : Nat) (e : Expr) {x : Suffix} (hx : Suffix.ofLexeme? s.current.lexeme = some x) :
    go n e x.rule s = reporting (suffixed n x e) s := by
  cases x
  case call | index => rfl
  case infixOp op =>
    cases n
    case zero => rfl
    case succ n =>
      change infixed (n + 1) e s = _
      rw [infixed, suffixed]
      refine bind_eq rfl fun t s' ht => ?_
      cases ht
      rw [(Suffix.lookup_of_some hx).left, Suffix.find?_infixOp hx]
      exact bind_eq rfl fun b s' _ => rfl

theorem begin_eq (n : Nat) (hs : s.Numeric) {rule : PrefixRule}
    (hr : prefixRules.lookup s.current.kind = some rule) :
    begin n rule s = reporting (leading n) s := by
  simp only [reporting, leading, bind, EStateM.bind, current]
  rw [Token.kind] at hr
  cases hx : s.current.lexeme <;> rw [hx] at hr
  case eof => cases hr
  case int digits =>
    cases hr
    exact integer_eq hs
  case keyword k => cases k <;> cases hr <;> rfl
  case symbol y =>
    cases y <;> cases hr
    case bang => exact prefixed_eq n (.inl hx)
    case minus => exact prefixed_eq n (.inr hx)
    all_goals rfl
  all_goals
    cases hr
    rfl

theorem leading_of_none (n : Nat) (h : prefixRules.lookup s.current.kind = none) :
    leading n s = fail s.current (.expectedExpression s.current.lexeme) s := by
  simp only [leading, bind, EStateM.bind, current]
  rw [Token.kind] at h
  cases hx : s.current.lexeme <;> rw [hx] at h
  case keyword k => cases k <;> first | rfl | cases h
  case symbol y => cases y <;> first | rfl | cases h
  all_goals first | rfl | cases h

-- An expression that is extended as far as possible has been extended from the rest of the text.
theorem extend_eq (n : Nat) (p : Precedence) (k : Nat) (e : Expr) (hs : s.Numeric) :
    extend n p k e s = reporting (Parser.extend.go p (suffixed n) k e) s := by
  induction k generalizing e s
  case zero => rfl
  case succ k hi =>
    rw [extend, Parser.extend.go]
    refine bind_eq rfl fun t s' ht => ?_
    cases ht
    rw [Token.kind]
    cases hx : Suffix.ofLexeme? s.current.lexeme
    case none =>
      have hp : ¬p < Precedence.lowest := by cases p <;> decide
      rw [Suffix.lookup_of_none hx, Option.getD_none, if_neg hp]
      rfl
    case some x =>
      obtain ⟨hp, hr⟩ := Suffix.lookup_of_some hx
      rw [hp, Option.getD_some]
      dsimp only
      split
      case isFalse => rfl
      case isTrue =>
        rw [hr, known, pure_bind]
        refine bind_eq (go_eq n e hx) fun e' s' he => ?_
        exact hi e' (hs.rest ((Agrees.ok ((locality s n).suffixed x e s) e' s' he).left))

theorem expression_eq (hs : s.Numeric) (n : Nat) (p : Precedence) :
    CheckedParser.expression n p s = reporting (Parser.expression (n + 1) p) s := by
  rw [Parser.expression_succ]
  cases hr : prefixRules.lookup s.current.kind
  case none =>
    simp only [CheckedParser.expression, bind, EStateM.bind, reporting, current, hr,
      leading_of_none n hr]
    rfl
  case some rule =>
    have he : CheckedParser.expression n p s =
        (begin n rule >>= fun e => reporting size >>= fun k => extend n p k e) s := by
      simp only [CheckedParser.expression, bind, EStateM.bind, reporting, current, hr]
    rw [he]
    refine bind_eq (begin_eq n hs hr) fun e s' h => ?_
    have hs' := hs.rest ((Agrees.ok ((locality s n).leading s) e s' h).left)
    refine bind_eq rfl fun k t ht => ?_
    cases ht
    exact extend_eq n p _ e hs'

end CheckedParser

end Marmoset
