import Marmoset.Program.Basic
import Marmoset.Program.SyntaxError
import Marmoset.Token.Stream

/-!
Parsing by precedence. The rules that call each other take a number of frames, which bounds how
deep they may nest; a failure leaves the stream at the token where the rule stopped.
-/

namespace Marmoset

-- How tightly an operator holds its operands.
inductive Precedence
  | lowest | equality | order | sum | product | prefixOp | call | index
deriving DecidableEq

namespace Precedence

def rank : Precedence → Nat
  | lowest => 1
  | equality => 2
  | order => 3
  | sum => 4
  | product => 5
  | prefixOp => 6
  | call => 7
  | index => 8

instance : LT Precedence :=
  ⟨fun p q => p.rank < q.rank⟩

instance (p q : Precedence) : Decidable (p < q) :=
  inferInstanceAs (Decidable (p.rank < q.rank))

end Precedence

namespace InfixOp

def ofSymbol? : Symbol → Option InfixOp
  | .plus => some add
  | .minus => some sub
  | .asterisk => some mul
  | .slash => some div
  | .lt => some lt
  | .gt => some gt
  | .eq => some eq
  | .notEq => some notEq
  | _ => none

def precedence : InfixOp → Precedence
  | eq | notEq => .equality
  | lt | gt => .order
  | add | sub => .sum
  | mul | div => .product

end InfixOp

-- What may follow an expression and make it the first part of a larger one.
inductive Suffix
  | infixOp (op : InfixOp)
  | call
  | index
deriving DecidableEq

namespace Suffix

def ofLexeme? : Lexeme → Option Suffix
  | .symbol .lparen => some call
  | .symbol .lbracket => some index
  | .symbol s => (InfixOp.ofSymbol? s).map infixOp
  | _ => none

def precedence : Suffix → Precedence
  | infixOp op => op.precedence
  | call => .call
  | index => .index

end Suffix

-- A rule of the grammar.
abbrev Parser := EStateM SyntaxError TokenStream

namespace Parser

def current : Parser Token :=
  fun s => .ok s.current s

def advance : Parser Token :=
  fun s => .ok s.current s.advance

def isAt (k : TokenKind) : Parser Bool :=
  fun s => .ok (s.current.kind = k) s

def size : Parser Nat :=
  fun s => .ok s.size s

-- Fails at the token `t`.
def fail (t : Token) (cause : SyntaxError.Cause) : Parser α :=
  throw ⟨some t.location, cause⟩

def tooDeep : Parser α :=
  throw .tooDeep

def expect (k : TokenKind) : Parser Token := do
  let t ← current
  if t.kind = k then advance else fail t (.expected k t.lexeme)

def skipSemicolon : Parser Unit := do
  if ← isAt (.symbol .semicolon) then discard advance

-- Items up to the symbol `close`, with commas between them. With `trailing`, a comma may also
-- follow the last item. Each item takes a token, so one step more than there are tokens suffices.
def items (trailing : Bool) (close : Symbol) (item : Parser α) : Parser (List α) := do
  let xs ← go ((← size) + 1) true
  discard (expect (.symbol close))
  return xs
where
  go : Nat → Bool → Parser (List α)
    | 0, _ => return []
    | n + 1, first => do
      if ← isAt (.symbol close) then return []
      unless first do
        discard (expect (.symbol .comma))
        if trailing && (← isAt (.symbol close)) then return []
      let x ← item
      return x :: (← go n false)

-- Extends an expression to the right for as long as suffixes bind more tightly than `p`.
def extend (p : Precedence) (step : Suffix → Expr → Parser Expr) (e : Expr) : Parser Expr := do
  go (← size) e
where
  go : Nat → Expr → Parser Expr
    | 0, e => return e
    | n + 1, e => do
      match Suffix.ofLexeme? (← current).lexeme with
      | some x => if p < x.precedence then go n (← step x e) else return e
      | none => return e

-- Statements up to a closing brace.
def statements (statement : Parser Stmt) : Parser (List Stmt) := do
  go ((← size) + 1)
where
  go : Nat → Parser (List Stmt)
    | 0 => return []
    | n + 1 => do
      if ← isAt (.symbol .rbrace) then return []
      -- At the end of the text it is the brace that is missing, not a statement.
      if ← isAt .eof then discard (expect (.symbol .rbrace))
      let s ← statement
      return s :: (← go n)

def binder : Parser Binder := do
  let t ← expect .ident
  return ⟨t.location, t.literal⟩

def identifier : Parser Expr := do
  let t ← expect .ident
  return .ident t.location t.literal

def decimal (digits : String) : Nat :=
  digits.toList.foldl (fun n c => 10 * n + (c.toNat - '0'.toNat)) 0

-- The least number that no signed integer of 64 bits holds.
def integerBound : Nat :=
  0x8000000000000000

-- The number of digits of the greatest number below the bound.
def maxDigits : Nat :=
  (toString (integerBound - 1)).length

-- The digits without leading zeros.
def significant (digits : String) : String :=
  String.ofList (digits.toList.dropWhile fun c => c.toNat - '0'.toNat = 0)

-- Digits that are too many for a number in range are not made a number.
def integer : Parser Expr := do
  let t ← expect .int
  let digits := significant t.literal
  if maxDigits < digits.length then fail t (.integerTooLarge t.literal)
  else
    let n := decimal digits
    if n < integerBound then return .int t.location (Int64.ofNat n)
    fail t (.integerTooLarge t.literal)

def string : Parser Expr := do
  let t ← expect .string
  return .string t.location t.literal

def boolean : Parser Expr := do
  let t ← current
  match t.lexeme with
  | .keyword .kwTrue => discard advance; return .bool t.location true
  | .keyword .kwFalse => discard advance; return .bool t.location false
  | _ => fail t (.expectedBoolean t.lexeme)

-- Passes over the illegal token and reports it.
def illegal : Parser Expr := do
  let t ← expect .illegal
  if t.literal.toList.head? = some '"' then fail t .unterminatedString
  fail t (.illegalCharacter t.lexeme)

-- The first parameter, by the one it repeats, that has the name of an earlier one.
def repeated? : List Binder → Option Binder
  | [] => none
  | b :: bs => (bs.find? (·.name = b.name)).or (repeated? bs)

mutual

def expression : Nat → Precedence → Parser Expr
  | 0, _ => tooDeep
  | n + 1, p => do
    let t ← current
    let e ← match t.lexeme with
      | .ident _ => identifier
      | .int _ => integer
      | .string _ => string
      | .illegal _ => illegal
      | .keyword .kwTrue | .keyword .kwFalse => boolean
      | .keyword .kwIf => conditional n
      | .keyword .kwFn => function n
      | .symbol .bang | .symbol .minus => prefixed n
      | .symbol .lparen => grouped n
      | .symbol .lbracket => array n
      | .symbol .lbrace => hash n
      | _ => fail t (.expectedExpression t.lexeme)
    extend p (suffixed n) e

-- The rest of an expression that begins with `e` and goes on with the given suffix.
def suffixed : Nat → Suffix → Expr → Parser Expr
  | 0, _, _ => tooDeep
  | n + 1, x, e => do
    let t ← advance
    match x with
    | .infixOp op => return .infixOp t.location op e (← expression n op.precedence)
    | .call => return .call t.location e (← items true .rparen (expression n .lowest))
    | .index =>
      let i ← expression n .lowest
      discard (expect (.symbol .rbracket))
      return .index t.location e i

-- Takes any token as the operator.
def prefixed : Nat → Parser Expr
  | 0 => tooDeep
  | n + 1 => do
    let t ← advance
    return .prefixOp t.location (.ofText t.literal) (← expression n .prefixOp)

def grouped : Nat → Parser Expr
  | 0 => tooDeep
  | n + 1 => do
    discard (expect (.symbol .lparen))
    let e ← expression n .lowest
    discard (expect (.symbol .rparen))
    return e

def conditional : Nat → Parser Expr
  | 0 => tooDeep
  | n + 1 => do
    let t ← expect (.keyword .kwIf)
    discard (expect (.symbol .lparen))
    let c ← expression n .lowest
    discard (expect (.symbol .rparen))
    let b ← block n
    -- An `else` always belongs to the nearest `if`.
    if ← isAt (.keyword .kwElse) then
      discard advance
      return .cond t.location c b (some (← block n))
    return .cond t.location c b none

def function : Nat → Parser Expr
  | 0 => tooDeep
  | n + 1 => do
    let t ← expect (.keyword .kwFn)
    discard (expect (.symbol .lparen))
    let params ← items false .rparen binder
    let b ← block n
    -- Names that repeat count only once the whole function has been read.
    match repeated? params with
    | some b => throw ⟨some b.location, .duplicateParameter b.name⟩
    | none => return .fn t.location params b

def array : Nat → Parser Expr
  | 0 => tooDeep
  | n + 1 => do
    let t ← expect (.symbol .lbracket)
    return .array t.location (← items true .rbracket (expression n .lowest))

def hash : Nat → Parser Expr
  | 0 => tooDeep
  | n + 1 => do
    let t ← expect (.symbol .lbrace)
    return .hash t.location (← items true .rbrace (do
      let k ← expression n .lowest
      discard (expect (.symbol .colon))
      return (k, ← expression n .lowest)))

def block : Nat → Parser Block
  | 0 => tooDeep
  | n + 1 => do
    let t ← expect (.symbol .lbrace)
    let ss ← statements (statement n)
    discard (expect (.symbol .rbrace))
    return .mk t.location ss

def statement : Nat → Parser Stmt
  | 0 => tooDeep
  | n + 1 => do
    match (← current).lexeme with
    | .keyword .kwLet => letStatement n
    | .keyword .kwReturn => returnStatement n
    | _ => expressionStatement n

def letStatement : Nat → Parser Stmt
  | 0 => tooDeep
  | n + 1 => do
    let t ← expect (.keyword .kwLet)
    let b ← binder
    discard (expect (.symbol .assign))
    let e ← expression n .lowest
    skipSemicolon
    return .bind t.location b e

def returnStatement : Nat → Parser Stmt
  | 0 => tooDeep
  | n + 1 => do
    let t ← expect (.keyword .kwReturn)
    let e ← expression n .lowest
    skipSemicolon
    return .ret t.location e

def expressionStatement : Nat → Parser Stmt
  | 0 => tooDeep
  | n + 1 => do
    let e ← expression n .lowest
    skipSemicolon
    return .expr e

end

-- The part of an expression that it begins with.
def leading (n : Nat) : Parser Expr := do
  let t ← current
  match t.lexeme with
  | .ident _ => identifier
  | .int _ => integer
  | .string _ => string
  | .illegal _ => illegal
  | .keyword .kwTrue | .keyword .kwFalse => boolean
  | .keyword .kwIf => conditional n
  | .keyword .kwFn => function n
  | .symbol .bang | .symbol .minus => prefixed n
  | .symbol .lparen => grouped n
  | .symbol .lbracket => array n
  | .symbol .lbrace => hash n
  | _ => fail t (.expectedExpression t.lexeme)

theorem expression_succ (n : Nat) (p : Precedence) :
    expression (n + 1) p = leading n >>= extend p (suffixed n) := by
  rw [expression, leading, bind_assoc]
  congr
  funext ⟨x, l⟩
  cases x
  case keyword k => cases k <;> rfl
  case symbol y => cases y <;> rfl
  all_goals rfl

end Parser

end Marmoset
