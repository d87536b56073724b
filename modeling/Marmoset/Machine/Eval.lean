import Marmoset.Machine.Builtin
import Marmoset.Machine.Operation

/-!
Evaluation. Expressions, statements, blocks and calls take a number of frames, which bounds how
deep they may nest. What one frame does is said of any monad into which steps of the machine
lift, so that a run can be watched as well.
-/

namespace Marmoset

-- How the parts of a program are evaluated.
structure Evaluator (M : Type → Type) where
  expr : Scope → Expr → M Value
  block : Scope → Block → M (Option Value)
  stmt : Scope → Stmt → M (Option Value)
  call : Option Location → Value → List Value → M Value

namespace Eval

-- An error takes the place of the call if it has none, and the call into its trace.
def callBuiltin (frames : Nat) (l : Option Location) (b : Builtin) (args : List Value) :
    Eval Value := do
  let v ← b.apply frames args
  annotate v fun d => (d.placed l).within l (.builtin b)
  return v

-- The call's value, given what the body of the function came to.
def leave (l : Option Location) (c : Closure) : Option Value → Eval Value
  | some (.returned v) => return v
  | some v => do
    annotate v fun d => d.within l (.closure c)
    return v
  | none => return .null

-- The body of a function runs in a new scope inside the one in which the function was made.
def enter (c : Closure) (args : List Value) : Eval Scope := do
  let s ← newScope c.scope
  defineAll s (c.params.zip args)
  return s

-- What a scope binds hides the built-in function of that name.
def name (s : Scope) (l : Location) (name : String) : Eval Value := do
  match (← resolve? s name).or ((Builtin.ofName? name).map .builtin) with
  | some v => return v
  | none => fail l (.unbound name)

def newFunction (s : Scope) (l : Location) (ps : List Binder) (b : Block) : Eval Value := do
  return .function ⟨← newObject, l, ps, b, s⟩

end Eval

namespace Evaluator

open Eval

variable {M : Type → Type} [Monad M] [MonadLiftT Eval M]

-- Goes on with a plain value; control flow is handed on.
def plain (x : M Value) (next : Value → M Value) : M Value := do
  let v ← x
  if v.isControlFlow then return v else next v

-- Evaluates the parts from left to right and goes on with their values.
def plains (eval : α → M Value) : List α → (List Value → M Value) → M Value
  | [], next => next []
  | x :: xs, next => plain (eval x) fun v => plains eval xs fun vs => next (v :: vs)

-- The pairs of a hash from left to right; a key is checked before its value is evaluated.
def entries (eval : Expr → M Value) :
    List (Expr × Expr) → Assoc Value Value → (Assoc Value Value → M Value) → M Value
  | [], ps, next => next ps
  | (key, value) :: rest, ps, next =>
    plain (eval key) fun k =>
      if k.isHashable then
        plain (eval value) fun v => entries eval rest (Assoc.insert k v ps) next
      else liftM (fail key.location (.unhashable k.type))

-- Statements in order, up to the first that yields control flow; the last value counts.
def sequence (run : Stmt → M (Option Value)) : Option Value → List Stmt → M (Option Value)
  | last, [] => return last
  | _, s :: ss => do
    let r ← run s
    if r.any (·.isControlFlow) then return r else sequence run r ss

-- A value, or null where there is none.
def orNull (x : M (Option Value)) : M Value := do
  return (← x).getD .null

/-!
One frame of evaluation, given how the frames inside it are evaluated.
-/

def exprStep (E : Evaluator M) (s : Scope) : Expr → M Value
  | .ident l x => liftM (name s l x)
  | .int _ k => return .int k
  | .string _ t => return .string t
  | .bool _ b => return .bool b
  | .prefixOp l op e => plain (E.expr s e) fun v => liftM (ofResult l (op.apply v))
  | .infixOp l op a b =>
    plain (E.expr s a) fun v => plain (E.expr s b) fun w => liftM (ofResult l (op.apply v w))
  | .cond _ c b a =>
    plain (E.expr s c) fun v =>
      if v.isTruthy then orNull (E.block s b)
      else
        match a with
        | some a => orNull (E.block s a)
        | none => return .null
  | .fn l ps b => liftM (newFunction s l ps b)
  -- The callee comes first; whether it can be called at all is asked after the arguments.
  | .call l f as => plain (E.expr s f) fun f => plains (E.expr s) as fun vs => E.call l f vs
  | .array _ es => plains (E.expr s) es fun vs => liftM (newArray vs)
  | .hash _ ps => entries (E.expr s) ps [] fun ps => liftM (newHash ps)
  | .index l c i =>
    plain (E.expr s c) fun v => plain (E.expr s i) fun k => liftM (ofResult l (v.get k))

-- A block has no scope of its own.
def blockStep (E : Evaluator M) (s : Scope) (b : Block) : M (Option Value) :=
  sequence (E.stmt s) none b.statements

-- A binding has no value.
def stmtStep (E : Evaluator M) (s : Scope) : Stmt → M (Option Value)
  | .bind _ b e => do
    let v ← E.expr s e
    if v.isControlFlow then return some v
    define s b.name v
    return none
  | .ret _ e => do
    let v ← E.expr s e
    if v.isControlFlow then return some v else return some (.returned v)
  | .expr e => some <$> E.expr s e

def callStep (frames : Nat) (E : Evaluator M) (l : Option Location) (f : Value)
    (args : List Value) : M Value :=
  match f with
  | .builtin b => liftM (callBuiltin frames l b args)
  | .function c =>
    if args.length = c.params.length then do
      let s ← enter c args
      let r ← E.block s c.body
      leave l c r
    else liftM (fail l (.wrongArgumentCount args.length c.params.length))
  | f => liftM (fail l (.notCallable f.type))

-- Evaluation with one frame more, of which the frames inside may nest `frames` deep.
def step (frames : Nat) (E : Evaluator M) : Evaluator M :=
  ⟨E.exprStep, E.blockStep, E.stmtStep, E.callStep frames⟩

-- Evaluation where no frame is left.
def exhausted : Evaluator M where
  expr _ _ := liftM (m := Eval) tooDeep
  block _ _ := liftM (m := Eval) tooDeep
  stmt _ _ := liftM (m := Eval) tooDeep
  call _ _ _ := liftM (m := Eval) tooDeep

end Evaluator

namespace Eval

-- Evaluation of which the frames may nest `frames` deep.
def within : Nat → Evaluator Eval
  | 0 => .exhausted
  | n + 1 => (within n).step n

def expr (frames : Nat) : Scope → Expr → Eval Value :=
  (within frames).expr

def block (frames : Nat) : Scope → Block → Eval (Option Value) :=
  (within frames).block

def stmt (frames : Nat) : Scope → Stmt → Eval (Option Value) :=
  (within frames).stmt

def call (frames : Nat) : Option Location → Value → List Value → Eval Value :=
  (within frames).call

end Eval

-- The value of a program in a scope: that of its last statement, or the first that it returns.
-- Nesting beyond the limit is an error at the program's place.
def Program.eval (frames : Nat) (s : Scope) (p : Program) : Eval (Option Value) := fun m =>
  match Evaluator.sequence (Eval.stmt frames s) none p.statements m with
  | .ok v m => .ok (v.map (·.unwrap)) m
  | .error .tooDeep m => (some <$> Eval.fail p.location .tooDeep) m
  | .error a m => .error a m

end Marmoset
