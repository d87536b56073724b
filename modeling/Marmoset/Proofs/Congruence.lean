import Marmoset.Machine.Eval

/-!
Relations between computations of two kinds that evaluation keeps. One that has a rule for each of
the ways in which any monad puts computations together, and for the steps that bind no names, has
one for each way in which evaluation does.
-/

namespace Marmoset

namespace Eval

-- The computation makes no scope and binds no name.
def KeepsScopes (x : Eval α) : Prop :=
  ∀ m, (Result.machine (x m)).scopes = m.scopes

namespace KeepsScopes

variable {x : Eval α} {f : α → Eval β}

protected theorem pure (a : α) : (pure a : Eval α).KeepsScopes :=
  fun _ => rfl

protected theorem bind (hx : x.KeepsScopes) (hf : ∀ a, (f a).KeepsScopes) :
    (x >>= f).KeepsScopes := by
  intro m
  have h := hx m
  cases he : x m <;> rw [he] at h
  case ok a m' =>
    rw [bind_of_ok he]
    exact (hf a m').trans h
  case error =>
    rw [bind_of_error he]
    exact h

end KeepsScopes

theorem fail_keepsScopes (l : Option Location) (f : Fault) : (fail l f).KeepsScopes :=
  fun _ => rfl

theorem ofResult_keepsScopes (l : Location) (r : Except Fault Value) :
    (ofResult l r).KeepsScopes := by
  cases r
  case ok => exact .pure _
  case error => exact fail_keepsScopes _ _

theorem annotate_keepsScopes (v : Value) (f : Diagnostic → Diagnostic) :
    (annotate v f).KeepsScopes := by
  cases v <;> exact fun _ => rfl

theorem name_keepsScopes (s : Scope) (l : Location) (x : String) : (name s l x).KeepsScopes := by
  have hr : (resolve? s x).KeepsScopes := fun _ => rfl
  refine hr.bind fun v => ?_
  split
  · exact .pure _
  · exact fail_keepsScopes _ _

theorem leave_keepsScopes (l : Option Location) (c : Closure) (r : Option Value) :
    (leave l c r).KeepsScopes := by
  unfold leave
  split
  case h_1 => exact .pure _
  case h_2 => exact (annotate_keepsScopes _ _).bind fun _ => .pure _
  case h_3 => exact .pure _

end Eval

namespace Builtin

open Eval

theorem unary_keepsScopes (args : List Value) {f : Value → Eval Value}
    (h : ∀ v, (f v).KeepsScopes) : (unary args f).KeepsScopes := by
  unfold unary
  split
  · exact h _
  · exact fail_keepsScopes _ _

theorem binary_keepsScopes (args : List Value) {f : Value → Value → Eval Value}
    (h : ∀ v w, (f v w).KeepsScopes) : (binary args f).KeepsScopes := by
  unfold binary
  split
  · exact h _ _
  · exact fail_keepsScopes _ _

theorem onArray_keepsScopes (b : Builtin) (v : Value) {f : List Value → Eval Value}
    (h : ∀ vs, (f vs).KeepsScopes) : (b.onArray v f).KeepsScopes := by
  unfold onArray
  split
  · exact h _
  · exact fail_keepsScopes _ _

theorem printAll_keepsScopes (frames : Nat) (vs : List Value) :
    (printAll frames vs).KeepsScopes := by
  induction vs
  case nil => exact .pure _
  case cons v vs hi =>
    unfold printAll
    split
    · exact fail_keepsScopes _ _
    · exact fun m => hi (m.print v)

theorem apply_keepsScopes (frames : Nat) (b : Builtin) (args : List Value) :
    (b.apply frames args).KeepsScopes := by
  cases b
  case len =>
    refine unary_keepsScopes args fun v => ?_
    cases v <;> first | exact .pure _ | exact fail_keepsScopes _ _
  case first | last => exact unary_keepsScopes args fun v => onArray_keepsScopes _ v fun _ => .pure _
  case rest =>
    refine unary_keepsScopes args fun v => onArray_keepsScopes _ v fun vs => ?_
    cases vs <;> exact fun _ => rfl
  case push =>
    exact binary_keepsScopes args fun v _ => onArray_keepsScopes _ v fun _ _ => rfl
  case puts => exact printAll_keepsScopes frames args

end Builtin

theorem Eval.callBuiltin_keepsScopes (frames : Nat) (l : Option Location) (b : Builtin)
    (args : List Value) : (callBuiltin frames l b args).KeepsScopes :=
  (b.apply_keepsScopes frames args).bind fun _ => (annotate_keepsScopes _ _).bind fun _ => .pure _

structure Congruence (M N : Type → Type) [Monad M] [Monad N] [MonadLiftT Eval M]
    [MonadLiftT Eval N] where
  Relates {α : Type} : M α → N α → Prop
  pure {α : Type} (a : α) : Relates (pure a) (pure a)
  bind {α β : Type} {x : M α} {y : N α} {f : α → M β} {g : α → N β} :
    Relates x y → (∀ a, Relates (f a) (g a)) → Relates (x >>= f) (y >>= g)
  map {α β : Type} {x : M α} {y : N α} (f : α → β) : Relates x y → Relates (f <$> x) (f <$> y)
  lift {α : Type} {x : Eval α} : x.KeepsScopes → Relates (liftM x) (liftM x)

namespace Congruence

open Eval
open Evaluator (plain plains entries sequence orNull)

variable {M N : Type → Type} [Monad M] [Monad N] [MonadLiftT Eval M] [MonadLiftT Eval N]
variable (R : Congruence M N)

theorem ite {c : Prop} [Decidable c] {x x' : M α} {y y' : N α} (h : R.Relates x y)
    (h' : R.Relates x' y') : R.Relates (if c then x else x') (if c then y else y') := by
  split
  case isTrue => exact h
  case isFalse => exact h'

theorem plain {x : M Value} {y : N Value} {next : Value → M Value} {next' : Value → N Value}
    (h : R.Relates x y) (hn : ∀ v, R.Relates (next v) (next' v)) :
    R.Relates (plain x next) (plain y next') :=
  R.bind h fun v => R.ite (R.pure v) (hn v)

theorem plains {eval : α → M Value} {eval' : α → N Value} {xs : List α}
    {next : List Value → M Value} {next' : List Value → N Value}
    (h : ∀ x, R.Relates (eval x) (eval' x)) (hn : ∀ vs, R.Relates (next vs) (next' vs)) :
    R.Relates (plains eval xs next) (plains eval' xs next') := by
  induction xs generalizing next next'
  case nil => exact hn []
  case cons x xs hi => exact R.plain (h x) fun v => hi fun vs => hn (v :: vs)

theorem entries {eval : Expr → M Value} {eval' : Expr → N Value} {es : List (Expr × Expr)}
    {ps : Assoc Value Value} {next : Assoc Value Value → M Value}
    {next' : Assoc Value Value → N Value} (h : ∀ e, R.Relates (eval e) (eval' e))
    (hn : ∀ ps, R.Relates (next ps) (next' ps)) :
    R.Relates (entries eval es ps next) (entries eval' es ps next') := by
  induction es generalizing ps
  case nil => exact hn ps
  case cons e es hi =>
    exact R.plain (h e.1) fun _ => R.ite (R.plain (h e.2) fun _ => hi) (R.lift (fail_keepsScopes _ _))

theorem sequence {run : Stmt → M (Option Value)} {run' : Stmt → N (Option Value)}
    {last : Option Value} {ss : List Stmt} (h : ∀ s, R.Relates (run s) (run' s)) :
    R.Relates (sequence run last ss) (sequence run' last ss) := by
  induction ss generalizing last
  case nil => exact R.pure last
  case cons s ss hi => exact R.bind (h s) fun r => R.ite (R.pure r) hi

theorem orNull {x : M (Option Value)} {y : N (Option Value)} (h : R.Relates x y) :
    R.Relates (orNull x) (orNull y) :=
  R.bind h fun r => R.pure (r.getD .null)

-- The evaluators do to each part of a program what is related.
structure Evaluators (E : Evaluator M) (F : Evaluator N) : Prop where
  expr : ∀ s e, R.Relates (E.expr s e) (F.expr s e)
  block : ∀ s b, R.Relates (E.block s b) (F.block s b)
  stmt : ∀ s x, R.Relates (E.stmt s x) (F.stmt s x)
  call : ∀ l f args, R.Relates (E.call l f args) (F.call l f args)

theorem exhausted : R.Evaluators .exhausted .exhausted where
  expr _ _ := R.lift fun _ => rfl
  block _ _ := R.lift fun _ => rfl
  stmt _ _ := R.lift fun _ => rfl
  call _ _ _ := R.lift fun _ => rfl

namespace Evaluators

variable {R} {E : Evaluator M} {F : Evaluator N} (h : R.Evaluators E F)
include h

theorem exprStep (s : Scope) (e : Expr) : R.Relates (E.exprStep s e) (F.exprStep s e) := by
  cases e
  case ident => exact R.lift (name_keepsScopes _ _ _)
  case fn => exact R.lift fun _ => rfl
  case int | string | bool => exact R.pure _
  case prefixOp => exact R.plain (h.expr s _) fun _ => R.lift (ofResult_keepsScopes _ _)
  case infixOp | index =>
    exact R.plain (h.expr s _) fun _ => R.plain (h.expr s _) fun _ =>
      R.lift (ofResult_keepsScopes _ _)
  case cond c b a =>
    refine R.plain (h.expr s c) fun v => R.ite (R.orNull (h.block s b)) ?_
    cases a
    case none => exact R.pure _
    case some a => exact R.orNull (h.block s a)
  case call => exact R.plain (h.expr s _) fun f => R.plains (h.expr s) fun vs => h.call _ f vs
  case array => exact R.plains (h.expr s) fun _ => R.lift fun _ => rfl
  case hash => exact R.entries (h.expr s) fun _ => R.lift fun _ => rfl

theorem blockStep (s : Scope) (b : Block) : R.Relates (E.blockStep s b) (F.blockStep s b) :=
  R.sequence (h.stmt s)

theorem stmtStep (s : Scope) (x : Stmt)
    (hd : ∀ l b e, x = .bind l b e → ∀ v,
      R.Relates (liftM (define s b.name v)) (liftM (define s b.name v))) :
    R.Relates (E.stmtStep s x) (F.stmtStep s x) := by
  cases x
  case bind l b e =>
    exact R.bind (h.expr s _) fun v => R.ite (R.pure _) (R.bind (hd l b e rfl v) fun _ => R.pure _)
  case ret => exact R.bind (h.expr s _) fun _ => R.ite (R.pure _) (R.pure _)
  case expr => exact R.map some (h.expr s _)

-- Only built-in functions ask how many frames are left.
theorem callStep {n k : Nat} {l : Option Location} {f : Value} {args : List Value}
    (hb : ∀ b, f = .builtin b →
      R.Relates (liftM (callBuiltin n l b args)) (liftM (callBuiltin k l b args)))
    (he : ∀ c, f = .function c → R.Relates (liftM (enter c args)) (liftM (enter c args))) :
    R.Relates (E.callStep n l f args) (F.callStep k l f args) := by
  cases f
  case builtin b => exact hb b rfl
  case function c =>
    refine R.ite (R.bind (he c rfl) fun s => ?_) (R.lift (fail_keepsScopes _ _))
    exact R.bind (h.block s _) fun r => R.lift (leave_keepsScopes l c r)
  all_goals exact R.lift (fail_keepsScopes _ _)

theorem step (hl : ∀ {α : Type} (x : Eval α), R.Relates (liftM x) (liftM x)) (frames : Nat) :
    R.Evaluators (E.step frames) (F.step frames) where
  expr := h.exprStep
  block := h.blockStep
  stmt s x := h.stmtStep s x fun _ _ _ _ _ => hl _
  call _ _ _ := h.callStep (fun _ _ => hl _) fun _ _ => hl _

end Evaluators

end Congruence

end Marmoset
