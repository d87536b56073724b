import Marmoset.Machine.Eval

/-!
A run makes one error at most, and if it makes one it comes to that error: none is lost on the
way.
-/

namespace Marmoset

abbrev Machine.errorCount (m : Machine) : Nat :=
  m.diagnostics.size

theorem Machine.errorCount_annotate (m : Machine) (i : ErrorId) (f : Diagnostic → Diagnostic) :
    (m.annotate i f).errorCount = m.errorCount :=
  Array.size_modify

namespace Eval

-- The computation makes no error.
def Quiet (x : Eval α) : Prop :=
  ∀ m, (Result.machine (x m)).errorCount = m.errorCount

-- The computation makes no error, or one that it comes to.
def RaisesOnce (result : Value → α) (x : Eval α) : Prop :=
  ∀ m, match x m with
    | .ok a m' => m'.errorCount = m.errorCount ∨
      m'.errorCount = m.errorCount + 1 ∧ ∃ f, a = result (.error m.errorCount f)
    | .error _ m' => m'.errorCount = m.errorCount

variable {result : Value → α} {x : Eval α} {f : α → Eval β} {g : β → α}

theorem Quiet.pure (a : α) : Quiet (pure a : Eval α) :=
  fun _ => rfl

theorem Quiet.raisesOnce (h : x.Quiet) : x.RaisesOnce result := by
  intro m
  have h := h m
  cases he : x m <;> rw [he] at h
  case ok => exact .inl h
  case error => exact h

theorem Quiet.bind (hx : x.Quiet) (hf : ∀ a, (f a).Quiet) : (x >>= f).Quiet := by
  intro m
  have h := hx m
  cases he : x m <;> rw [he] at h
  case ok a m' =>
    rw [bind_of_ok he]
    exact (hf a m').trans h
  case error => rwa [bind_of_error he]

namespace RaisesOnce

theorem pure (a : α) : RaisesOnce result (pure a : Eval α) :=
  (Quiet.pure a).raisesOnce

theorem after {r : Value → β} (hx : x.Quiet) (hf : ∀ a, (f a).RaisesOnce r) :
    (x >>= f).RaisesOnce r := by
  intro m
  have h := hx m
  cases he : x m <;> rw [he] at h
  case ok a m' =>
    have h' := hf a m'
    rw [bind_of_ok he]
    simpa only [(show m'.errorCount = m.errorCount from h)] using h'
  case error =>
    rw [bind_of_error he]
    exact h

-- A computation goes on only if what comes first has made no error.
theorem bind {r : Value → β} (hx : x.RaisesOnce result) (hf : ∀ a, (f a).RaisesOnce r)
    (hs : ∀ i k m, ∃ m', f (result (.error i k)) m = .ok (r (.error i k)) m' ∧
      m'.errorCount = m.errorCount) : (x >>= f).RaisesOnce r := by
  intro m
  have h := hx m
  cases he : x m <;> simp only [he] at h
  case ok a m' =>
    rw [bind_of_ok he]
    cases h
    case inl h =>
      have h' := hf a m'
      split <;> simp_all
    case inr h =>
      obtain ⟨h, k, rfl⟩ := h
      obtain ⟨m'', hr, hm⟩ := hs m.errorCount k m'
      rw [hr]
      exact .inr ⟨hm.trans h, k, rfl⟩
  case error => simpa only [bind_of_error he] using h

theorem ite {c : Prop} [Decidable c] {y : Eval α} (hx : x.RaisesOnce result)
    (hy : y.RaisesOnce result) : (if c then x else y).RaisesOnce result := by
  split
  · exact hx
  · exact hy

end RaisesOnce

theorem fail_raisesOnce (l : Option Location) (f : Fault) : (fail l f).RaisesOnce id :=
  fun m => .inr ⟨by simp [Machine.errorCount, Machine.newError], f, rfl⟩

theorem newObject_quiet : newObject.Quiet :=
  fun _ => rfl

theorem newArray_quiet (vs : List Value) : (newArray vs).Quiet :=
  newObject_quiet.bind fun _ => .pure _

theorem newHash_quiet (ps : Assoc Value Value) : (newHash ps).Quiet :=
  newObject_quiet.bind fun _ => .pure _

theorem newFunction_quiet (s : Scope) (l : Location) (ps : List Binder) (b : Block) :
    (newFunction s l ps b).Quiet :=
  newObject_quiet.bind fun _ => .pure _

theorem annotate_quiet (v : Value) (f : Diagnostic → Diagnostic) : (annotate v f).Quiet := by
  cases v
  case error i _ => exact fun m => m.errorCount_annotate i f
  all_goals exact .pure ()

theorem define_quiet (s : Scope) (x : String) (v : Value) : (define s x v).Quiet := by
  intro m
  unfold define
  cases v.isControlFlow <;> rfl

theorem defineAll_quiet (s : Scope) (ps : List (Binder × Value)) : (defineAll s ps).Quiet := by
  induction ps
  case nil => exact .pure ()
  case cons p ps hi => exact (define_quiet s _ _).bind fun _ => hi

theorem enter_quiet (c : Closure) (args : List Value) : (enter c args).Quiet := by
  have hn : (newScope c.scope).Quiet := fun _ => rfl
  exact hn.bind fun s => (defineAll_quiet s _).bind fun _ => .pure s

theorem leave_quiet (l : Option Location) (c : Closure) (r : Option Value) :
    (leave l c r).Quiet := by
  unfold leave
  split
  · exact .pure _
  · exact (annotate_quiet _ _).bind fun _ => .pure _
  · exact .pure _

theorem ofResult_raisesOnce (l : Location) (r : Except Fault Value) :
    (ofResult l r).RaisesOnce id := by
  cases r
  case ok => exact .pure _
  case error => exact fail_raisesOnce _ _

theorem name_raisesOnce (s : Scope) (l : Location) (x : String) : (name s l x).RaisesOnce id := by
  have hr : (resolve? s x).Quiet := fun _ => rfl
  refine RaisesOnce.after hr fun r => ?_
  split
  · exact .pure _
  · exact fail_raisesOnce _ _

end Eval

namespace Builtin

open Eval

theorem unary_raisesOnce {args : List Value} {f : Value → Eval Value}
    (hf : ∀ v, (f v).RaisesOnce id) : (unary args f).RaisesOnce id := by
  unfold unary
  split
  · exact hf _
  · exact fail_raisesOnce _ _

theorem binary_raisesOnce {args : List Value} {f : Value → Value → Eval Value}
    (hf : ∀ v w, (f v w).RaisesOnce id) : (binary args f).RaisesOnce id := by
  unfold binary
  split
  · exact hf _ _
  · exact fail_raisesOnce _ _

theorem onArray_raisesOnce {b : Builtin} {v : Value} {f : List Value → Eval Value}
    (hf : ∀ vs, (f vs).RaisesOnce id) : (b.onArray v f).RaisesOnce id := by
  unfold onArray
  split
  · exact hf _
  · exact fail_raisesOnce _ _

theorem printAll_raisesOnce (frames : Nat) (vs : List Value) :
    (printAll frames vs).RaisesOnce id := by
  induction vs
  case nil => exact .pure _
  case cons v vs hi =>
    have hp : (print v).Quiet := fun _ => rfl
    unfold printAll
    split
    · exact fail_raisesOnce _ _
    · exact .after hp fun _ => hi

theorem apply_raisesOnce (frames : Nat) (b : Builtin) (args : List Value) :
    (b.apply frames args).RaisesOnce id := by
  cases b
  case len =>
    refine unary_raisesOnce fun v => ?_
    unfold length
    split
    · exact .pure _
    · exact .pure _
    · exact fail_raisesOnce _ _
  case first | last => exact unary_raisesOnce fun v => onArray_raisesOnce fun vs => .pure _
  case rest =>
    refine unary_raisesOnce fun v => onArray_raisesOnce fun vs => ?_
    split
    · exact .pure _
    · exact (newArray_quiet _).raisesOnce
  case push =>
    exact binary_raisesOnce fun v w => onArray_raisesOnce fun vs => (newArray_quiet _).raisesOnce
  case puts => exact printAll_raisesOnce frames args

end Builtin

namespace Evaluator

open Eval

structure RaisesOnce (E : Evaluator Eval) : Prop where
  expr : ∀ s e, (E.expr s e).RaisesOnce id
  block : ∀ s b, (E.block s b).RaisesOnce some
  stmt : ∀ s x, (E.stmt s x).RaisesOnce some
  call : ∀ l f args, (E.call l f args).RaisesOnce id

theorem plain_raisesOnce {x : Eval Value} {next : Value → Eval Value} (hx : x.RaisesOnce id)
    (hn : ∀ v, (next v).RaisesOnce id) : (plain x next).RaisesOnce id :=
  hx.bind (fun v => .ite (.pure v) (hn v)) fun _ _ m => ⟨m, rfl, rfl⟩

theorem plains_raisesOnce {eval : α → Eval Value} {xs : List α} {next : List Value → Eval Value}
    (hx : ∀ x, (eval x).RaisesOnce id) (hn : ∀ vs, (next vs).RaisesOnce id) :
    (plains eval xs next).RaisesOnce id := by
  induction xs generalizing next
  case nil => exact hn []
  case cons x xs hi => exact plain_raisesOnce (hx x) fun v => hi fun vs => hn (v :: vs)

theorem entries_raisesOnce {eval : Expr → Eval Value} {es : List (Expr × Expr)}
    {ps : Assoc Value Value} {next : Assoc Value Value → Eval Value}
    (hx : ∀ e, (eval e).RaisesOnce id) (hn : ∀ ps, (next ps).RaisesOnce id) :
    (entries eval es ps next).RaisesOnce id := by
  induction es generalizing ps
  case nil => exact hn ps
  case cons e es hi =>
    exact plain_raisesOnce (hx e.1) fun k =>
      .ite (plain_raisesOnce (hx e.2) fun v => hi) (fail_raisesOnce _ _)

theorem sequence_raisesOnce {run : Stmt → Eval (Option Value)} {last : Option Value}
    {ss : List Stmt} (hr : ∀ x, (run x).RaisesOnce some) :
    (sequence run last ss).RaisesOnce some := by
  induction ss generalizing last
  case nil => exact .pure last
  case cons x ss hi => exact (hr x).bind (fun r => .ite (.pure r) hi) fun _ _ m => ⟨m, rfl, rfl⟩

theorem orNull_raisesOnce {x : Eval (Option Value)} (hx : x.RaisesOnce some) :
    (orNull x).RaisesOnce id :=
  hx.bind (fun _ => .pure _) fun _ _ m => ⟨m, rfl, rfl⟩

namespace RaisesOnce

variable {E : Evaluator Eval} (h : E.RaisesOnce)
include h

theorem exprStep (s : Scope) (e : Expr) : (E.exprStep s e).RaisesOnce id := by
  cases e
  case ident => exact name_raisesOnce _ _ _
  case fn => exact (newFunction_quiet _ _ _ _).raisesOnce
  case int | string | bool => exact .pure _
  case prefixOp => exact plain_raisesOnce (h.expr s _) fun _ => ofResult_raisesOnce _ _
  case infixOp | index =>
    exact plain_raisesOnce (h.expr s _) fun _ => plain_raisesOnce (h.expr s _) fun _ =>
      ofResult_raisesOnce _ _
  case cond c b a =>
    refine plain_raisesOnce (h.expr s c) fun v => .ite (orNull_raisesOnce (h.block s b)) ?_
    cases a
    case none => exact .pure _
    case some a => exact orNull_raisesOnce (h.block s a)
  case call =>
    exact plain_raisesOnce (h.expr s _) fun f => plains_raisesOnce (h.expr s) fun _ => h.call _ _ _
  case array => exact plains_raisesOnce (h.expr s) fun _ => (newArray_quiet _).raisesOnce
  case hash => exact entries_raisesOnce (h.expr s) fun _ => (newHash_quiet _).raisesOnce

theorem stmtStep (s : Scope) (x : Stmt) : (E.stmtStep s x).RaisesOnce some := by
  cases x
  case bind =>
    exact (h.expr s _).bind (fun v => .ite (.pure _) (.after (define_quiet s _ _) fun _ => .pure _))
      fun _ _ m => ⟨m, rfl, rfl⟩
  case ret => exact (h.expr s _).bind (fun v => .ite (.pure _) (.pure _)) fun _ _ m => ⟨m, rfl, rfl⟩
  case expr => exact (h.expr s _).bind (fun v => .pure _) fun _ _ m => ⟨m, rfl, rfl⟩

theorem callStep (frames : Nat) (l : Option Location) (f : Value) (args : List Value) :
    (E.callStep frames l f args).RaisesOnce id := by
  cases f
  case builtin b =>
    refine (b.apply_raisesOnce frames args).bind
      (fun v => ((annotate_quiet v _).bind fun _ => .pure v).raisesOnce) fun i k m => ?_
    exact ⟨_, rfl, m.errorCount_annotate i _⟩
  case function c =>
    refine .ite (.after (enter_quiet c args) fun s => ?_) (fail_raisesOnce _ _)
    refine (h.block s c.body).bind (fun r => (leave_quiet l c r).raisesOnce) fun i k m => ?_
    exact ⟨_, rfl, m.errorCount_annotate i _⟩
  all_goals exact fail_raisesOnce _ _

theorem step (frames : Nat) : (E.step frames).RaisesOnce where
  expr := h.exprStep
  block s _ := sequence_raisesOnce (h.stmt s)
  stmt := h.stmtStep
  call := h.callStep frames

end RaisesOnce

end Evaluator

theorem Eval.within_raisesOnce (frames : Nat) : (within frames).RaisesOnce := by
  induction frames
  case zero =>
    have h {α} {result : Value → α} : (tooDeep : Eval α).RaisesOnce result := fun _ => rfl
    exact ⟨fun _ _ => h, fun _ _ => h, fun _ _ => h, fun _ _ _ => h⟩
  case succ n hi => exact hi.step n

-- The limit counts as an error too, but nothing has gone wrong before it is met.
theorem Program.eval_raisesOnce (frames : Nat) (s : Scope) (p : Program) :
    (p.eval frames s).RaisesOnce some := by
  have hs : (Evaluator.sequence ((Eval.within frames).stmt s) none p.statements).RaisesOnce some :=
    Evaluator.sequence_raisesOnce ((Eval.within_raisesOnce frames).stmt s)
  intro m
  have h := hs m
  unfold eval Eval.stmt
  cases he : Evaluator.sequence ((Eval.within frames).stmt s) none p.statements m <;> rw [he] at h
  case ok r m' => exact h.imp id fun ⟨hm, k, hr⟩ => ⟨hm, k, by simp [hr, Value.unwrap]⟩
  case error a m' =>
    cases a
    case tooDeep =>
      refine .inr ⟨?_, .tooDeep, ?_⟩
      · simpa [Machine.errorCount, Machine.newError] using h
      · simpa [Machine.newError] using h
    case controlFlowBound => exact h

end Marmoset
