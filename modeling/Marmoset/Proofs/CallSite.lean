import Marmoset.Proofs.CallStack
import Marmoset.Proofs.Data
import Marmoset.Proofs.Standing

/-!
Where calls are made. Every call in a run is made by a call expression that stands in the text, and
its place is that of the parenthesis behind the callee. So an error of a run tells which calls in
the text it was made in (`evalSource_trace`).
-/

namespace Marmoset

namespace Traced

-- All that the computation evaluates itself has the property.
def Consists (T : Task → Prop) (x : Traced α) : Prop :=
  ∀ m, ∀ p ∈ x.parts m, T p.task

namespace Consists

variable {T : Task → Prop} {x : Traced α} {f : α → Traced β}

protected theorem pure (a : α) : (pure a : Traced α).Consists T :=
  fun _ _ hp => nomatch hp

theorem lift (x : Eval α) : (liftM x : Traced α).Consists T :=
  fun _ _ hp => nomatch hp

protected theorem bind (hx : x.Consists T) (hf : ∀ a, (f a).Consists T) :
    (x >>= f).Consists T := by
  intro m p hp
  cases he : x.outcome m
  case ok a m' =>
    rw [parts_bind_of_ok he, List.mem_append] at hp
    exact hp.elim (hx m p) (hf a m' p)
  case error =>
    rw [parts_bind_of_error he] at hp
    exact hx m p hp

theorem ite {c : Prop} [Decidable c] {y : Traced α} (hx : x.Consists T) (hy : y.Consists T) :
    (if c then x else y).Consists T := by
  split
  · exact hx
  · exact hy

end Consists

end Traced

namespace Evaluator

open Traced

-- The evaluator lists what it evaluates, and nothing else.
structure Lists (E : Evaluator Traced) : Prop where
  expr : ∀ s e, (E.expr s e).Consists (· = .expr s e)
  block : ∀ s b, (E.block s b).Consists (· = .block s b)
  stmt : ∀ s x, (E.stmt s x).Consists (· = .stmt s x)
  call : ∀ l f args, (E.call l f args).Consists (· = .call l f args)

theorem recorded_lists (E : Evaluator Traced) : E.recorded.Lists where
  expr _ _ _ _ hp := by cases List.mem_singleton.mp hp; rfl
  block _ _ _ _ hp := by cases List.mem_singleton.mp hp; rfl
  stmt _ _ _ _ hp := by cases List.mem_singleton.mp hp; rfl
  call _ _ _ _ _ hp := by cases List.mem_singleton.mp hp; rfl

theorem exhausted_lists : (exhausted : Evaluator Traced).Lists where
  expr _ _ := .lift _
  block _ _ := .lift _
  stmt _ _ := .lift _
  call _ _ _ := .lift _

variable {T : Task → Prop}

theorem plain_consists {x : Traced Value} {next : Value → Traced Value} (hx : x.Consists T)
    (hn : ∀ v, (next v).Consists T) : (plain x next).Consists T :=
  hx.bind fun v => .ite (.pure v) (hn v)

theorem plains_consists {eval : α → Traced Value} {xs : List α} {next : List Value → Traced Value}
    (hx : ∀ x, (eval x).Consists T) (hn : ∀ vs, (next vs).Consists T) :
    (plains eval xs next).Consists T := by
  induction xs generalizing next
  case nil => exact hn []
  case cons x xs hi => exact plain_consists (hx x) fun v => hi fun vs => hn (v :: vs)

theorem entries_consists {eval : Expr → Traced Value} {es : List (Expr × Expr)}
    {ps : Assoc Value Value} {next : Assoc Value Value → Traced Value}
    (hx : ∀ e, (eval e).Consists T) (hn : ∀ ps, (next ps).Consists T) :
    (entries eval es ps next).Consists T := by
  induction es generalizing ps
  case nil => exact hn ps
  case cons e es hi =>
    exact plain_consists (hx e.1) fun k => .ite (plain_consists (hx e.2) fun v => hi) (.lift _)

theorem sequence_consists {run : Stmt → Traced (Option Value)} {last : Option Value}
    {ss : List Stmt} (hr : ∀ x, (run x).Consists T) : (sequence run last ss).Consists T := by
  induction ss generalizing last
  case nil => exact .pure last
  case cons x ss hi => exact (hr x).bind fun r => .ite (.pure r) hi

theorem orNull_consists {x : Traced (Option Value)} (hx : x.Consists T) : (orNull x).Consists T :=
  hx.bind fun _ => .pure _

end Evaluator

-- Only call expressions make calls, and a call has the place of its expression.
def Activation.CallsInPlace (t : Activation) : Prop :=
  ∀ p ∈ t.parts, ∀ l v args, p.task = .call l v args →
    ∃ s o f as, t.task = .expr s (.call o f as) ∧ l = some o

namespace Evaluator

open Traced

namespace Lists

variable {E : Evaluator Traced} (h : E.Lists)
include h

-- A task that may be evaluated as a part of the expression, as far as calls are concerned.
theorem exprStep (s : Scope) (e : Expr) :
    (E.exprStep s e).Consists fun k =>
      ∀ l v args, k = .call l v args → ∃ o f as, e = .call o f as ∧ l = some o := by
  have inner (e' : Expr) : (E.expr s e').Consists fun k =>
      ∀ l v args, k = .call l v args → ∃ o f as, e = .call o f as ∧ l = some o :=
    fun m p hp _ _ _ hk => nomatch (h.expr s e' m p hp).symm.trans hk
  have block (b : Block) : (E.block s b).Consists fun k =>
      ∀ l v args, k = .call l v args → ∃ o f as, e = .call o f as ∧ l = some o :=
    fun m p hp _ _ _ hk => nomatch (h.block s b m p hp).symm.trans hk
  cases e
  case ident | fn => exact .lift _
  case int | string | bool => exact .pure _
  case prefixOp => exact plain_consists (inner _) fun _ => .lift _
  case infixOp | index =>
    exact plain_consists (inner _) fun _ => plain_consists (inner _) fun _ => .lift _
  case cond l c b a =>
    refine plain_consists (inner c) fun v => .ite (orNull_consists (block b)) ?_
    cases a
    case none => exact .pure _
    case some a => exact orNull_consists (block a)
  case call o f as =>
    refine plain_consists (inner f) fun v => plains_consists inner fun vs m p hp l v args hk => ?_
    cases (h.call (some o) _ vs m p hp).symm.trans hk
    exact ⟨o, f, as, rfl, rfl⟩
  case array => exact plains_consists inner fun _ => .lift _
  case hash => exact entries_consists inner fun _ => .lift _

theorem stmtStep (s : Scope) (x : Stmt) :
    (E.stmtStep s x).Consists fun k => ∀ l v args, k ≠ .call l v args := by
  have inner (e : Expr) : (E.expr s e).Consists fun k => ∀ l v args, k ≠ .call l v args :=
    fun m p hp _ _ _ hk => nomatch (h.expr s e m p hp).symm.trans hk
  cases x
  case bind =>
    exact (inner _).bind fun v => .ite (.pure _) (Traced.Consists.bind (.lift _) fun _ => .pure _)
  case ret => exact (inner _).bind fun v => .ite (.pure _) (.pure _)
  case expr => exact (inner _).bind fun v => .pure _

theorem callStep (frames : Nat) (l : Option Location) (f : Value) (args : List Value) :
    (E.callStep frames l f args).Consists fun k => ∀ l v args, k ≠ .call l v args := by
  have inner (s : Scope) (b : Block) :
      (E.block s b).Consists fun k => ∀ l v args, k ≠ .call l v args :=
    fun m p hp _ _ _ hk => nomatch (h.block s b m p hp).symm.trans hk
  cases f
  case function c =>
    exact .ite (Traced.Consists.bind (.lift _) fun s => (inner s _).bind fun r => .lift _) (.lift _)
  all_goals exact .lift _

theorem sequence (s : Scope) (xs : List Stmt) (last : Option Value) :
    (Evaluator.sequence (E.stmt s) last xs).Consists fun k => ∀ l v args, k ≠ .call l v args :=
  sequence_consists fun x m p hp _ _ _ hk => nomatch (h.stmt s x m p hp).symm.trans hk

theorem frames (frames : Nat) : (E.step frames).Frames Activation.CallsInPlace where
  expr s e m p hp l v args hk := by
    obtain ⟨o, f, as, rfl, hl⟩ := h.exprStep s e m p hp l v args hk
    exact ⟨s, o, f, as, rfl, hl⟩
  block s b m p hp l v args hk := absurd hk (h.sequence s b.statements none m p hp l v args)
  stmt s x m p hp l v args hk := absurd hk (h.stmtStep s x m p hp l v args)
  call l f args m p hp l' v args' hk := absurd hk (h.callStep frames l f args m p hp l' v args')

end Lists

end Evaluator

theorem Traced.within_lists (n : Nat) : (Traced.within n).Lists := by
  cases n
  case zero => exact Evaluator.exhausted_lists
  case succ n => exact Evaluator.recorded_lists _

theorem Program.callsInPlace_of_within {frames : Nat} {s : Scope} {p : Program} {m : Machine}
    {u : Activation} (hu : u.Within (p.activation frames s m)) : u.CallsInPlace :=
  forall_within_activation (fun n => (Traced.within_lists n).frames n)
    (fun q hq l v args hk =>
      absurd hk ((Traced.within_lists frames).sequence s p.statements none m q hq l v args)) hu

theorem Activation.Within.eq_or_part {u t : Activation} (h : u.Within t) :
    u = t ∨ ∃ w : Activation, w.Within t ∧ u ∈ w.parts := by
  induction h
  case refl => exact .inl rfl
  case part t hp _ hi =>
    obtain rfl | ⟨w, hw, hu⟩ := hi
    · exact .inr ⟨t, .refl, hp⟩
    · exact .inr ⟨w, .part hp hw, hu⟩

theorem Task.entered?_eq_some {k : Task} {c : Call} (h : k.entered? = some c) :
    ∃ v args, k = .call c.location v args := by
  unfold entered? at h
  split at h
  case h_1 => cases h; exact ⟨_, _, rfl⟩
  case h_2 =>
    split at h <;> cases h
    exact ⟨_, _, rfl⟩
  case h_3 => cases h

theorem eval_of_evalSource {frames : Nat} {s : Scope} {source : String} {r : Option Value}
    {m m' : Machine} (h : evalSource frames s source m = .ok (.ok r) m') :
    (parse frames source).errors = [] ∧
      (parse frames source).program.eval frames s m = .ok r m' := by
  cases he : (parse frames source).errors <;> simp only [evalSource, he] at h
  case nil =>
    refine ⟨rfl, ?_⟩
    cases hr : (parse frames source).program.eval frames s m
    case ok =>
      rw [Eval.bind_of_ok hr] at h
      cases h
      rfl
    case error =>
      rw [Eval.bind_of_error hr] at h
      cases h
  case cons => cases h

-- If a text comes to an error, it knows the calls that were under way when it was made, and nothing
-- else. The innermost comes first, for each activation under way takes place in those that follow.
-- Each call has been made by a call expression of the text, and its place is the parenthesis there.
theorem evalSource_trace (frames : Nat) {source : String} {i : ErrorId} {f : Fault} {m : Machine}
    (h : evalSource frames Session.scope source Session.start =
      .ok (.ok (some (.error i f))) m) :
    let run := (parse frames source).program.activation frames Session.scope Session.start
    let us := run.underway i
    let d := m.diagnostic i
    Activation.Nested us ∧ d.Tells (us.map Activation.task) ∧
    ∀ c ∈ d.trace, ∃ (t u : Activation) (s : Scope) (o : Location) (callee : Expr)
        (args : List Expr),
      t.Within run ∧ u ∈ t.parts ∧ u ∈ us ∧ u.task.entered? = some c ∧
      t.task = .expr s (.call o callee args) ∧ c.location = some o ∧
      CallStandsIn (TokenStream.ofSource source).pending o callee args := by
  intro run us d
  obtain ⟨he, hr⟩ := eval_of_evalSource h
  obtain ⟨_, hd⟩ | ⟨_, ⟨_, hf⟩, hn, ht⟩ := Program.eval_accounts (Session.start_admits .free) hr
  case inl => nomatch hd _ rfl
  obtain rfl : i = Session.start.errorCount := by
    cases hf
    rfl
  refine ⟨hn, ht, fun c hc => ?_⟩
  rw [ht.trace, List.mem_filterMap] at hc
  obtain ⟨k, hk, hc⟩ := hc
  obtain ⟨u, hu, rfl⟩ := List.mem_map.mp hk
  obtain ⟨v, args, hv⟩ := Task.entered?_eq_some hc
  have hw := Activation.mem_ended.mp (List.mem_filter.mp hu).left
  obtain rfl | ⟨t, hw, hp⟩ := hw.eq_or_part
  case inl => cases hv
  case inr =>
    obtain ⟨s, o, f, as, hs, ho⟩ := Program.callsInPlace_of_within hw u hp _ _ _ hv
    have hg := (Program.standing_of_within he (Session.start_admits _) hw).task
    rw [hs] at hg
    exact ⟨t, u, s, o, f, as, hw, hp, hu, hc, hs, ho, hg.call⟩

-- The first call of `f` is made for an argument of the second one, which has not begun when `len`
-- fails; both calls of `puts` have ended.
def failingArgument : String :=
  "let f = fn(x) \x7b puts(x); len(x) \x7d;\nlet g = fn(x) \x7b puts(); f(f(x)) \x7d;\ng(1)"

-- The run has come to the first error that was made.
def Result.isFirstError : Result (Except SyntaxError (Option Value)) → Bool
  | .ok (.ok (some (.error 0 _))) _ => true
  | _ => false

theorem Result.eq_of_isFirstError {r : Result (Except SyntaxError (Option Value))}
    (h : r.isFirstError) : ∃ f, r = .ok (.ok (some (.error 0 f))) r.machine := by
  unfold isFirstError at h
  split at h
  case h_1 => exact ⟨_, rfl⟩
  case h_2 => cases h

theorem evalSource_trace_argument :
    let r := evalSource defaultFrames Session.scope failingArgument Session.start
    let run := (parse defaultFrames failingArgument).program.activation defaultFrames Session.scope
      Session.start
    let d := (Result.machine r).diagnostic 0
    d.location = some ⟨1, 29⟩ ∧
    d.trace.map (·.location) = [some ⟨1, 29⟩, some ⟨2, 28⟩, some ⟨3, 2⟩] ∧
    Activation.Nested (run.underway 0) ∧ d.Tells ((run.underway 0).map Activation.task) := by
  obtain ⟨f, h⟩ := Result.eq_of_isFirstError
    (r := evalSource defaultFrames Session.scope failingArgument Session.start) (by decide +kernel)
  obtain ⟨hn, ht, -⟩ := evalSource_trace defaultFrames h
  exact ⟨by decide +kernel, by decide +kernel, hn, ht⟩

end Marmoset
