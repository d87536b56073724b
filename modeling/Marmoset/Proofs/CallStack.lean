import Marmoset.Proofs.OneError
import Marmoset.Proofs.Policy

/-!
Errors tell the call stack. The calls that are known of an error are those that were under way when
it was made, the innermost first: each frame that hands the error on adds its own call, and no frame
adds anything else.
-/

namespace Marmoset

namespace Activation

mutual

-- The activations of a tree in the order in which they end.
def ended : Activation → List Activation
  | mk k m ps r => endedIn ps ++ [mk k m ps r]

def endedIn : List Activation → List Activation
  | [] => []
  | p :: ps => p.ended ++ endedIn ps

end

-- The error is made while the activation runs.
def Makes (i : ErrorId) (u : Activation) : Prop :=
  u.start.errorCount ≤ i ∧ i < (Result.machine u.outcome).errorCount

instance : DecidablePred (Makes i) :=
  fun _ => instDecidableAnd

-- The activations that are under way when the error is made.
def underway (i : ErrorId) (u : Activation) : List Activation :=
  u.ended.filter (Makes i)

def underwayIn (i : ErrorId) (ps : List Activation) : List Activation :=
  (endedIn ps).filter (Makes i)

-- Each activation takes place in all those that follow it.
abbrev Nested (us : List Activation) : Prop :=
  us.Pairwise Within

variable {i : ErrorId} {u : Activation} {ps qs : List Activation}

mutual

theorem mem_ended : ∀ {t : Activation}, u ∈ t.ended ↔ u.Within t
  | mk k m ps r => by
    rw [ended, List.mem_append, List.mem_singleton, mem_endedIn]
    constructor
    case mp =>
      rintro (⟨p, hp, h⟩ | rfl)
      · exact .part hp h
      · exact .refl
    case mpr =>
      intro h
      cases h
      case refl => exact .inr rfl
      case part p h hp => exact .inl ⟨p, hp, h⟩

theorem mem_endedIn : ∀ {ps : List Activation}, u ∈ endedIn ps ↔ ∃ p ∈ ps, u.Within p
  | [] => by simp [endedIn]
  | p :: ps => by
    rw [endedIn, List.mem_append, mem_ended, mem_endedIn]
    simp

end

theorem endedIn_append : endedIn (ps ++ qs) = endedIn ps ++ endedIn qs := by
  induction ps
  case nil => rfl
  case cons hi => simp [endedIn, hi]

@[simp]
theorem underwayIn_nil : underwayIn i [] = [] :=
  rfl

@[simp]
theorem underwayIn_append : underwayIn i (ps ++ qs) = underwayIn i ps ++ underwayIn i qs := by
  simp [underwayIn, endedIn_append]

theorem underway_mk {k : Task} {m : Machine} {r : Result (Option Value)} :
    (mk k m ps r).underway i =
      underwayIn i ps ++ if Makes i (mk k m ps r) then [mk k m ps r] else [] := by
  simp only [underway, underwayIn, ended, List.filter_append]
  split
  case isTrue h => simp [h]
  case isFalse h => simp [h]

theorem underwayIn_singleton (u : Activation) : underwayIn i [u] = u.underway i := by
  simp [underwayIn, underway, endedIn]

-- What is under way in the parts is under way in the whole.
theorem Nested.whole {k : Task} {m : Machine} {r : Result (Option Value)}
    (h : Nested (underwayIn i ps)) : Nested (underwayIn i ps ++ [mk k m ps r]) := by
  refine List.pairwise_append.mpr ⟨h, List.pairwise_singleton _ _, fun u hu v hv => ?_⟩
  obtain rfl := List.mem_singleton.mp hv
  obtain ⟨p, hp, hu⟩ := mem_endedIn.mp (List.mem_filter.mp hu).left
  exact .part hp hu

end Activation

namespace Task

-- The call that a task is, if it gets into a function: the callee can be called, and there are as
-- many arguments as the function takes. A built-in function counts its arguments itself.
def entered? : Task → Option Call
  | call l (.builtin b) _ => some ⟨l, .builtin b⟩
  | call l (.function c) args =>
    if args.length = c.params.length then some ⟨l, .closure c⟩ else none
  | _ => none

end Task

-- What is known of an error where the tasks are under way.
structure Diagnostic.Tells (d : Diagnostic) (ts : List Task) : Prop where
  located : d.location.isSome
  trace : d.trace = ts.filterMap Task.entered?
  -- An error of a built-in function is placed where that is called.
  builtin : ∀ l b args, Task.call l (.builtin b) args ∈ ts →
    d.location = l ∧ d.trace.head? = some ⟨l, .builtin b⟩

namespace Diagnostic

variable {d : Diagnostic} {ts : List Task} {k : Task}

theorem tells_fresh (l : Location) (h : ∀ k ∈ ts, k.entered? = none) :
    (fresh (some l)).Tells ts where
  located := rfl
  trace := (List.filterMap_eq_nil_iff.mpr h).symm
  builtin := fun _ _ _ hm => nomatch h _ hm

theorem Tells.outside (h : d.Tells ts) (hk : k.entered? = none) : d.Tells (ts ++ [k]) where
  located := h.located
  trace := by simp [h.trace, hk]
  builtin := by
    intro l b args hm
    obtain hm | hm := List.mem_append.mp hm
    · exact h.builtin l b args hm
    · obtain rfl := List.mem_singleton.mp hm
      cases hk

theorem Tells.within {l : Option Location} {c : Closure} (h : d.Tells ts)
    (hk : k.entered? = some ⟨l, .closure c⟩) : (d.within l (.closure c)).Tells (ts ++ [k]) where
  located := h.located
  trace := by simp [Diagnostic.within, h.trace, hk]
  builtin := by
    intro l b args hm
    obtain hm | hm := List.mem_append.mp hm
    · have ⟨hl, ht⟩ := h.builtin l b args hm
      exact ⟨hl, by simp [Diagnostic.within, ht]⟩
    · obtain rfl := List.mem_singleton.mp hm
      cases hk

theorem tells_builtin (l : Location) (b : Builtin) (args : List Value) :
    (((fresh none).placed (some l)).within (some l) (.builtin b)).Tells
      [.call (some l) (.builtin b) args] where
  located := rfl
  trace := rfl
  builtin := by
    intro l b args hm
    cases List.mem_singleton.mp hm
    exact ⟨rfl, rfl⟩

end Diagnostic

theorem Machine.diagnostic_newError_self (m : Machine) (l : Option Location) :
    (m.newError l).2.diagnostic m.errorCount = .fresh l := by
  rw [diagnostic_newError]
  exact if_pos rfl

theorem Eval.machine_map (f : α → β) (x : Eval α) (m : Machine) :
    Result.machine ((f <$> x) m) = Result.machine (x m) := by
  simp only [Functor.map, EStateM.map]
  cases x m <;> rfl

namespace Policy

-- What an expression may come to where no error is made.
def Calm (v : Value) : Prop :=
  free.Yield v ∧ ∀ i f, v ≠ .error i f

variable {v : Value}

theorem Data.calm (h : free.Data v) : Calm v := by
  refine ⟨h.yield, ?_⟩
  rintro i f rfl
  cases h

theorem Data.calm_returned (h : free.Data v) : Calm (.returned v) :=
  ⟨.returned h, fun _ _ hn => Value.noConfusion hn⟩

theorem Calm.data (h : Calm v) (hp : v.isControlFlow = false) : free.Data v :=
  h.left.data hp

theorem Calm.unwrap (h : Calm v) : free.Data v.unwrap := by
  obtain ⟨h, hn⟩ := h
  cases v
  case returned =>
    cases h
    case answer h => exact absurd rfl h.ne_returned
    case returned h => exact h
  case error i f => exact absurd rfl (hn i f)
  all_goals exact h.data rfl

theorem Calm.some (h : Calm v) : ∀ w ∈ some v, Calm w := by
  rintro _ ⟨⟩
  exact h

theorem Calm.getD {r : Option Value} (h : ∀ v ∈ r, Calm v) : Calm (r.getD .null) := by
  cases r
  case none => exact Data.null.calm
  case some v => exact h v rfl

end Policy

open Policy

namespace Traced

-- The computation makes no error and comes to no error, or it makes one that it comes to. The error
-- tells of the tasks that are under way in the computation, and of those around it.
def Accounts (around : List Task) (Q : α → Prop) (result : Value → α) (x : Traced α) : Prop :=
  ∀ m, free.Admits m →
    let us := Activation.underwayIn m.errorCount (x.parts m)
    match x.outcome m with
    | .ok a m' => free.Admits m' ∧
      (m'.errorCount = m.errorCount ∧ us = [] ∧ Q a ∨
        m'.errorCount = m.errorCount + 1 ∧ (∃ f, a = result (.error m.errorCount f)) ∧
          Activation.Nested us ∧
          (m'.diagnostic m.errorCount).Tells (us.map Activation.task ++ around))
    | .error _ m' => m'.errorCount = m.errorCount ∧ us = []

namespace Accounts

open Activation

variable {around : List Task} {Q : α → Prop} {R : β → Prop} {result : Value → α}
  {first : Value → β} {x : Traced α} {m m' : Machine}

theorem of_ok (h : x.Accounts around Q result) (hm : free.Admits m) (he : x.outcome m = .ok a m') :
    free.Admits m' ∧
      (m'.errorCount = m.errorCount ∧ underwayIn m.errorCount (x.parts m) = [] ∧ Q a ∨
        m'.errorCount = m.errorCount + 1 ∧ (∃ f, a = result (.error m.errorCount f)) ∧
          Nested (underwayIn m.errorCount (x.parts m)) ∧
          (m'.diagnostic m.errorCount).Tells
            ((underwayIn m.errorCount (x.parts m)).map task ++ around)) := by
  have h := h m hm
  rwa [he] at h

theorem of_error (h : x.Accounts around Q result) (hm : free.Admits m)
    (he : x.outcome m = .error e m') :
    m'.errorCount = m.errorCount ∧ underwayIn m.errorCount (x.parts m) = [] := by
  have h := h m hm
  rwa [he] at h

protected theorem pure (h : Q a) : (pure a : Traced α).Accounts around Q result :=
  fun _ hm => ⟨hm, .inl ⟨rfl, rfl, h⟩⟩

-- An operation that fails does so at its own place, and no call has been left yet.
theorem settles {x : Eval Value} {l : Location} (h : x.Settles free (some l))
    (ha : ∀ k ∈ around, k.entered? = none) :
    (liftM x : Traced Value).Accounts around free.Data id := by
  intro m hm
  obtain ⟨m', hm', hd, ⟨v, hv, he⟩ | ⟨f, he⟩⟩ := h m hm <;> rw [outcome_lift, he]
  · exact ⟨hm', .inl ⟨congrArg Array.size hd, rfl, hv⟩⟩
  · have hc : m'.errorCount = m.errorCount := congrArg Array.size hd
    refine ⟨⟨hm'.bindings, hm'.printed⟩, .inr ⟨?_, ⟨f, ?_⟩, .nil, ?_⟩⟩
    · simp [Machine.newError, Machine.errorCount, hd]
    · exact congrArg (Value.error · f) hc
    · rw [← hc, Machine.diagnostic_newError_self]
      exact Diagnostic.tells_fresh l ha

-- A computation goes on only if what comes first has made no error.
protected theorem bind {y : Traced β} {f : β → Traced α} (hy : y.Accounts [] R first)
    (hf : ∀ b, R b → (f b).Accounts [] Q result)
    (hs : ∀ i k, f (first (.error i k)) = pure (result (.error i k))) :
    (y >>= f).Accounts [] Q result := by
  intro m hm
  cases he : y.outcome m
  case error e m' =>
    rw [parts_bind_of_error he, outcome_bind_of_error he]
    exact hy.of_error hm he
  case ok b m' =>
    rw [parts_bind_of_ok he, outcome_bind_of_ok he, underwayIn_append]
    obtain ⟨hm', ⟨hc, hu, hb⟩ | ⟨hc, ⟨k, rfl⟩, hn, ht⟩⟩ := hy.of_ok hm he
    case inl =>
      have h := hf b hb m' hm'
      rwa [hu, List.nil_append, ← hc]
    case inr =>
      rw [hs, parts_pure, underwayIn_nil, List.append_nil]
      exact ⟨hm', .inr ⟨hc, ⟨k, rfl⟩, hn, ht⟩⟩

theorem after {y : Eval β} {f : β → Traced α} (hy : y.Meets free.contract R) (hq : y.Quiet)
    (hf : ∀ b, R b → (f b).Accounts around Q result) :
    (liftM y >>= f).Accounts around Q result := by
  intro m hm
  have hy := hy m hm
  have hq := hq m
  cases he : (liftM y : Traced β).outcome m <;> rw [← outcome_lift y, he] at hy hq
  case error e m' =>
    rw [parts_bind_of_error he, outcome_bind_of_error he]
    exact ⟨hq, rfl⟩
  case ok b m' =>
    have h := hf b hy.right m' hy.left
    rw [parts_bind_of_ok he, outcome_bind_of_ok he, parts_lift, List.nil_append]
    rwa [show m'.errorCount = m.errorCount from hq] at h

theorem ite {c : Prop} [Decidable c] {y : Traced α} (hx : c → x.Accounts around Q result)
    (hy : ¬c → y.Accounts around Q result) :
    (if c then x else y).Accounts around Q result := by
  split
  case isTrue h => exact hx h
  case isFalse h => exact hy h

theorem mono {Q' : α → Prop} (hx : x.Accounts around Q result) (h : ∀ a, Q a → Q' a) :
    x.Accounts around Q' result := by
  intro m hm
  cases he : x.outcome m
  case error => exact hx.of_error hm he
  case ok =>
    have ⟨hm', hr⟩ := hx.of_ok hm he
    exact ⟨hm', hr.imp (fun ⟨hc, hu, hq⟩ => ⟨hc, hu, h _ hq⟩) id⟩

-- What is no call adds nothing to what an error tells.
theorem outside {k : Task} (hx : x.Accounts [] Q result) (hk : k.entered? = none) :
    x.Accounts [k] Q result := by
  intro m hm
  cases he : x.outcome m
  case error => exact hx.of_error hm he
  case ok =>
    have ⟨hm', hr⟩ := hx.of_ok hm he
    refine ⟨hm', hr.imp id fun ⟨hc, hf, hn, ht⟩ => ⟨hc, hf, hn, ?_⟩⟩
    rw [List.append_nil] at ht
    exact ht.outside hk

-- A recorded evaluation is under way itself while it makes an error.
theorem record {k : Task} {f : α → Option Value} (hx : x.Accounts [k] Q result) :
    (Traced.record k f x).Accounts [] Q result := by
  intro m hm
  have hk : Makes m.errorCount (.mk k m (x.parts m) ((f <$> x.outcome) m)) ↔
      m.errorCount < (Result.machine (x.outcome m)).errorCount := by
    simp [Makes, start, Activation.outcome, Eval.machine_map]
  rw [outcome_record, parts_record, underwayIn_singleton, underway_mk]
  simp only [hk]
  cases he : x.outcome m
  case error e m' =>
    obtain ⟨hc, hu⟩ := hx.of_error hm he
    simp [hu, hc, Result.machine]
  case ok a m' =>
    obtain ⟨hm', hr⟩ := hx.of_ok hm he
    obtain ⟨hc, hu, hq⟩ | ⟨hc, hf, hn, ht⟩ := hr
    case inl => exact ⟨hm', .inl ⟨hc, by simp [hu, hc, Result.machine], hq⟩⟩
    case inr =>
      rw [if_pos (by simp [hc, Result.machine]), List.append_nil, List.map_append]
      exact ⟨hm', .inr ⟨hc, hf, hn.whole, ht⟩⟩

end Accounts

end Traced

namespace Builtin

-- A built-in function is called: its errors are placed, and their trace begins.
theorem call_accounts (frames : Nat) (l : Location) (b : Builtin) {args : List Value}
    (ha : ∀ v ∈ args, free.Data v) :
    (liftM (Eval.callBuiltin frames (some l) b args) : Traced Value).Accounts
      [.call (some l) (.builtin b) args] free.Data id := by
  intro m hm
  rw [Traced.outcome_lift]
  obtain ⟨m', hm', hd, ⟨v, hv, he⟩ | ⟨f, he⟩⟩ := b.apply_settles frames ha m hm
  case inl =>
    have hc : Eval.callBuiltin frames (some l) b args m = .ok v m' := by
      rw [Eval.callBuiltin, Eval.bind_of_ok he]
      cases hv <;> rfl
    rw [hc]
    exact ⟨hm', .inl ⟨congrArg Array.size hd, rfl, hv⟩⟩
  case inr =>
    have hs : m'.errorCount = m.errorCount := congrArg Array.size hd
    let d : Diagnostic → Diagnostic := fun d => (d.placed (some l)).within (some l) (.builtin b)
    have hc : Eval.callBuiltin frames (some l) b args m =
        .ok (.error m'.errorCount f) ((m'.newError none).2.annotate m'.errorCount d) := by
      rw [Eval.callBuiltin, Eval.bind_of_ok he]
      rfl
    rw [hc]
    refine ⟨⟨hm'.bindings, hm'.printed⟩, .inr ⟨?_, ⟨f, by rw [hs]; rfl⟩, .nil, ?_⟩⟩
    · rw [Machine.errorCount_annotate, ← hs]
      simp [Machine.errorCount, Machine.newError]
    · have hl : m'.errorCount < (m'.newError none).2.diagnostics.size := by
        simp [Machine.errorCount, Machine.newError]
      rw [← hs, Machine.diagnostic_annotate hl, if_pos rfl, Machine.diagnostic_newError_self]
      exact Diagnostic.tells_builtin l b args

end Builtin

namespace Traced

-- The body of a function has been run: an error in it passes through the call.
theorem Accounts.leave {x : Traced (Option Value)} {c : Closure} {args : List Value}
    (hx : x.Accounts [] (fun r => ∀ v ∈ r, Calm v) some) (l : Location)
    (ha : args.length = c.params.length) :
    (x >>= fun r => liftM (Eval.leave (some l) c r)).Accounts
      [.call (some l) (.function c) args] free.Data id := by
  intro m hm
  rw [parts_bind_lift]
  cases he : x.outcome m
  case error e m' =>
    rw [outcome_bind_of_error he]
    exact hx.of_error hm he
  case ok r m' =>
    rw [outcome_bind_of_ok he, outcome_lift]
    obtain ⟨hm', ⟨hc, hu, hr⟩ | ⟨hc, ⟨f, rfl⟩, hn, ht⟩⟩ := hx.of_ok hm he
    case inl =>
      have hl : Eval.leave (some l) c r m' = .ok (r.getD .null).unwrap m' := by
        cases r
        case none => rfl
        case some v =>
          cases v
          case error i f => exact absurd rfl ((hr _ rfl).right i f)
          all_goals rfl
      rw [hl]
      exact ⟨hm', .inl ⟨hc, hu, (Calm.getD hr).unwrap⟩⟩
    case inr =>
      have hi : m.errorCount < m'.diagnostics.size := by
        rw [show m'.diagnostics.size = _ from hc]
        exact Nat.lt_succ_self _
      have hk : (Task.call (some l) (.function c) args).entered? = some ⟨some l, .closure c⟩ :=
        if_pos ha
      refine ⟨⟨hm'.bindings, hm'.printed⟩,
        .inr ⟨(m'.errorCount_annotate ..).trans hc, ⟨f, rfl⟩, hn, ?_⟩⟩
      rw [List.append_nil] at ht
      rw [Machine.diagnostic_annotate hi, if_pos rfl]
      exact ht.within hk

end Traced

namespace Evaluator

open Traced Eval

-- Calls are made by call expressions, which have a place.
structure Accounts (E : Evaluator Traced) : Prop where
  expr : ∀ s e, (E.expr s e).Accounts [] Calm id
  block : ∀ s b, (E.block s b).Accounts [] (fun r => ∀ v ∈ r, Calm v) some
  stmt : ∀ s x, (E.stmt s x).Accounts [] (fun r => ∀ v ∈ r, Calm v) some
  call : ∀ l f args, free.Data f → (∀ v ∈ args, free.Data v) →
    (E.call (some l) f args).Accounts [] free.Data id

theorem plain_accounts {x : Traced Value} {next : Value → Traced Value}
    (hx : x.Accounts [] Calm id) (hn : ∀ v, free.Data v → (next v).Accounts [] Calm id) :
    (plain x next).Accounts [] Calm id :=
  hx.bind (fun v hv => .ite (fun _ => .pure hv) fun hp => hn v (hv.data (by simpa using hp)))
    fun _ _ => rfl

theorem plains_accounts {eval : α → Traced Value} {xs : List α} {next : List Value → Traced Value}
    (hx : ∀ x, (eval x).Accounts [] Calm id)
    (hn : ∀ vs, (∀ v ∈ vs, free.Data v) → (next vs).Accounts [] Calm id) :
    (plains eval xs next).Accounts [] Calm id := by
  induction xs generalizing next
  case nil => exact hn [] nofun
  case cons x xs hi =>
    refine plain_accounts (hx x) fun v hv => hi fun vs hvs => hn (v :: vs) ?_
    exact List.forall_mem_cons.mpr ⟨hv, hvs⟩

theorem entries_accounts {eval : Expr → Traced Value} {es : List (Expr × Expr)}
    {ps : Assoc Value Value} (hx : ∀ e, (eval e).Accounts [] Calm id)
    (hps : ∀ p ∈ ps, (p.1.isHashable ∧ free.Data p.1) ∧ free.Data p.2) :
    (entries eval es ps fun ps => liftM (newHash ps)).Accounts [] Calm id := by
  induction es generalizing ps
  case nil =>
    have hs := Accounts.settles (l := .start) (newHash_settles hps) (List.forall_mem_nil _)
    exact hs.mono fun _ => Data.calm
  case cons e es hi =>
    refine plain_accounts (hx e.1) fun k hk => .ite (fun hh => ?_) fun _ => ?_
    · refine plain_accounts (hx e.2) fun v hv => hi ?_
      exact Assoc.forall_mem_insert (P := fun k : Value => k.isHashable ∧ free.Data k) hps
        ⟨hh, hk⟩ hv
    · exact (Accounts.settles (fail_settles _ _) (List.forall_mem_nil _)).mono fun _ => Data.calm

theorem sequence_accounts {run : Stmt → Traced (Option Value)} {last : Option Value}
    {ss : List Stmt} (hr : ∀ x, (run x).Accounts [] (fun r => ∀ v ∈ r, Calm v) some)
    (hl : ∀ v ∈ last, Calm v) :
    (sequence run last ss).Accounts [] (fun r => ∀ v ∈ r, Calm v) some := by
  induction ss generalizing last
  case nil => exact .pure hl
  case cons x ss hi =>
    exact (hr x).bind (fun r hr => .ite (fun _ => .pure hr) fun _ => hi hr) fun _ _ => rfl

theorem orNull_accounts {x : Traced (Option Value)}
    (hx : x.Accounts [] (fun r => ∀ v ∈ r, Calm v) some) : (orNull x).Accounts [] Calm id :=
  hx.bind (fun _ hr => .pure (Calm.getD hr)) fun _ _ => rfl

namespace Accounts

variable {E : Evaluator Traced} (h : E.Accounts)
include h

theorem exprStep (s : Scope) (e : Expr) : (E.exprStep s e).Accounts [] Calm id := by
  have settled {l : Location} {x : Eval Value} (hx : x.Settles free (some l)) :
      (liftM x : Traced Value).Accounts [] Calm id :=
    (Accounts.settles hx (List.forall_mem_nil _)).mono fun _ => Data.calm
  cases e
  case ident => exact settled (name_settles _ _ _)
  case int | string | bool => exact .pure (Data.calm (by constructor))
  case prefixOp =>
    exact plain_accounts (h.expr s _) fun v _ =>
      settled (ofResult_settles _ fun _ => PrefixOp.data_apply)
  case infixOp =>
    exact plain_accounts (h.expr s _) fun v _ => plain_accounts (h.expr s _) fun w _ =>
      settled (ofResult_settles _ fun _ => InfixOp.data_apply)
  case cond l c b a =>
    refine plain_accounts (h.expr s c) fun v _ =>
      .ite (fun _ => orNull_accounts (h.block s b)) fun _ => ?_
    cases a
    case none => exact .pure Data.null.calm
    case some a => exact orNull_accounts (h.block s a)
  case fn => exact settled (newFunction_settles free_lawful s trivial)
  case call l f as =>
    exact plain_accounts (h.expr s f) fun f hf => plains_accounts (h.expr s) fun vs hvs =>
      (h.call l f vs hf hvs).mono fun _ => Data.calm
  case array l es =>
    exact plains_accounts (h.expr s) fun vs hvs => settled (l := l) (newArray_settles hvs)
  case hash => exact entries_accounts (h.expr s) nofun
  case index =>
    exact plain_accounts (h.expr s _) fun v hv => plain_accounts (h.expr s _) fun k _ =>
      settled (ofResult_settles _ fun _ => Value.data_get hv)

theorem stmtStep (s : Scope) (x : Stmt) :
    (E.stmtStep s x).Accounts [] (fun r => ∀ v ∈ r, Calm v) some := by
  cases x
  case bind l b e =>
    refine (h.expr s e).bind (fun v hv => .ite (fun _ => .pure hv.some) fun hp => ?_)
      fun _ _ => rfl
    have hd := hv.data (by simpa using hp)
    exact .after (define_governed s b.name hd) (define_quiet s b.name v) fun _ _ => .pure nofun
  case ret l e =>
    refine (h.expr s e).bind (fun v hv => .ite (fun _ => .pure hv.some) fun hp => ?_)
      fun _ _ => rfl
    have hd := hv.data (by simpa using hp)
    exact .pure hd.calm_returned.some
  case expr e => exact (h.expr s e).bind (fun v hv => .pure hv.some) fun _ _ => rfl

theorem callStep (frames : Nat) (l : Location) (f : Value) (args : List Value)
    (hf : free.Data f) (ha : ∀ v ∈ args, free.Data v) :
    (E.callStep frames (some l) f args).Accounts [.call (some l) f args] free.Data id := by
  cases f
  case builtin b => exact b.call_accounts frames l ha
  case function c =>
    refine .ite (fun hn => ?_) fun hn => ?_
    · exact .after (enter_governed c ha) (enter_quiet c args) fun s _ =>
        Accounts.leave (h.block s c.body) l hn
    · refine .settles (fail_settles (some l) _) (List.forall_mem_singleton.mpr ?_)
      exact if_neg hn
  all_goals exact .settles (fail_settles (some l) _) (List.forall_mem_singleton.mpr rfl)

end Accounts

theorem Accounts.recorded {E : Evaluator Traced} (h : E.Accounts) (frames : Nat) :
    (E.step frames).recorded.Accounts where
  expr s e := ((h.exprStep s e).outside rfl).record
  block s b := ((sequence_accounts (h.stmt s) (by simp)).outside rfl).record
  stmt s x := ((h.stmtStep s x).outside rfl).record
  call l f args hf ha := (h.callStep frames l f args hf ha).record

end Evaluator

theorem Traced.within_accounts (frames : Nat) : (Traced.within frames).Accounts := by
  induction frames
  case zero =>
    have h {α} {Q : α → Prop} {result : Value → α} :
        (liftM (m := Eval) Eval.tooDeep : Traced α).Accounts [] Q result :=
      fun _ _ => ⟨rfl, rfl⟩
    exact ⟨fun _ _ => h, fun _ _ => h, fun _ _ => h, fun _ _ _ _ _ => h⟩
  case succ n hi => exact hi.recorded n

namespace Program

-- A program comes to data without making an error, or to the one error that it makes.
theorem eval_accounts {frames : Nat} {s : Scope} {p : Program} {m m' : Machine}
    (hm : free.Admits m) (he : p.eval frames s m = .ok r m') :
    let us := (p.activation frames s m).underway m.errorCount
    m'.errorCount = m.errorCount ∧ (∀ v ∈ r, free.Data v) ∨
      m'.errorCount = m.errorCount + 1 ∧ (∃ f, r = some (.error m.errorCount f)) ∧
        Activation.Nested us ∧ (m'.diagnostic m.errorCount).Tells (us.map Activation.task) := by
  have hs : (Evaluator.sequence ((Traced.within frames).stmt s) none p.statements).Accounts []
      (fun r => ∀ v ∈ r, Calm v) some :=
    Evaluator.sequence_accounts ((Traced.within_accounts frames).stmt s) (by simp)
  have hx := congrFun (p.outcome_statements frames s) m
  have hu (hc : m'.errorCount = m.errorCount + 1) :
      (p.activation frames s m).underway m.errorCount = Activation.underwayIn m.errorCount
        ((Evaluator.sequence ((Traced.within frames).stmt s) none p.statements).parts m) ++
          [p.activation frames s m] := by
    rw [activation, Activation.underway_mk, if_pos]
    refine ⟨Nat.le_refl _, ?_⟩
    rw [Activation.outcome, he]
    exact Nat.lt_of_succ_le (Nat.le_of_eq hc.symm)
  unfold eval at he
  cases hr : Evaluator.sequence (Eval.stmt frames s) none p.statements m <;> rw [hr] at he hx
  case ok r' n =>
    cases he
    obtain ⟨_, ⟨hc, _, hq⟩ | ⟨hc, ⟨f, rfl⟩, hn, ht⟩⟩ := hs.of_ok hm hx
    case inl =>
      refine .inl ⟨hc, fun v hv => ?_⟩
      obtain ⟨w, hw, rfl⟩ := Option.map_eq_some_iff.mp hv
      exact (hq w hw).unwrap
    case inr =>
      rw [List.append_nil] at ht
      simp only [hu hc, List.map_append]
      exact .inr ⟨hc, ⟨f, rfl⟩, hn.whole, ht.outside rfl⟩
  case error a n =>
    obtain ⟨hc, hn⟩ := hs.of_error hm hx
    cases a
    case tooDeep =>
      cases he
      have hc' : (n.newError (some p.location)).2.errorCount = m.errorCount + 1 := by
        simp [Machine.errorCount, Machine.newError, hc]
      simp only [hu hc', hn, List.nil_append]
      refine .inr ⟨hc', ⟨.tooDeep, ?_⟩, List.pairwise_singleton _ _, ?_⟩
      · exact congrArg (some <| Value.error · _) hc
      · rw [← hc, Machine.diagnostic_newError_self]
        exact Diagnostic.tells_fresh _ (List.forall_mem_singleton.mpr rfl)
    case controlFlowBound => cases he

end Program

end Marmoset
