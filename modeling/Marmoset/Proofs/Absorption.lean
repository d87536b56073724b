import Marmoset.Proofs.Contract
import Marmoset.Proofs.OneError

/-!
Control flow absorbs what comes after it. Where a part of a run comes to it, the run makes no
further evaluation and hands it on: an error to the very end, a returned value to the call or
program that it belongs to.
-/

namespace Marmoset

namespace Activation

variable {t u p : Activation} {ps qs later : List Activation}

-- No part comes to control flow.
def Clear (ps : List Activation) : Prop :=
  ∀ p ∈ ps, ∀ v m, p.outcome = .ok (some v) m → v.isControlFlow = false

theorem Clear.append (hp : Clear ps) (hq : Clear qs) : Clear (ps ++ qs) := by
  intro p h
  cases List.mem_append.mp h
  case inl h => exact hp p h
  case inr h => exact hq p h

end Activation

namespace Task

-- What control flow in the last part of a task comes to.
def handOn : Task → Value → Machine → Result (Option Value)
  | call l (.function c) _, v, m => (some <$> Eval.leave l c (some v)) m
  | call .., v, m | program .., v, m => .ok (some v.unwrap) m
  | _, v, m => .ok (some v) m

end Task

-- Control flow in a part leaves nothing to evaluate, and it is handed on.
def Activation.HandsOn (t : Activation) : Prop :=
  ∀ ps p qs v m, t.parts = ps ++ p :: qs → p.outcome = .ok (some v) m → v.isControlFlow →
    qs = [] ∧ t.outcome = t.task.handOn v m

theorem Activation.handsOn_of_parts_eq_nil {t : Activation} (h : t.parts = []) : t.HandsOn :=
  fun _ _ _ _ _ hp => by simp [h] at hp

namespace Traced

variable {result : Value → α} {x : Traced α} {m : Machine}

-- The last part has come to control flow, and so does the whole.
def Stopped (result : Value → α) (x : Traced α) (m : Machine) : Prop :=
  ∃ ps p v m', x.parts m = ps ++ [p] ∧ Activation.Clear ps ∧ p.outcome = .ok (some v) m' ∧
    v.isControlFlow ∧ x.outcome m = .ok (result v) m'

def Absorbs (result : Value → α) (x : Traced α) : Prop :=
  ∀ m, Activation.Clear (x.parts m) ∨ x.Stopped result m

namespace Absorbs

theorem lift (x : Eval α) : (liftM x : Traced α).Absorbs result :=
  fun _ => .inl (by simp [Activation.Clear])

protected theorem pure (a : α) : (pure a : Traced α).Absorbs result :=
  fun _ => .inl (by simp [Activation.Clear])

-- A computation goes on only if what comes first did not come to control flow.
protected theorem bind {first : Value → β} {y : Traced β} {f : β → Traced α}
    (hy : y.Absorbs first) (hf : ∀ b, (f b).Absorbs result)
    (hs : ∀ v, v.isControlFlow → f (first v) = pure (result v)) :
    (y >>= f).Absorbs result := by
  intro m
  cases he : y.outcome m
  case ok b m' =>
    rw [Stopped, parts_bind_of_ok he, outcome_bind_of_ok he]
    cases hy m
    case inl hc =>
      refine (hf b m').imp hc.append ?_
      rintro ⟨ps, p, v, m'', hp, hcp, h⟩
      exact ⟨y.parts m ++ ps, p, v, m'', by simp [hp], hc.append hcp, h⟩
    case inr hs' =>
      obtain ⟨ps, p, v, m'', hp, hcp, hv, hc, hr⟩ := hs'
      cases he.symm.trans hr
      rw [hs v hc]
      exact .inr ⟨ps, p, v, m', by simp [hp], hcp, hv, hc, rfl⟩
  case error e m' =>
    rw [Stopped, parts_bind_of_error he, outcome_bind_of_error he]
    refine (hy m).imp id ?_
    rintro ⟨_, _, _, _, -, -, -, -, hr⟩
    cases he.symm.trans hr

theorem lift_bind (y : Eval β) {f : β → Traced α} (hf : ∀ b, (f b).Absorbs result) :
    (liftM y >>= f).Absorbs result := by
  intro m
  cases he : (liftM y : Traced β).outcome m
  case ok b m' =>
    rw [Stopped, parts_bind_of_ok he, outcome_bind_of_ok he]
    exact hf b m'
  case error e m' =>
    rw [parts_bind_of_error he]
    exact .inl (by simp [Activation.Clear])

theorem ite {c : Prop} [Decidable c] {y : Traced α} (hx : x.Absorbs result)
    (hy : y.Absorbs result) : (if c then x else y).Absorbs result := by
  split
  · exact hx
  · exact hy

-- A recorded evaluation is its own single part.
theorem record {k : Task} {f : α → Option Value} (hf : ∀ a v, f a = some v → a = result v) :
    (Traced.record k f x).Absorbs result := by
  intro m
  by_cases hc : Activation.Clear ((Traced.record k f x).parts m)
  case pos => exact .inl hc
  case neg =>
    simp only [parts_record, Activation.Clear, List.mem_singleton, Classical.not_forall] at hc
    obtain ⟨p, rfl, v, m', he, hv⟩ := hc
    refine .inr ⟨[], _, v, m', rfl, by simp [Activation.Clear], he, by simpa using hv, ?_⟩
    simp only [Activation.outcome, Functor.map, EStateM.map] at he
    split at he
    next hr =>
      obtain ⟨ha, rfl⟩ := EStateM.Result.ok.inj he
      rw [outcome_record, hr, hf _ _ ha]
    next => contradiction

end Absorbs

theorem Stopped.handsOn {start : Machine} {k : Task} {r : Result (Option Value)}
    (h : Activation.Clear (x.parts m) ∨ x.Stopped result m)
    (hr : ∀ v m', v.isControlFlow → x.outcome m = .ok (result v) m' → r = k.handOn v m') :
    (Activation.mk k start (x.parts m) r).HandsOn := by
  intro ps p qs v m' hp he hv
  simp only [Activation.parts] at hp
  cases h
  case inl hc =>
    have := hc p (by simp [hp]) v m' he
    simp [this] at hv
  case inr h =>
    obtain ⟨ps', p', v', m'', hp', hc, he', hv', ho⟩ := h
    rw [hp'] at hp
    obtain rfl | ⟨qs, q, rfl⟩ := List.eq_nil_or_concat qs
    case inl =>
      obtain ⟨rfl, hpp⟩ := List.append_inj' hp rfl
      cases hpp
      cases he'.symm.trans he
      exact ⟨rfl, hr v m' hv ho⟩
    case inr =>
      have hm : p ∈ ps' := by
        rw [List.concat_eq_append, ← List.cons_append, ← List.append_assoc] at hp
        simp [(List.append_inj' hp rfl).left]
      have := hc p hm v m' he
      simp [this] at hv

end Traced

namespace Evaluator

open Traced

structure Absorbs (E : Evaluator Traced) : Prop where
  expr : ∀ s e, (E.expr s e).Absorbs id
  block : ∀ s b, (E.block s b).Absorbs some
  stmt : ∀ s x, (E.stmt s x).Absorbs some
  call : ∀ l f args, (E.call l f args).Absorbs id

theorem recorded_absorbs (E : Evaluator Traced) : E.recorded.Absorbs where
  expr _ _ := .record fun _ _ => Option.some.inj
  block _ _ := .record fun _ _ => id
  stmt _ _ := .record fun _ _ => id
  call _ _ _ := .record fun _ _ => Option.some.inj

theorem exhausted_absorbs : (exhausted : Evaluator Traced).Absorbs where
  expr _ _ := .lift _
  block _ _ := .lift _
  stmt _ _ := .lift _
  call _ _ _ := .lift _

theorem plain_absorbs {x : Traced Value} {next : Value → Traced Value} (hx : x.Absorbs id)
    (hn : ∀ v, (next v).Absorbs id) : (plain x next).Absorbs id :=
  hx.bind (fun v => .ite (.pure v) (hn v)) fun v hv => by simp [hv]

theorem plains_absorbs {eval : α → Traced Value} {xs : List α} {next : List Value → Traced Value}
    (hx : ∀ x, (eval x).Absorbs id) (hn : ∀ vs, (next vs).Absorbs id) :
    (plains eval xs next).Absorbs id := by
  induction xs generalizing next
  case nil => exact hn []
  case cons x xs hi => exact plain_absorbs (hx x) fun v => hi fun vs => hn (v :: vs)

theorem entries_absorbs {eval : Expr → Traced Value} {es : List (Expr × Expr)}
    {ps : Assoc Value Value} {next : Assoc Value Value → Traced Value}
    (hx : ∀ e, (eval e).Absorbs id) (hn : ∀ ps, (next ps).Absorbs id) :
    (entries eval es ps next).Absorbs id := by
  induction es generalizing ps
  case nil => exact hn ps
  case cons e es hi =>
    exact plain_absorbs (hx e.1) fun k => .ite (plain_absorbs (hx e.2) fun v => hi) (.lift _)

theorem sequence_absorbs {run : Stmt → Traced (Option Value)} {last : Option Value}
    {ss : List Stmt} (hr : ∀ x, (run x).Absorbs some) : (sequence run last ss).Absorbs some := by
  induction ss generalizing last
  case nil => exact .pure last
  case cons x ss hi =>
    exact (hr x).bind (fun r => .ite (.pure r) hi) fun v hv => by simp [hv]

theorem orNull_absorbs {x : Traced (Option Value)} (hx : x.Absorbs some) :
    (orNull x).Absorbs id :=
  hx.bind (fun _ => .pure _) fun _ _ => rfl

namespace Absorbs

variable {E : Evaluator Traced} (h : E.Absorbs)
include h

theorem exprStep (s : Scope) (e : Expr) : (E.exprStep s e).Absorbs id := by
  cases e
  case ident | fn => exact .lift _
  case int | string | bool => exact .pure _
  case prefixOp => exact plain_absorbs (h.expr s _) fun _ => .lift _
  case infixOp | index =>
    exact plain_absorbs (h.expr s _) fun _ => plain_absorbs (h.expr s _) fun _ => .lift _
  case cond c b a =>
    refine plain_absorbs (h.expr s c) fun v => .ite (orNull_absorbs (h.block s b)) ?_
    cases a
    case none => exact .pure _
    case some a => exact orNull_absorbs (h.block s a)
  case call => exact plain_absorbs (h.expr s _) fun f =>
    plains_absorbs (h.expr s) fun _ => h.call _ _ _
  case array => exact plains_absorbs (h.expr s) fun _ => .lift _
  case hash => exact entries_absorbs (h.expr s) fun _ => .lift _

theorem stmtStep (s : Scope) (x : Stmt) : (E.stmtStep s x).Absorbs some := by
  cases x
  case bind =>
    exact (h.expr s _).bind (fun v => .ite (.pure _) (Traced.Absorbs.lift_bind _ fun _ => .pure _))
      fun v hv => by simp [hv]
  case ret => exact (h.expr s _).bind (fun v => .ite (.pure _) (.pure _)) fun v hv => by simp [hv]
  case expr => exact (h.expr s _).bind (fun v => .pure _) fun _ _ => rfl

theorem callStep_handsOn (frames : Nat) (l : Option Location) (f : Value) (args : List Value)
    (m : Machine) :
    (Activation.mk (.call l f args) m ((E.callStep frames l f args).parts m)
      ((some <$> (E.callStep frames l f args).outcome) m)).HandsOn := by
  unfold Evaluator.callStep
  split
  case h_1 | h_3 => exact Activation.handsOn_of_parts_eq_nil rfl
  case h_2 c =>
    split
    case isFalse => exact Activation.handsOn_of_parts_eq_nil rfl
    case isTrue =>
      -- The body is the only part, and the call's value is made of what it comes to.
      cases he : (liftM (Eval.enter c args) : Traced Scope).outcome m
      case error =>
        rw [parts_bind_of_error he]
        exact Activation.handsOn_of_parts_eq_nil rfl
      case ok s m' =>
        rw [parts_bind_of_ok he, parts_lift, List.nil_append, parts_bind_lift]
        refine Stopped.handsOn (h.block s c.body m') fun v m'' _ hb => ?_
        refine Eval.map_congr ?_
        rw [outcome_bind_of_ok he, outcome_bind_of_ok hb, outcome_lift]

end Absorbs

theorem step_handsOn {E : Evaluator Traced} (h : E.Absorbs) (frames : Nat) :
    (E.step frames).Frames Activation.HandsOn where
  expr s e m := Stopped.handsOn (h.exprStep s e m) fun _ _ _ => Eval.map_of_ok
  block s _ m := Stopped.handsOn (sequence_absorbs (h.stmt s) m) fun _ _ _ => Eval.map_of_ok
  stmt s x m := Stopped.handsOn (h.stmtStep s x m) fun _ _ _ => Eval.map_of_ok
  call l f args m := h.callStep_handsOn frames l f args m

end Evaluator

theorem Traced.within_absorbs (n : Nat) : (Traced.within n).Absorbs := by
  cases n
  case zero => exact Evaluator.exhausted_absorbs
  case succ n => exact Evaluator.recorded_absorbs _

namespace Machine

-- All that happens to the machine is that the error passes through calls.
structure AddsCalls (i : ErrorId) (m m' : Machine) : Prop where
  scopes : m'.scopes = m.scopes
  nextObject : m'.nextObject = m.nextObject
  printed : m'.printed = m.printed
  errorCount : m'.errorCount = m.errorCount
  others : ∀ j, j ≠ i → m'.diagnostic j = m.diagnostic j
  location : (m'.diagnostic i).location = (m.diagnostic i).location
  trace : ∃ calls, (m'.diagnostic i).trace = (m.diagnostic i).trace ++ calls

namespace AddsCalls

variable {i : ErrorId} {m m' m'' : Machine}

theorem refl : m.AddsCalls i m :=
  ⟨rfl, rfl, rfl, rfl, fun _ _ => rfl, rfl, [], by simp⟩

theorem trans (h : m.AddsCalls i m') (h' : m'.AddsCalls i m'') : m.AddsCalls i m'' where
  scopes := h'.scopes.trans h.scopes
  nextObject := h'.nextObject.trans h.nextObject
  printed := h'.printed.trans h.printed
  errorCount := h'.errorCount.trans h.errorCount
  others j hj := (h'.others j hj).trans (h.others j hj)
  location := h'.location.trans h.location
  trace := by
    have ⟨cs, hc⟩ := h.trace
    have ⟨cs', hc'⟩ := h'.trace
    exact ⟨cs ++ cs', by rw [hc', hc, List.append_assoc]⟩

theorem annotate_within (m : Machine) (i : ErrorId) (l : Option Location) (c : Callee) :
    m.AddsCalls i (m.annotate i fun d => d.within l c) := by
  by_cases hi : i < m.diagnostics.size
  case pos =>
    refine ⟨rfl, rfl, rfl, m.errorCount_annotate i _, fun j hj => ?_, ?_, [⟨l, c⟩], ?_⟩
    · rw [diagnostic_annotate hi, if_neg hj.symm]
    · rw [diagnostic_annotate hi, if_pos rfl, Diagnostic.within]
    · rw [diagnostic_annotate hi, if_pos rfl, Diagnostic.within]
  case neg =>
    -- There is no such error, and nothing changes.
    have h (j : ErrorId) : (m.annotate i fun d => d.within l c).diagnostic j = m.diagnostic j := by
      simp only [diagnostic, annotate, Array.getElem?_modify]
      split
      case isTrue e => simp [← e, hi]
      case isFalse => rfl
    exact ⟨rfl, rfl, rfl, m.errorCount_annotate i _, fun j _ => h j, by rw [h], [], by simp [h]⟩

end AddsCalls

end Machine

namespace Task

-- An error is handed on as it is, but for the call that it passes through.
theorem handOn_error (k : Task) (i : ErrorId) (f : Fault) (m : Machine) :
    ∃ m', k.handOn (.error i f) m = .ok (some (.error i f)) m' ∧ m.AddsCalls i m' := by
  cases k
  case call l f _ =>
    cases f
    case function c => exact ⟨_, rfl, .annotate_within m i l (.closure c)⟩
    all_goals exact ⟨m, rfl, .refl⟩
  all_goals exact ⟨m, rfl, .refl⟩

theorem handOn_returned (k : Task) (v : Value) (m : Machine) :
    (k.IsBody → k.handOn (.returned v) m = .ok (some (.returned v)) m) ∧
      (¬k.IsBody → k.handOn (.returned v) m = .ok (some v) m) := by
  cases k
  case call l f _ => cases f <;> exact ⟨False.elim, fun _ => rfl⟩
  case program => exact ⟨False.elim, fun _ => rfl⟩
  all_goals exact ⟨fun _ => rfl, fun h => absurd trivial h⟩

end Task

namespace Activation

variable {t u : Activation} {later : List Activation} {m : Machine}

theorem Occurs.error_absorbs {P : Task → Prop} (h : u.Occurs P t later)
    (ht : ∀ v : Activation, v.Within t → v.HandsOn) (hu : u.outcome = .ok (some (.error i f)) m) :
    later = [] ∧ ∃ m', t.outcome = .ok (some (.error i f)) m' ∧ m.AddsCalls i m' := by
  induction h
  case refl => exact ⟨rfl, m, hu, .refl⟩
  case part ps p qs later t he _ _ hi =>
    have ⟨hl, m', hp, hm⟩ := hi fun v hv => ht v (.part (by simp [he]) hv)
    have ⟨hq, ho⟩ := ht t .refl ps p qs _ m' he hp rfl
    have ⟨m'', hr, hm'⟩ := t.task.handOn_error i f m'
    exact ⟨by rw [hl, hq, List.append_nil], m'', ho.trans hr, hm.trans hm'⟩

-- On the way to the call or program, all tasks belong to its body.
theorem Occurs.return_leaves (h : u.Occurs Task.IsBody t later)
    (ht : ∀ v : Activation, v.Within t → v.HandsOn) (hb : u.task.IsBody)
    (hu : u.outcome = .ok (some (.returned w)) m) :
    later = [] ∧ (t.task.IsBody → t.outcome = .ok (some (.returned w)) m) ∧
      (¬t.task.IsBody → t.outcome = .ok (some w) m) := by
  induction h
  case refl => exact ⟨rfl, fun _ => hu, fun h => absurd hb h⟩
  case part ps p qs later t he hp _ hi =>
    have ⟨hl, hr, _⟩ := hi fun v hv => ht v (.part (by simp [he]) hv)
    have ⟨hq, ho⟩ := ht t .refl ps p qs _ m he (hr hp) rfl
    rw [hl, hq, ho]
    exact ⟨rfl, t.task.handOn_returned w m⟩

end Activation

namespace Program

variable {frames : Nat} {s : Scope} {p : Program} {m : Machine}

theorem activation_handsOn : (p.activation frames s m).HandsOn := by
  have h : (Evaluator.sequence ((Traced.within frames).stmt s) none p.statements).Absorbs some :=
    Evaluator.sequence_absorbs ((Traced.within_absorbs frames).stmt s)
  refine Traced.Stopped.handsOn (h m) fun v m' hv he => ?_
  rw [outcome_statements] at he
  simp [eval, he, Task.handOn]

theorem handsOn_of_within {u : Activation} (hu : u.Within (p.activation frames s m)) :
    u.HandsOn :=
  forall_within_activation (fun n => Evaluator.step_handsOn (Traced.within_absorbs n) n)
    activation_handsOn hu

-- What an error, a returned value and the number of errors made say of a run from its middle on.
theorem absorbs (frames : Nat) (s : Scope) (p : Program) (m : Machine) :
    (∀ (u : Activation) later i f m₁, u.Occurs (fun _ => True) (p.activation frames s m) later →
      u.outcome = .ok (some (.error i f)) m₁ →
        later = [] ∧ ∃ m₂, p.eval frames s m = .ok (some (.error i f)) m₂ ∧ m₁.AddsCalls i m₂) ∧
    (∀ r m₂, p.eval frames s m = .ok r m₂ →
      m₂.errorCount = m.errorCount ∨
        m₂.errorCount = m.errorCount + 1 ∧ ∃ f, r = some (.error m.errorCount f)) ∧
    ∀ (c u : Activation) later w m₁, c.Within (p.activation frames s m) → ¬c.task.IsBody →
      u.task.IsBody → u.Occurs Task.IsBody c later → u.outcome = .ok (some (.returned w)) m₁ →
        later = [] ∧ c.outcome = .ok (some w) m₁ := by
  refine ⟨?error, ?once, ?ret⟩
  case error =>
    intro u later i f m₁ ho hu
    exact ho.error_absorbs (fun t => handsOn_of_within) hu
  case once =>
    intro r m₂ he
    have h := p.eval_raisesOnce frames s m
    rwa [he] at h
  case ret =>
    intro c u later w m₁ hc hb hu ho hr
    have ⟨hl, _, h⟩ := ho.return_leaves (fun t ht => handsOn_of_within (ht.trans hc)) hu hr
    exact ⟨hl, h hb⟩

end Program

end Marmoset
