import Marmoset.Proofs.CallStack
import Marmoset.Proofs.Data

/-!
What infix operators make of their operands. Two numbers, two strings and two truth values have
operations of their own (`table?`); the error of all other operands tells whether their types differ
(`expr_infixOp`). Built-in functions are the exception: each counts as a type of its own, although
all of them are shown as of one (`evalSource_builtins`).
-/

namespace Marmoset

theorem ValueType.name_inj {t u : ValueType} : t.name = u.name ↔ t = u := by
  refine ⟨fun h => ?_, congrArg _⟩
  cases t <;> cases u <;> first | rfl | exact absurd h (by decide)

namespace Fault

theorem message_typeMismatch (t u : ValueType) (op : InfixOp) :
    (typeMismatch t op u).message =
      "type mismatch: " ++ t.name ++ " " ++ op.text ++ " " ++ u.name :=
  rfl

theorem message_unknownInfix (t u : ValueType) (op : InfixOp) :
    (unknownInfix t op u).message =
      "unknown operator: " ++ t.name ++ " " ++ op.text ++ " " ++ u.name :=
  rfl

-- The texts begin with different letters.
theorem mismatch_ne_unknown (t u t' u' : ValueType) (op op' : InfixOp) :
    (typeMismatch t op u).message ≠ (unknownInfix t' op' u').message := by
  have ht : "type mismatch: ".toList.head? = some 't' := by decide
  have hu : "unknown operator: ".toList.head? = some 'u' := by decide
  rw [message_typeMismatch, message_unknownInfix]
  intro h
  replace h := congrArg (·.toList.head?) h
  simp only [String.append_assoc, String.toList_append, List.head?_append, ht, hu,
    Option.some_or] at h
  exact absurd h (by decide)

end Fault

namespace Value

-- The values are built-in functions, and not the same one.
def AreDistinctBuiltins (v w : Value) : Prop :=
  ∃ a b, v = .builtin a ∧ w = .builtin b ∧ a ≠ b

theorem isAlike_iff {v w : Value} :
    v.isAlike w ↔ v.type.name = w.type.name ∧ ¬v.AreDistinctBuiltins w := by
  rw [ValueType.name_inj]
  by_cases h : ∃ a b, v = .builtin a ∧ w = .builtin b
  case pos =>
    obtain ⟨a, b, rfl, rfl⟩ := h
    simp [isAlike, type, AreDistinctBuiltins]
  case neg =>
    have hd : ¬v.AreDistinctBuiltins w := fun ⟨a, b, hv, hw, _⟩ => h ⟨a, b, hv, hw⟩
    unfold isAlike
    split
    case h_1 a b => exact absurd ⟨a, b, rfl, rfl⟩ h
    case h_2 => simp [hd]

end Value

namespace InfixOp

-- What the operator makes of whole numbers. Numbers are reduced to 64 bits, and quotients are
-- truncated.
def onIntegers (op : InfixOp) (a b : Int) : Except Fault Value :=
  match op with
  | add => .ok (.int (.ofInt (a + b)))
  | sub => .ok (.int (.ofInt (a - b)))
  | mul => .ok (.int (.ofInt (a * b)))
  | div => if b = 0 then .error .divisionByZero else .ok (.int (.ofInt (a.tdiv b)))
  | lt => .ok (.bool (a < b))
  | gt => .ok (.bool (a > b))
  | eq => .ok (.bool (a = b))
  | notEq => .ok (.bool (a ≠ b))

-- What the operator makes of operands that it has a meaning for.
def table? (op : InfixOp) (v w : Value) : Option (Except Fault Value) :=
  match v, w, op with
  | .int a, .int b, op => some (op.onIntegers a.toInt b.toInt)
  | .string a, .string b, add => some (.ok (.string (a ++ b)))
  | .bool a, .bool b, eq => some (.ok (.bool (a = b)))
  | .bool a, .bool b, notEq => some (.ok (.bool (a ≠ b)))
  | _, _, _ => none

theorem applyInt_eq (op : InfixOp) (a b : Int64) :
    op.applyInt a b = op.onIntegers a.toInt b.toInt := by
  cases op
  case add => simp [applyInt, onIntegers, Int64.ofInt_add]
  case sub => simp [applyInt, onIntegers, Int64.ofInt_sub]
  case mul => simp [applyInt, onIntegers, Int64.ofInt_mul]
  case div =>
    have hz : b = 0 ↔ b.toInt = 0 := by rw [← Int64.toInt_inj, Int64.toInt_zero]
    have hd : a / b = .ofInt (a.toInt.tdiv b.toInt) := by
      rw [← Int64.toInt_inj, Int64.toInt_div, Int64.toInt_ofInt]
    simp only [applyInt, onIntegers, hz, hd]
  case lt => simp [applyInt, onIntegers, Int64.lt_iff_toInt_lt]
  case gt => simp [applyInt, onIntegers, Int64.lt_iff_toInt_lt]
  case eq => simp [applyInt, onIntegers, Int64.toInt_inj]
  case notEq => simp [applyInt, onIntegers, Int64.toInt_inj]

theorem apply_eq (op : InfixOp) (v w : Value) :
    op.apply v w = (op.table? v w).getD (.error (op.misfit v w)) := by
  unfold apply table?
  split
  case h_1 => exact op.applyInt_eq _ _
  case h_2 => rfl
  case h_3 a b | h_4 a b => cases a <;> cases b <;> rfl
  case h_5 => simp_all

-- The fault tells by its text whether the types of the operands differ.
structure Tells (op : InfixOp) (v w : Value) (f : Fault) : Prop where
  mismatch : f.message =
      "type mismatch: " ++ v.type.name ++ " " ++ op.text ++ " " ++ w.type.name ↔
    v.type.name ≠ w.type.name ∨ v.AreDistinctBuiltins w
  unknown : f.message =
      "unknown operator: " ++ v.type.name ++ " " ++ op.text ++ " " ++ w.type.name ↔
    v.type.name = w.type.name ∧ ¬v.AreDistinctBuiltins w

theorem tells_misfit (op : InfixOp) (v w : Value) : op.Tells v w (op.misfit v w) := by
  have hi := Value.isAlike_iff (v := v) (w := w)
  have hm := Fault.mismatch_ne_unknown v.type w.type v.type w.type op op
  by_cases h : v.isAlike w
  case pos =>
    have ⟨hn, hd⟩ := hi.mp h
    rw [misfit, if_pos h]
    exact ⟨iff_of_false hm.symm fun ht => ht.elim (absurd hn) hd, iff_of_true rfl ⟨hn, hd⟩⟩
  case neg =>
    have hn := mt hi.mpr h
    have ht : v.type.name ≠ w.type.name ∨ v.AreDistinctBuiltins w := by
      by_cases ht : v.type.name = w.type.name
      case pos => exact .inr (Classical.not_not.mp fun hd => hn ⟨ht, hd⟩)
      case neg => exact .inl ht
    rw [misfit, if_neg h]
    exact ⟨iff_of_true rfl ht, iff_of_false hm hn⟩

end InfixOp

-- All that happens to the machine is that the value is made, a new error at the place.
structure Machine.Raises (m : Machine) (l : Location) (f : Fault) (v : Value) (m' : Machine) :
    Prop where
  value : v = .error m.errorCount f
  machine : m' = (m.newError (some l)).2
  diagnostic : m'.diagnostic m.errorCount = .fresh (some l)

theorem Eval.fail_raises (l : Location) (f : Fault) (m : Machine) :
    ∃ v m', fail (some l) f m = .ok v m' ∧ m.Raises l f v m' :=
  ⟨_, _, rfl, rfl, rfl, m.diagnostic_newError_self (some l)⟩

theorem Evaluator.plain_of_ok {x : Eval Value} {next : Value → Eval Value} {m m' : Machine}
    (h : x m = .ok v m') (hv : v.isControlFlow = false) : plain x next m = next v m' := by
  rw [plain, Eval.bind_of_ok h, hv]
  rfl

-- What the operator at `l` comes to, and the machine that it leaves `m` as: what the table says, or
-- an error that tells the types.
def InfixOp.Answers (op : InfixOp) (l : Location) (v w : Value) (m : Machine) (r : Value)
    (m' : Machine) : Prop :=
  match op.table? v w with
  | some (.ok u) => r = u ∧ m' = m
  | some (.error f) => m.Raises l f r m'
  | none => ∃ f, m.Raises l f r m' ∧ op.Tells v w f

theorem InfixOp.apply_answers (op : InfixOp) (l : Location) (v w : Value) (m : Machine) :
    ∃ r m', Eval.ofResult l (op.apply v w) m = .ok r m' ∧ op.Answers l v w m r m' := by
  rw [apply_eq]
  unfold Answers
  cases op.table? v w
  case none =>
    have ⟨r, m', he, hr⟩ := Eval.fail_raises l (op.misfit v w) m
    exact ⟨r, m', he, _, hr, op.tells_misfit v w⟩
  case some x =>
    cases x
    case error f => exact Eval.fail_raises l f m
    case ok u => exact ⟨u, m, rfl, rfl, rfl⟩

-- Whatever values the operands come to, the operator answers by its table.
theorem Eval.expr_infixOp (frames : Nat) (s : Scope) (l : Location) (op : InfixOp) {a b : Expr}
    {v w : Value} {m m₁ m₂ : Machine} (ha : Eval.expr frames s a m = .ok v m₁)
    (hv : v.isControlFlow = false) (hb : Eval.expr frames s b m₁ = .ok w m₂)
    (hw : w.isControlFlow = false) :
    ∃ r m', Eval.expr (frames + 1) s (.infixOp l op a b) m = .ok r m' ∧
      op.Answers l v w m₂ r m' := by
  have he : Eval.expr (frames + 1) s (.infixOp l op a b) m = ofResult l (op.apply v w) m₂ := by
    change Evaluator.plain (Eval.expr frames s a) _ m = _
    rw [Evaluator.plain_of_ok ha hv]
    change Evaluator.plain (Eval.expr frames s b) _ m₁ = _
    rw [Evaluator.plain_of_ok hb hw]
    rfl
  rw [he]
  exact op.apply_answers l v w m₂

-- Two arrays are of one type, but cannot be compared.
theorem Eval.expr_infixOp_arrays :
    Eval.expr 2 Session.scope (.array ⟨1, 1⟩ []) Session.start =
      .ok (.array 0 []) { Session.start with nextObject := 1 } ∧
    Eval.expr 2 Session.scope (.array ⟨1, 7⟩ []) { Session.start with nextObject := 1 } =
      .ok (.array 1 []) { Session.start with nextObject := 2 } ∧
    ∃ f m, Eval.expr 3 Session.scope (.infixOp ⟨1, 4⟩ .eq (.array ⟨1, 1⟩ []) (.array ⟨1, 7⟩ []))
        Session.start = .ok (.error 0 f) m ∧
      f.message = "unknown operator: ARRAY == ARRAY" ∧
      (m.diagnostic 0).location = some ⟨1, 4⟩ := by
  refine ⟨rfl, rfl, ?_⟩
  have ⟨r, m, he, f, hr, ht⟩ := expr_infixOp 2 Session.scope ⟨1, 4⟩ .eq (a := .array ⟨1, 1⟩ [])
    (b := .array ⟨1, 7⟩ []) (v := .array 0 []) (w := .array 1 []) (m := Session.start) rfl rfl rfl
    rfl
  have hm := ht.unknown.mpr ⟨rfl, fun ⟨_, _, h, _⟩ => nomatch h⟩
  rw [hr.value] at he
  exact ⟨f, m, he, hm, congrArg (·.location) hr.diagnostic⟩

-- The text and the place of the error that a source text comes to.
def Result.errorText? : Result (Except SyntaxError (Option Value)) →
    Option (String × Option Location)
  | .ok (.ok (some (.error i f))) m => some (f.message, (m.diagnostic i).location)
  | _ => none

-- Two built-in functions are of one type, but are told to be of two.
theorem evalSource_builtins :
    Result.errorText? (evalSource defaultFrames Session.scope "len - puts" Session.start) =
        some ("type mismatch: BUILTIN - BUILTIN", some ⟨1, 5⟩) ∧
      (Value.builtin .len).type.name = "BUILTIN" ∧ (Value.builtin .puts).type.name = "BUILTIN" :=
  ⟨by decide +kernel, rfl, rfl⟩

end Marmoset
