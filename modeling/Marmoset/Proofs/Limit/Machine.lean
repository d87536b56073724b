import Marmoset.Proofs.CallStack

/-!
The limit on how deep evaluation may nest matters only where it is met: a program that stays below
one limit runs in the same way under every higher one (`activation_of_le`).
-/

namespace Marmoset

-- Whether `puts` has met a value that nests too deeply to be written.
def Activation.printsTooDeep (u : Activation) : Bool :=
  match u.task, u.outcome with
  | .call _ (.builtin .puts) _, .ok (some (.error _ .tooDeep)) _ => true
  | _, _ => false

-- Whether the computation was cut short at the limit.
def Result.isTooDeep : Result α → Bool
  | .error .tooDeep _ => true
  | _ => false

namespace Traced

-- Started in `m`, the computation does not meet the limit.
structure Fits (x : Traced α) (m : Machine) : Prop where
  outcome : ¬Result.isTooDeep (x.outcome m)
  parts : ∀ p ∈ x.parts m, ∀ u : Activation, u.Within p → ¬u.printsTooDeep

namespace Fits

variable {x : Traced α} {f : α → Traced β} {m m' : Machine}

theorem of_bind (h : (x >>= f).Fits m) : x.Fits m where
  outcome he := by
    refine h.outcome ?_
    cases hr : x.outcome m <;> rw [hr] at he
    case ok => cases he
    case error e _ =>
      rw [outcome_bind_of_error hr]
      cases e <;> exact he
  parts p hp := by
    refine h.parts p ?_
    cases he : x.outcome m
    case ok => exact parts_bind_of_ok he ▸ List.mem_append_left _ hp
    case error => exact parts_bind_of_error he ▸ hp

theorem of_bind_ok (h : (x >>= f).Fits m) (he : x.outcome m = .ok a m') : (f a).Fits m' where
  outcome := outcome_bind_of_ok he ▸ h.outcome
  parts p hp := h.parts p (parts_bind_of_ok he ▸ List.mem_append_right _ hp)

theorem of_record {k : Task} {result : α → Option Value} (h : (record k result x).Fits m) :
    x.Fits m where
  outcome := h.outcome
  parts _ hp u hu := h.parts _ (List.mem_singleton.mpr rfl) u (.part hp hu)

end Fits

theorem record_congr {x y : Traced α} {k : Task} {result : α → Option Value} (h : y m = x m) :
    record k result y m = record k result x m := by
  simp only [record, parts, Functor.map, EStateM.map, outcome, h]

-- The second computation does the same as the first wherever that does not meet the limit.
def Widens (x y : Traced α) : Prop :=
  ∀ m, x.Fits m → y m = x m

namespace Widens

variable {x y : Traced α}

theorem bind {f g : α → Traced β} (hx : x.Widens y) (hf : ∀ a, (f a).Widens (g a)) :
    (x >>= f).Widens (y >>= g) := by
  intro m h
  simp only [Bind.bind, hx m h.of_bind]
  split
  case h_1 hr =>
    have hg := hf _ _ (h.of_bind_ok (congrArg Prod.snd hr))
    rw [Traced.parts, Traced.outcome, hg]
    rfl
  case h_2 => rfl

theorem record (k : Task) (result : α → Option Value) (hx : x.Widens y) :
    (record k result x).Widens (record k result y) :=
  fun m h => record_congr (hx m h.of_record)

end Widens

def widening : Congruence Traced Traced where
  Relates := Widens
  pure _ _ _ := rfl
  bind := .bind
  map _ hx := hx.bind fun _ _ _ => rfl
  lift _ _ _ := rfl

end Traced

namespace Eval

variable {n k : Nat} {m : Machine}

-- A value that is too deep for `puts` does not go unnoticed.
theorem printAll_of_le (h : n ≤ k) (vs : List Value) :
    Builtin.printAll k vs m = Builtin.printAll n vs m ∨
      ∃ i m', Builtin.printAll n vs m = .ok (.error i .tooDeep) m' := by
  induction vs generalizing m
  case nil => exact .inl rfl
  case cons v vs hi =>
    unfold Builtin.printAll
    by_cases hn : n < v.depth
    case pos =>
      rw [if_pos hn]
      exact .inr ⟨_, _, rfl⟩
    case neg =>
      rw [if_neg hn, if_neg (by omega)]
      exact hi

theorem callBuiltin_of_le (h : n ≤ k) (l : Option Location) (b : Builtin) (args : List Value) :
    callBuiltin k l b args m = callBuiltin n l b args m ∨
      b = .puts ∧ ∃ i m', callBuiltin n l b args m = .ok (.error i .tooDeep) m' := by
  cases b
  case puts =>
    have hp := printAll_of_le (m := m) h args
    unfold callBuiltin Builtin.apply
    cases hp
    case inl he => exact .inl (by simp only [Bind.bind, EStateM.bind, he])
    case inr he =>
      obtain ⟨i, m', he⟩ := he
      refine .inr ⟨rfl, i, m'.annotate i fun d => (d.placed l).within l (.builtin .puts), ?_⟩
      rw [bind_of_ok he]
      rfl
  all_goals exact .inl rfl

end Eval

namespace Traced

variable {n k : Nat}

theorem callBuiltin_widens (h : n ≤ k) (l : Option Location) (b : Builtin) (args : List Value) :
    (record (.call l (.builtin b) args) some (liftM (Eval.callBuiltin n l b args))).Widens
      (record (.call l (.builtin b) args) some (liftM (Eval.callBuiltin k l b args))) := by
  intro m hf
  cases Eval.callBuiltin_of_le (m := m) h l b args
  case inl he => exact record_congr (congrArg (Prod.mk []) he)
  case inr he =>
    obtain ⟨rfl, i, m', he⟩ := he
    refine absurd ?_ (hf.parts _ (List.mem_singleton.mpr rfl) _ .refl)
    rw [outcome_lift, Eval.map_of_ok he]
    rfl

theorem within_widens (h : n ≤ k) :
    widening.Evaluators (Traced.within n) (Traced.within k) := by
  induction n generalizing k
  case zero =>
    refine ⟨?_, ?_, ?_, ?_⟩ <;> intros <;> exact fun _ hf => absurd rfl hf.outcome
  case succ n hi =>
    obtain ⟨k, rfl⟩ := Nat.exists_eq_add_of_le' (Nat.le_of_add_left_le h)
    replace hi := hi (Nat.le_of_succ_le_succ h)
    refine ⟨fun s e => ?expr, fun s b => ?block, fun s x => ?stmt, fun l f args => ?call⟩
    case expr => exact (hi.exprStep s e).record _ _
    case block => exact (hi.blockStep s b).record _ _
    case stmt => exact (hi.stmtStep s x fun _ _ _ _ _ _ _ => rfl).record _ _
    case call =>
      by_cases hf : ∃ b, f = .builtin b
      case pos =>
        obtain ⟨b, rfl⟩ := hf
        exact callBuiltin_widens (Nat.le_of_succ_le_succ h) l b args
      case neg => exact (hi.callStep (fun b hb => absurd ⟨b, hb⟩ hf) fun _ _ _ _ => rfl).record _ _

end Traced

namespace Program

variable {n k : Nat} {s : Scope} {p : Program} {m : Machine}

-- Running the program meets the limit: it is cut short there, or a value that it prints nests too
-- deeply.
def Overflows (frames : Nat) (s : Scope) (p : Program) (m : Machine) : Prop :=
  Result.isTooDeep (Evaluator.sequence (Eval.stmt frames s) none p.statements m) ∨
    ∃ u : Activation, u.Within (p.activation frames s m) ∧ u.printsTooDeep

instance : Decidable (p.Overflows n s m) :=
  decidable_of_iff (_ ∨ (p.activation n s m).ended.any (·.printsTooDeep))
    (or_congr_right (by simp only [List.any_eq_true, Activation.mem_ended]))

theorem fits_of_not_overflows (h : ¬p.Overflows n s m) :
    (Evaluator.sequence ((Traced.within n).stmt s) none p.statements).Fits m where
  outcome := outcome_statements n s p ▸ fun he => h (.inl he)
  parts _ hq u hu hp := h (.inr ⟨u, .part hq hu, hp⟩)

theorem statements_of_le (hn : n ≤ k) (h : ¬p.Overflows n s m) :
    Evaluator.sequence ((Traced.within k).stmt s) none p.statements m =
      Evaluator.sequence ((Traced.within n).stmt s) none p.statements m :=
  Traced.widening.sequence ((Traced.within_widens hn).stmt s) m (fits_of_not_overflows h)

-- Both the answer and the way to it are the same.
theorem activation_of_le (hn : n ≤ k) (h : ¬p.Overflows n s m) :
    p.activation k s m = p.activation n s m ∧ ¬p.Overflows k s m := by
  have hs := statements_of_le hn h
  have ho := congrArg Prod.snd hs
  change Traced.outcome _ m = Traced.outcome _ m at ho
  rw [outcome_statements, outcome_statements] at ho
  have ha : p.activation k s m = p.activation n s m := by
    unfold activation eval
    simp only [Traced.parts, hs, ho]
  refine ⟨ha, fun hk => h ?_⟩
  unfold Overflows at hk ⊢
  rwa [ha, ho] at hk

theorem eval_of_le (hn : n ≤ k) (h : ¬p.Overflows n s m) : p.eval k s m = p.eval n s m :=
  congrArg Activation.outcome (activation_of_le hn h).left

end Program

end Marmoset
