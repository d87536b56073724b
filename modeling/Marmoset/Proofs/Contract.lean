import Marmoset.Proofs.Activation

/-!
Contracts: what holds of the machine at all times, of every activation and of every abort. A
computation meets a contract if, started where it holds, it keeps it and comes to a value of a
certain kind. There is one rule for each way in which evaluation is put together.
-/

namespace Marmoset

structure Contract where
  machine : Machine → Prop
  activation : Activation → Prop
  abort : Abort → Prop

variable {C : Contract} {P Q : α → Prop} {R : β → Prop} {m : Machine}

def Result.Meets (C : Contract) (Q : α → Prop) : Result α → Prop
  | .ok a m => C.machine m ∧ Q a
  | .error e m => C.machine m ∧ C.abort e

theorem Result.Meets.machine {r : Result α} (h : Result.Meets C Q r) : C.machine (Result.machine r) := by
  cases r <;> exact h.left

namespace Eval

def Meets (C : Contract) (Q : α → Prop) (x : Eval α) : Prop :=
  ∀ m, C.machine m → Result.Meets C Q (x m)

namespace Meets

variable {x : Eval α} {f : α → Eval β}

protected theorem pure {a : α} (h : Q a) : (pure a : Eval α).Meets C Q :=
  fun _ hm => ⟨hm, h⟩

protected theorem bind (hx : x.Meets C Q) (hf : ∀ a, Q a → (f a).Meets C R) :
    (x >>= f).Meets C R := by
  intro m hm
  have h := hx m hm
  simp only [bind, EStateM.bind]
  split <;> rename_i he <;> rw [he] at h
  · exact hf _ h.right _ h.left
  · exact h

protected theorem map {g : α → β} (hx : x.Meets C Q) (hg : ∀ a, Q a → R (g a)) :
    (g <$> x).Meets C R := by
  intro m hm
  have h := hx m hm
  simp only [Functor.map, EStateM.map]
  split <;> rename_i he <;> rw [he] at h
  · exact ⟨h.left, hg _ h.right⟩
  · exact h

theorem mono (hx : x.Meets C P) (h : ∀ a, P a → Q a) : x.Meets C Q := by
  intro m hm
  have hr := hx m hm
  revert hr
  cases x m
  case ok => exact fun hr => ⟨hr.left, h _ hr.right⟩
  case error => exact id

end Meets

end Eval

namespace Traced

structure Meets (C : Contract) (Q : α → Prop) (x : Traced α) : Prop where
  outcome : x.outcome.Meets C Q
  parts : ∀ m, C.machine m → ∀ p ∈ x.parts m, ∀ u, u.Within p → C.activation u

namespace Meets

variable {x : Traced α} {f : α → Traced β}

protected theorem pure {a : α} (h : Q a) : (pure a : Traced α).Meets C Q where
  outcome := .pure h
  parts := by simp

theorem lift {x : Eval α} (h : x.Meets C Q) : (liftM x : Traced α).Meets C Q where
  outcome := h
  parts := by simp

protected theorem bind (hx : x.Meets C Q) (hf : ∀ a, Q a → (f a).Meets C R) :
    (x >>= f).Meets C R where
  outcome := by
    rw [outcome_bind]
    exact hx.outcome.bind fun a ha => (hf a ha).outcome
  parts := by
    intro m hm p hp
    have hr := hx.outcome m hm
    cases he : x.outcome m <;> rw [he] at hr
    case ok a m' =>
      rw [parts_bind_of_ok he, List.mem_append] at hp
      cases hp
      case inl hp => exact hx.parts m hm p hp
      case inr hp => exact (hf a hr.right).parts m' hr.left p hp
    case error e m' =>
      rw [parts_bind_of_error he] at hp
      exact hx.parts m hm p hp

protected theorem map {g : α → β} (hx : x.Meets C Q) (hg : ∀ a, Q a → R (g a)) :
    (g <$> x).Meets C R :=
  hx.bind fun _ h => .pure (hg _ h)

theorem mono (hx : x.Meets C P) (h : ∀ a, P a → Q a) : x.Meets C Q where
  outcome := hx.outcome.mono h
  parts := hx.parts

theorem ite {c : Prop} [Decidable c] {y : Traced α} (hx : c → x.Meets C Q)
    (hy : ¬c → y.Meets C Q) : (if c then x else y).Meets C Q := by
  split
  case isTrue h => exact hx h
  case isFalse h => exact hy h

theorem record {k : Task} {result : α → Option Value} (hx : x.Meets C Q)
    (h : ∀ m, C.machine m →
      C.activation (.mk k m (x.parts m) ((result <$> x.outcome) m))) :
    (record k result x).Meets C Q where
  outcome := hx.outcome
  parts := by
    intro m hm p hp
    cases List.mem_singleton.mp hp
    exact Activation.forall_within_mk (h m hm) (hx.parts m hm)

end Meets

end Traced

namespace Evaluator

open Traced

-- What a value may be, and what it may be where it is no control flow.
variable {V W : Value → Prop} {x : Traced Value} {next : Value → Traced Value}

theorem plain_meets (hx : x.Meets C V) (hc : ∀ v, V v → v.isControlFlow → W v)
    (hn : ∀ v, V v → v.isControlFlow = false → (next v).Meets C W) :
    (plain x next).Meets C W :=
  hx.bind fun v hv => .ite (fun h => .pure (hc v hv h)) fun h => hn v hv (by simpa using h)

theorem plains_meets {eval : α → Traced Value} {xs : List α} {next : List Value → Traced Value}
    (hx : ∀ x ∈ xs, (eval x).Meets C V) (hc : ∀ v, V v → v.isControlFlow → W v)
    (hn : ∀ vs, (∀ v ∈ vs, V v ∧ v.isControlFlow = false) → (next vs).Meets C W) :
    (plains eval xs next).Meets C W := by
  induction xs generalizing next
  case nil => exact hn [] (by simp)
  case cons x xs hi =>
    simp only [List.forall_mem_cons] at hx
    refine plain_meets hx.left hc fun v hv hp => hi hx.right fun vs hvs => hn _ ?_
    simp only [List.forall_mem_cons]
    exact ⟨⟨hv, hp⟩, hvs⟩

-- `I` is what holds of the pairs gathered so far.
theorem entries_meets {eval : Expr → Traced Value} {es : List (Expr × Expr)}
    {I : Assoc Value Value → Prop} {ps : Assoc Value Value}
    {next : Assoc Value Value → Traced Value}
    (hx : ∀ e ∈ es, (eval e.1).Meets C V ∧ (eval e.2).Meets C V)
    (hc : ∀ v, V v → v.isControlFlow → W v)
    (hi : ∀ ps k v, I ps → V k → k.isHashable → V v → v.isControlFlow = false →
      I (Assoc.insert k v ps))
    (hf : ∀ l f, (Eval.fail l f).Meets C W) (hn : ∀ ps, I ps → (next ps).Meets C W) (hps : I ps) :
    (entries eval es ps next).Meets C W := by
  induction es generalizing ps
  case nil => exact hn ps hps
  case cons e es ih =>
    simp only [List.forall_mem_cons] at hx
    refine plain_meets hx.left.left hc fun k hk _ => .ite (fun hh => ?_) fun _ => .lift (hf _ _)
    exact plain_meets hx.left.right hc fun v hv hp => ih hx.right (hi ps k v hps hk hh hv hp)

theorem sequence_meets {run : Stmt → Traced (Option Value)} {last : Option Value}
    {ss : List Stmt} {U : Option Value → Prop} (hx : ∀ s ∈ ss, (run s).Meets C U) (hl : U last) :
    (sequence run last ss).Meets C U := by
  induction ss generalizing last
  case nil => exact .pure hl
  case cons s ss hi =>
    simp only [List.forall_mem_cons] at hx
    exact hx.left.bind fun r hr => .ite (fun _ => .pure hr) fun _ => hi hx.right hr

theorem orNull_meets {x : Traced (Option Value)} {U : Option Value → Prop} (hx : x.Meets C U)
    (h : ∀ r, U r → W (r.getD .null)) : (orNull x).Meets C W :=
  hx.bind fun r hr => .pure (h r hr)

end Evaluator

/-!
A property that every activation has, whatever the machine: it is enough to know it of each frame
by itself.
-/

namespace Traced

def Everywhere (P : Activation → Prop) (x : Traced α) : Prop :=
  x.Meets ⟨fun _ => True, P, fun _ => True⟩ fun _ => True

theorem Everywhere.lift {P : Activation → Prop} (x : Eval α) :
    Everywhere P (liftM x : Traced α) :=
  Meets.lift fun m _ => by cases x m <;> exact ⟨trivial, trivial⟩

-- The property is one of the first of the two computations alone.
def everywhere (P : Activation → Prop) : Congruence Traced Traced where
  Relates x _ := x.Everywhere P
  pure _ := Meets.pure trivial
  bind hx hf := hx.bind fun a _ => hf a
  map _ hx := hx.map fun _ _ => trivial
  lift _ := .lift _

end Traced

-- The activations of the frames that `E` makes one step of have the property.
structure Evaluator.Frames (P : Activation → Prop) (E : Evaluator Traced) : Prop where
  expr : ∀ s e m, P (.mk (.expr s e) m ((E.expr s e).parts m) ((some <$> (E.expr s e).outcome) m))
  block : ∀ s b m, P (.mk (.block s b) m ((E.block s b).parts m) ((id <$> (E.block s b).outcome) m))
  stmt : ∀ s x m, P (.mk (.stmt s x) m ((E.stmt s x).parts m) ((id <$> (E.stmt s x).outcome) m))
  call : ∀ l f args m, P (.mk (.call l f args) m ((E.call l f args).parts m)
    ((some <$> (E.call l f args).outcome) m))

theorem Traced.within_everywhere {P : Activation → Prop}
    (h : ∀ n, ((Traced.within n).step n).Frames P) (n : Nat) :
    (everywhere P).Evaluators (Traced.within n) (Traced.within n) := by
  induction n
  case zero => exact (everywhere P).exhausted
  case succ n hi =>
    have hs := hi.step (fun x => .lift x) n
    refine ⟨fun s e => ?expr, fun s b => ?block, fun s x => ?stmt, fun l f args => ?call⟩
    case expr => exact (hs.expr s e).record fun m _ => (h n).expr s e m
    case block => exact (hs.block s b).record fun m _ => (h n).block s b m
    case stmt => exact (hs.stmt s x).record fun m _ => (h n).stmt s x m
    case call => exact (hs.call l f args).record fun m _ => (h n).call l f args m

theorem Program.forall_within_activation {P : Activation → Prop} {frames : Nat} {s : Scope}
    {p : Program} {m : Machine} (h : ∀ n, ((Traced.within n).step n).Frames P)
    (hp : P (p.activation frames s m)) {u : Activation}
    (hu : u.Within (p.activation frames s m)) : P u := by
  have hs : (Evaluator.sequence ((Traced.within frames).stmt s) none p.statements).Everywhere P :=
    (Traced.everywhere P).sequence ((Traced.within_everywhere h frames).stmt s)
  exact Activation.forall_within_mk hp (hs.parts m trivial) u hu

-- What a tree says of an evaluation in it is what evaluation does.
theorem Program.exists_eval_eq {frames : Nat} {s : Scope} {p : Program} {m : Machine}
    {u : Activation} (hu : u.Within (p.activation frames s m)) :
    ∃ n, u.outcome = u.task.eval n u.start := by
  refine forall_within_activation (P := fun u => ∃ n, u.outcome = u.task.eval n u.start)
    (fun n => ?_) ⟨frames, rfl⟩ hu
  have h : ((Traced.within n).step n).outcome = Eval.within (n + 1) := Traced.outcome_within (n + 1)
  refine ⟨fun s e m => ⟨n + 1, ?_⟩, fun s b m => ⟨n + 1, ?_⟩, fun s x m => ⟨n + 1, ?_⟩,
    fun l f args m => ⟨n + 1, ?_⟩⟩ <;> simp only [Activation.task, Activation.start, Task.eval]
  · rw [Eval.expr, ← h]; rfl
  · rw [Eval.block, ← h, id_map]; rfl
  · rw [Eval.stmt, ← h, id_map]; rfl
  · rw [Eval.call, ← h]; rfl

end Marmoset
