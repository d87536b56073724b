import Marmoset.Proofs.Contract

/-!
Parameters. The body of a call begins in a scope of its own, in which each parameter has its
argument. It keeps that as long as no statement of that scope binds the name again, whatever else is
evaluated in the meantime (`supplies_of_within`).
-/

namespace Marmoset

-- The statement that is run binds the name in the scope itself.
def Task.Binds (i : ScopeId) (x : String) : Task → Prop
  | stmt s (.bind _ b _) => s.id = i ∧ b.name = x
  | _ => False

-- A function that is called has a name of its own for each parameter, and no argument is control
-- flow.
def Task.Bindable : Task → Prop
  | call _ (.function c) args =>
    (c.params.map (·.name)).Nodup ∧ ∀ v ∈ args, v.isControlFlow = false
  | _ => True

-- The scope itself has the value for the name.
structure Machine.Holds (i : ScopeId) (x : String) (v : Value) (m : Machine) : Prop where
  size : i < m.scopes.size
  find : Assoc.find? x (m.bindings i) = some v

namespace Activation

-- `u` takes place in one of the evaluations that are made in turn, and begins when those of
-- `earlier` have ended.
inductive BeginsIn (u : Activation) : List Activation → List Activation → Prop
  | self : BeginsIn u (u :: ts) []
  | part : BeginsIn u t.parts earlier → BeginsIn u (t :: ts) earlier
  | next : BeginsIn u ts earlier → BeginsIn u (t :: ts) (t :: earlier)

theorem BeginsIn.of_append {u : Activation} {ts us es : List Activation}
    (h : u.BeginsIn (ts ++ us) es) : u.BeginsIn ts es ∨ ∃ fs, es = ts ++ fs ∧ u.BeginsIn us fs := by
  induction ts generalizing es
  case nil => exact .inr ⟨es, rfl, h⟩
  case cons t ts hi =>
    cases h
    case self => exact .inl .self
    case part h => exact .inl (.part h)
    case next h =>
      obtain ht | ⟨fs, rfl, hu⟩ := hi h
      · exact .inl (.next ht)
      · exact .inr ⟨fs, rfl, hu⟩

theorem BeginsIn.behind {u : Activation} {ts es : List Activation} (h : u.BeginsIn ts es)
    (us : List Activation) : u.BeginsIn (us ++ ts) (us ++ es) := by
  induction us
  case nil => exact h
  case cons hi => exact .next hi

theorem exists_beginsIn {t u : Activation} {ts : List Activation} (hu : u.Within t) (ht : t ∈ ts) :
    ∃ es, u.BeginsIn ts es := by
  induction hu generalizing ts
  case refl =>
    obtain ⟨us, vs, rfl⟩ := List.append_of_mem ht
    exact ⟨_, BeginsIn.self.behind us⟩
  case part hp _ hi =>
    obtain ⟨us, vs, rfl⟩ := List.append_of_mem ht
    have ⟨_, h⟩ := hi hp
    exact ⟨_, (BeginsIn.part h).behind us⟩

-- In none of the evaluations is the name bound in the scope.
def NoneBinds (i : ScopeId) (x : String) (ts : List Activation) : Prop :=
  ∀ t ∈ ts, ∀ u : Activation, u.Within t → ¬u.task.Binds i x

theorem BeginsIn.noneBinds {u : Activation} {ts es : List Activation} {i : ScopeId} {x : String}
    (h : u.BeginsIn ts es) (hn : NoneBinds i x ts) : NoneBinds i x es := by
  induction h
  case self => exact nofun
  case part hi => exact hi fun p hp w hw => hn _ List.mem_cons_self w (.part hp hw)
  case next hi =>
    refine List.forall_mem_cons.mpr ⟨hn _ List.mem_cons_self, hi fun t ht => ?_⟩
    exact hn t (List.mem_cons_of_mem _ ht)

end Activation

variable {i : ScopeId} {x : String} {v : Value} {m : Machine}

namespace Machine.Holds

theorem resolve? (h : m.Holds i x v) (outer : List ScopeId) :
    m.resolve? ⟨i, outer⟩ x = some v := by
  simp [Machine.resolve?, h.find]

theorem of_scopes {m' : Machine} (h : m.Holds i x v) (he : m'.scopes = m.scopes) :
    m'.Holds i x v := by
  have ⟨hs, hf⟩ := h
  simp only [bindings] at hf
  exact ⟨he ▸ hs, by simpa only [bindings, he] using hf⟩

theorem newScope (h : m.Holds i x v) (o : Option Scope) : (m.newScope o).2.Holds i x v where
  size := by
    simp only [Machine.newScope, Array.size_push]
    exact Nat.lt_succ_of_lt h.size
  find := by rw [bindings_newScope, h.find]

theorem define (h : m.Holds i x v) {s : Scope} {y : String} (hn : ¬(s.id = i ∧ y = x))
    (w : Value) : (m.define s y w).Holds i x v where
  size := by simpa [Machine.define] using h.size
  find := by
    rw [bindings_define]
    split
    case isTrue hi =>
      have hy : y ≠ x := fun hy => hn ⟨hi.left.symm, hy⟩
      rw [Assoc.find?_insert_of_ne (beq_eq_false_iff_ne.mpr hy), h.find]
    case isFalse => exact h.find

end Machine.Holds

namespace Traced

-- Only where the name is bound in the scope anew may the value be lost: the evaluations begin with
-- it as long as that has not been done, and if it is never done it is there in the end.
structure Keeps (i : ScopeId) (x : String) (v : Value) (c : Traced α) : Prop where
  outcome : ∀ m, m.Holds i x v → Activation.NoneBinds i x (c.parts m) →
    (Result.machine (c.outcome m)).Holds i x v
  parts : ∀ m, m.Holds i x v → ∀ (u : Activation) (es : List Activation),
    u.BeginsIn (c.parts m) es → Activation.NoneBinds i x es → u.start.Holds i x v

namespace Keeps

open Activation

variable {c : Traced α} {f : α → Traced β}

theorem lift {a : Eval α} (h : ∀ m, m.Holds i x v → (Result.machine (a m)).Holds i x v) :
    Keeps i x v (liftM a : Traced α) where
  outcome m hm _ := h m hm
  parts _ _ _ _ hu := by cases hu

protected theorem bind (hc : Keeps i x v c) (hf : ∀ a, Keeps i x v (f a)) :
    Keeps i x v (c >>= f) where
  outcome m hm hn := by
    have h := hc.outcome m hm
    cases he : c.outcome m <;> rw [he] at h
    case ok a m' =>
      rw [parts_bind_of_ok he] at hn
      rw [outcome_bind_of_ok he]
      exact (hf a).outcome m' (h fun t ht => hn t (List.mem_append_left _ ht))
        fun t ht => hn t (List.mem_append_right _ ht)
    case error e m' =>
      rw [parts_bind_of_error he] at hn
      rw [outcome_bind_of_error he]
      exact h hn
  parts m hm u es hu hn := by
    cases he : c.outcome m
    case error => exact hc.parts m hm u es (parts_bind_of_error he ▸ hu) hn
    case ok a m' =>
      have h := hc.outcome m hm
      rw [he] at h
      rw [parts_bind_of_ok he] at hu
      obtain hc' | ⟨fs, rfl, hf'⟩ := hu.of_append
      case inl => exact hc.parts m hm u es hc' hn
      case inr =>
        exact (hf a).parts m' (h fun t ht => hn t (List.mem_append_left _ ht)) u fs hf'
          fun t ht => hn t (List.mem_append_right _ ht)

-- Nothing is asked of how a task ends that itself binds the name.
theorem record {k : Task} {result : α → Option Value}
    (hp : ∀ m, m.Holds i x v → ∀ (u : Activation) (es : List Activation),
      u.BeginsIn (c.parts m) es → NoneBinds i x es → u.start.Holds i x v)
    (hc : ¬k.Binds i x → Keeps i x v c) : Keeps i x v (record k result c) where
  outcome m hm hn := by
    have hk := hn _ List.mem_cons_self _ .refl
    exact (hc hk).outcome m hm fun t ht u hu => hn _ List.mem_cons_self u (.part ht hu)
  parts m hm u es hu hn := by
    cases hu
    case self => exact hm
    case part hu => exact hp m hm u es hu hn
    case next hu => cases hu

end Keeps

def keeping (i : ScopeId) (x : String) (v : Value) : Congruence Traced Traced where
  Relates c _ := Keeps i x v c
  pure _ := ⟨fun _ hm _ => hm, fun _ _ _ _ hu => by cases hu⟩
  bind := .bind
  map _ hc := hc.bind fun _ => ⟨fun _ hm _ => hm, fun _ _ _ _ hu => by cases hu⟩
  lift h := .lift fun m hm => hm.of_scopes (h m)

end Traced

namespace Evaluator

variable {E : Evaluator Traced}

-- The name is bound when all evaluations have been made.
theorem parts_bind (s : Scope) (l : Location) (b : Binder) (e : Expr) (m : Machine) :
    (E.stmtStep s (.bind l b e)).parts m = (E.expr s e).parts m := by
  rw [stmtStep]
  cases h : (E.expr s e).outcome m
  case error => exact Traced.parts_bind_of_error h
  case ok r m' =>
    rw [Traced.parts_bind_of_ok h]
    split
    case isTrue => exact List.append_nil _
    case isFalse =>
      cases hd : (liftM (Eval.define s b.name r) : Traced Unit).outcome m'
      case ok =>
        rw [Traced.parts_bind_of_ok hd]
        exact List.append_nil _
      case error =>
        rw [Traced.parts_bind_of_error hd]
        exact List.append_nil _

end Evaluator

namespace Eval

theorem define_holds {s : Scope} {y : String} (hn : ¬(s.id = i ∧ y = x)) (w : Value)
    (hm : m.Holds i x v) : (Result.machine (define s y w m)).Holds i x v := by
  unfold define
  split
  case isTrue => exact hm
  case isFalse => exact hm.define hn w

theorem defineAll_holds {s : Scope} {ps : List (Binder × Value)}
    (hn : ∀ p ∈ ps, ¬(s.id = i ∧ p.1.name = x)) (hm : m.Holds i x v) :
    (Result.machine (defineAll s ps m)).Holds i x v := by
  induction ps generalizing m
  case nil => exact hm
  case cons p ps hi =>
    simp only [List.forall_mem_cons] at hn
    have h := define_holds hn.left p.2 hm
    replace hi {m : Machine} := hi (m := m) hn.right
    unfold defineAll
    cases hd : define s p.1.name p.2 m <;> rw [hd] at h
    case ok =>
      rw [bind_of_ok hd]
      exact hi h
    case error =>
      rw [bind_of_error hd]
      exact h

-- A call has a scope that there was none before.
theorem enter_holds (c : Closure) (args : List Value) (hm : m.Holds i x v) :
    (Result.machine (enter c args m)).Holds i x v := by
  have hs : (m.newScope c.scope).1.id ≠ i := Nat.ne_of_gt hm.size
  have h : (Result.machine (defineAll (m.newScope c.scope).1 (c.params.zip args)
      (m.newScope c.scope).2)).Holds i x v :=
    defineAll_holds (fun _ _ h => hs h.left) (hm.newScope c.scope)
  change (Result.machine ((defineAll _ _ >>= fun _ => pure _ : Eval Scope) _)).Holds i x v
  cases hd : defineAll (m.newScope c.scope).1 (c.params.zip args) (m.newScope c.scope).2 <;>
    rw [hd] at h
  case ok =>
    rw [bind_of_ok hd]
    exact h
  case error =>
    rw [bind_of_error hd]
    exact h

end Eval

theorem Traced.within_keeps (i : ScopeId) (x : String) (v : Value) (n : Nat) :
    (keeping i x v).Evaluators (Traced.within n) (Traced.within n) := by
  induction n
  case zero => exact (keeping i x v).exhausted
  case succ n hi =>
    refine ⟨fun s e => ?expr, fun s b => ?block, fun s y => ?stmt, fun l f args => ?call⟩
    case expr => exact .record (hi.exprStep s e).parts fun _ => hi.exprStep s e
    case block => exact .record (hi.blockStep s b).parts fun _ => hi.blockStep s b
    case stmt =>
      have hs (hn : ¬(Task.stmt s y).Binds i x) : Keeps i x v (((within n).step n).stmt s y) := by
        refine hi.stmtStep s y fun l b e he w => .lift fun m hm => Eval.define_holds ?_ w hm
        subst he
        exact hn
      refine .record (fun m hm => ?_) hs
      cases y
      case bind l b e =>
        simp only [Evaluator.step, Evaluator.parts_bind]
        exact (hi.expr s e).parts m hm
      case ret | expr => exact (hs nofun).parts m hm
    case call =>
      have hc := hi.callStep (l := l) (f := f) (n := n) (k := n)
        (fun b _ => (keeping i x v).lift (Eval.callBuiltin_keepsScopes n l b args))
        fun c _ => .lift fun m hm => Eval.enter_holds c args hm
      exact .record hc.parts fun _ => hc

/-!
What the body of a call begins with.
-/

namespace Eval

theorem define_of_plain (s : Scope) (y : String) {w : Value} (hw : w.isControlFlow = false)
    (m : Machine) : define s y w m = .ok () (m.define s y w) := by
  simp [define, hw]

-- Each name has the value that it stands next to, if no other is its own.
theorem defineAll_ok {s : Scope} {ps : List (Binder × Value)} (hs : s.id < m.scopes.size)
    (hp : (ps.map (·.1.name)).Nodup) (hv : ∀ p ∈ ps, p.2.isControlFlow = false) :
    ∃ m', defineAll s ps m = .ok () m' ∧ ∀ p ∈ ps, m'.Holds s.id p.1.name p.2 := by
  induction ps generalizing m
  case nil => exact ⟨m, rfl, List.forall_mem_nil _⟩
  case cons p ps hi =>
    simp only [List.forall_mem_cons] at hv
    obtain ⟨hn, hp⟩ := List.nodup_cons.mp hp
    have hm : (m.define s p.1.name p.2).Holds s.id p.1.name p.2 :=
      ⟨by simpa [Machine.define] using hs,
        by simp [Machine.bindings_define, hs, Assoc.find?_insert_self]⟩
    obtain ⟨m', he, hf⟩ := hi hm.size hp hv.right
    have hl := defineAll_holds (s := s) (fun q hq h => hn (List.mem_map.mpr ⟨q, hq, h.right⟩)) hm
    rw [he] at hl
    refine ⟨m', ?_, List.forall_mem_cons.mpr ⟨hl, hf⟩⟩
    rw [defineAll, bind_of_ok (define_of_plain s p.1.name hv.left m)]
    exact he

-- A scope that is entered has the arguments and is inside that of the function.
theorem enter_ok (c : Closure) {args : List Value} (hl : args.length = c.params.length)
    (hp : (c.params.map (·.name)).Nodup) (hv : ∀ v ∈ args, v.isControlFlow = false)
    (m : Machine) :
    ∃ m', enter c args m = .ok ⟨m.scopes.size, c.scope.id :: c.scope.outer⟩ m' ∧
      ∀ p ∈ c.params.zip args, m'.Holds m.scopes.size p.1.name p.2 := by
  have hz : (c.params.zip args).map (·.1.name) = c.params.map (·.name) := by
    have hf := congrArg (List.map (·.name)) (List.map_fst_zip (Nat.le_of_eq hl.symm))
    rwa [List.map_map] at hf
  have hs : (m.newScope c.scope).1.id < (m.newScope c.scope).2.scopes.size := by
    simp [Machine.newScope]
  obtain ⟨m', he, hf⟩ := defineAll_ok hs (hz ▸ hp) fun p h => hv p.2 (List.of_mem_zip h).right
  refine ⟨m', ?_, hf⟩
  change (defineAll _ _ >>= fun _ => pure _ : Eval Scope) _ = _
  rw [bind_of_ok he]
  rfl

end Eval

-- The body of a call begins in a scope of its own with each argument as the value of its parameter,
-- and the parameter has it in all that is evaluated there before the name is bound anew.
def Activation.Supplies (u : Activation) : Prop :=
  ∀ l c args, u.task = .call l (.function c) args → args.length = c.params.length →
    let s : Scope := ⟨u.start.scopes.size, c.scope.id :: c.scope.outer⟩
    (∀ t ∈ u.parts, t.task = .block s c.body) ∧
      ∀ p ∈ c.params.zip args, ∀ (t : Activation) (es : List Activation), t.BeginsIn u.parts es →
        Activation.NoneBinds s.id p.1.name es → t.start.resolve? s p.1.name = some p.2

-- A parameter that is never bound anew has its argument throughout the call.
theorem Activation.Supplies.resolve? {u t w : Activation} {l : Option Location} {c : Closure}
    {args : List Value} {p : Binder × Value} (h : u.Supplies)
    (hu : u.task = .call l (.function c) args) (hl : args.length = c.params.length)
    (hp : p ∈ c.params.zip args) (hn : NoneBinds u.start.scopes.size p.1.name u.parts)
    (ht : t ∈ u.parts) (hw : w.Within t) :
    w.start.resolve? ⟨u.start.scopes.size, c.scope.id :: c.scope.outer⟩ p.1.name = some p.2 :=
  have ⟨es, hb⟩ := exists_beginsIn hw ht
  (h l c args hu hl).right p hp w es hb (hb.noneBinds hn)

theorem Traced.task_of_mem_parts_block {n : Nat} {s : Scope} {b : Block} {m : Machine}
    {t : Activation} (ht : t ∈ ((Traced.within n).block s b).parts m) : t.task = .block s b := by
  cases n
  case zero => cases ht
  case succ =>
    rw [List.mem_singleton.mp ht]
    rfl

theorem Program.supplies_of_within {frames : Nat} {s : Scope} {p : Program} {m : Machine}
    {u : Activation} (hu : u.Within (p.activation frames s m)) (hb : u.task.Bindable) :
    u.Supplies := by
  suffices h : u.task.Bindable → u.Supplies from h hb
  refine forall_within_activation (P := fun u => u.task.Bindable → u.Supplies) (fun n => ?_)
    (fun _ => nofun) hu
  refine ⟨fun _ _ _ _ => nofun, fun _ _ _ _ => nofun, fun _ _ _ _ => nofun, ?_⟩
  rintro l f args m hb _ c _ ⟨⟩ hl
  obtain ⟨hp, hv⟩ := hb
  have ⟨m', he, hf⟩ := Eval.enter_ok c hl hp hv m
  have hparts : (((Traced.within n).step n).call l (.function c) args).parts m =
      ((Traced.within n).block ⟨m.scopes.size, c.scope.id :: c.scope.outer⟩ c.body).parts m' := by
    have he : (liftM (Eval.enter c args) : Traced Scope).outcome m = _ := he
    simp only [Evaluator.step, Evaluator.callStep, if_pos hl]
    rw [Traced.parts_bind_of_ok he, Traced.parts_bind_lift]
    rfl
  simp only [Activation.parts, Activation.start, hparts]
  refine ⟨fun t ht => Traced.task_of_mem_parts_block ht, fun p hp t es ht hn => ?_⟩
  have hk := (Traced.within_keeps m.scopes.size p.1.name p.2 n).block
    ⟨m.scopes.size, c.scope.id :: c.scope.outer⟩ c.body
  exact (hk.parts m' (hf p hp) t es ht hn).resolve? _

end Marmoset
