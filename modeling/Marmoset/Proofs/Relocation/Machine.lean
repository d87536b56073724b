import Marmoset.Machine.Source
import Marmoset.Proofs.Relocation.Program

/-!
Runs whose places are moved. A place only shows in what a function or an error says of itself, so
a moved program does to a moved machine what the program does to the machine.
-/

namespace Marmoset

variable (f : Location → Location)

def Closure.relocate (c : Closure) : Closure :=
  { c with
    location := f c.location
    params := c.params.map (·.relocate f)
    body := c.body.relocate f }

mutual

def Value.relocate : Value → Value
  | .null => .null
  | .bool b => .bool b
  | .int n => .int n
  | .string s => .string s
  | .array i vs => .array i (Value.relocateAll vs)
  | .hash i ps => .hash i (Value.relocateEntries ps)
  | .function c => .function (c.relocate f)
  | .builtin b => .builtin b
  | .returned v => .returned v.relocate
  | .error i x => .error i x

def Value.relocateAll : List Value → List Value
  | [] => []
  | v :: vs => v.relocate :: Value.relocateAll vs

def Value.relocateEntries : List (Value × Value) → List (Value × Value)
  | [] => []
  | (k, v) :: ps => (k.relocate, v.relocate) :: Value.relocateEntries ps

end

def Callee.relocate : Callee → Callee
  | .closure c => .closure (c.relocate f)
  | .builtin b => .builtin b

def Diagnostic.relocate (d : Diagnostic) : Diagnostic :=
  ⟨d.location.map f, d.trace.map fun c => ⟨c.location.map f, c.callee.relocate f⟩⟩

def Machine.relocate (m : Machine) : Machine where
  scopes := m.scopes.map (·.map (Prod.map id (Value.relocate f)))
  nextObject := m.nextObject
  diagnostics := m.diagnostics.map (·.relocate f)
  printed := m.printed.map (·.relocate f)

variable {f : Location → Location}

namespace Value

@[simp]
theorem relocateAll_eq_map (vs : List Value) : relocateAll f vs = vs.map (·.relocate f) := by
  induction vs <;> simp_all [relocateAll]

@[simp]
theorem relocateEntries_eq_map (ps : List (Value × Value)) :
    relocateEntries f ps = ps.map (Prod.map (relocate f) (relocate f)) := by
  induction ps <;> simp_all [relocateEntries, Prod.map]

variable (v w : Value)

@[simp]
theorem type_relocate : (v.relocate f).type = v.type := by
  cases v <;> rfl

@[simp]
theorem isTruthy_relocate : (v.relocate f).isTruthy = v.isTruthy := by
  cases v <;> rfl

@[simp]
theorem isControlFlow_relocate : (v.relocate f).isControlFlow = v.isControlFlow := by
  cases v <;> rfl

@[simp]
theorem isHashable_relocate : (v.relocate f).isHashable = v.isHashable := by
  cases v <;> rfl

theorem beq_relocate : ∀ v w : Value, (v.relocate f == w.relocate f) = (v == w)
  | .returned v, w => by
    cases w
    case returned w => exact beq_relocate v w
    all_goals rfl
  | .null, w | .bool _, w | .int _, w | .string _, w | .array .., w | .hash .., w
  | .function _, w | .builtin _, w | .error .., w => by cases w <;> rfl

mutual

theorem depth_relocate : ∀ v : Value, (v.relocate f).depth = v.depth
  | .null | .bool _ | .int _ | .string _ | .function _ | .builtin _ | .error .. => rfl
  | .array _ vs => by simp only [relocate, depth, depths_relocate vs]
  | .hash _ ps => by simp only [relocate, depth, entryDepths_relocate ps]
  | .returned v => by simp only [relocate, depth, depth_relocate v]

theorem depths_relocate : ∀ vs : List Value, depths (relocateAll f vs) = depths vs
  | [] => rfl
  | v :: vs => by simp only [relocateAll, depths, depth_relocate v, depths_relocate vs]

theorem entryDepths_relocate :
    ∀ ps : List (Value × Value), entryDepths (relocateEntries f ps) = entryDepths ps
  | [] => rfl
  | (k, v) :: ps => by
    simp only [relocateEntries, entryDepths, depth_relocate k, depth_relocate v,
      entryDepths_relocate ps]

end

end Value

-- Operations on moved values, of which the faults do not change.
theorem PrefixOp.apply_relocate (op : PrefixOp) (v : Value) :
    op.apply (v.relocate f) = (op.apply v).map (·.relocate f) := by
  cases op <;> cases v <;> rfl

theorem InfixOp.apply_relocate (op : InfixOp) (v w : Value) :
    op.apply (v.relocate f) (w.relocate f) = (op.apply v w).map (·.relocate f) := by
  cases v <;> cases w
  case int.int a b =>
    cases op
    case div => by_cases hb : b = 0 <;> simp [apply, applyInt, Value.relocate, hb] <;> rfl
    all_goals rfl
  case string.string | bool.bool => cases op <;> rfl
  all_goals rfl

theorem Value.getD_map_relocate (v : Option Value) :
    (v.map (relocate f)).getD .null = (v.getD .null).relocate f := by
  cases v <;> rfl

theorem Value.get_relocate (v k : Value) :
    (v.relocate f).get (k.relocate f) = (v.get k).map (·.relocate f) := by
  cases v
  case array i vs =>
    cases k
    case int n =>
      simp only [relocate, relocateAll_eq_map, get, List.getElem?_map, getD_map_relocate]
      split <;> rfl
    all_goals rfl
  case hash i ps =>
    simp only [relocate, relocateEntries_eq_map, get, isHashable_relocate, type_relocate,
      Assoc.find?_map beq_relocate, getD_map_relocate]
    split <;> rfl
  all_goals
    simp only [relocate, get, type_relocate]
    rfl

theorem map_modify {g : α → β} {h : α → α} {k : β → β} (hk : ∀ a, k (g a) = g (h a))
    (xs : Array α) (i : Nat) : (xs.map g).modify i k = (xs.modify i h).map g := by
  refine Array.ext_getElem? fun j => ?_
  simp only [Array.getElem?_modify, Array.getElem?_map]
  split
  · cases xs[j]?
    case none => rfl
    case some a => exact congrArg some (hk a)
  · rfl

namespace Machine

variable (m : Machine)

theorem bindings_relocate (i : ScopeId) :
    (m.relocate f).bindings i = (m.bindings i).map (Prod.map id (Value.relocate f)) := by
  simp only [bindings, relocate, Array.getElem?_map]
  cases m.scopes[i]? <;> rfl

theorem resolve?_relocate (s : Scope) (x : String) :
    (m.relocate f).resolve? s x = (m.resolve? s x).map (·.relocate f) := by
  simp only [resolve?, bindings_relocate, List.map_findSome?]
  congr
  funext i
  exact Assoc.find?_map (fun _ _ => rfl) _ x _

theorem newScope_relocate (o : Option Scope) :
    (m.relocate f).newScope o = ((m.newScope o).1, (m.newScope o).2.relocate f) := by
  simp [newScope, relocate]

theorem define_relocate (s : Scope) (x : String) (v : Value) :
    (m.relocate f).define s x (v.relocate f) = (m.define s x v).relocate f := by
  simp only [define, relocate]
  rw [map_modify (h := Assoc.insert x v)]
  exact fun bs => Assoc.insert_map (f := id) (fun _ _ => rfl) (Value.relocate f) x v bs

theorem newError_relocate (l : Option Location) :
    (m.relocate f).newError (l.map f) = ((m.newError l).1, (m.newError l).2.relocate f) := by
  simp [newError, relocate, Diagnostic.relocate, Diagnostic.fresh]

theorem annotate_relocate {i : ErrorId} {g h : Diagnostic → Diagnostic}
    (hd : ∀ d, h (d.relocate f) = (g d).relocate f) :
    (m.relocate f).annotate i h = (m.annotate i g).relocate f := by
  simp only [annotate, relocate]
  rw [map_modify hd]

theorem print_relocate (v : Value) :
    (m.relocate f).print (v.relocate f) = (m.print v).relocate f := by
  simp [print, relocate]

end Machine

namespace Eval

-- The computation `y` does to a moved machine what `x` does to the machine itself.
abbrev Moves (f : Location → Location) (h : α → α) (x y : Eval α) : Prop :=
  Simulates (Machine.relocate f) id h x y

theorem fail_moves (l : Option Location) (x : Fault) :
    Moves f (Value.relocate f) (fail l x) (fail (l.map f) x) :=
  fun m => by simp [fail, m.newError_relocate, Value.relocate]

theorem ofResult_moves (l : Location) (r : Except Fault Value) :
    Moves f (Value.relocate f) (ofResult l r) (ofResult (f l) (r.map (·.relocate f))) := by
  cases r
  case ok v => exact .pure v
  case error x => exact fail_moves (some l) x

theorem newObject_moves : Moves f id newObject newObject :=
  fun _ => rfl

theorem newArray_moves (vs : List Value) :
    Moves f (Value.relocate f) (newArray vs) (newArray (vs.map (·.relocate f))) :=
  newObject_moves.bind fun i => .pure_eq (by rw [Value.relocate, Value.relocateAll_eq_map]; rfl)

theorem newHash_moves (ps : Assoc Value Value) : Moves f (Value.relocate f) (newHash ps)
    (newHash (ps.map (Prod.map (Value.relocate f) (Value.relocate f)))) :=
  newObject_moves.bind fun i => .pure_eq (by rw [Value.relocate, Value.relocateEntries_eq_map]; rfl)

theorem newFunction_moves (s : Scope) (l : Location) (ps : List Binder) (b : Block) :
    Moves f (Value.relocate f) (newFunction s l ps b)
      (newFunction s (f l) (ps.map (·.relocate f)) (b.relocate f)) :=
  newObject_moves.bind fun i => .pure (Value.function ⟨i, l, ps, b, s⟩)

theorem annotate_moves (v : Value) {g h : Diagnostic → Diagnostic}
    (hd : ∀ d, h (d.relocate f) = (g d).relocate f) :
    Moves f id (annotate v g) (annotate (v.relocate f) h) := by
  cases v
  case error i x =>
    intro m
    exact congrArg (EStateM.Result.ok ()) (m.annotate_relocate hd)
  all_goals
    intro m
    rfl

theorem define_moves (s : Scope) (x : String) (v : Value) :
    Moves f id (define s x v) (define s x (v.relocate f)) := by
  intro m
  unfold define
  cases hv : v.isControlFlow <;> simp [hv, m.define_relocate]

theorem defineAll_moves (s : Scope) (ps : List (Binder × Value)) : Moves f id (defineAll s ps)
    (defineAll s (ps.map (Prod.map (Binder.relocate f) (Value.relocate f)))) := by
  induction ps
  case nil => exact .pure ()
  case cons p ps hi => exact (define_moves s p.1.name p.2).bind fun _ => hi

theorem newScope_moves (o : Option Scope) : Moves f id (newScope o) (newScope o) :=
  fun m => by simp [newScope, m.newScope_relocate]

theorem enter_moves (c : Closure) (args : List Value) :
    Moves f id (enter c args) (enter (c.relocate f) (args.map (·.relocate f))) := by
  refine (newScope_moves _).bind fun s => ?_
  rw [Closure.relocate, List.zip_map]
  exact (defineAll_moves s _).bind fun _ => .pure s

theorem leave_moves (l : Option Location) (c : Closure) (r : Option Value) :
    Moves f (Value.relocate f) (leave l c r)
      (leave (l.map f) (c.relocate f) (r.map (·.relocate f))) := by
  cases r
  case none => exact .pure Value.null
  case some v =>
    cases v
    case returned v => exact .pure v
    all_goals
      refine (annotate_moves _ fun d => ?_).bind fun _ => .pure _
      simp [Diagnostic.relocate, Diagnostic.within, Callee.relocate]

theorem name_moves (s : Scope) (l : Location) (x : String) :
    Moves f (Value.relocate f) (name s l x) (name s (f l) x) := by
  have hr : Simulates (Machine.relocate f) id (Option.map (Value.relocate f)) (resolve? s x)
      (resolve? s x) := fun m => by simp [resolve?, m.resolve?_relocate]
  refine hr.bind fun r => ?_
  cases r
  case some v => exact .pure v
  case none =>
    cases hb : Builtin.ofName? x
    case some b => simp; exact .pure (Value.builtin b)
    case none => simp; exact fail_moves (some l) _

end Eval

namespace Builtin

open Eval

theorem unary_moves {args : List Value} {g : Value → Eval Value}
    (hg : ∀ v, Moves f (Value.relocate f) (g v) (g (v.relocate f))) :
    Moves f (Value.relocate f) (unary args g) (unary (args.map (·.relocate f)) g) := by
  match args with
  | [] => exact fail_moves none _
  | [v] => exact hg v
  | _ :: _ :: vs =>
    simp only [unary, List.map_cons, List.length_cons, List.length_map]
    exact fail_moves none _

theorem binary_moves {args : List Value} {g : Value → Value → Eval Value}
    (hg : ∀ v w, Moves f (Value.relocate f) (g v w) (g (v.relocate f) (w.relocate f))) :
    Moves f (Value.relocate f) (binary args g) (binary (args.map (·.relocate f)) g) := by
  match args with
  | [] | [_] => exact fail_moves none _
  | [v, w] => exact hg v w
  | _ :: _ :: _ :: vs =>
    simp only [binary, List.map_cons, List.length_cons, List.length_map]
    exact fail_moves none _

theorem onArray_moves {b : Builtin} (v : Value) {g h : List Value → Eval Value}
    (hg : ∀ vs, Moves f (Value.relocate f) (g vs) (h (vs.map (·.relocate f)))) :
    Moves f (Value.relocate f) (b.onArray v g) (b.onArray (v.relocate f) h) := by
  cases v
  case array i vs =>
    rw [Value.relocate, Value.relocateAll_eq_map]
    exact hg vs
  all_goals exact fail_moves none _

theorem printAll_moves (frames : Nat) (vs : List Value) : Moves f (Value.relocate f)
    (printAll frames vs) (printAll frames (vs.map (·.relocate f))) := by
  induction vs
  case nil => exact .pure Value.null
  case cons v vs hi =>
    have hp : Moves f id (print v) (print (v.relocate f)) :=
      fun m => congrArg (EStateM.Result.ok ()) (m.print_relocate v)
    simp only [List.map_cons, printAll, Value.depth_relocate]
    exact .ite (fail_moves none _) (hp.bind fun _ => hi)

theorem apply_moves (frames : Nat) (b : Builtin) (args : List Value) :
    Moves f (Value.relocate f) (b.apply frames args)
      (b.apply frames (args.map (·.relocate f))) := by
  cases b
  case len =>
    refine unary_moves fun v => ?_
    cases v
    case string s => exact .pure (Value.ofNat s.length)
    case array i vs =>
      simp only [Value.relocate, Value.relocateAll_eq_map, length, List.length_map]
      exact .pure (Value.ofNat vs.length)
    all_goals exact fail_moves none _
  case first =>
    refine unary_moves fun v => onArray_moves v fun vs => .pure_eq ?_
    rw [List.head?_map, Value.getD_map_relocate]
  case last =>
    refine unary_moves fun v => onArray_moves v fun vs => .pure_eq ?_
    rw [List.getLast?_map, Value.getD_map_relocate]
  case rest =>
    refine unary_moves fun v => onArray_moves v fun vs => ?_
    cases vs
    case nil => exact .pure Value.null
    case cons => exact newArray_moves _
  case push =>
    refine binary_moves fun v w => onArray_moves v fun vs => ?_
    have h := newArray_moves (f := f) (vs ++ [w])
    rwa [List.map_append] at h
  case puts => exact printAll_moves frames args

end Builtin

theorem Expr.location_relocate (e : Expr) : (e.relocate f).location = f e.location := by
  cases e
  case cond a => cases a <;> rfl
  all_goals rfl

namespace Evaluator

open Eval

-- The evaluator does to a moved part of a program what it does to the part itself.
structure Natural (f : Location → Location) (E : Evaluator Eval) : Prop where
  expr : ∀ s e, Moves f (Value.relocate f) (E.expr s e) (E.expr s (e.relocate f))
  block : ∀ s b, Moves f (Option.map (Value.relocate f)) (E.block s b) (E.block s (b.relocate f))
  stmt : ∀ s x, Moves f (Option.map (Value.relocate f)) (E.stmt s x) (E.stmt s (x.relocate f))
  call : ∀ l v args, Moves f (Value.relocate f) (E.call l v args)
    (E.call (l.map f) (v.relocate f) (args.map (·.relocate f)))

theorem plain_moves {x y : Eval Value} {p q : Value → Eval Value}
    (hx : Moves f (Value.relocate f) x y)
    (hp : ∀ v, Moves f (Value.relocate f) (p v) (q (v.relocate f))) :
    Moves f (Value.relocate f) (plain x p) (plain y q) := by
  refine Simulates.bind hx fun v => ?_
  rw [Value.isControlFlow_relocate]
  exact .ite (.pure v) (hp v)

theorem plains_moves {eval : Expr → Eval Value} {es : List Expr} {p q : List Value → Eval Value}
    (hx : ∀ e, Moves f (Value.relocate f) (eval e) (eval (e.relocate f)))
    (hp : ∀ vs, Moves f (Value.relocate f) (p vs) (q (vs.map (·.relocate f)))) :
    Moves f (Value.relocate f) (plains eval es p) (plains eval (es.map (·.relocate f)) q) := by
  induction es generalizing p q
  case nil => exact hp []
  case cons e es hi => exact plain_moves (hx e) fun v => hi fun vs => hp (v :: vs)

theorem entries_moves {eval : Expr → Eval Value} {es : List (Expr × Expr)}
    {ps : Assoc Value Value} {p q : Assoc Value Value → Eval Value}
    (hx : ∀ e, Moves f (Value.relocate f) (eval e) (eval (e.relocate f)))
    (hp : ∀ ps, Moves f (Value.relocate f) (p ps)
      (q (ps.map (Prod.map (Value.relocate f) (Value.relocate f))))) :
    Moves f (Value.relocate f) (entries eval es ps p)
      (entries eval (es.map fun e => (e.1.relocate f, e.2.relocate f))
        (ps.map (Prod.map (Value.relocate f) (Value.relocate f))) q) := by
  induction es generalizing ps
  case nil => exact hp ps
  case cons e es hi =>
    refine plain_moves (hx e.1) fun k => ?_
    rw [Value.isHashable_relocate, Value.type_relocate]
    refine .ite (plain_moves (hx e.2) fun v => ?_) ?_
    · rw [Assoc.insert_map Value.beq_relocate]
      exact hi
    · rw [Expr.location_relocate]
      exact fail_moves (some e.1.location) _

theorem sequence_moves {run : Stmt → Eval (Option Value)} {last : Option Value} {ss : List Stmt}
    (hr : ∀ x, Moves f (Option.map (Value.relocate f)) (run x) (run (x.relocate f))) :
    Moves f (Option.map (Value.relocate f)) (sequence run last ss)
      (sequence run (last.map (·.relocate f)) (ss.map (·.relocate f))) := by
  induction ss generalizing last
  case nil => exact .pure last
  case cons x ss hi =>
    refine Simulates.bind (hr x) fun r => ?_
    have hc : (r.map (·.relocate f)).any (·.isControlFlow) = r.any (·.isControlFlow) := by
      cases r <;> simp
    rw [hc]
    exact .ite (.pure r) hi

theorem orNull_moves {x y : Eval (Option Value)}
    (hx : Moves f (Option.map (Value.relocate f)) x y) :
    Moves f (Value.relocate f) (orNull x) (orNull y) :=
  Simulates.bind hx fun r => .pure_eq (Value.getD_map_relocate r)

namespace Natural

variable {E : Evaluator Eval} (h : Natural f E)
include h

theorem exprStep (s : Scope) (e : Expr) :
    Moves f (Value.relocate f) (E.exprStep s e) (E.exprStep s (e.relocate f)) := by
  cases e
  case ident l x => exact name_moves s l x
  case int n => exact .pure (Value.int n)
  case string t => exact .pure (Value.string t)
  case bool b => exact .pure (Value.bool b)
  case prefixOp l op e =>
    refine plain_moves (h.expr s e) fun v => ?_
    rw [op.apply_relocate]
    exact ofResult_moves l _
  case infixOp l op a b =>
    refine plain_moves (h.expr s a) fun v => plain_moves (h.expr s b) fun w => ?_
    rw [op.apply_relocate]
    exact ofResult_moves l _
  case cond l c b a =>
    cases a <;> refine plain_moves (h.expr s c) fun v => ?_ <;> rw [Value.isTruthy_relocate]
    case none => exact .ite (orNull_moves (h.block s b)) (.pure Value.null)
    case some a => exact .ite (orNull_moves (h.block s b)) (orNull_moves (h.block s a))
  case fn l ps b => exact newFunction_moves s l ps b
  case call l e as =>
    rw [Expr.relocate, Expr.relocateAll_eq_map]
    exact plain_moves (h.expr s e) fun v => plains_moves (h.expr s) fun vs => h.call (some l) v vs
  case array l es =>
    rw [Expr.relocate, Expr.relocateAll_eq_map]
    exact plains_moves (h.expr s) fun vs => newArray_moves vs
  case hash l ps =>
    rw [Expr.relocate, Expr.relocatePairs_eq_map]
    exact entries_moves (h.expr s) fun ps => newHash_moves ps
  case index l c i =>
    refine plain_moves (h.expr s c) fun v => plain_moves (h.expr s i) fun k => ?_
    rw [v.get_relocate]
    exact ofResult_moves l _

theorem stmtStep (s : Scope) (x : Stmt) : Moves f (Option.map (Value.relocate f))
    (E.stmtStep s x) (E.stmtStep s (x.relocate f)) := by
  cases x
  case bind l b e =>
    refine Simulates.bind (h.expr s e) fun v => ?_
    rw [Value.isControlFlow_relocate]
    exact .ite (.pure (some v)) ((define_moves s b.name v).bind fun _ => .pure none)
  case ret l e =>
    refine Simulates.bind (h.expr s e) fun v => ?_
    rw [Value.isControlFlow_relocate]
    exact .ite (.pure (some v)) (.pure (some (Value.returned v)))
  case expr e => exact (h.expr s e).map fun _ => rfl

theorem callStep (frames : Nat) (l : Option Location) (v : Value) (args : List Value) :
    Moves f (Value.relocate f) (E.callStep frames l v args)
      (E.callStep frames (l.map f) (v.relocate f) (args.map (·.relocate f))) := by
  cases v
  case builtin b =>
    refine (b.apply_moves frames args).bind fun v => (annotate_moves v fun d => ?_).bind fun _ =>
      .pure v
    simp [Diagnostic.relocate, Diagnostic.placed, Diagnostic.within, Callee.relocate,
      Option.map_or]
  case function c =>
    simp only [Value.relocate, Evaluator.callStep, Closure.relocate, List.length_map]
    refine .ite ?_ (fail_moves l _)
    exact (enter_moves c args).bind fun s => (h.block s c.body).bind fun r => leave_moves l c r
  all_goals exact fail_moves l _

theorem step (frames : Nat) : (E.step frames).Natural f where
  expr := h.exprStep
  block s b := by
    obtain ⟨l, ss⟩ := b
    rw [Block.relocate, Stmt.relocateAll_eq_map]
    exact sequence_moves (h.stmt s)
  stmt := h.stmtStep
  call := h.callStep frames

end Natural

end Evaluator

theorem Eval.within_natural (f : Location → Location) (frames : Nat) :
    (within frames).Natural f := by
  induction frames
  case zero => exact ⟨fun _ _ _ => rfl, fun _ _ _ => rfl, fun _ _ _ => rfl, fun _ _ _ _ => rfl⟩
  case succ n hi => exact hi.step n

end Marmoset
