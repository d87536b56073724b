import Marmoset.Proofs.Contract

/-!
What code makes of data. A policy says which code may be run and which functions may be made of it.
If it is lawful, a run that begins with permitted code and data never comes by any other: all that
it evaluates, binds, prints and calls is permitted, at every moment.
-/

namespace Marmoset

-- A piece of a program.
inductive Code
  | expr (e : Expr)
  | block (b : Block)
  | stmt (x : Stmt)

namespace Code

-- The pieces that a piece is directly made of.
def parts : Code → List Code
  | expr (.prefixOp _ _ e) => [expr e]
  | expr (.infixOp _ _ a b) | expr (.index _ a b) => [expr a, expr b]
  | expr (.cond _ c b a) => expr c :: block b :: a.toList.map block
  | expr (.fn _ _ b) => [block b]
  | expr (.call _ f as) => expr f :: as.map expr
  | expr (.array _ es) => es.map expr
  | expr (.hash _ ps) => ps.flatMap fun p => [expr p.1, expr p.2]
  | expr _ => []
  | block b => b.statements.map stmt
  | stmt (.bind _ _ e) | stmt (.ret _ e) | stmt (.expr e) => [expr e]

end Code

structure Policy where
  code : Code → Prop
  function : Closure → Prop

namespace Policy

-- What is made of permitted code is permitted.
structure Lawful (P : Policy) : Prop where
  parts : P.code c → ∀ d ∈ c.parts, P.code d
  makes : P.code (.expr (.fn l ps b)) → P.function ⟨i, l, ps, b, s⟩
  body : P.function c → P.code (.block c.body)

variable (P : Policy)

-- A value that programs may bind, print and put into arrays and hashes, as may all its parts.
inductive Data : Value → Prop
  | null : Data .null
  | bool (b : Bool) : Data (.bool b)
  | int (n : Int64) : Data (.int n)
  | string (s : String) : Data (.string s)
  | array (i : ObjectId) : (∀ v ∈ vs, Data v) → Data (.array i vs)
  | hash (i : ObjectId) : (∀ p ∈ ps, p.1.isHashable) → (∀ p ∈ ps, Data p.1) →
    (∀ p ∈ ps, Data p.2) → Data (.hash i ps)
  | function : P.function c → Data (.function c)
  | builtin (b : Builtin) : Data (.builtin b)

-- What a call or a whole program may come to.
inductive Answer : Value → Prop
  | data : P.Data v → Answer v
  | error (i : ErrorId) (f : Fault) : Answer (.error i f)

-- What an expression may come to: a value on its way out of a function is wrapped once.
inductive Yield : Value → Prop
  | answer : P.Answer v → Yield v
  | returned : P.Data v → Yield (.returned v)

structure Admits (m : Machine) : Prop where
  bindings : ∀ i, ∀ p ∈ m.bindings i, P.Data p.2
  printed : ∀ v ∈ m.printed, P.Data v

-- Permitted code is evaluated, and permitted functions are called with permitted arguments.
def Permits : Task → Prop
  | .expr _ e => P.code (.expr e)
  | .block _ b => P.code (.block b)
  | .stmt _ x => P.code (.stmt x)
  | .call _ f args => P.Data f ∧ ∀ v ∈ args, P.Data v
  | .program _ p => ∀ x ∈ p.statements, P.code (.stmt x)

-- Only statements and what is made of them may have no value, and only calls and whole programs
-- put an end to control flow.
def Yields : Task → Option Value → Prop
  | .expr .., r => ∃ v, r = some v ∧ P.Yield v
  | .block .., r | .stmt .., r => ∀ v ∈ r, P.Yield v
  | .call .., r => ∃ v, r = some v ∧ P.Answer v
  | .program .., r => ∀ v ∈ r, P.Answer v

structure Governs (u : Activation) : Prop where
  task : P.Permits u.task
  start : P.Admits u.start
  stop : P.Admits (Result.machine u.outcome)
  yields : ∀ r m, u.outcome = .ok r m → P.Yields u.task r
  binds : ∀ m, u.outcome ≠ .error .controlFlowBound m

def contract : Contract where
  machine := P.Admits
  activation := P.Governs
  abort a := a = .tooDeep

-- All code may be run.
def free : Policy :=
  ⟨fun _ => True, fun _ => True⟩

theorem free_lawful : free.Lawful :=
  ⟨fun _ _ _ => trivial, fun _ => trivial, fun _ => trivial⟩

variable {P : Policy} {u v w : Value}

theorem Data.not_controlFlow (h : P.Data v) : v.isControlFlow = false := by
  cases h <;> rfl

theorem Data.ofNat (n : Nat) : P.Data (.ofNat n) :=
  .int _

theorem data_array {i : ObjectId} {vs : List Value} :
    P.Data (.array i vs) ↔ ∀ v ∈ vs, P.Data v :=
  ⟨fun h => by cases h; assumption, .array i⟩

theorem Data.of_function {c : Closure} (h : P.Data (.function c)) : P.function c := by
  cases h
  assumption

theorem Data.getD {r : Option Value} (h : ∀ v ∈ r, P.Data v) : P.Data (r.getD .null) := by
  cases r
  case none => exact .null
  case some v => exact h v rfl

theorem Data.yield (h : P.Data v) : P.Yield v :=
  .answer (.data h)

theorem Yield.data (h : P.Yield v) (hp : v.isControlFlow = false) : P.Data v := by
  cases h
  case answer h =>
    cases h
    case data h => exact h
    case error => contradiction
  case returned => contradiction

theorem Answer.ne_returned (h : P.Answer v) : v ≠ .returned w := by
  rintro rfl
  cases h with
  | data h => cases h

theorem Yield.unwrap (h : P.Yield v) : P.Answer v.unwrap := by
  cases h
  case answer h =>
    cases h
    case data h => cases h <;> exact .data (by constructor <;> assumption)
    case error => exact .error _ _
  case returned h => exact .data h

namespace Admits

variable {m : Machine} {s : Scope}

theorem empty : P.Admits .empty where
  bindings := by simp [Machine.bindings, Machine.empty]
  printed := by simp [Machine.empty]

theorem resolve? (hm : P.Admits m) (h : m.resolve? s name = some v) : P.Data v := by
  obtain ⟨i, -, hi⟩ := List.exists_of_findSome?_eq_some h
  obtain ⟨k, hk⟩ := Assoc.exists_mem_of_find?_eq_some hi
  exact hm.bindings i _ hk

theorem newScope (hm : P.Admits m) (outer : Option Scope) : P.Admits (m.newScope outer).2 where
  bindings := by simpa using hm.bindings
  printed := hm.printed

theorem define (hm : P.Admits m) (hv : P.Data v) : P.Admits (m.define s name v) where
  bindings := by
    intro i
    rw [Machine.bindings_define]
    split
    case isTrue =>
      have h := hm.bindings i
      intro p hp
      refine (Assoc.forall_mem_insert (P := fun _ => True) ?_ trivial hv p hp).right
      exact fun p hp => ⟨trivial, h p hp⟩
    case isFalse => exact hm.bindings i
  printed := hm.printed

theorem print (hm : P.Admits m) (hv : P.Data v) : P.Admits (m.print v) where
  bindings := hm.bindings
  printed := by
    simp only [Machine.print, Array.mem_push]
    rintro w (hw | rfl)
    · exact hm.printed w hw
    · exact hv

end Admits

end Policy

section Operations

open Policy

variable {P : Policy} {u v w : Value}

theorem PrefixOp.data_apply {op : PrefixOp} (h : op.apply v = .ok w) : P.Data w := by
  unfold apply at h
  split at h <;> cases h
  · exact .bool _
  · exact .int _

theorem InfixOp.data_applyInt {op : InfixOp} {a b : Int64} (h : op.applyInt a b = .ok v) :
    P.Data v := by
  unfold applyInt at h
  split at h
  case h_4 =>
    split at h <;> cases h
    exact .int _
  all_goals
    cases h
    first
      | exact .int _
      | exact .bool _

theorem InfixOp.data_apply {op : InfixOp} (h : op.apply v w = .ok u) : P.Data u := by
  unfold apply at h
  split at h
  case h_1 => exact data_applyInt h
  all_goals cases h
  · exact .string _
  · exact .bool _
  · exact .bool _

theorem Value.data_get {v k : Value} (hv : P.Data v) (h : v.get k = .ok w) : P.Data w := by
  unfold get at h
  split at h
  case h_1 vs n =>
    split at h <;> cases h
    · exact .null
    · exact .getD fun u hu => data_array.mp hv u (List.mem_of_getElem? hu)
  case h_2 ps =>
    split at h <;> cases h
    refine .getD fun u hu => ?_
    obtain ⟨k', hk⟩ := Assoc.exists_mem_of_find?_eq_some hu
    cases hv
    case hash hv => exact hv _ hk
  case h_3 => contradiction

end Operations

namespace Eval

open Policy

-- The computation comes to data or to a new error at the place, and leaves the other errors alone.
def Settles (P : Policy) (l : Option Location) (x : Eval Value) : Prop :=
  ∀ m, P.Admits m → ∃ m', P.Admits m' ∧ m'.diagnostics = m.diagnostics ∧
    ((∃ v, P.Data v ∧ x m = .ok v m') ∨ ∃ f, x m = fail l f m')

variable {P : Policy} {v : Value}

namespace Settles

theorem pure {l : Option Location} (h : P.Data v) : Settles P l (pure v) :=
  fun m hm => ⟨m, hm, rfl, .inl ⟨v, h, rfl⟩⟩

theorem meets {l : Option Location} {x : Eval Value} (h : x.Settles P l) :
    x.Meets P.contract P.Answer := by
  intro m hm
  obtain ⟨m', hm', -, ⟨v, hv, he⟩ | ⟨f, he⟩⟩ := h m hm <;> rw [he]
  · exact ⟨hm', .data hv⟩
  · exact ⟨⟨hm'.bindings, hm'.printed⟩, .error _ _⟩

theorem yields {l : Option Location} {x : Eval Value} (h : x.Settles P l) :
    x.Meets P.contract P.Yield :=
  h.meets.mono fun _ => .answer

end Settles

theorem fail_settles (l : Option Location) (f : Fault) : (fail l f).Settles P l :=
  fun m hm => ⟨m, hm, rfl, .inr ⟨f, rfl⟩⟩

theorem newObject_settles {l : Option Location} {f : ObjectId → Value} (h : ∀ i, P.Data (f i)) :
    (f <$> newObject).Settles P l :=
  fun m hm => ⟨m.newObject.2, ⟨hm.bindings, hm.printed⟩, rfl, .inl ⟨_, h _, rfl⟩⟩

theorem newArray_settles {l : Option Location} {vs : List Value} (h : ∀ v ∈ vs, P.Data v) :
    (newArray vs).Settles P l :=
  newObject_settles fun i => .array i h

theorem newHash_settles {l : Option Location} {ps : Assoc Value Value}
    (h : ∀ p ∈ ps, (p.1.isHashable ∧ P.Data p.1) ∧ P.Data p.2) : (newHash ps).Settles P l :=
  newObject_settles fun i =>
    .hash i (fun p hp => (h p hp).1.1) (fun p hp => (h p hp).1.2) fun p hp => (h p hp).2

theorem newFunction_settles (hP : P.Lawful) (s : Scope) {l : Location} {ps : List Binder}
    {b : Block} (h : P.code (.expr (.fn l ps b))) : (newFunction s l ps b).Settles P (some l) :=
  newObject_settles (f := fun i => .function ⟨i, l, ps, b, s⟩) fun _ => .function (hP.makes h)

theorem ofResult_settles {r : Except Fault Value} (l : Location) (h : ∀ v, r = .ok v → P.Data v) :
    (ofResult l r).Settles P (some l) := by
  cases r
  case ok => exact .pure (h _ rfl)
  case error => exact fail_settles (some l) _

theorem name_settles (s : Scope) (l : Location) (x : String) :
    (name s l x).Settles P (some l) := by
  intro m hm
  refine ⟨m, hm, rfl, ?_⟩
  simp only [name, bind, EStateM.bind, resolve?]
  cases h : (m.resolve? s x).or ((Builtin.ofName? x).map .builtin)
  case none => exact .inr ⟨_, rfl⟩
  case some v =>
    refine .inl ⟨v, ?_, rfl⟩
    obtain h | ⟨-, h⟩ := Option.or_eq_some_iff.mp h
    · exact hm.resolve? h
    · obtain ⟨b, -, rfl⟩ := Option.map_eq_some_iff.mp h
      exact .builtin b

theorem annotate_governed (v : Value) (f : Diagnostic → Diagnostic) :
    (annotate v f).Meets P.contract fun _ => True := by
  cases v
  case error => exact fun _ hm => ⟨⟨hm.bindings, hm.printed⟩, trivial⟩
  all_goals exact .pure trivial

theorem define_governed (s : Scope) (x : String) (h : P.Data v) :
    (define s x v).Meets P.contract fun _ => True := by
  intro m hm
  simp only [define, h.not_controlFlow]
  exact ⟨hm.define h, trivial⟩

theorem defineAll_governed (s : Scope) {ps : List (Binder × Value)} (h : ∀ p ∈ ps, P.Data p.2) :
    (defineAll s ps).Meets P.contract fun _ => True := by
  induction ps
  case nil => exact .pure trivial
  case cons p ps hi =>
    simp only [List.forall_mem_cons] at h
    exact (define_governed s _ h.left).bind fun _ _ => hi h.right

theorem enter_governed (c : Closure) {args : List Value} (h : ∀ v ∈ args, P.Data v) :
    (enter c args).Meets P.contract fun _ => True := by
  have hs : (newScope c.scope).Meets P.contract fun _ => True :=
    fun _ hm => ⟨hm.newScope _, trivial⟩
  exact hs.bind fun s _ => (defineAll_governed s fun p hp => h _ (List.of_mem_zip hp).right).bind
    fun _ _ => .pure trivial

theorem leave_governed (l : Option Location) (c : Closure) {r : Option Value}
    (h : ∀ v ∈ r, P.Yield v) : (leave l c r).Meets P.contract P.Answer := by
  unfold leave
  split
  case h_1 v =>
    cases h _ rfl
    case answer h => exact absurd rfl h.ne_returned
    case returned h => exact .pure (.data h)
  case h_2 v hr =>
    refine (annotate_governed v _).bind fun _ _ => .pure ?_
    cases h _ rfl
    case answer h => exact h
    case returned v _ => exact absurd rfl (hr v)
  case h_3 => exact .pure (.data .null)

end Eval

namespace Builtin

open Policy Eval

variable {P : Policy} {args : List Value}

theorem unary_settles {f : Value → Eval Value} (h : ∀ v ∈ args, P.Data v)
    (hf : ∀ v, P.Data v → (f v).Settles P none) : (unary args f).Settles P none := by
  unfold unary
  split
  · exact hf _ (h _ (by simp))
  · exact fail_settles _ _

theorem binary_settles {f : Value → Value → Eval Value} (h : ∀ v ∈ args, P.Data v)
    (hf : ∀ v w, P.Data v → P.Data w → (f v w).Settles P none) :
    (binary args f).Settles P none := by
  unfold binary
  split
  · exact hf _ _ (h _ (by simp)) (h _ (by simp))
  · exact fail_settles _ _

theorem onArray_settles {b : Builtin} {v : Value} {f : List Value → Eval Value} (hv : P.Data v)
    (hf : ∀ vs, (∀ v ∈ vs, P.Data v) → (f vs).Settles P none) : (b.onArray v f).Settles P none := by
  unfold onArray
  split
  · exact hf _ (data_array.mp hv)
  · exact fail_settles _ _

theorem length_settles (v : Value) : (length v).Settles P none := by
  unfold length
  split
  · exact .pure (.ofNat _)
  · exact .pure (.ofNat _)
  · exact fail_settles _ _

theorem printAll_settles (frames : Nat) (h : ∀ v ∈ args, P.Data v) :
    (printAll frames args).Settles P none := by
  induction args
  case nil => exact .pure .null
  case cons v vs hi =>
    simp only [List.forall_mem_cons] at h
    unfold printAll
    split
    · exact fail_settles _ _
    · exact fun m hm => hi h.right (m.print v) (hm.print h.left)

theorem apply_settles (frames : Nat) (b : Builtin) (h : ∀ v ∈ args, P.Data v) :
    (b.apply frames args).Settles P none := by
  cases b
  case len => exact unary_settles h fun v _ => length_settles v
  case first =>
    refine unary_settles h fun v hv => onArray_settles hv fun vs hvs => .pure ?_
    exact .getD fun v hv => hvs v (List.mem_of_head? hv)
  case last =>
    refine unary_settles h fun v hv => onArray_settles hv fun vs hvs => .pure ?_
    exact .getD fun v hv => hvs v (List.mem_of_getLast? hv)
  case rest =>
    refine unary_settles h fun v hv => onArray_settles hv fun vs hvs => ?_
    split
    · exact .pure .null
    · exact newArray_settles fun v hv => hvs v (List.mem_cons_of_mem _ hv)
  case push =>
    refine binary_settles h fun v w hv hw => onArray_settles hv fun vs hvs => ?_
    refine newArray_settles ?_
    simp only [List.mem_append, List.mem_singleton]
    rintro u (hu | rfl)
    · exact hvs u hu
    · exact hw
  case puts => exact printAll_settles frames h

end Builtin

namespace Evaluator

open Policy

-- Permitted code and calls meet the contract.
structure Governed (P : Policy) (E : Evaluator Traced) : Prop where
  expr : ∀ s e, P.code (.expr e) → (E.expr s e).Meets P.contract P.Yield
  block : ∀ s b, P.code (.block b) → (E.block s b).Meets P.contract fun r => ∀ v ∈ r, P.Yield v
  stmt : ∀ s x, P.code (.stmt x) → (E.stmt s x).Meets P.contract fun r => ∀ v ∈ r, P.Yield v
  call : ∀ l f args, P.Data f → (∀ v ∈ args, P.Data v) →
    (E.call l f args).Meets P.contract P.Answer

namespace Governed

variable {P : Policy} {E : Evaluator Traced}

theorem plain {x : Traced Value} {next : Value → Traced Value} (hx : x.Meets P.contract P.Yield)
    (hn : ∀ v, P.Data v → (next v).Meets P.contract P.Yield) :
    (plain x next).Meets P.contract P.Yield :=
  plain_meets hx (fun _ hv _ => hv) fun v hv hp => hn v (hv.data hp)

theorem plains {eval : α → Traced Value} {xs : List α} {next : List Value → Traced Value}
    (hx : ∀ x ∈ xs, (eval x).Meets P.contract P.Yield)
    (hn : ∀ vs, (∀ v ∈ vs, P.Data v) → (next vs).Meets P.contract P.Yield) :
    (plains eval xs next).Meets P.contract P.Yield :=
  plains_meets hx (fun _ hv _ => hv) fun vs hvs =>
    hn vs fun v hv => (hvs v hv).left.data (hvs v hv).right

theorem entries {eval : Expr → Traced Value} {es : List (Expr × Expr)}
    (hx : ∀ e ∈ es, (eval e.1).Meets P.contract P.Yield ∧ (eval e.2).Meets P.contract P.Yield) :
    (entries eval es [] fun ps => liftM (Eval.newHash ps)).Meets P.contract P.Yield := by
  refine entries_meets (I := fun ps => ∀ p ∈ ps, (p.1.isHashable ∧ P.Data p.1) ∧ P.Data p.2) hx
    (fun _ hv _ => hv) ?insert (fun l f => (Eval.fail_settles l f).yields)
    (fun ps hps => .lift (Eval.newHash_settles (l := none) hps).yields) (by simp)
  case insert =>
    intro ps k v hps hk hh hv hp
    have hd : k.isControlFlow = false := by
      cases k <;> first | rfl | contradiction
    exact Assoc.forall_mem_insert (P := fun k : Value => k.isHashable ∧ P.Data k) hps
      ⟨hh, hk.data hd⟩ (hv.data hp)

theorem orNull {x : Traced (Option Value)}
    (hx : x.Meets P.contract fun r => ∀ v ∈ r, P.Yield v) :
    (orNull x).Meets P.contract P.Yield := by
  refine orNull_meets hx fun r hr => ?_
  cases r
  case none => exact Data.null.yield
  case some v => exact hr v rfl

variable (h : E.Governed P) (hP : P.Lawful)
include h hP

theorem exprStep (s : Scope) {e : Expr} (he : P.code (.expr e)) :
    (E.exprStep s e).Meets P.contract P.Yield := by
  have hp := hP.parts he
  cases e
  case ident => exact .lift (Eval.name_settles _ _ _).yields
  case int => exact .pure (Data.int _).yield
  case string => exact .pure (Data.string _).yield
  case bool => exact .pure (Data.bool _).yield
  case prefixOp l op e =>
    exact plain (h.expr s e (hp _ (by simp [Code.parts]))) fun v _ =>
      .lift (Eval.ofResult_settles l fun _ => PrefixOp.data_apply).yields
  case infixOp l op a b =>
    exact plain (h.expr s a (hp _ (by simp [Code.parts]))) fun v _ =>
      plain (h.expr s b (hp _ (by simp [Code.parts]))) fun w _ =>
        .lift (Eval.ofResult_settles l fun _ => InfixOp.data_apply).yields
  case cond l c b a =>
    refine plain (h.expr s c (hp _ (by simp [Code.parts]))) fun v _ =>
      .ite (fun _ => orNull (h.block s b (hp _ (by simp [Code.parts])))) fun _ => ?_
    cases a
    case none => exact .pure Data.null.yield
    case some a => exact orNull (h.block s a (hp _ (by simp [Code.parts])))
  case fn => exact .lift (Eval.newFunction_settles hP s he).yields
  case call l f as =>
    refine plain (h.expr s f (hp _ (by simp [Code.parts]))) fun f hf =>
      plains (fun a ha => h.expr s a (hp _ (by simp [Code.parts, ha]))) fun vs hvs => ?_
    exact (h.call (some l) f vs hf hvs).mono fun _ => .answer
  case array l es =>
    exact plains (fun e he => h.expr s e (hp _ (by simp [Code.parts, he]))) fun vs hvs =>
      .lift (Eval.newArray_settles (l := l) hvs).yields
  case hash l ps =>
    have hd (p : Expr × Expr) (hm : p ∈ ps) : P.code (.expr p.1) ∧ P.code (.expr p.2) :=
      ⟨hp _ (List.mem_flatMap.mpr ⟨p, hm, by simp⟩), hp _ (List.mem_flatMap.mpr ⟨p, hm, by simp⟩)⟩
    exact entries fun p hm => ⟨h.expr s p.1 (hd p hm).left, h.expr s p.2 (hd p hm).right⟩
  case index l c i =>
    exact plain (h.expr s c (hp _ (by simp [Code.parts]))) fun v hv =>
      plain (h.expr s i (hp _ (by simp [Code.parts]))) fun k _ =>
        .lift (Eval.ofResult_settles l fun _ => Value.data_get hv).yields

theorem stmtStep (s : Scope) {x : Stmt} (hx : P.code (.stmt x)) :
    (E.stmtStep s x).Meets P.contract fun r => ∀ v ∈ r, P.Yield v := by
  have hp := hP.parts hx
  cases x
  case bind l b e =>
    refine (h.expr s e (hp _ (by simp [Code.parts]))).bind fun v hv =>
      .ite (fun _ => .pure (by simpa using hv)) fun hc => ?_
    refine (Traced.Meets.lift (Eval.define_governed s b.name (hv.data (by simpa using hc)))).bind ?_
    exact fun _ _ => .pure (by simp)
  case ret l e =>
    refine (h.expr s e (hp _ (by simp [Code.parts]))).bind fun v hv =>
      .ite (fun _ => .pure (by simpa using hv)) fun hc => ?_
    exact .pure (by simpa using .returned (hv.data (by simpa using hc)))
  case expr e => exact (h.expr s e (hp _ (by simp [Code.parts]))).map (by simp)

theorem callStep (frames : Nat) (l : Option Location) {f : Value} {args : List Value}
    (hf : P.Data f) (ha : ∀ v ∈ args, P.Data v) :
    (E.callStep frames l f args).Meets P.contract P.Answer := by
  unfold Evaluator.callStep
  split
  case h_1 b =>
    exact .lift ((b.apply_settles frames ha).meets.bind fun v hv =>
      (Eval.annotate_governed v _).bind fun _ _ => .pure hv)
  case h_2 c =>
    refine .ite (fun _ => ?_) fun _ => .lift (Eval.fail_settles _ _).meets
    exact (Traced.Meets.lift (Eval.enter_governed c ha)).bind fun s _ =>
      (h.block s c.body (hP.body hf.of_function)).bind fun r hr =>
        .lift (Eval.leave_governed l c hr)
  case h_3 => exact .lift (Eval.fail_settles _ _).meets

theorem step (frames : Nat) : (E.step frames).Governed P where
  expr s _ he := h.exprStep hP s he
  block s b hb := by
    refine sequence_meets (fun x hx => h.stmt s x (hP.parts hb _ ?_)) (by simp)
    exact List.mem_map_of_mem hx
  stmt s _ hx := h.stmtStep hP s hx
  call l _ _ hf ha := h.callStep hP frames l hf ha

end Governed

end Evaluator

-- An activation is governed if its task is permitted and what it does meets the contract.
theorem Traced.Meets.record_governed {P : Policy} {x : Traced α} {Q : α → Prop} {k : Task}
    {result : α → Option Value} (hx : x.Meets P.contract Q) (hk : P.Permits k)
    (hq : ∀ a, Q a → P.Yields k (result a)) : (Traced.record k result x).Meets P.contract Q := by
  refine hx.record fun m hm => ?_
  have hr := hx.outcome.map hq m hm
  refine ⟨hk, hm, hr.machine, fun r m' h => ?_, fun m' h => ?_⟩
  · simp only [Activation.outcome] at h
    exact (h ▸ hr : Result.Meets P.contract _ (.ok r m')).right
  · simp only [Activation.outcome] at h
    have := (h ▸ hr : Result.Meets P.contract _ (.error .controlFlowBound m')).right
    contradiction

theorem Evaluator.Governed.recorded {P : Policy} {E : Evaluator Traced} (h : E.Governed P) :
    E.recorded.Governed P where
  expr s e he := (h.expr s e he).record_governed he fun v hv => ⟨v, rfl, hv⟩
  block s b hb := (h.block s b hb).record_governed hb fun _ hr => hr
  stmt s x hx := (h.stmt s x hx).record_governed hx fun _ hr => hr
  call l f args hf ha := (h.call l f args hf ha).record_governed ⟨hf, ha⟩ fun v hv => ⟨v, rfl, hv⟩

theorem Traced.within_governed {P : Policy} (hP : P.Lawful) (frames : Nat) :
    (Traced.within frames).Governed P := by
  induction frames
  case zero =>
    have h {α} {Q : α → Prop} :
        (liftM (m := Eval) Eval.tooDeep : Traced α).Meets P.contract Q :=
      .lift fun _ hm => ⟨hm, rfl⟩
    exact ⟨fun _ _ _ => h, fun _ _ _ => h, fun _ _ _ => h, fun _ _ _ _ _ => h⟩
  case succ n hi => exact (hi.step hP n).recorded

namespace Program

variable {P : Policy} {frames : Nat} {s : Scope} {p : Program} {m : Machine}

theorem statements_governed (hP : P.Lawful) (hp : ∀ x ∈ p.statements, P.code (.stmt x))
    (frames : Nat) (s : Scope) :
    (Evaluator.sequence ((Traced.within frames).stmt s) none p.statements).Meets P.contract
      fun r => ∀ v ∈ r, P.Yield v :=
  Evaluator.sequence_meets (fun x hx => (Traced.within_governed hP frames).stmt s x (hp x hx))
    (by simp)

-- A program of permitted code comes to an answer.
theorem eval_governed (hP : P.Lawful) (hp : ∀ x ∈ p.statements, P.code (.stmt x)) (frames : Nat)
    (s : Scope) (hm : P.Admits m) :
    ∃ r m', p.eval frames s m = .ok r m' ∧ P.Admits m' ∧ ∀ v ∈ r, P.Answer v := by
  have h := (statements_governed hP hp frames s).outcome m hm
  rw [outcome_statements] at h
  unfold eval
  split <;> rename_i he <;> rw [he] at h
  · refine ⟨_, _, rfl, h.left, fun v hv => ?_⟩
    obtain ⟨w, hw, rfl⟩ := Option.map_eq_some_iff.mp hv
    exact (h.right w hw).unwrap
  · exact ⟨_, _, rfl, ⟨h.left.bindings, h.left.printed⟩, by simpa using .error _ _⟩
  · next hn => exact absurd h.right hn

-- So does each evaluation that it makes.
theorem activation_governed (hP : P.Lawful) (hp : ∀ x ∈ p.statements, P.code (.stmt x))
    (hm : P.Admits m) {u : Activation} (hu : u.Within (p.activation frames s m)) :
    P.Governs u := by
  refine Activation.forall_within_mk ?root ((statements_governed hP hp frames s).parts m hm) u hu
  obtain ⟨r, m', he, hm', hr⟩ := eval_governed hP hp frames s hm
  refine ⟨hp, hm, ?_, fun r' m'' h => ?_, fun m'' h => ?_⟩ <;>
    simp only [Activation.outcome, he] at *
  · exact hm'
  · cases h
    exact hr
  · contradiction

end Program

end Marmoset
