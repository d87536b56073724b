import Marmoset.Proofs.Hashes
import Marmoset.Proofs.Parameters
import Marmoset.Proofs.Scoping

/-!
How programs run where nothing goes wrong: one rule for each construct, which says what it comes to
given what its parts come to. Calls leave all scopes that there were as they are (`call_grows`), so
what a function has captured can be counted on.
-/

namespace Marmoset

-- All scopes of the machine are there in the other one, bound as before.
structure Machine.GrowsTo (m m' : Machine) : Prop where
  size : m.scopes.size ≤ m'.scopes.size
  bindings : ∀ i < m.scopes.size, m'.bindings i = m.bindings i

namespace Machine.GrowsTo

variable {m m₁ m' : Machine}

theorem of_scopes (h : m'.scopes = m.scopes) : m.GrowsTo m' where
  size := Nat.le_of_eq (congrArg Array.size h).symm
  bindings i _ := congrArg (·[i]?.getD []) h

theorem refl (m : Machine) : m.GrowsTo m :=
  .of_scopes rfl

theorem newObject (m : Machine) : m.GrowsTo m.newObject.2 :=
  .of_scopes rfl

theorem trans (h : m.GrowsTo m₁) (h' : m₁.GrowsTo m') : m.GrowsTo m' where
  size := Nat.le_trans h.size h'.size
  bindings i hi := (h'.bindings i (Nat.lt_of_lt_of_le hi h.size)).trans (h.bindings i hi)

-- A scope that was not there before may be bound in.
theorem define (h : m.GrowsTo m') {s : Scope} (hs : m.scopes.size ≤ s.id) (x : String) (v : Value) :
    m.GrowsTo (m'.define s x v) where
  size := by simpa [Machine.define] using h.size
  bindings i hi := by
    have hn : i ≠ s.id := fun e => Nat.not_lt_of_le hs (e ▸ hi)
    rw [bindings_define, if_neg (hn ·.1), h.bindings i hi]

theorem resolve? (h : m.GrowsTo m') {s : Scope} (hs : ∀ i ∈ s.chain, i < m.scopes.size)
    (x : String) : m'.resolve? s x = m.resolve? s x :=
  findSome?_congr fun i hi => congrArg (Assoc.find? x) (h.bindings i (hs i hi))

end Machine.GrowsTo

namespace Machine

variable {m : Machine} {c : Closure} {args : List Value}

theorem size_define (s : Scope) (x : String) (v : Value) :
    (m.define s x v).scopes.size = m.scopes.size :=
  Array.size_modify

theorem resolve?_define_of_ne {x y : String} (h : y ≠ x) (s t : Scope) (v : Value) :
    (m.define s y v).resolve? t x = m.resolve? t x := by
  refine findSome?_congr fun i _ => ?_
  rw [bindings_define]
  split
  case isTrue => exact Assoc.find?_insert_of_ne (beq_eq_false_iff_ne.mpr h) _ _
  case isFalse => rfl

-- The scope in which a call of the function runs that begins now.
def inner (m : Machine) (c : Closure) : Scope :=
  (m.newScope c.scope).1

-- The machine as such a call begins: the new scope has the arguments.
def entered (m : Machine) (c : Closure) (args : List Value) : Machine :=
  (c.params.zip args).foldl (fun m' p => m'.define (m.inner c) p.1.name p.2) (m.newScope c.scope).2

theorem bindings_defineAll (s : Scope) (ps : List (Binder × Value)) (m : Machine) (i : ScopeId) :
    (ps.foldl (fun m p => m.define s p.1.name p.2) m).bindings i =
      if i = s.id ∧ i < m.scopes.size then
        Assoc.insertAll (m.bindings i) (ps.map fun p => (p.1.name, p.2))
      else m.bindings i := by
  induction ps generalizing m
  case nil => exact (ite_self _).symm
  case cons p ps hi =>
    rw [List.foldl_cons, hi, size_define, bindings_define]
    split <;> rfl

theorem size_defineAll (s : Scope) (ps : List (Binder × Value)) (m : Machine) :
    (ps.foldl (fun m p => m.define s p.1.name p.2) m).scopes.size = m.scopes.size := by
  induction ps generalizing m
  case nil => rfl
  case cons p ps hi => rw [List.foldl_cons, hi, size_define]

theorem size_entered : (m.entered c args).scopes.size = m.scopes.size + 1 := by
  rw [entered, size_defineAll]
  exact Array.size_push _

theorem entered_grows (m : Machine) (c : Closure) (args : List Value) :
    m.GrowsTo (m.entered c args) where
  size := size_entered.symm ▸ Nat.le_succ _
  bindings i hi := by
    have hn : i ≠ (m.inner c).id := Nat.ne_of_lt hi
    rw [entered, bindings_defineAll, if_neg (hn ·.1), bindings_newScope]

-- A name is a parameter, or it is one that the function has captured.
theorem resolve?_entered (hc : ∀ i ∈ c.scope.chain, i < m.scopes.size) (args : List Value)
    (x : String) :
    (m.entered c args).resolve? (m.inner c) x =
      (Assoc.find? x (Assoc.insertAll [] ((c.params.zip args).map fun p => (p.1.name, p.2)))).or
        (m.resolve? c.scope x) := by
  have hi : (m.inner c).id < (m.newScope c.scope).2.scopes.size := by simp [inner, newScope]
  have hb : (m.newScope c.scope).2.bindings (m.inner c).id = [] := by
    rw [bindings_newScope]
    exact bindings_of_size_le (Nat.le_refl m.scopes.size)
  have hr := (m.entered_grows c args).resolve? hc x
  unfold resolve? at hr ⊢
  rw [← hr, List.findSome?_cons, entered, bindings_defineAll, if_pos ⟨rfl, hi⟩, hb]
  cases Assoc.find? x (Assoc.insertAll [] _) <;> rfl

end Machine

-- The arguments come to these values, one after the other.
inductive Eval.Passes (n : Nat) (s : Scope) : Machine → List Expr → List Value → Machine → Prop
  | nil : Passes n s m [] [] m
  | cons : Eval.expr n s e m = .ok v m₁ → v.isControlFlow = false → Passes n s m₁ es vs m' →
    Passes n s m (e :: es) (v :: vs) m'

namespace Eval

open Evaluator (plain plain_of_ok plains orNull)

variable {n : Nat} {s : Scope} {m m₁ m₂ m' : Machine} {v w u : Value} {x : String}

theorem call_grows {l : Option Location} {f : Value} {args : List Value}
    (h : Eval.call n l f args m = .ok v m') : m.GrowsTo m' := by
  have hk := Task.eval_keeps (t := .call l f args)
    (F := Footprint.writing (.call l f args) m (fun _ => True) fun _ _ _ => trivial) n
    (fun _ _ => trivial) nofun m m (Footprint.writing_alike fun _ _ _ _ _ => trivial)
  have he : (Task.call l f args).eval n m = .ok (some v) m' := map_of_ok h
  rw [he] at hk
  have ha := hk.machine
  refine ⟨ha.grown, fun i hi => (ha.kept i fun hw => ?_).1⟩
  exact hw.elim nofun fun hn => Nat.not_lt_of_le hn hi

theorem expr_ident (h : m.resolve? s x = some v) (l : Location) :
    Eval.expr (n + 1) s (.ident l x) m = .ok v m := by
  change Eval.name s l x m = _
  simp only [Eval.name, bind, EStateM.bind, Eval.resolve?, h]
  rfl

theorem expr_builtin {b : Builtin} (h : m.resolve? s x = none) (hb : Builtin.ofName? x = some b)
    (l : Location) : Eval.expr (n + 1) s (.ident l x) m = .ok (.builtin b) m := by
  change Eval.name s l x m = _
  simp only [Eval.name, bind, EStateM.bind, Eval.resolve?, h, hb]
  rfl

theorem expr_infix {a b : Expr} {op : InfixOp} (ha : Eval.expr n s a m = .ok v m₁)
    (hv : v.isControlFlow = false) (hb : Eval.expr n s b m₁ = .ok w m₂)
    (hw : w.isControlFlow = false) (hu : op.apply v w = .ok u) (l : Location) :
    Eval.expr (n + 1) s (.infixOp l op a b) m = .ok u m₂ := by
  change plain (Eval.expr n s a) _ m = _
  rw [plain_of_ok ha hv]
  change plain (Eval.expr n s b) _ m₁ = _
  rw [plain_of_ok hb hw, hu]
  rfl

theorem expr_cond {c : Expr} (hc : Eval.expr n s c m = .ok v m₁) (hv : v.isControlFlow = false)
    (l : Location) (b a : Block) : Eval.expr (n + 1) s (.cond l c b (some a)) m =
      orNull (Eval.block n s (if v.isTruthy then b else a)) m₁ := by
  change plain (Eval.expr n s c) _ m = _
  rw [plain_of_ok hc hv]
  split <;> rfl

theorem Passes.plains_eq {es : List Expr} {vs : List Value} (h : Passes n s m es vs m')
    (next : List Value → Eval Value) : plains (Eval.expr n s) es next m = next vs m' := by
  induction h generalizing next
  case nil => rfl
  case cons he hv _ hi => rw [plains, plain_of_ok he hv, hi]

theorem expr_call {f : Expr} {es : List Expr} {vs : List Value}
    (hf : Eval.expr n s f m = .ok w m₁) (hw : w.isControlFlow = false) (hp : Passes n s m₁ es vs m')
    (l : Location) : Eval.expr (n + 1) s (.call l f es) m = Eval.call n l w vs m' := by
  change plain (Eval.expr n s f) _ m = _
  rw [plain_of_ok hf hw]
  exact hp.plains_eq _

theorem stmt_bind {e : Expr} (h : Eval.expr n s e m = .ok v m') (hv : v.isControlFlow = false)
    (l : Location) (b : Binder) :
    Eval.stmt (n + 1) s (.bind l b e) m = .ok none (m'.define s b.name v) := by
  change (Eval.expr n s e >>= _) m = _
  rw [bind_of_ok h, if_neg (by simp [hv])]
  exact bind_of_ok (if_neg (by simp [hv]))

-- One statement in a row is that statement.
theorem sequence_single (n : Nat) (s : Scope) (last : Option Value) (x : Stmt) :
    Evaluator.sequence (Eval.stmt n s) last [x] = Eval.stmt n s x := by
  funext m
  rw [Evaluator.sequence]
  cases h : Eval.stmt n s x m
  case ok r m' =>
    rw [bind_of_ok h]
    split <;> rfl
  case error => exact bind_of_error h

theorem block_single (n : Nat) (s : Scope) (l : Location) (x : Stmt) :
    Eval.block (n + 1) s (.mk l [x]) = Eval.stmt n s x :=
  sequence_single n s none x

theorem stmt_expr {e : Expr} (h : Eval.expr n s e m = .ok v m') :
    Eval.stmt (n + 1) s (.expr e) m = .ok (some v) m' :=
  map_of_ok h

-- A block of one expression has its value.
theorem orNull_block (n : Nat) (s : Scope) (l : Location) (e : Expr) :
    orNull (Eval.block (n + 2) s (.mk l [.expr e])) = Eval.expr n s e := by
  funext m
  rw [block_single]
  change ((some <$> Eval.expr n s e) >>= _) m = _
  cases h : Eval.expr n s e m
  case ok v m' => exact bind_of_ok (map_of_ok h)
  case error e m' => exact bind_of_error (by simp only [Functor.map, EStateM.map, h])

-- A statement without a value leads on to the next one.
theorem sequence_cons {x : Stmt} (h : Eval.stmt n s x m = .ok none m') (last : Option Value)
    (xs : List Stmt) : Evaluator.sequence (Eval.stmt n s) last (x :: xs) m =
      Evaluator.sequence (Eval.stmt n s) none xs m' := by
  rw [Evaluator.sequence, bind_of_ok h]
  rfl

theorem annotate_of_plain (hv : v.isControlFlow = false) (f : Diagnostic → Diagnostic)
    (m : Machine) : Eval.annotate v f m = .ok () m := by
  cases v <;> first | rfl | nomatch hv

theorem enter_eq {c : Closure} {args : List Value} (hv : ∀ v ∈ args, v.isControlFlow = false)
    (m : Machine) : Eval.enter c args m = .ok (m.inner c) (m.entered c args) := by
  have hd (ps : List (Binder × Value)) (hp : ∀ p ∈ ps, p.2.isControlFlow = false) (m' : Machine) :
      Eval.defineAll (m.inner c) ps m' =
        .ok () (ps.foldl (fun m' p => m'.define (m.inner c) p.1.name p.2) m') := by
    induction ps generalizing m'
    case nil => rfl
    case cons p ps hi =>
      have ⟨hp, hps⟩ := List.forall_mem_cons.mp hp
      rw [Eval.defineAll, bind_of_ok (define_of_plain _ _ hp _), hi hps]
      rfl
  change (Eval.defineAll _ _ >>= fun _ => pure _ : Eval Scope) _ = _
  exact bind_of_ok (hd _ (fun p hp => hv _ (List.of_mem_zip hp).2) _)

-- The value of a call is that of the body, which runs with the arguments.
theorem call_function {c : Closure} {args : List Value} (hl : args.length = c.params.length)
    (ha : ∀ v ∈ args, v.isControlFlow = false)
    (hb : Eval.block n (m.inner c) c.body (m.entered c args) = .ok (some v) m')
    (hv : v.isControlFlow = false) (l : Option Location) :
    Eval.call (n + 1) l (.function c) args m = .ok v m' := by
  change (if args.length = c.params.length then _ else _ : Eval Value) m = _
  rw [if_pos hl]
  refine (bind_of_ok (enter_eq ha m)).trans ((bind_of_ok hb).trans ?_)
  have hn : ∀ u, v ≠ .returned u := by
    rintro u rfl
    nomatch hv
  unfold leave
  split
  case h_1 h => exact absurd (Option.some.inj h) (hn _)
  case h_2 h =>
    obtain rfl := Option.some.inj h
    exact bind_of_ok (annotate_of_plain hv _ _)
  case h_3 h => nomatch h

-- So it is that of an expression if the body is nothing else.
theorem call_expr {c : Closure} {args : List Value} {e : Expr} {k : Location}
    (hl : args.length = c.params.length) (ha : ∀ v ∈ args, v.isControlFlow = false)
    (hb : c.body = .mk k [.expr e])
    (he : Eval.expr n (m.inner c) e (m.entered c args) = .ok v m') (hv : v.isControlFlow = false)
    (l : Option Location) : Eval.call (n + 3) l (.function c) args m = .ok v m' := by
  refine call_function hl ha ?_ hv l
  rw [hb, block_single]
  exact stmt_expr he

theorem call_builtin {b : Builtin} {args : List Value} (h : b.apply n args m = .ok v m')
    (hv : v.isControlFlow = false) (l : Option Location) :
    Eval.call (n + 1) l (.builtin b) args m = .ok v m' := by
  change Eval.callBuiltin n l b args m = _
  rw [Eval.callBuiltin, bind_of_ok h]
  exact bind_of_ok (annotate_of_plain hv _ _)

end Eval

end Marmoset
