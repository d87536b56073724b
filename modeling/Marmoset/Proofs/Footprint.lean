import Marmoset.Proofs.Activation

/-!
What a run reads and writes. Two runs of the same task go in step as long as the scopes that the
task can come by are bound alike, whatever is bound elsewhere, and both bind names only where it is
permitted: in the scope of the task and in the scopes that the run makes itself.
-/

namespace Marmoset

-- The scopes in which a name is looked up, the nearest first.
abbrev Scope.chain (s : Scope) : List ScopeId :=
  s.id :: s.outer

namespace Value

-- A function that is the value or a part of it was made in the scope.
inductive Captures (s : Scope) : Value → Prop
  | function : c.scope = s → Captures s (.function c)
  | element : v ∈ vs → Captures s v → Captures s (.array i vs)
  | key : p ∈ ps → Captures s p.1 → Captures s (.hash i ps)
  | entry : p ∈ ps → Captures s p.2 → Captures s (.hash i ps)
  | returned : Captures s v → Captures s (.returned v)

-- All that the value captures has the property.
def Holds (P : Scope → Prop) (v : Value) : Prop :=
  ∀ s, v.Captures s → P s

namespace Holds

variable {P : Scope → Prop} {v : Value}

theorem null : Holds P .null :=
  nofun

theorem bool (b : Bool) : Holds P (.bool b) :=
  nofun

theorem int (n : Int64) : Holds P (.int n) :=
  nofun

theorem string (s : String) : Holds P (.string s) :=
  nofun

theorem builtin (b : Builtin) : Holds P (.builtin b) :=
  nofun

theorem error (i : ErrorId) (f : Fault) : Holds P (.error i f) :=
  nofun

theorem function {c : Closure} (h : P c.scope) : Holds P (.function c) := by
  rintro s ⟨rfl⟩
  exact h

theorem array {i : ObjectId} {vs : List Value} (h : ∀ v ∈ vs, v.Holds P) :
    Holds P (.array i vs) := by
  intro s hs
  cases hs
  case element hs hv => exact h _ hv s hs

theorem hash {i : ObjectId} {ps : List (Value × Value)} (h : ∀ p ∈ ps, p.1.Holds P ∧ p.2.Holds P) :
    Holds P (.hash i ps) := by
  intro s hs
  cases hs
  case key hs hp => exact (h _ hp).left s hs
  case entry hs hp => exact (h _ hp).right s hs

theorem returned (h : v.Holds P) : Holds P (.returned v) := by
  intro s hs
  cases hs
  case returned hs => exact h s hs

theorem scope {c : Closure} (h : Holds P (.function c)) : P c.scope :=
  h _ (.function rfl)

theorem elements {i : ObjectId} {vs : List Value} (h : Holds P (.array i vs)) :
    ∀ v ∈ vs, v.Holds P :=
  fun _ hv s hs => h s (.element hv hs)

theorem entries {i : ObjectId} {ps : List (Value × Value)} (h : Holds P (.hash i ps)) :
    ∀ p ∈ ps, p.2.Holds P :=
  fun _ hp s hs => h s (.entry hp hs)

theorem of_returned (h : Holds P (.returned v)) : v.Holds P :=
  fun s hs => h s (.returned hs)

theorem unwrap (h : v.Holds P) : v.unwrap.Holds P := by
  cases v
  case returned => exact h.of_returned
  all_goals exact h

theorem getD {r : Option Value} (h : ∀ v ∈ r, v.Holds P) : (r.getD .null).Holds P := by
  cases r
  case none => exact null
  case some v => exact h v rfl

end Holds

theorem holds_get {P : Scope → Prop} {v k : Value} (hv : v.Holds P) (h : v.get k = .ok w) :
    w.Holds P := by
  unfold get at h
  split at h
  case h_1 vs n =>
    split at h <;> cases h
    · exact .null
    · exact .getD fun u hu => hv.elements u (List.mem_of_getElem? hu)
  case h_2 ps =>
    split at h <;> cases h
    refine .getD fun u hu => ?_
    have ⟨k', hk⟩ := Assoc.exists_mem_of_find?_eq_some hu
    exact hv.entries _ hk
  case h_3 => contradiction

end Value

-- What operators make of plain values captures nothing.
theorem PrefixOp.holds_apply {P : Scope → Prop} {op : PrefixOp} (h : op.apply v = .ok w) :
    w.Holds P := by
  unfold apply at h
  split at h <;> cases h
  · exact .bool _
  · exact .int _

theorem InfixOp.holds_applyInt {P : Scope → Prop} {op : InfixOp} {a b : Int64}
    (h : op.applyInt a b = .ok w) : w.Holds P := by
  unfold applyInt at h
  split at h
  case h_4 =>
    split at h <;> cases h
    exact .int _
  all_goals
    cases h
    first
      | exact .int _
      | exact .bool _

theorem InfixOp.holds_apply {P : Scope → Prop} {op : InfixOp} (h : op.apply u v = .ok w) :
    w.Holds P := by
  unfold apply at h
  split at h
  case h_1 => exact holds_applyInt h
  all_goals cases h
  · exact .string _
  · exact .bool _
  · exact .bool _

-- What two runs that begin with two machines are permitted: the scopes that they may come by, and
-- those that they may bind names in. Scopes that they make themselves always belong to both.
structure Footprint where
  first : Machine
  second : Machine
  Known : Scope → Prop
  Written : ScopeId → Prop
  known_new : Known s → first.scopes.size ≤ i → Known ⟨i, s.chain⟩
  written_new : first.scopes.size ≤ i → Written i

variable {F : Footprint}

namespace Footprint

-- How the machines of the two runs stand to each other, at the same point of both.
structure Alike (F : Footprint) (m m' : Machine) : Prop where
  -- What is made next is numbered alike.
  scopes : m'.scopes.size = m.scopes.size
  objects : m'.nextObject = m.nextObject
  errors : m'.diagnostics.size = m.diagnostics.size
  grown : F.first.scopes.size ≤ m.scopes.size
  bindings : ∀ s, F.Known s → ∀ i ∈ s.chain,
    m'.bindings i = m.bindings i ∧ ∀ p ∈ m.bindings i, p.2.Holds F.Known
  kept : ∀ i, ¬F.Written i →
    m.bindings i = F.first.bindings i ∧ m'.bindings i = F.second.bindings i
  names : ∀ i, Assoc.keys (F.first.bindings i) <+: Assoc.keys (m.bindings i)
  diagnostics : ∀ j, F.second.diagnostic j = F.first.diagnostic j →
    m'.diagnostic j = m.diagnostic j
  printed : ∃ vs, m.printed = F.first.printed ++ vs ∧ m'.printed = F.second.printed ++ vs

end Footprint

theorem Assoc.keys_prefix_insert {κ ν : Type} [BEq κ] (k : κ) (v : ν) (ps : Assoc κ ν) :
    keys ps <+: keys (insert k v ps) := by
  by_cases h : find? k ps = none
  case pos =>
    rw [keys_insert_of_find?_eq_none h]
    exact List.prefix_append ..
  case neg => exact (keys_insert_of_find?_ne_none h v).symm ▸ List.prefix_rfl

theorem Machine.diagnostic_annotate_eq_ite (m : Machine) (i : ErrorId) (f : Diagnostic → Diagnostic)
    (j : ErrorId) : (m.annotate i f).diagnostic j =
      if i = j ∧ i < m.diagnostics.size then f (m.diagnostic j) else m.diagnostic j := by
  by_cases hi : i < m.diagnostics.size
  case pos => simp [diagnostic_annotate hi, hi]
  case neg =>
    simp only [diagnostic, annotate, Array.getElem?_modify, hi, and_false, if_false]
    split
    case isTrue h => simp [← h, hi]
    case isFalse => rfl

theorem findSome?_congr {f g : α → Option β} {xs : List α} (h : ∀ x ∈ xs, f x = g x) :
    xs.findSome? f = xs.findSome? g := by
  induction xs
  case nil => rfl
  case cons x xs hi =>
    have ⟨hx, hxs⟩ := List.forall_mem_cons.mp h
    rw [List.findSome?_cons, List.findSome?_cons, hx, hi hxs]

namespace Footprint.Alike

variable {m m' : Machine} (h : F.Alike m m')
include h

theorem resolve? {s : Scope} (hs : F.Known s) (x : String) :
    m'.resolve? s x = m.resolve? s x ∧ ∀ v ∈ m.resolve? s x, v.Holds F.Known := by
  constructor
  case left =>
    refine findSome?_congr fun i hi => ?_
    rw [(h.bindings s hs i hi).left]
  case right =>
    intro v hv
    have ⟨i, hi, hv⟩ := List.exists_of_findSome?_eq_some hv
    have ⟨k, hk⟩ := Assoc.exists_mem_of_find?_eq_some hv
    exact (h.bindings s hs i hi).right _ hk

theorem newScope (o : Option Scope) : F.Alike (m.newScope o).2 (m'.newScope o).2 where
  scopes := by simp [Machine.newScope, h.scopes]
  objects := h.objects
  errors := h.errors
  grown := by
    have := h.grown
    simp only [Machine.newScope, Array.size_push]
    omega
  bindings := by simpa using h.bindings
  kept := by simpa using h.kept
  names := by simpa using h.names
  diagnostics := h.diagnostics
  printed := h.printed

theorem define {s : Scope} {v : Value} (hs : F.Written s.id) (x : String) (hv : v.Holds F.Known) :
    F.Alike (m.define s x v) (m'.define s x v) where
  scopes := by simp [Machine.define, h.scopes]
  objects := h.objects
  errors := h.errors
  grown := by simpa [Machine.define] using h.grown
  bindings := by
    intro s' hs' i hi
    obtain ⟨he, hb⟩ := h.bindings s' hs' i hi
    rw [Machine.bindings_define, Machine.bindings_define, h.scopes, he]
    refine ⟨rfl, ?_⟩
    split
    case isFalse => exact hb
    case isTrue =>
      refine fun p hp => (Assoc.forall_mem_insert (P := fun _ => True) ?_ trivial hv p hp).right
      exact fun p hp => ⟨trivial, hb p hp⟩
  kept := by
    intro i hi
    have hn : i ≠ s.id := fun he => hi (he ▸ hs)
    rw [Machine.bindings_define, Machine.bindings_define, if_neg (hn ·.left), if_neg (hn ·.left)]
    exact h.kept i hi
  names := by
    intro i
    rw [Machine.bindings_define]
    split
    case isFalse => exact h.names i
    case isTrue => exact (h.names i).trans (Assoc.keys_prefix_insert ..)
  diagnostics := h.diagnostics
  printed := h.printed

theorem newObject : F.Alike m.newObject.2 m'.newObject.2 :=
  { h with objects := congrArg (· + 1) h.objects }

theorem newError (l : Option Location) : F.Alike (m.newError l).2 (m'.newError l).2 where
  scopes := h.scopes
  objects := h.objects
  errors := by simp [Machine.newError, h.errors]
  grown := h.grown
  bindings := h.bindings
  kept := h.kept
  names := h.names
  diagnostics := by
    intro j hj
    have hn : (m'.newError l).1 = (m.newError l).1 := h.errors
    rw [Machine.diagnostic_newError, Machine.diagnostic_newError, h.diagnostics j hj, hn]
  printed := h.printed

theorem annotate (i : ErrorId) (f : Diagnostic → Diagnostic) :
    F.Alike (m.annotate i f) (m'.annotate i f) where
  scopes := h.scopes
  objects := h.objects
  errors := by simp [Machine.annotate, h.errors]
  grown := h.grown
  bindings := h.bindings
  kept := h.kept
  names := h.names
  diagnostics := by
    intro j hj
    rw [Machine.diagnostic_annotate_eq_ite, Machine.diagnostic_annotate_eq_ite,
      h.diagnostics j hj, h.errors]
  printed := h.printed

theorem print (v : Value) : F.Alike (m.print v) (m'.print v) where
  scopes := h.scopes
  objects := h.objects
  errors := h.errors
  grown := h.grown
  bindings := h.bindings
  kept := h.kept
  names := h.names
  diagnostics := h.diagnostics
  printed := by
    have ⟨vs, hp, hp'⟩ := h.printed
    exact ⟨vs.push v, by simp [Machine.print, hp], by simp [Machine.print, hp']⟩

end Footprint.Alike

-- Two runs come to the same, and to machines that stand to each other as they should.
inductive Result.Alike (F : Footprint) (Q : α → Prop) : Result α → Result α → Prop
  | ok : Q a → F.Alike m m' → Alike F Q (.ok a m) (.ok a m')
  | error : F.Alike m m' → Alike F Q (.error e m) (.error e m')

namespace Eval

-- The computation keeps to its footprint.
def Keeps (F : Footprint) (Q : α → Prop) (x : Eval α) : Prop :=
  ∀ m m', F.Alike m m' → Result.Alike F Q (x m) (x m')

namespace Keeps

variable {x : Eval α} {P Q : α → Prop} {R : β → Prop}

protected theorem pure {a : α} (h : Q a) : (pure a : Eval α).Keeps F Q :=
  fun _ _ hm => .ok h hm

protected theorem bind {f : α → Eval β} (hx : x.Keeps F Q) (hf : ∀ a, Q a → (f a).Keeps F R) :
    (x >>= f).Keeps F R := by
  intro m m' hm
  have h := hx m m' hm
  simp only [bind, EStateM.bind]
  cases hr : x m <;> cases hr' : x m' <;> rw [hr, hr'] at h <;> cases h
  case ok.ok ha hn => exact hf _ ha _ _ hn
  case error.error hn => exact .error hn

protected theorem map {f : α → β} (hx : x.Keeps F Q) (hf : ∀ a, Q a → R (f a)) :
    (f <$> x).Keeps F R := by
  intro m m' hm
  have h := hx m m' hm
  simp only [Functor.map, EStateM.map]
  cases hr : x m <;> cases hr' : x m' <;> rw [hr, hr'] at h <;> cases h
  case ok.ok ha hn => exact .ok (hf _ ha) hn
  case error.error hn => exact .error hn

theorem ite {c : Prop} [Decidable c] {y : Eval α} (hx : c → x.Keeps F Q)
    (hy : ¬c → y.Keeps F Q) : (if c then x else y).Keeps F Q := by
  split
  case isTrue h => exact hx h
  case isFalse h => exact hy h

end Keeps

open Value

theorem fail_keeps (l : Option Location) (f : Fault) : (fail l f).Keeps F (Holds F.Known) := by
  intro m m' hm
  have hn : (m'.newError l).1 = (m.newError l).1 := hm.errors
  unfold fail
  rw [hn]
  exact .ok (.error _ _) (hm.newError l)

theorem newObject_keeps : newObject.Keeps F fun _ => True := by
  intro m m' hm
  have hn : m'.newObject.1 = m.newObject.1 := hm.objects
  unfold newObject
  rw [hn]
  exact .ok trivial hm.newObject

theorem newArray_keeps {vs : List Value} (h : ∀ v ∈ vs, v.Holds F.Known) :
    (newArray vs).Keeps F (Holds F.Known) :=
  newObject_keeps.bind fun _ _ => .pure (.array h)

theorem newHash_keeps {ps : Assoc Value Value}
    (h : ∀ p ∈ ps, p.1.Holds F.Known ∧ p.2.Holds F.Known) :
    (newHash ps).Keeps F (Holds F.Known) :=
  newObject_keeps.bind fun _ _ => .pure (.hash h)

theorem newFunction_keeps {s : Scope} (h : F.Known s) (l : Location) (ps : List Binder)
    (b : Block) : (newFunction s l ps b).Keeps F (Holds F.Known) :=
  newObject_keeps.bind fun _ _ => .pure (.function h)

theorem ofResult_keeps {r : Except Fault Value} (l : Location)
    (h : ∀ v, r = .ok v → v.Holds F.Known) : (ofResult l r).Keeps F (Holds F.Known) := by
  cases r
  case ok => exact .pure (h _ rfl)
  case error => exact fail_keeps _ _

theorem annotate_keeps (v : Value) (f : Diagnostic → Diagnostic) :
    (annotate v f).Keeps F fun _ => True := by
  cases v
  case error i _ => exact fun _ _ hm => .ok trivial (hm.annotate i f)
  all_goals exact .pure trivial

theorem print_keeps (v : Value) : (print v).Keeps F fun _ => True :=
  fun _ _ hm => .ok trivial (hm.print v)

theorem name_keeps {s : Scope} (h : F.Known s) (l : Location) (x : String) :
    (name s l x).Keeps F (Holds F.Known) := by
  have hr : (resolve? s x).Keeps F fun r => ∀ v ∈ r, v.Holds F.Known := by
    intro m m' hm
    have ⟨he, hv⟩ := hm.resolve? h x
    unfold resolve?
    rw [he]
    exact .ok hv hm
  refine hr.bind fun r hr => ?_
  split
  case h_1 v hv =>
    obtain hv | ⟨-, hv⟩ := Option.or_eq_some_iff.mp hv
    · exact .pure (hr v hv)
    · have ⟨b, _, hb⟩ := Option.map_eq_some_iff.mp hv
      exact .pure (hb ▸ .builtin b)
  case h_2 => exact fail_keeps _ _

theorem define_keeps {s : Scope} {v : Value} (hs : F.Written s.id) (x : String)
    (hv : v.Holds F.Known) : (define s x v).Keeps F fun _ => True := by
  intro m m' hm
  unfold define
  split
  · exact .error hm
  · exact .ok trivial (hm.define hs x hv)

theorem defineAll_keeps {s : Scope} (hs : F.Written s.id) {ps : List (Binder × Value)}
    (h : ∀ p ∈ ps, p.2.Holds F.Known) : (defineAll s ps).Keeps F fun _ => True := by
  induction ps
  case nil => exact .pure trivial
  case cons p ps hi =>
    simp only [List.forall_mem_cons] at h
    exact (define_keeps hs _ h.left).bind fun _ _ => hi h.right

-- The new scope is numbered alike in both runs, and it may be used.
theorem newScope_keeps {o : Scope} (h : F.Known o) :
    (newScope o).Keeps F fun s => F.Known s ∧ F.Written s.id := by
  intro m m' hm
  have hn : (m'.newScope o).1 = (m.newScope o).1 := by simp [Machine.newScope, hm.scopes]
  unfold newScope
  rw [hn]
  exact .ok ⟨F.known_new h hm.grown, F.written_new hm.grown⟩ (hm.newScope o)

theorem enter_keeps {c : Closure} (h : F.Known c.scope) {args : List Value}
    (ha : ∀ v ∈ args, v.Holds F.Known) :
    (enter c args).Keeps F fun s => F.Known s ∧ F.Written s.id :=
  (newScope_keeps h).bind fun _ hs =>
    (defineAll_keeps hs.right fun _ hp => ha _ (List.of_mem_zip hp).right).bind fun _ _ => .pure hs

theorem leave_keeps (l : Option Location) (c : Closure) {r : Option Value}
    (h : ∀ v ∈ r, v.Holds F.Known) : (leave l c r).Keeps F (Holds F.Known) := by
  unfold leave
  split
  · exact .pure (h _ rfl).of_returned
  · exact (annotate_keeps _ _).bind fun _ _ => .pure (h _ rfl)
  · exact .pure .null

end Eval

namespace Builtin

open Value Eval

variable {args : List Value}

theorem unary_keeps {f : Value → Eval Value} (h : ∀ v ∈ args, v.Holds F.Known)
    (hf : ∀ v, v.Holds F.Known → (f v).Keeps F (Holds F.Known)) :
    (unary args f).Keeps F (Holds F.Known) := by
  unfold unary
  split
  · exact hf _ (h _ (by simp))
  · exact fail_keeps _ _

theorem binary_keeps {f : Value → Value → Eval Value} (h : ∀ v ∈ args, v.Holds F.Known)
    (hf : ∀ v w, v.Holds F.Known → w.Holds F.Known → (f v w).Keeps F (Holds F.Known)) :
    (binary args f).Keeps F (Holds F.Known) := by
  unfold binary
  split
  · exact hf _ _ (h _ (by simp)) (h _ (by simp))
  · exact fail_keeps _ _

theorem onArray_keeps {b : Builtin} {v : Value} {f : List Value → Eval Value}
    (hv : v.Holds F.Known)
    (hf : ∀ vs, (∀ v ∈ vs, v.Holds F.Known) → (f vs).Keeps F (Holds F.Known)) :
    (b.onArray v f).Keeps F (Holds F.Known) := by
  unfold onArray
  split
  · exact hf _ hv.elements
  · exact fail_keeps _ _

theorem printAll_keeps (frames : Nat) (vs : List Value) :
    (printAll frames vs).Keeps F (Holds F.Known) := by
  induction vs
  case nil => exact .pure .null
  case cons v vs hi =>
    unfold printAll
    exact .ite (fun _ => fail_keeps _ _) fun _ => (print_keeps v).bind fun _ _ => hi

theorem apply_keeps (frames : Nat) (b : Builtin) (h : ∀ v ∈ args, v.Holds F.Known) :
    (b.apply frames args).Keeps F (Holds F.Known) := by
  cases b
  case len =>
    refine unary_keeps h fun v _ => ?_
    unfold length
    split
    · exact .pure (.int _)
    · exact .pure (.int _)
    · exact fail_keeps _ _
  case first =>
    refine unary_keeps h fun v hv => onArray_keeps hv fun vs hvs => .pure ?_
    exact .getD fun v hv => hvs v (List.mem_of_head? hv)
  case last =>
    refine unary_keeps h fun v hv => onArray_keeps hv fun vs hvs => .pure ?_
    exact .getD fun v hv => hvs v (List.mem_of_getLast? hv)
  case rest =>
    refine unary_keeps h fun v hv => onArray_keeps hv fun vs hvs => ?_
    split
    · exact .pure .null
    · exact newArray_keeps fun v hv => hvs v (List.mem_cons_of_mem _ hv)
  case push =>
    refine binary_keeps h fun v w hv hw => onArray_keeps hv fun vs hvs => newArray_keeps ?_
    simpa [or_imp, forall_and] using ⟨hvs, hw⟩
  case puts => exact printAll_keeps frames args

end Builtin

namespace Evaluator

open Value Eval

-- A task keeps to a footprint in which its scope is known and may be written, or what it calls and
-- the arguments capture known scopes only.
structure Keeps (F : Footprint) (E : Evaluator Eval) : Prop where
  expr : ∀ s e, F.Known s → F.Written s.id → (E.expr s e).Keeps F (Holds F.Known)
  block : ∀ s b, F.Known s → F.Written s.id →
    (E.block s b).Keeps F fun r => ∀ v ∈ r, v.Holds F.Known
  stmt : ∀ s x, F.Known s → F.Written s.id →
    (E.stmt s x).Keeps F fun r => ∀ v ∈ r, v.Holds F.Known
  call : ∀ l f args, f.Holds F.Known → (∀ v ∈ args, v.Holds F.Known) →
    (E.call l f args).Keeps F (Holds F.Known)

theorem plain_keeps {x : Eval Value} {next : Value → Eval Value} (hx : x.Keeps F (Holds F.Known))
    (hn : ∀ v, v.Holds F.Known → (next v).Keeps F (Holds F.Known)) :
    (plain x next).Keeps F (Holds F.Known) :=
  hx.bind fun v hv => .ite (fun _ => .pure hv) fun _ => hn v hv

theorem plains_keeps {eval : α → Eval Value} {xs : List α} {next : List Value → Eval Value}
    (hx : ∀ x, (eval x).Keeps F (Holds F.Known))
    (hn : ∀ vs, (∀ v ∈ vs, v.Holds F.Known) → (next vs).Keeps F (Holds F.Known)) :
    (plains eval xs next).Keeps F (Holds F.Known) := by
  induction xs generalizing next
  case nil => exact hn [] (by simp)
  case cons x xs hi =>
    exact plain_keeps (hx x) fun v hv => hi fun vs hvs =>
      hn _ (List.forall_mem_cons.mpr ⟨hv, hvs⟩)

theorem entries_keeps {eval : Expr → Eval Value} {es : List (Expr × Expr)} {ps : Assoc Value Value}
    {next : Assoc Value Value → Eval Value} (hx : ∀ e, (eval e).Keeps F (Holds F.Known))
    (hn : ∀ ps : Assoc Value Value, (∀ p ∈ ps, p.1.Holds F.Known ∧ p.2.Holds F.Known) →
      (next ps).Keeps F (Holds F.Known))
    (hp : ∀ p ∈ ps, p.1.Holds F.Known ∧ p.2.Holds F.Known) :
    (entries eval es ps next).Keeps F (Holds F.Known) := by
  induction es generalizing ps
  case nil => exact hn ps hp
  case cons e es hi =>
    refine plain_keeps (hx e.1) fun k hk => .ite (fun _ => ?_) fun _ => fail_keeps _ _
    exact plain_keeps (hx e.2) fun v hv => hi (Assoc.forall_mem_insert hp hk hv)

theorem sequence_keeps {run : Stmt → Eval (Option Value)} {last : Option Value} {ss : List Stmt}
    (hr : ∀ x, (run x).Keeps F fun r => ∀ v ∈ r, v.Holds F.Known)
    (hl : ∀ v ∈ last, v.Holds F.Known) :
    (sequence run last ss).Keeps F fun r => ∀ v ∈ r, v.Holds F.Known := by
  induction ss generalizing last
  case nil => exact .pure hl
  case cons x ss hi => exact (hr x).bind fun r hr => .ite (fun _ => .pure hr) fun _ => hi hr

theorem orNull_keeps {x : Eval (Option Value)}
    (hx : x.Keeps F fun r => ∀ v ∈ r, v.Holds F.Known) : (orNull x).Keeps F (Holds F.Known) :=
  hx.bind fun _ hr => .pure (.getD hr)

namespace Keeps

variable {E : Evaluator Eval} (h : E.Keeps F)
include h

section

variable {s : Scope} (hs : F.Known s) (hw : F.Written s.id)
include hs hw

theorem exprStep (e : Expr) : (E.exprStep s e).Keeps F (Holds F.Known) := by
  have hx (e : Expr) := h.expr s e hs hw
  cases e
  case ident l x => exact name_keeps hs l x
  case int => exact .pure (.int _)
  case string => exact .pure (.string _)
  case bool => exact .pure (.bool _)
  case prefixOp l op e =>
    exact plain_keeps (hx e) fun v _ => ofResult_keeps l fun _ => PrefixOp.holds_apply
  case infixOp l op a b =>
    exact plain_keeps (hx a) fun v _ => plain_keeps (hx b) fun w _ =>
      ofResult_keeps l fun _ => InfixOp.holds_apply
  case cond l c b a =>
    refine plain_keeps (hx c) fun v _ => ?_
    refine .ite (fun _ => orNull_keeps (h.block s b hs hw)) fun _ => ?_
    cases a
    case none => exact .pure .null
    case some a => exact orNull_keeps (h.block s a hs hw)
  case fn l ps b => exact newFunction_keeps hs l ps b
  case call l f as =>
    exact plain_keeps (hx f) fun f hf => plains_keeps hx fun vs hvs => h.call l f vs hf hvs
  case array => exact plains_keeps hx fun vs hvs => newArray_keeps hvs
  case hash => exact entries_keeps hx (fun ps hps => newHash_keeps hps) (by simp)
  case index l c i =>
    exact plain_keeps (hx c) fun v hv => plain_keeps (hx i) fun k _ =>
      ofResult_keeps l fun _ => holds_get hv

theorem stmtStep (x : Stmt) : (E.stmtStep s x).Keeps F fun r => ∀ v ∈ r, v.Holds F.Known := by
  cases x
  case bind l b e =>
    refine (h.expr s e hs hw).bind fun v hv => .ite (fun _ => .pure (by simpa using hv)) fun _ => ?_
    exact (define_keeps hw b.name hv).bind fun _ _ => .pure (by simp)
  case ret l e =>
    refine (h.expr s e hs hw).bind fun v hv => .ite (fun _ => .pure (by simpa using hv)) fun _ => ?_
    exact .pure (by simpa using hv.returned)
  case expr e => exact (h.expr s e hs hw).map (by simp)

end

theorem callStep (frames : Nat) (l : Option Location) {f : Value} {args : List Value}
    (hf : f.Holds F.Known) (ha : ∀ v ∈ args, v.Holds F.Known) :
    (E.callStep frames l f args).Keeps F (Holds F.Known) := by
  unfold Evaluator.callStep
  split
  case h_1 b =>
    exact (b.apply_keeps frames ha).bind fun v hv => (annotate_keeps v _).bind fun _ _ => .pure hv
  case h_2 c =>
    refine .ite (fun _ => ?_) fun _ => fail_keeps _ _
    -- The body runs in a scope of its own, inside the one that the function captures.
    exact (enter_keeps hf.scope ha).bind fun s hs =>
      (h.block s c.body hs.left hs.right).bind fun r hr => leave_keeps l c hr
  case h_3 => exact fail_keeps _ _

theorem step (frames : Nat) : (E.step frames).Keeps F where
  expr _ e hs hw := h.exprStep hs hw e
  block s _ hs hw := sequence_keeps (fun x => h.stmt s x hs hw) (by simp)
  stmt _ x hs hw := h.stmtStep hs hw x
  call l _ _ hf ha := h.callStep frames l hf ha

end Keeps

end Evaluator

theorem Eval.within_keeps (frames : Nat) : (within frames).Keeps F := by
  induction frames
  case zero =>
    have h {α} {Q : α → Prop} : (tooDeep : Eval α).Keeps F Q := fun _ _ hm => .error hm
    exact ⟨fun _ _ _ _ => h, fun _ _ _ _ => h, fun _ _ _ _ => h, fun _ _ _ _ _ => h⟩
  case succ n hi => exact hi.step n

theorem Program.eval_keeps (frames : Nat) {s : Scope} (hs : F.Known s) (hw : F.Written s.id)
    (p : Program) : (p.eval frames s).Keeps F fun r => ∀ v ∈ r, v.Holds F.Known := by
  have hx : (Evaluator.sequence (Eval.stmt frames s) none p.statements).Keeps F _ :=
    Evaluator.sequence_keeps (fun x => (Eval.within_keeps frames).stmt s x hs hw) (by simp)
  intro m m' hm
  have h := hx m m' hm
  unfold eval
  revert h
  generalize Evaluator.sequence (Eval.stmt frames s) none p.statements m = r,
    Evaluator.sequence (Eval.stmt frames s) none p.statements m' = r'
  rintro (⟨hv, hn⟩ | hn)
  case ok =>
    refine .ok (fun v hv' => ?_) hn
    have ⟨w, hw, he⟩ := Option.map_eq_some_iff.mp hv'
    exact he ▸ (hv w hw).unwrap
  case error e =>
    cases e
    case tooDeep => exact (Eval.fail_keeps _ _).map (by simp) _ _ hn
    case controlFlowBound => exact .error hn

namespace Task

-- The scope is that of the task, or it is captured by what the task is given.
def Refers (s : Scope) : Task → Prop
  | expr s' _ | block s' _ | stmt s' _ | program s' _ => s' = s
  | call _ f args => f.Captures s ∨ ∃ v ∈ args, v.Captures s

-- The scope in which the task binds names; a call binds them in a new one.
def home? : Task → Option ScopeId
  | expr s _ | block s _ | stmt s _ | program s _ => some s.id
  | call .. => none

theorem eval_keeps (frames : Nat) {t : Task} (hs : ∀ s, t.Refers s → F.Known s)
    (hw : ∀ i ∈ t.home?, F.Written i) :
    (t.eval frames).Keeps F fun r => ∀ v ∈ r, v.Holds F.Known := by
  have h := Eval.within_keeps (F := F) frames
  cases t
  case expr s e => exact (h.expr s e (hs s rfl) (hw _ rfl)).map (by simp)
  case block s b => exact h.block s b (hs s rfl) (hw _ rfl)
  case stmt s x => exact h.stmt s x (hs s rfl) (hw _ rfl)
  case call l f args =>
    refine (h.call l f args (fun s hc => hs s (.inl hc)) fun v hv s hc => ?_).map (by simp)
    exact hs s (.inr ⟨v, hv, hc⟩)
  case program s p => exact p.eval_keeps frames (hs s rfl) (hw _ rfl)

end Task

end Marmoset
