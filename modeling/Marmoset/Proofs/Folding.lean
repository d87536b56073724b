import Marmoset.Proofs.Rules

/-!
Loops over arrays. A function may define a function of its own, `iter`, that takes an array apart
from the front and calls itself by name with what it has gathered so far. It comes to the fold of the
array, provided that one round does to what has been gathered what one step of the fold does
(`call_folder`).
-/

namespace Marmoset

namespace Folding

variable (acc : String) (step init : Expr)

-- Places do not matter here.
def named (x : String) : Expr :=
  .ident .start x

def calling (f : String) (args : List Expr) : Expr :=
  .call .start (named f) args

def loopBody : Block :=
  .mk .start [.expr (.cond .start
    (.infixOp .start .eq (calling "len" [named "arr"]) (.int .start 0))
    (.mk .start [.expr (named acc)])
    (some (.mk .start [.expr (calling "iter" [calling "rest" [named "arr"], step])])))]

def loopParams : List Binder :=
  [⟨.start, "arr"⟩, ⟨.start, acc⟩]

-- Defines the loop and starts it with the array and the first thing gathered.
def folder : Block :=
  .mk .start [.bind .start ⟨.start, "iter"⟩ (.fn .start (loopParams acc) (loopBody acc step)),
    .expr (calling "iter" [named "arr", init])]

def ints (xs : List Int64) : List Value :=
  xs.map .int

-- The function is the loop, and in `m` its scope has it by its name and hides nothing that it uses.
structure Loop (m : Machine) (it : Closure) : Prop where
  params : it.params = loopParams acc
  body : it.body = loopBody acc step
  known : ∀ i ∈ it.scope.chain, i < m.scopes.size
  self : m.resolve? it.scope "iter" = some (.function it)
  len : m.resolve? it.scope "len" = none
  rest : m.resolve? it.scope "rest" = none

-- A round of the loop begins: its scope has the array and what has been gathered.
structure Round (m₀ : Machine) (it : Closure) (m : Machine) (s : Scope) (arr v : Value) :
    Prop where
  grown : m₀.GrowsTo m
  known : ∀ i ∈ s.chain, i < m.scopes.size
  array : m.resolve? s "arr" = some arr
  gathered : m.resolve? s acc = some v
  around : ∀ x, x ≠ "arr" → x ≠ acc → m.resolve? s x = m₀.resolve? it.scope x

-- In every round the step gathers what `g` makes of it and of the first number. `R` says what
-- stands for what has been gathered.
def Gathers (m₀ : Machine) (it : Closure) (R : β → Value → Prop) (g : β → Int64 → β) : Prop :=
  ∀ (n : Nat) (m : Machine) (s : Scope) (i : ObjectId) (x : Int64) (xs : List Int64) (b : β)
    (v : Value), Round acc m₀ it m s (.array i (ints (x :: xs))) v → R b v →
    ∃ v' m', Eval.expr (n + 7) s step m = .ok v' m' ∧ m.GrowsTo m' ∧ R (g b x) v'

variable {acc step} {m₀ m m' : Machine} {it : Closure} {s : Scope} {arr v : Value}

theorem Round.grow (h : Round acc m₀ it m s arr v) (hm : m.GrowsTo m') :
    Round acc m₀ it m' s arr v where
  grown := h.grown.trans hm
  known i hi := Nat.lt_of_lt_of_le (h.known i hi) hm.size
  array := (hm.resolve? h.known _).trans h.array
  gathered := (hm.resolve? h.known _).trans h.gathered
  around x ha hb := (hm.resolve? h.known x).trans (h.around x ha hb)

theorem Loop.round (h : Loop acc step m₀ it) (hacc : acc ≠ "arr") (hm : m₀.GrowsTo m)
    (arr v : Value) :
    Round acc m₀ it (m.entered it [arr, v]) (m.inner it) arr v := by
  have hk : ∀ i ∈ it.scope.chain, i < m.scopes.size := fun i hi =>
    Nat.lt_of_lt_of_le (h.known i hi) hm.size
  have hr := Machine.resolve?_entered hk [arr, v]
  have hp : Assoc.insertAll [] ((it.params.zip [arr, v]).map fun p => (p.1.name, p.2)) =
      [("arr", arr), (acc, v)] := by
    simp [h.params, loopParams, Assoc.insertAll, Assoc.insert, hacc.symm]
  simp only [hp] at hr
  refine ⟨hm.trans (m.entered_grows it _), ?known, ?array, ?gathered, fun x ha hb => ?around⟩
  case known =>
    rw [Machine.size_entered]
    exact List.forall_mem_cons.mpr ⟨Nat.lt_succ_self _, fun i hi => Nat.lt_succ_of_lt (hk i hi)⟩
  case array => simp [hr, Assoc.find?]
  case gathered => simp [hr, Assoc.find?, hacc.symm]
  case around => simp [hr, Assoc.find?, ha.symm, hb.symm, hm.resolve? h.known]

-- The least length that is told as another one.
def lengthBound : Nat :=
  0x10000000000000000

theorem ofNat_eq_zero_iff {k : Nat} (h : k < lengthBound) : Int64.ofNat k = 0 ↔ k = 0 := by
  unfold lengthBound at h
  rw [← Int64.toBitVec_inj, ← BitVec.toNat_inj]
  simp
  omega

-- Each round asks whether the array is empty.
theorem eval_condition {vs : List Value} {i : ObjectId} (hr : Round acc m₀ it m s (.array i vs) v)
    (hl : m.resolve? s "len" = none) (h : vs.length < lengthBound) (n : Nat) :
    Eval.expr (n + 3) s (.infixOp .start .eq (calling "len" [named "arr"]) (.int .start 0)) m =
      .ok (.bool vs.isEmpty) m := by
  have hlen : Eval.expr (n + 2) s (calling "len" [named "arr"]) m = .ok (.ofNat vs.length) m := by
    have hf : Eval.expr (n + 1) s (named "len") m = .ok (.builtin .len) m :=
      Eval.expr_builtin hl (by decide) .start
    exact (Eval.expr_call hf rfl (.cons (Eval.expr_ident hr.array .start) rfl .nil) .start).trans
      (Eval.call_builtin rfl rfl _)
  have he : decide (Int64.ofNat vs.length = 0) = vs.isEmpty := by
    cases vs
    case nil => rfl
    case cons => exact decide_eq_false (mt (ofNat_eq_zero_iff h).mp (by simp))
  have hu : InfixOp.eq.apply (.ofNat vs.length) (.int 0) = .ok (.bool vs.isEmpty) :=
    congrArg (fun b => Except.ok (Value.bool b)) he
  exact Eval.expr_infix hlen rfl rfl rfl hu .start

-- A call of the loop comes to what its conditional does.
theorem call_of_conditional {vs : List Value} {i : ObjectId} {n : Nat} {u : Value}
    (h : Loop acc step m₀ it)
    (hr : Round acc m₀ it (m.entered it [.array i vs, v]) (m.inner it) (.array i vs) v)
    (hlen : acc ≠ "len") (hvs : vs.length < lengthBound) (hv : v.isControlFlow = false)
    (hu : u.isControlFlow = false)
    (he : Eval.expr (n + 1) (m.inner it)
      (if vs.isEmpty then named acc else calling "iter" [calling "rest" [named "arr"], step])
      (m.entered it [.array i vs, v]) = .ok u m') (l : Option Location) :
    Eval.call (n + 7) l (.function it) [.array i vs, v] m = .ok u m' := by
  have hc := eval_condition hr ((hr.around "len" (by decide) hlen.symm).trans h.len) hvs n
  have hb : Eval.block (n + 6) (m.inner it) it.body (m.entered it [.array i vs, v]) =
      .ok (some u) m' := by
    rw [h.body, loopBody, Eval.block_single]
    refine Eval.stmt_expr ((Eval.expr_cond hc rfl _ _ _).trans ?_)
    cases vs <;> exact (congrFun (Eval.orNull_block ..) _).trans he
  have ha : ∀ w ∈ [Value.array i vs, v], w.isControlFlow = false :=
    List.forall_mem_cons.mpr ⟨rfl, List.forall_mem_singleton.mpr hv⟩
  exact Eval.call_function (by simp [h.params, loopParams]) ha hb hu l

section

variable {β : Type} {R : β → Value → Prop} {g : β → Int64 → β}

-- Each round but the last takes seven frames.
theorem call_loop (h : Loop acc step m₀ it) (hacc : acc ∉ ["arr", "iter", "len", "rest"])
    (hg : Gathers acc step m₀ it R g) (hR : ∀ b v, R b v → v.isControlFlow = false)
    {xs : List Int64} (hx : xs.length < lengthBound) {b : β} (hm : m₀.GrowsTo m) (hv : R b v) (n : Nat)
    (l : Option Location) (i : ObjectId) :
    ∃ v' m', Eval.call (n + 7 * xs.length + 7) l (.function it) [.array i (ints xs), v] m =
      .ok v' m' ∧ R (xs.foldl g b) v' := by
  simp only [List.mem_cons, List.not_mem_nil, or_false, not_or] at hacc
  obtain ⟨harr, hiter, hlen, hrest⟩ := hacc
  induction xs generalizing b v m l i
  case nil =>
    have hr := h.round harr hm (.array i []) v
    have he := Eval.expr_ident (n := n) hr.gathered .start
    exact ⟨v, _, call_of_conditional h hr hlen hx (hR b v hv) (hR b v hv) he l, hv⟩
  case cons x xs hi =>
    have hr := h.round harr hm (.array i (ints (x :: xs))) v
    -- The round leaves the rest of the array and what has now been gathered to the next one.
    let k := n + 7 * xs.length
    let mₑ := m.entered it [.array i (ints (x :: xs)), v]
    have hself := (hr.around "iter" (by decide) (Ne.symm hiter)).trans h.self
    have hrest := (hr.around "rest" (by decide) (Ne.symm hrest)).trans h.rest
    have hf : Eval.expr (k + 6) (m.inner it) (named "rest") mₑ = .ok (.builtin .rest) mₑ :=
      Eval.expr_builtin hrest (by decide) .start
    have hs : Eval.expr (k + 7) (m.inner it) (calling "rest" [named "arr"]) mₑ =
        .ok (.array mₑ.nextObject (ints xs)) mₑ.newObject.2 :=
      (Eval.expr_call hf rfl (.cons (Eval.expr_ident hr.array .start) rfl .nil) .start).trans
        (Eval.call_builtin rfl rfl _)
    have ⟨v₁, m₁, hv₁, hm₁, hb₁⟩ := hg k _ _ _ x xs b v (hr.grow (.newObject mₑ)) hv
    have hm := hm.trans ((m.entered_grows it _).trans ((Machine.GrowsTo.newObject _).trans hm₁))
    have ⟨u, m', hu, hb⟩ := hi (by simp at hx; omega) hm hb₁ (some .start) mₑ.nextObject
    have he : Eval.expr (k + 8) (m.inner it)
        (calling "iter" [calling "rest" [named "arr"], step]) mₑ = .ok u m' :=
      (Eval.expr_call (Eval.expr_ident hself .start) rfl
        (.cons hs rfl (.cons hv₁ (hR _ _ hb₁) .nil)) .start).trans hu
    have hl : (ints (x :: xs)).length < lengthBound := by simpa [ints] using hx
    exact ⟨u, m', call_of_conditional h hr hlen hl (hR b v hv) (hR _ _ hb) he l, hb⟩

end

variable (acc step) {c : Closure} {args : List Value}

-- The loop that a call defines, and the machine once the call has bound it.
def loopOf (m : Machine) (c : Closure) (args : List Value) : Closure :=
  ⟨(m.entered c args).nextObject, .start, loopParams acc, loopBody acc step, m.inner c⟩

def ready (m : Machine) (c : Closure) (args : List Value) : Machine :=
  (m.entered c args).newObject.2.define (m.inner c) "iter"
    (.function (loopOf acc step m c args))

variable {acc step init}

theorem grows_ready : m.GrowsTo (ready acc step m c args) :=
  ((m.entered_grows c args).trans (.newObject _)).define (Nat.le_refl m.scopes.size) _ _

-- All names but that of the loop are those of the call.
theorem resolve?_ready {x : String} (hx : x ≠ "iter") :
    (ready acc step m c args).resolve? (m.inner c) x = (m.entered c args).resolve? (m.inner c) x :=
  Machine.resolve?_define_of_ne hx.symm _ _ _

theorem loop_ready (hk : ∀ i ∈ c.scope.chain, i < m.scopes.size)
    (hl : (m.entered c args).resolve? (m.inner c) "len" = none)
    (hr : (m.entered c args).resolve? (m.inner c) "rest" = none) :
    Loop acc step (ready acc step m c args) (loopOf acc step m c args) where
  params := rfl
  body := rfl
  known := by
    have hz : (ready acc step m c args).scopes.size = m.scopes.size + 1 :=
      (Array.size_modify ..).trans Machine.size_entered
    rw [hz]
    exact List.forall_mem_cons.mpr ⟨Nat.lt_succ_self _, fun i hi => Nat.lt_succ_of_lt (hk i hi)⟩
  self := by
    refine Machine.resolve?_define_self ?_ _ _
    exact Nat.lt_of_lt_of_eq (Nat.lt_succ_self m.scopes.size) Machine.size_entered.symm
  len := (resolve?_ready (by decide)).trans hl
  rest := (resolve?_ready (by decide)).trans hr

section

variable {β : Type} {R : β → Value → Prop} {g : β → Int64 → β}

-- A call of a function that folds its array with a loop of its own.
theorem call_folder (hc : c.body = folder acc step init) (hp : args.length = c.params.length)
    (ha : ∀ v ∈ args, v.isControlFlow = false) (hk : ∀ i ∈ c.scope.chain, i < m.scopes.size)
    (hacc : acc ∉ ["arr", "iter", "len", "rest"])
    (hl : (m.entered c args).resolve? (m.inner c) "len" = none)
    (hr : (m.entered c args).resolve? (m.inner c) "rest" = none)
    (hg : Gathers acc step (ready acc step m c args) (loopOf acc step m c args) R g)
    (hR : ∀ b v, R b v → v.isControlFlow = false) {xs : List Int64} (hx : xs.length < lengthBound)
    {i : ObjectId}
    (harr : (m.entered c args).resolve? (m.inner c) "arr" = some (.array i (ints xs)))
    {n : Nat} {b : β} {m₁ : Machine}
    (hi : Eval.expr (n + 7 * xs.length + 7) (m.inner c) init (ready acc step m c args) = .ok v m₁)
    (hm : (ready acc step m c args).GrowsTo m₁) (hv : R b v) (l : Option Location) :
    ∃ u m', Eval.call (n + 7 * xs.length + 11) l (.function c) args m = .ok u m' ∧
      R (xs.foldl g b) u := by
  have hloop : Loop acc step (ready acc step m c args) (loopOf acc step m c args) :=
    loop_ready hk hl hr
  have ⟨u, m', hu, hb⟩ := call_loop hloop hacc hg hR hx hm hv n (some .start) i
  have he : Eval.expr (n + 7 * xs.length + 8) (m.inner c) (calling "iter" [named "arr", init])
      (ready acc step m c args) = .ok u m' := by
    have hs : (ready acc step m c args).resolve? (m.inner c) "arr" = some (.array i (ints xs)) :=
      (resolve?_ready (by decide)).trans harr
    exact (Eval.expr_call (Eval.expr_ident hloop.self .start) rfl
      (.cons (Eval.expr_ident hs .start) rfl (.cons hi (hR _ _ hv) .nil)) .start).trans hu
  have hbind : Eval.stmt (n + 7 * xs.length + 9) (m.inner c)
      (.bind .start ⟨.start, "iter"⟩ (.fn .start (loopParams acc) (loopBody acc step)))
      (m.entered c args) = .ok none (ready acc step m c args) :=
    Eval.stmt_bind (v := .function (loopOf acc step m c args)) rfl rfl _ _
  have hbody : Eval.block (n + 7 * xs.length + 10) (m.inner c) c.body (m.entered c args) =
      .ok (some u) m' := by
    rw [hc]
    refine (Eval.sequence_cons hbind none _).trans ?_
    rw [Eval.sequence_single]
    exact Eval.stmt_expr he
  exact ⟨u, m', Eval.call_function hp ha hbody (hR _ _ hb) l, hb⟩

end

end Folding

end Marmoset
