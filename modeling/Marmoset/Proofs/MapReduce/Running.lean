import Marmoset.Proofs.Arithmetic
import Marmoset.Proofs.MapReduce.Reading

/-!
What a program does that doubles the numbers of an array and adds them up. Each of its two functions
makes a loop over its array, and what the loop gathers is carried from round to round (`gathers_map`,
`gathers_reduce`). So the program comes to the sum of the doubles, reduced to 64 bits, whatever the
numbers are (`evalSource_mapReduce`).
-/

namespace Marmoset

open Folding

theorem Machine.resolve?_session (m : Machine) (x : String) :
    m.resolve? Session.scope x = Assoc.find? x (m.bindings 0) := by
  change List.findSome? _ [0] = _
  rw [List.findSome?_singleton]

namespace MapReduce

variable {m m₀ m' : Machine} {s : Scope} {c it f : Closure}

theorem call_double (hp : c.params = binders ["x"]) (hb : c.body = double)
    (hk : ∀ i ∈ c.scope.chain, i < m.scopes.size) (n : Nat) (x : Int64) (l : Option Location) :
    Eval.call (n + 5) l (.function c) [.int x] m = .ok (.int (x * 2)) (m.entered c [.int x]) := by
  have hx : (m.entered c [.int x]).resolve? (m.inner c) "x" = some (.int x) := by
    rw [Machine.resolve?_entered hk, hp]
    rfl
  have he : Eval.expr (n + 2) (m.inner c) (.infixOp .start .mul (named "x") (.int .start 2))
      (m.entered c [.int x]) = .ok (.int (x * 2)) (m.entered c [.int x]) :=
    Eval.expr_infix (Eval.expr_ident hx .start) rfl (w := .int 2) rfl rfl rfl .start
  exact Eval.call_expr (hp ▸ rfl) (by simp [Value.isControlFlow]) hb he rfl l

theorem call_add (hp : c.params = binders ["a", "b"]) (hb : c.body = add)
    (hk : ∀ i ∈ c.scope.chain, i < m.scopes.size) (n : Nat) (x y : Int64) (l : Option Location) :
    Eval.call (n + 5) l (.function c) [.int x, .int y] m =
      .ok (.int (x + y)) (m.entered c [.int x, .int y]) := by
  have hr := Machine.resolve?_entered hk [.int x, .int y]
  have hx : (m.entered c [.int x, .int y]).resolve? (m.inner c) "a" = some (.int x) := by
    rw [hr, hp]
    rfl
  have hy : (m.entered c [.int x, .int y]).resolve? (m.inner c) "b" = some (.int y) := by
    rw [hr, hp]
    rfl
  have he : Eval.expr (n + 2) (m.inner c) (.infixOp .start .add (named "a") (named "b"))
      (m.entered c [.int x, .int y]) = .ok (.int (x + y)) (m.entered c [.int x, .int y]) :=
    Eval.expr_infix (Eval.expr_ident hx .start) rfl (Eval.expr_ident hy .start) rfl rfl .start
  exact Eval.call_expr (hp ▸ rfl) (by simp [Value.isControlFlow]) hb he rfl l

-- The first number of the array of a round.
theorem eval_first {acc : String} {x : Int64} {xs : List Int64} {i : ObjectId} {v : Value}
    (hr : Round acc m₀ it m s (.array i (ints (x :: xs))) v)
    (hf : m.resolve? s "first" = none) (n : Nat) :
    Eval.expr (n + 3) s (calling "first" [named "arr"]) m = .ok (.int x) m := by
  have hb : Eval.expr (n + 2) s (named "first") m = .ok (.builtin .first) m :=
    Eval.expr_builtin hf (by decide) .start
  exact (Eval.expr_call hb rfl (.cons (Eval.expr_ident hr.array .start) rfl .nil) .start).trans
    (Eval.call_builtin rfl rfl _)

-- A round of `map` adds the double of the number to the array.
theorem gathers_map (hp : f.params = binders ["x"]) (hb : f.body = double)
    (hk : ∀ i ∈ f.scope.chain, i < m₀.scopes.size)
    (hf : m₀.resolve? it.scope "f" = some (.function f))
    (hpush : m₀.resolve? it.scope "push" = none) (hfirst : m₀.resolve? it.scope "first" = none) :
    Gathers "accumulated" mapStep m₀ it (fun b v => ∃ i, v = .array i (ints b))
      fun b x => b ++ [x * 2] := by
  rintro n m s i x xs b _ hr ⟨j, rfl⟩
  have hk' : ∀ i ∈ f.scope.chain, i < m.scopes.size := fun i hi =>
    Nat.lt_of_lt_of_le (hk i hi) hr.grown.size
  have hx := eval_first hr ((hr.around _ (by decide) (by decide)).trans hfirst) (n + 2)
  have hs : Eval.expr (n + 6) s (calling "f" [calling "first" [named "arr"]]) m =
      .ok (.int (x * 2)) (m.entered f [.int x]) := by
    have he := Eval.expr_ident (n := n + 4) ((hr.around _ (by decide) (by decide)).trans hf) .start
    exact (Eval.expr_call he rfl (.cons hx rfl .nil) .start).trans (call_double hp hb hk' n x _)
  have he : Eval.expr (n + 6) s (named "push") m = .ok (.builtin .push) m :=
    Eval.expr_builtin ((hr.around _ (by decide) (by decide)).trans hpush) (by decide) .start
  have ha := Eval.Passes.cons (Eval.expr_ident (n := n + 5) hr.gathered .start) rfl
    (.cons hs rfl .nil)
  let m₁ := m.entered f [.int x]
  have hc : Eval.expr (n + 7) s mapStep m =
      .ok (.array m₁.nextObject (ints b ++ [.int (x * 2)])) m₁.newObject.2 :=
    (Eval.expr_call he rfl ha .start).trans (Eval.call_builtin rfl rfl _)
  have hd : ints (b ++ [x * 2]) = ints b ++ [.int (x * 2)] := List.map_append
  exact ⟨_, _, hc, (m.entered_grows f _).trans (.newObject _), _, congrArg _ hd.symm⟩

-- A round of `reduce` adds the number to the sum.
theorem gathers_reduce (hp : f.params = binders ["a", "b"]) (hb : f.body = add)
    (hk : ∀ i ∈ f.scope.chain, i < m₀.scopes.size)
    (hf : m₀.resolve? it.scope "f" = some (.function f))
    (hfirst : m₀.resolve? it.scope "first" = none) :
    Gathers "result" reduceStep m₀ it (fun b v => v = .int b) fun b x => b + x := by
  rintro n m s i x xs b _ hr rfl
  have hk' : ∀ i ∈ f.scope.chain, i < m.scopes.size := fun i hi =>
    Nat.lt_of_lt_of_le (hk i hi) hr.grown.size
  have hx := eval_first hr ((hr.around _ (by decide) (by decide)).trans hfirst) (n + 3)
  have he := Eval.expr_ident (n := n + 5) ((hr.around _ (by decide) (by decide)).trans hf) .start
  have ha := Eval.Passes.cons (Eval.expr_ident (n := n + 5) hr.gathered .start) rfl
    (.cons hx rfl .nil)
  exact ⟨_, _, (Eval.expr_call he rfl ha .start).trans (call_add hp hb hk' (n + 1) b x _),
    m.entered_grows f _, rfl⟩

-- The function was made in the scope of the session.
structure Global (c : Closure) (ps : List String) (b : Block) : Prop where
  params : c.params = binders ps
  body : c.body = b
  scope : c.scope = Session.scope

theorem Global.known {ps : List String} {b : Block} (h : Global c ps b) (hm : 0 < m.scopes.size) :
    ∀ i ∈ c.scope.chain, i < m.scopes.size := by
  rw [h.scope]
  exact List.forall_mem_singleton.mpr hm

-- In a call of it, a name is a parameter or one of the session.
theorem Global.resolve? {ps : List String} {b : Block} (h : Global c ps b) (hm : 0 < m.scopes.size)
    (args : List Value) (x : String) : (m.entered c args).resolve? (m.inner c) x =
      (Assoc.find? x (Assoc.insertAll [] (ps.zip args))).or (m.resolve? Session.scope x) := by
  rw [Machine.resolve?_entered (h.known hm), h.params, h.scope, binders, List.zip_map_left,
    List.map_map]
  exact congrArg (fun l => (Assoc.find? x (Assoc.insertAll [] l)).or _) (List.map_id _)

-- The built-in functions that the loops use.
def builtins : List String :=
  ["len", "rest", "push", "first"]

-- The session hides none of them.
def Unhidden (m : Machine) : Prop :=
  ∀ x ∈ builtins, m.resolve? Session.scope x = none

-- Nor does a call, if none of its parameters does.
theorem Global.unhidden {ps : List String} {b : Block} (h : Global c ps b) (hm : 0 < m.scopes.size)
    (hu : Unhidden m) (hp : ∀ x ∈ builtins, x ∉ ps) (args : List Value) {x : String}
    (hx : x ∈ builtins) : (m.entered c args).resolve? (m.inner c) x = none := by
  have hn : Assoc.find? x (Assoc.insertAll [] (ps.zip args)) = none := by
    refine Assoc.find?_insertAll_eq_none_iff.mpr fun p hm => beq_eq_false_iff_ne.mpr ?_
    rintro rfl
    exact hp _ hx (List.of_mem_zip hm).1
  rw [h.resolve? hm, hn, hu x hx]
  rfl

theorem call_map (hc : Global c ["arr", "f"] mapBody) (hf : Global f ["x"] double)
    (hm : 0 < m.scopes.size) (hu : Unhidden m) {xs : List Int64} (hx : xs.length < lengthBound) (n : Nat)
    (i : ObjectId) (l : Option Location) :
    ∃ j m', Eval.call (n + 7 * xs.length + 11) l (.function c)
      [.array i (ints xs), .function f] m = .ok (.array j (ints (xs.map (· * 2)))) m' := by
  let args : List Value := [.array i (ints xs), .function f]
  have hr := hc.resolve? hm args
  have hn {x : String} (hx : x ∈ builtins) := hc.unhidden hm hu (by decide) args hx
  let m₀ := ready "accumulated" mapStep m c args
  have hz : 0 < m₀.scopes.size := Nat.lt_of_lt_of_le hm grows_ready.size
  have hg : Gathers "accumulated" mapStep m₀ (loopOf "accumulated" mapStep m c args)
      (fun b v => ∃ i, v = .array i (ints b)) fun b x => b ++ [x * 2] :=
    gathers_map hf.params hf.body (hf.known hz) ((resolve?_ready (by decide)).trans (hr "f"))
      ((resolve?_ready (by decide)).trans (hn (by decide)))
      ((resolve?_ready (by decide)).trans (hn (by decide)))
  have ha : ∀ v ∈ args, v.isControlFlow = false := by simp [args, Value.isControlFlow]
  have hi : Eval.expr (n + 7 * xs.length + 7) (m.inner c) (.array .start []) m₀ =
      .ok (.array m₀.nextObject (ints [])) m₀.newObject.2 := rfl
  have ⟨u, m', hu, j, hj⟩ := call_folder hc.body (by rw [hc.params]; rfl) ha (hc.known hm)
    (by decide) (hn (by decide)) (hn (by decide)) hg (by rintro b v ⟨j, rfl⟩; rfl) hx (hr "arr") hi
    (.newObject m₀) ⟨_, rfl⟩ l
  rw [List.foldl_append_eq_append, ← List.flatMap_def, ← List.map_eq_flatMap, List.nil_append] at hj
  exact ⟨j, m', hj ▸ hu⟩

theorem call_reduce (hc : Global c ["arr", "initial", "f"] reduceBody)
    (hf : Global f ["a", "b"] add) (hm : 0 < m.scopes.size) (hu : Unhidden m) {xs : List Int64}
    (hx : xs.length < lengthBound) (n : Nat) (i : ObjectId) (x : Int64) (l : Option Location) :
    ∃ m', Eval.call (n + 7 * xs.length + 11) l (.function c)
      [.array i (ints xs), .int x, .function f] m = .ok (.int (xs.foldl (· + ·) x)) m' := by
  let args : List Value := [.array i (ints xs), .int x, .function f]
  have hr := hc.resolve? hm args
  have hn {x : String} (hx : x ∈ builtins) := hc.unhidden hm hu (by decide) args hx
  let m₀ := ready "result" reduceStep m c args
  have hz : 0 < m₀.scopes.size := Nat.lt_of_lt_of_le hm grows_ready.size
  have hg : Gathers "result" reduceStep m₀ (loopOf "result" reduceStep m c args)
      (fun b v => v = .int b) fun b x => b + x :=
    gathers_reduce hf.params hf.body (hf.known hz) ((resolve?_ready (by decide)).trans (hr "f"))
      ((resolve?_ready (by decide)).trans (hn (by decide)))
  have ha : ∀ v ∈ args, v.isControlFlow = false := by simp [args, Value.isControlFlow]
  have hi : Eval.expr (n + 7 * xs.length + 7) (m.inner c) (named "initial") m₀ = .ok (.int x) m₀ :=
    Eval.expr_ident ((resolve?_ready (by decide)).trans (hr "initial")) .start
  have ⟨u, m', hu, hj⟩ := call_folder hc.body (by rw [hc.params]; rfl) ha (hc.known hm) (by decide)
    (hn (by decide)) (hn (by decide)) hg (by rintro b v rfl; rfl) hx (hr "arr") hi
    (.refl m₀) rfl l
  exact ⟨m', hj ▸ hu⟩

-- What the scope of the session binds.
structure Binds (m : Machine) (ps : Bindings) : Prop where
  size : 0 < m.scopes.size
  bindings : m.bindings 0 = ps

namespace Binds

variable {ps : Bindings} {x : String} (h : Binds m ps)
include h

theorem grow (hm : m.GrowsTo m') : Binds m' ps :=
  ⟨Nat.lt_of_lt_of_le h.size hm.size, (hm.bindings 0 h.size).trans h.bindings⟩

theorem define (hx : Assoc.find? x ps = none) (v : Value) :
    Binds (m.define Session.scope x v) (ps ++ [(x, v)]) where
  size := Nat.lt_of_lt_of_eq h.size (Machine.size_define ..).symm
  bindings := by
    rw [Machine.bindings_define, if_pos ⟨rfl, h.size⟩, h.bindings, Assoc.insert_of_find?_eq_none hx]

theorem resolve? (x : String) : m.resolve? Session.scope x = Assoc.find? x ps := by
  rw [Machine.resolve?_session, h.bindings]

theorem eval {v : Value} (hx : Assoc.find? x ps = some v) (n : Nat) :
    Eval.expr (n + 1) Session.scope (named x) m = .ok v m :=
  Eval.expr_ident ((h.resolve? x).trans hx) .start

theorem unhidden (hp : ∀ x ∈ Assoc.keys ps, x ∉ builtins) : Unhidden m := by
  intro x hx
  rw [h.resolve?]
  refine Assoc.find?_eq_none_iff.mpr fun p hm => beq_eq_false_iff_ne.mpr ?_
  rintro rfl
  exact hp p.1 (List.mem_map_of_mem hm) hx

end Binds

-- The program has other uses for these names.
def taken : List String :=
  builtins ++ ["map", "reduce", "doubled"]

-- The session begins with the numbers as an array of this name.
def holding (name : String) (xs : List Int64) : Machine :=
  Session.start.newObject.2.define Session.scope name (.array 0 (ints xs))

def mapper : Closure :=
  ⟨1, .start, binders ["arr", "f"], mapBody, Session.scope⟩

def reducer : Closure :=
  ⟨2, .start, binders ["arr", "initial", "f"], reduceBody, Session.scope⟩

-- What the session binds once it has the two functions, and once it has the doubles.
def declared (name : String) (xs : List Int64) : Bindings :=
  [(name, .array 0 (ints xs)), ("map", .function mapper), ("reduce", .function reducer)]

def bound (name : String) (xs ys : List Int64) (i : ObjectId) : Bindings :=
  declared name xs ++ [("doubled", .array i (ints ys))]

variable {name : String} {xs ys : List Int64}

-- The functions are bound first.
theorem eval_functions (hn : name ∉ taken) (xs : List Int64) (n : Nat) :
    ∃ m, Evaluator.sequence (Eval.stmt (n + 2) Session.scope) none (program name).statements
        (holding name xs) = Evaluator.sequence (Eval.stmt (n + 2) Session.scope) none
          ((program name).statements.drop 2) m ∧
      Binds m (declared name xs) := by
  have hmap : "map" ≠ name := ne_of_mem_of_not_mem (by decide) hn
  have hreduce : "reduce" ≠ name := ne_of_mem_of_not_mem (by decide) hn
  let m₀ := holding name xs
  let m₁ := m₀.newObject.2.define Session.scope "map" (.function mapper)
  let m₂ := m₁.newObject.2.define Session.scope "reduce" (.function reducer)
  have hb₀ : Binds m₀ [(name, .array 0 (ints xs))] := ⟨Nat.zero_lt_one, rfl⟩
  have hb₁ : Binds m₁ _ := (hb₀.grow (.newObject m₀)).define
    (by simp [Assoc.find?, hmap.symm]) (.function mapper)
  have hb₂ : Binds m₂ _ := (hb₁.grow (.newObject m₁)).define
    (by simp [Assoc.find?, hreduce.symm]) (.function reducer)
  have h₁ : Eval.stmt (n + 2) Session.scope
      (.bind .start ⟨.start, "map"⟩ (.fn .start (binders ["arr", "f"]) mapBody)) m₀ = .ok none m₁ :=
    Eval.stmt_bind (v := .function mapper) rfl rfl .start ⟨.start, "map"⟩
  have h₂ : Eval.stmt (n + 2) Session.scope
      (.bind .start ⟨.start, "reduce"⟩ (.fn .start (binders ["arr", "initial", "f"]) reduceBody))
        m₁ = .ok none m₂ :=
    Eval.stmt_bind (v := .function reducer) rfl rfl .start ⟨.start, "reduce"⟩
  exact ⟨m₂, (Eval.sequence_cons h₁ none _).trans (Eval.sequence_cons h₂ none _), hb₂⟩

-- The first one maps the array.
theorem eval_doubled (hn : name ∉ taken) (hx : xs.length < lengthBound)
    (hb : Binds m (declared name xs)) (n : Nat) :
    ∃ i m', Eval.stmt (n + 7 * xs.length + 13) Session.scope
      (.bind .start ⟨.start, "doubled"⟩
        (calling "map" [named name, .fn .start (binders ["x"]) double])) m = .ok none m' ∧
      Binds m' (bound name xs (xs.map (· * 2)) i) := by
  have hmap : "map" ≠ name := ne_of_mem_of_not_mem (by decide) hn
  have hdoubled : "doubled" ≠ name := ne_of_mem_of_not_mem (by decide) hn
  let doubler : Closure := ⟨m.nextObject, .start, binders ["x"], double, Session.scope⟩
  have hb' := hb.grow (.newObject m)
  have hk : ∀ x ∈ [name, "map", "reduce"], x ∉ builtins :=
    List.forall_mem_cons.mpr ⟨mt (List.mem_append_left _) hn, by decide⟩
  have ⟨i, m', hm⟩ := call_map (c := mapper) (f := doubler) ⟨rfl, rfl, rfl⟩ ⟨rfl, rfl, rfl⟩ hb'.size
    (hb'.unhidden hk) hx n 0 (some .start)
  have hf := hb.eval (x := "map") (v := .function mapper)
    (by simp [declared, Assoc.find?, hmap.symm]) (n + 7 * xs.length + 10)
  have harr := hb.eval (x := name) (v := .array 0 (ints xs)) (by simp [declared, Assoc.find?])
    (n + 7 * xs.length + 10)
  have ha : Eval.Passes (n + 7 * xs.length + 11) Session.scope m
      [named name, .fn .start (binders ["x"]) double] [.array 0 (ints xs), .function doubler]
        m.newObject.2 := .cons harr rfl (.cons rfl rfl .nil)
  have he := (Eval.expr_call hf rfl ha .start).trans hm
  exact ⟨i, _, Eval.stmt_bind he rfl _ _, (hb'.grow (Eval.call_grows hm)).define
    (by simp [declared, Assoc.find?, hdoubled.symm]) _⟩

-- The second one adds up what the first one has left.
theorem eval_sum (hn : name ∉ taken) (hy : ys.length < lengthBound) {i : ObjectId}
    (hb : Binds m (bound name xs ys i)) (n : Nat) :
    ∃ m', Eval.expr (n + 7 * ys.length + 12) Session.scope (calling "reduce"
        [named "doubled", .int .start 0, .fn .start (binders ["a", "b"]) add]) m =
          .ok (.int (ys.foldl (· + ·) 0)) m' ∧ Binds m' (bound name xs ys i) := by
  have hreduce : "reduce" ≠ name := ne_of_mem_of_not_mem (by decide) hn
  have hdoubled : "doubled" ≠ name := ne_of_mem_of_not_mem (by decide) hn
  let adder : Closure := ⟨m.nextObject, .start, binders ["a", "b"], add, Session.scope⟩
  have hb' := hb.grow (.newObject m)
  have hk : ∀ x ∈ [name, "map", "reduce", "doubled"], x ∉ builtins :=
    List.forall_mem_cons.mpr ⟨mt (List.mem_append_left _) hn, by decide⟩
  have ⟨m', hm⟩ := call_reduce (c := reducer) (f := adder) ⟨rfl, rfl, rfl⟩ ⟨rfl, rfl, rfl⟩ hb'.size
    (hb'.unhidden hk) hy n i 0 (some .start)
  have hf := hb.eval (x := "reduce") (v := .function reducer)
    (by simp [bound, declared, Assoc.find?, hreduce.symm]) (n + 7 * ys.length + 10)
  have harr := hb.eval (x := "doubled") (v := .array i (ints ys))
    (by simp [bound, declared, Assoc.find?, hdoubled.symm]) (n + 7 * ys.length + 10)
  have ha : Eval.Passes (n + 7 * ys.length + 11) Session.scope m
      [named "doubled", .int .start 0, .fn .start (binders ["a", "b"]) add]
        [.array i (ints ys), .int 0, .function adder] m.newObject.2 :=
    .cons harr rfl (.cons rfl rfl (.cons rfl rfl .nil))
  have he := (Eval.expr_call hf rfl ha .start).trans hm
  exact ⟨m', he, hb'.grow (Eval.call_grows hm)⟩

theorem eval_program (hn : name ∉ taken) (hx : xs.length < lengthBound) (n : Nat) :
    ∃ i m', (program name).eval (n + 7 * xs.length + 13) Session.scope (holding name xs) =
        .ok (some (.int ((xs.map (· * 2)).foldl (· + ·) 0))) m' ∧
      Binds m' (bound name xs (xs.map (· * 2)) i) := by
  have ⟨m, hm, hb⟩ := eval_functions hn xs (n + 7 * xs.length + 11)
  have ⟨i, m', hm', hb'⟩ := eval_doubled hn hx hb n
  have ⟨m'', hm'', hb''⟩ := eval_sum hn (by simpa using hx) hb' n
  rw [List.length_map] at hm''
  have hs := hm.trans ((Eval.sequence_cons hm' none _).trans
    ((congrFun (Eval.sequence_single ..) m').trans (Eval.stmt_expr hm'')))
  refine ⟨i, m'', ?_, hb''⟩
  rw [Program.eval, hs]
  rfl

/-!
What the numbers come to, and what a text that is read as the program does.
-/

theorem toInt_double (x : Int64) : (x * 2).toInt = wrapped (2 * x.toInt) := by
  rw [wrapped_eq_bmod, Int64.toInt_mul, Int.mul_comm]
  rfl

-- Adding up in 64 bits is adding up at once and reducing the sum.
theorem toInt_foldl_double (xs : List Int64) (b : Int64) :
    ((xs.map (· * 2)).foldl (· + ·) b).toInt =
      wrapped (b.toInt + (xs.map fun x => 2 * x.toInt).foldr (· + ·) 0) := by
  induction xs generalizing b
  case nil => simp [wrapped_eq_bmod]
  case cons x xs hi =>
    simp only [List.map_cons, List.foldl_cons, hi, List.foldr_cons, wrapped_eq_bmod,
      Int64.toInt_add, toInt_double]
    simp [Int.add_assoc]

variable {v : Value} {g : Location → Location}

-- Numbers have no places in them.
theorem eq_of_relocate_int {x : Int64} (h : v.relocate g = .int x) : v = .int x := by
  cases v <;> first | exact h | nomatch h

theorem relocate_ints (g : Location → Location) (i : ObjectId) (xs : List Int64) :
    (Value.array i (ints xs)).relocate g = .array i (ints xs) := by
  simp [Value.relocate, ints]

theorem eq_of_relocate_array {i : ObjectId} (h : v.relocate g = .array i (ints xs)) :
    v = .array i (ints xs) := by
  cases v
  case array j vs =>
    simp only [Value.relocate, Value.relocateAll_eq_map, Value.array.injEq] at h
    obtain ⟨rfl, h⟩ := h
    congr
    induction xs generalizing vs
    case nil => exact List.map_eq_nil_iff.mp h
    case cons x xs hi =>
      obtain ⟨v, vs, rfl, hv, hvs⟩ := List.map_eq_cons_iff.mp h
      rw [eq_of_relocate_int hv, hi vs hvs]
      rfl
  all_goals nomatch h

theorem resolve?_of_relocate {i : ObjectId} {x : String} (hm : m.relocate g = m'.relocate g)
    (h : m.resolve? s x = some (.array i (ints xs))) :
    m'.resolve? s x = some (.array i (ints xs)) := by
  have hr := congrArg (·.resolve? s x) hm
  simp only [Machine.resolve?_relocate, h] at hr
  obtain ⟨v, hv, hr⟩ := Option.map_eq_some_iff.mp hr.symm
  rw [hv, eq_of_relocate_array (hr.trans (relocate_ints g i xs))]

theorem names_of_relocate (hm : m.relocate g = m'.relocate g) (s : Scope) :
    m'.names s = m.names s := by
  have hb := congrArg (fun m => Assoc.keys (m.bindings s.id)) hm
  simpa [Machine.names, Machine.bindings_relocate, Assoc.keys, Function.comp_def] using hb.symm

-- The program uses the names that are taken, whatever it is used with.
theorem taken_occur (x : String) (hx : x ∈ taken) :
    Lexeme.ident x ∈ lexemes (source "[1, 2, 3, 4]").toList := by
  rw [toList_source, lexemes_functions]
  revert x
  decide +kernel

theorem relocate_program (name : String) : (program name).relocate nowhere = program name :=
  rfl

-- A program that is the same but for places comes to the same number, and leaves the same machine
-- but for places, under every limit that it does not meet.
theorem eval_of_relocate {p : Program} (hp : p.relocate nowhere = program name) (hn : name ∉ taken)
    (hx : xs.length < lengthBound) {frames : Nat}
    (hf : 7 * xs.length + 13 ≤ frames ∨ ¬p.Overflows frames Session.scope (holding name xs)) :
    ∃ i m m', p.eval frames Session.scope (holding name xs) =
        .ok (some (.int ((xs.map (· * 2)).foldl (· + ·) 0))) m' ∧
      Binds m (bound name xs (xs.map (· * 2)) i) ∧ m.relocate nowhere = m'.relocate nowhere := by
  obtain ⟨n, hk⟩ : ∃ n, p.eval (n + 7 * xs.length + 13) Session.scope (holding name xs) =
      p.eval frames Session.scope (holding name xs) := by
    cases hf
    case inl hf =>
      obtain ⟨n, rfl⟩ := Nat.exists_eq_add_of_le' hf
      exact ⟨n, rfl⟩
    case inr hf => exact ⟨frames, Program.eval_of_le (by omega) hf⟩
  have ⟨i, m, he, hb⟩ := eval_program hn hx n
  have ⟨r, m', he', hr, hm⟩ := Program.eval_congr ((relocate_program name).trans hp.symm) rfl he
  obtain ⟨v, rfl, hv⟩ := Option.map_eq_some_iff.mp hr.symm
  obtain rfl := eq_of_relocate_int hv
  exact ⟨i, m, m', hk.symm.trans he', hb, hm⟩

end MapReduce

open MapReduce

-- For every list of numbers, if its length can be told at all, and every name that the program does
-- not use: with the name in place of its array the program comes to the sum of the doubles of the
-- numbers. It leaves the doubles bound beside the numbers, and these as they were. The limit is not
-- met if it leaves seven frames for each number.
theorem evalSource_mapReduce {frames : Nat} {name : String} {xs : List Int64}
    (hs : (Lexeme.ident name).Spelled)
    (hn : Lexeme.ident name ∉ lexemes (source "[1, 2, 3, 4]").toList) (hx : xs.length < lengthBound)
    (hp : 26 ≤ frames ∨ ¬(parse frames (source name)).Overflows)
    (hf : 7 * xs.length + 13 ≤ frames ∨
      ¬(parse frames (source name)).program.Overflows frames Session.scope (holding name xs)) :
    ∃ sum i ys m', evalSource frames Session.scope (source name) (holding name xs) =
        .ok (.ok (some (.int sum))) m' ∧
      sum.toInt = wrapped ((xs.map fun x => 2 * x.toInt).foldr (· + ·) 0) ∧
      m'.resolve? Session.scope "doubled" = some (.array i (ints ys)) ∧
      ys.map (·.toInt) = xs.map (fun x => wrapped (2 * x.toInt)) ∧
      m'.resolve? Session.scope name = some (.array 0 (ints xs)) ∧
      m'.names Session.scope = [name, "map", "reduce", "doubled"] := by
  have ht : name ∉ taken := mt (taken_occur name) hn
  have hd : "doubled" ≠ name := ne_of_mem_of_not_mem (by decide) ht
  have ⟨he, hr⟩ := parse_mapReduce hs hp
  have ⟨i, m, m', hm, hb, hl⟩ := eval_of_relocate hr ht hx hf
  refine ⟨(xs.map (· * 2)).foldl (· + ·) 0, i, xs.map (· * 2), m', ?eval, ?sum, ?doubled, ?doubles,
    ?kept, ?names⟩
  case eval =>
    simp only [evalSource, he]
    exact Eval.bind_of_ok hm
  case sum => simpa using toInt_foldl_double xs 0
  case doubled =>
    exact resolve?_of_relocate hl ((hb.resolve? "doubled").trans (by
      simp [bound, declared, Assoc.find?, hd.symm]))
  case doubles =>
    rw [List.map_map]
    exact List.map_congr_left fun x _ => toInt_double x
  case kept =>
    exact resolve?_of_relocate hl ((hb.resolve? name).trans (by
      simp [bound, declared, Assoc.find?]))
  case names =>
    rw [names_of_relocate hl]
    exact congrArg Assoc.keys hb.bindings

-- Both the doubles and their sum leave the range of 64 bits.
theorem evalSource_mapReduce_overflow :
    let name := "numbers"
    let xs : List Int64 := [0x4000000000000000, -3]
    (Lexeme.ident name).Spelled ∧
      Lexeme.ident name ∉ lexemes (source "[1, 2, 3, 4]").toList ∧ xs.length < lengthBound ∧
      26 ≤ defaultFrames ∧ 7 * xs.length + 13 ≤ defaultFrames ∧
      ∃ sum i ys m', evalSource defaultFrames Session.scope (source name) (holding name xs) =
          .ok (.ok (some (.int sum))) m' ∧
        sum.toInt = 0x7ffffffffffffffa ∧
        m'.resolve? Session.scope "doubled" = some (.array i (ints ys)) ∧
        ys.map (·.toInt) = [-0x8000000000000000, -6] ∧
        m'.resolve? Session.scope name = some (.array 0 (ints xs)) ∧
        m'.names Session.scope = [name, "map", "reduce", "doubled"] := by
  intro name xs
  have hs : (Lexeme.ident name).Spelled := by decide +kernel
  have hn : Lexeme.ident name ∉ lexemes (source "[1, 2, 3, 4]").toList := by
    rw [toList_source, lexemes_functions]
    decide +kernel
  have hx : xs.length < lengthBound := by decide
  have hp : 26 ≤ defaultFrames := by decide
  have hf : 7 * xs.length + 13 ≤ defaultFrames := by decide
  have ⟨sum, i, ys, m', he, hsum, hd, hys, hk⟩ := evalSource_mapReduce hs hn hx (.inl hp) (.inl hf)
  have hw : wrapped ((xs.map fun x => 2 * x.toInt).foldr (· + ·) 0) = 0x7ffffffffffffffa := by
    decide +kernel
  have hws : xs.map (fun x => wrapped (2 * x.toInt)) = [-0x8000000000000000, -6] := by
    decide +kernel
  exact ⟨hs, hn, hx, hp, hf, sum, i, ys, m', he, hsum.trans hw, hd, hys.trans hws, hk⟩

end Marmoset
