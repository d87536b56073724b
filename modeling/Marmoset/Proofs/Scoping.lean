import Marmoset.Proofs.Footprint

/-!
Scoping. A task binds names in its own scope and in the scopes that it makes (`eval_writes`), and
what it comes to depends on nothing but the scopes that can be reached from it (`eval_lexical`).
-/

namespace Marmoset

-- If the scope is one of the first `count`, the scopes around it are those that `outer` says.
def Scope.LinkedBy (outer : ScopeId → List ScopeId) (count : Nat) (s : Scope) : Prop :=
  s.id < count → s.outer = outer s.id

-- All scopes that the values in the machine hold are linked as `outer` says.
def Machine.LinkedBy (outer : ScopeId → List ScopeId) (count : Nat) (m : Machine) : Prop :=
  ∀ i, ∀ p ∈ m.bindings i, p.2.Holds (Scope.LinkedBy outer count)

-- The scopes that can be reached from a task: through the scopes around a scope, and through the
-- functions that are bound in it.
inductive Machine.Reachable (m : Machine) (t : Task) : ScopeId → Prop
  | root : t.Refers s → i ∈ s.chain → m.Reachable t i
  | captured : m.Reachable t i → p ∈ m.bindings i → p.2.Captures s → j ∈ s.chain → m.Reachable t j

-- Two machines with the same scopes, in which what can be reached from the task is bound alike.
-- They may differ in all else; only what is made next is numbered alike.
structure Machine.SameFor (t : Task) (m m' : Machine) : Prop where
  scopes : m'.scopes.size = m.scopes.size
  objects : m'.nextObject = m.nextObject
  errors : m'.diagnostics.size = m.diagnostics.size
  bindings : ∀ i, m.Reachable t i → m'.bindings i = m.bindings i

-- What a computation comes to, apart from the machine.
def Result.answer : Result α → Except Abort α
  | .ok a _ => .ok a
  | .error e _ => .error e

namespace Result.Alike

variable {F : Footprint} {Q : α → Prop} {r r' : Result α}

theorem machine (h : Alike F Q r r') : F.Alike (Result.machine r) (Result.machine r') := by
  cases h <;> assumption

theorem answer (h : Alike F Q r r') : Result.answer r' = Result.answer r := by
  cases h <;> rfl

theorem holds (h : Alike F Q r r') : ∀ a m, r = .ok a m → Q a := by
  rintro a m rfl
  cases h
  assumption

end Result.Alike

theorem Machine.bindings_of_size_le {m : Machine} {i : ScopeId} (h : m.scopes.size ≤ i) :
    m.bindings i = [] := by
  simp [bindings, Array.getElem?_eq_none h]

namespace Footprint

-- What a task may bind if it may come by all scopes with the property.
def writing (t : Task) (m : Machine) (P : Scope → Prop)
    (h : ∀ (s : Scope) i, m.scopes.size ≤ i → P ⟨i, s.chain⟩) : Footprint where
  first := m
  second := m
  Known := P
  Written i := t.home? = some i ∨ m.scopes.size ≤ i
  known_new {s i} _ hi := h s i hi
  written_new := .inr

theorem writing_alike {t : Task} {m : Machine} {P : Scope → Prop}
    {h : ∀ (s : Scope) i, m.scopes.size ≤ i → P ⟨i, s.chain⟩}
    (hm : ∀ i, ∀ p ∈ m.bindings i, p.2.Holds P) :
    (writing t m P h).Alike m m where
  scopes := rfl
  objects := rfl
  errors := rfl
  grown := Nat.le_refl _
  bindings _ _ i _ := ⟨rfl, hm i⟩
  kept _ _ := ⟨rfl, rfl⟩
  names _ := List.prefix_rfl
  diagnostics _ _ := rfl
  printed := ⟨#[], Array.append_empty.symm, Array.append_empty.symm⟩

-- What a task may come by: all that can be reached from it and all that is new.
def reaching (t : Task) (m m' : Machine) : Footprint where
  first := m
  second := m'
  Known s := ∀ i ∈ s.chain, m.Reachable t i ∨ m.scopes.size ≤ i
  Written i := m.Reachable t i ∨ m.scopes.size ≤ i
  known_new hs hi := List.forall_mem_cons.mpr ⟨.inr hi, hs⟩
  written_new := .inr

theorem reaching_alike {t : Task} {m m' : Machine} (h : m.SameFor t m') :
    (reaching t m m').Alike m m' where
  scopes := h.scopes
  objects := h.objects
  errors := h.errors
  grown := Nat.le_refl _
  bindings := by
    intro s hs i hi
    cases hs i hi
    case inl hr =>
      exact ⟨h.bindings i hr, fun p hp s hc j hj => .inl (.captured hr hp hc hj)⟩
    case inr hn =>
      have hn' : m'.scopes.size ≤ i := h.scopes ▸ hn
      rw [Machine.bindings_of_size_le hn, Machine.bindings_of_size_le hn']
      exact ⟨rfl, by simp⟩
  kept _ _ := ⟨rfl, rfl⟩
  names _ := List.prefix_rfl
  diagnostics _ hj := hj
  printed := ⟨#[], Array.append_empty.symm, Array.append_empty.symm⟩

end Footprint

namespace Task

-- However a task ends, all scopes that existed are bound as before, except that of the task, in
-- which no name is lost. The scopes around those that existed stay the same.
theorem eval_writes (frames : Nat) (t : Task) (m : Machine) :
    let r := t.eval frames m
    let m' := Result.machine r
    (∀ i < m.scopes.size, t.home? ≠ some i → m'.bindings i = m.bindings i) ∧
    (∀ i, Assoc.keys (m.bindings i) <+: Assoc.keys (m'.bindings i)) ∧
    m.scopes.size ≤ m'.scopes.size ∧
    ∀ outer, m.LinkedBy outer m.scopes.size →
      (∀ s, t.Refers s → s.LinkedBy outer m.scopes.size) →
        m'.LinkedBy outer m.scopes.size ∧
          ∀ v m'', r = .ok (some v) m'' → v.Holds (Scope.LinkedBy outer m.scopes.size) := by
  have writes {P : Scope → Prop} (h : ∀ (s : Scope) i, m.scopes.size ≤ i → P ⟨i, s.chain⟩)
      (hm : ∀ i, ∀ p ∈ m.bindings i, p.2.Holds P) (hs : ∀ s, t.Refers s → P s) :
      Result.Alike (Footprint.writing t m P h) _ (t.eval frames m) (t.eval frames m) :=
    t.eval_keeps (F := Footprint.writing t m P h) frames hs (fun _ => Or.inl) m m
      (Footprint.writing_alike hm)
  have hw := (writes (P := fun _ => True) (fun _ _ _ => trivial) (fun _ _ _ _ _ => trivial)
    fun _ _ => trivial).machine
  refine ⟨fun i hi hh => ?_, hw.names, hw.grown, fun outer hm hs => ?_⟩
  case refine_1 =>
    refine (hw.kept i fun hw => ?_).left
    exact hw.elim hh (Nat.not_le_of_lt hi)
  case refine_2 =>
    have hl := writes (fun _ i hi hl => absurd hi (Nat.not_le_of_lt hl)) hm hs
    refine ⟨fun i => ?_, fun v m' hr => hl.holds _ m' hr v rfl⟩
    exact (hl.machine.bindings ⟨i, outer i⟩ (fun _ => rfl) i List.mem_cons_self).right

-- A function that binds `n` anew, made in the scope in which `n` is bound.
def shadowing : Closure where
  id := 0
  location := .start
  params := [⟨.start, "x"⟩]
  body := .mk .start [.bind .start ⟨.start, "n"⟩ (.ident .start "x"), .expr (.ident .start "n")]
  scope := ⟨0, []⟩

def shadowed : Machine :=
  ⟨#[[("n", .int 1), ("f", .function shadowing)]], 1, #[], #[]⟩

theorem holds_shadowed {P : Scope → Prop} (h : P ⟨0, []⟩) :
    ∀ i, ∀ p ∈ shadowed.bindings i, p.2.Holds P := by
  intro i p hp
  cases i
  case zero =>
    obtain rfl | hp := List.mem_cons.mp hp
    · exact .int 1
    · cases List.mem_singleton.mp hp
      exact .function h
  case succ => simp [shadowed, Machine.bindings] at hp

theorem eval_writes_shadowed :
    let r := (call none (.function shadowing) [.int 2]).eval defaultFrames shadowed
    let m' := Result.machine r
    (Result.answer r).toOption.join.map (·.display) = some "2" ∧
    m'.bindings 0 = shadowed.bindings 0 ∧ m'.names ⟨1, [0]⟩ = ["x", "n"] ∧
    m'.LinkedBy (fun _ => []) 1 := by
  have hm : shadowed.LinkedBy (fun _ => []) 1 := holds_shadowed fun _ => rfl
  have hs (s : Scope) (h : (call none (.function shadowing) [.int 2]).Refers s) :
      s.LinkedBy (fun _ => []) 1 := by
    rintro -
    obtain hc | ⟨v, hv, hc⟩ := h
    · cases hc
      case function hf => exact hf ▸ rfl
    · cases List.mem_singleton.mp hv
      cases hc
  have ⟨hw, _, _, hl⟩ :=
    eval_writes defaultFrames (call none (.function shadowing) [.int 2]) shadowed
  exact ⟨by decide +kernel, hw 0 (by decide) nofun, by decide +kernel, (hl _ hm hs).left⟩

-- Two runs of a task from machines in which all that can be reached from it is bound alike come to
-- the same, print the same and learn the same of errors. Then all that could be reached and all
-- that is new is still bound alike, and what could not be reached has not been touched.
theorem eval_lexical (frames : Nat) (t : Task) {m m' : Machine} (h : m.SameFor t m') :
    let r := t.eval frames m
    let r' := t.eval frames m'
    let n := Result.machine r
    let n' := Result.machine r'
    Result.answer r' = Result.answer r ∧
    (∃ vs, n.printed = m.printed ++ vs ∧ n'.printed = m'.printed ++ vs) ∧
    (∀ j, m'.diagnostic j = m.diagnostic j → n'.diagnostic j = n.diagnostic j) ∧
    n'.scopes.size = n.scopes.size ∧
    (∀ i, m.Reachable t i ∨ m.scopes.size ≤ i → n'.bindings i = n.bindings i) ∧
    ∀ i < m.scopes.size, ¬m.Reachable t i →
      n.bindings i = m.bindings i ∧ n'.bindings i = m'.bindings i := by
  have hs (s : Scope) (hr : t.Refers s) : (Footprint.reaching t m m').Known s :=
    fun i hi => .inl (.root hr hi)
  have hw : ∀ i ∈ t.home?, (Footprint.reaching t m m').Written i := by
    intro i hi
    cases t
    case call => cases hi
    all_goals
      cases hi
      exact .inl (.root rfl List.mem_cons_self)
  have ha := t.eval_keeps frames hs hw m m' (Footprint.reaching_alike h)
  have hn := ha.machine
  refine ⟨ha.answer, hn.printed, hn.diagnostics, hn.scopes, fun i hi => ?_, fun i hi hr => ?_⟩
  case refine_1 =>
    have hk : (Footprint.reaching t m m').Known ⟨i, []⟩ := by simpa [Footprint.reaching] using hi
    exact (hn.bindings _ hk i List.mem_cons_self).left
  case refine_2 => exact hn.kept i fun hw => hw.elim hr (Nat.not_le_of_lt hi)

-- A function that adds the `base` of the scope in which it was made.
def adding : Closure where
  id := 0
  location := .start
  params := [⟨.start, "x"⟩]
  body := .mk .start [.expr (.infixOp .start .add (.ident .start "base") (.ident .start "x"))]
  scope := ⟨0, []⟩

-- The second scope, from which the function may be called, has a `base` of its own.
def calling (base : Value) : Machine :=
  ⟨#[[("base", .int 10)], [("base", base), ("f", .function adding)]], 1, #[], #[]⟩

theorem eval_lexical_calling :
    let t := call none (.function adding) [.int 2]
    let r := t.eval defaultFrames (calling (.int 1))
    let r' := t.eval defaultFrames (calling (.string "one"))
    (Result.answer r).toOption.join.map (·.display) = some "12" ∧
    (Result.answer r').toOption.join.map (·.display) = some "12" ∧
    (Result.machine r').bindings 2 = (Result.machine r).bindings 2 ∧
    (Result.machine r').bindings 1 = (calling (.string "one")).bindings 1 := by
  intro t r r'
  have hr (i : ScopeId) (h : (calling (.int 1)).Reachable t i) : i = 0 := by
    induction h
    case root hs hi =>
      obtain hc | ⟨v, hv, hc⟩ := hs
      · cases hc
        case function hf =>
          subst hf
          exact List.mem_singleton.mp hi
      · cases List.mem_singleton.mp hv
        cases hc
    case captured hp hc _ hi =>
      subst hi
      cases List.mem_singleton.mp hp
      cases hc
  have hs : (calling (.int 1)).SameFor t (calling (.string "one")) :=
    ⟨rfl, rfl, rfl, fun i h => by rw [hr i h]; rfl⟩
  have ⟨ha, _, _, _, hb, hk⟩ := eval_lexical defaultFrames t hs
  have hr' : (Result.answer r).toOption.join.map (·.display) = some "12" := by decide +kernel
  refine ⟨hr', ?_, hb 2 (.inr (by decide)), (hk 1 (by decide) fun h => ?_).right⟩
  · exact (congrArg (fun a => a.toOption.join.map (·.display)) ha).trans hr'
  exact absurd (hr 1 h) (by decide)

end Task

end Marmoset
