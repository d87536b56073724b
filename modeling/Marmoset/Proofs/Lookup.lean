import Marmoset.Machine.Eval

/-!
Scopes as a history. Whatever scopes have been made and whatever has been bound in them, in any order,
a name has the value that it was last given in the nearest scope that ever gave it one
(`resolve?_nearest_latest`). The links between scopes lead to older ones, so the walk outward ends.
-/

namespace Marmoset

theorem findSome?_eq_some_iff_getElem? {f : α → Option β} {l : List α} {b : β} :
    l.findSome? f = some b ↔
      ∃ (k : Nat) (a : α),
        l[k]? = some a ∧ (∀ j < k, ∀ u, l[j]? = some u → f u = none) ∧ f a = some b := by
  rw [List.findSome?_eq_some_iff]
  constructor
  case mp =>
    rintro ⟨before, a, later, rfl, ha, hn⟩
    refine ⟨before.length, a, by simp, fun j hj u hu => ?_, ha⟩
    rw [List.getElem?_append_left hj] at hu
    exact hn u (List.mem_of_getElem? hu)
  case mpr =>
    intro ⟨k, a, hk, hn, ha⟩
    obtain ⟨hl, rfl⟩ := List.getElem?_eq_some_iff.mp hk
    refine ⟨l.take k, l[k], l.drop (k + 1), ?_, ha, fun u hu => ?_⟩
    · rw [← List.drop_eq_getElem_cons hl, List.take_append_drop]
    · obtain ⟨j, hj, rfl⟩ := List.mem_take_iff_getElem.mp hu
      exact hn j (by omega) _ (List.getElem?_eq_getElem _)

-- What has been done to scopes, of which there are `n`, numbered from zero. A scope for a call is
-- made inside the one that the function was made in.
inductive History : Nat → Type
  | empty : History 0
  | create (h : History n) (outer : Option (Fin n)) : History (n + 1)
  | define (h : History n) (s : Fin n) (name : String) (v : Value) : History n

namespace History

-- The scopes made so far and the machine that keeps what they bind.
structure State (n : Nat) where
  scopes : Vector Scope n
  machine : Machine

-- Does it all. A binding that is not accepted has no effect.
def run : History n → State n
  | empty => ⟨#v[], .empty⟩
  | create h outer =>
    let (s, m) := h.run.machine.newScope (outer.map (h.run.scopes[·]))
    ⟨h.run.scopes.push s, m⟩
  | define h s x v => ⟨h.run.scopes, Result.machine (Eval.define h.run.scopes[s] x v h.run.machine)⟩

-- The value of the name in the scope, as the machine finds it.
def resolve? (h : History n) (s : Fin n) (x : String) : Option Value :=
  h.run.machine.resolve? h.run.scopes[s] x

-- The scope that this one was made in.
def outer? : History n → Nat → Option Nat
  | empty, _ => none
  | create (n := n) h outer, i => if i = n then outer.map (·.val) else h.outer? i
  | define h .., i => h.outer? i

-- What was last accepted for the name in the scope itself.
def latest? : History n → Nat → String → Option Value
  | empty, _, _ => none
  | create h _, i, x => h.latest? i x
  | define h s y v, i, x =>
    if i = s ∧ y = x ∧ v.isControlFlow = false then some v else h.latest? i x

-- `t` is reached from `i` by `k` steps outward.
inductive Around (h : History n) : Nat → Nat → Nat → Prop
  | self : h.Around i 0 i
  | outward : h.outer? i = some o → h.Around o k t → h.Around i (k + 1) t

-- `t` is `k` steps outward from `i`, and no scope nearer than that ever gave the name a value.
structure Nearest (h : History n) (i : Nat) (x : String) (k : Nat) (t : Nat) : Prop where
  around : h.Around i k t
  nearer : ∀ j < k, ∀ u, h.Around i j u → h.latest? u x = none

section

variable {h : History n} {i k o t : Nat}

theorem outer?_lt (ho : h.outer? i = some o) : o < i ∧ i < n := by
  induction h
  case empty => contradiction
  case create n h outer hi =>
    simp only [outer?] at ho
    split at ho
    case isTrue e =>
      obtain ⟨p, -, rfl⟩ := Option.map_eq_some_iff.mp ho
      omega
    case isFalse => exact ⟨(hi ho).1, Nat.lt_succ_of_lt (hi ho).2⟩
  case define h _ _ _ hi => exact hi ho

theorem Around.le (ha : h.Around i k t) : t + k ≤ i := by
  induction ha
  case self => exact Nat.le_refl _
  case outward ho _ hi =>
    have := (outer?_lt ho).1
    omega

-- Of two scopes around a third, the one further out is around the other.
theorem Around.between {j : Nat} {u : Nat} (hu : h.Around i j u) (ht : h.Around i k t)
    (hj : j ≤ k) : h.Around u (k - j) t := by
  induction hu generalizing k
  case self => exact ht
  case outward ho _ hi =>
    cases ht
    case self => omega
    case outward ho' ht =>
      rw [ho, Option.some.injEq] at ho'
      subst ho'
      rw [Nat.add_sub_add_right]
      exact hi ht (Nat.le_of_succ_le_succ hj)

-- Bindings do not move scopes.
theorem around_define {s : Fin n} {y : String} {v : Value} :
    (h.define s y v).Around i k t ↔ h.Around i k t := by
  constructor
  case mp =>
    intro ha
    induction ha
    case self => exact .self
    case outward ho _ hi => exact .outward ho hi
  case mpr =>
    intro ha
    induction ha
    case self => exact .self
    case outward ho _ hi => exact .outward ho hi

-- From each scope the walk outward ends.
theorem exists_around_outermost (h : History n) (i : Nat) :
    ∃ k t, h.Around i k t ∧ h.outer? t = none := by
  induction i using Nat.strongRecOn
  case ind i hi =>
    cases ho : h.outer? i
    case none => exact ⟨0, i, .self, ho⟩
    case some o =>
      have ⟨k, t, ha, ht⟩ := hi o (outer?_lt ho).1
      exact ⟨k + 1, t, .outward ho ha, ht⟩

end

-- The state is what the history says.
structure Tracks (h : History n) (st : State n) : Prop where
  size : st.machine.scopes.size = n
  id : ∀ i (hi : i < n), st.scopes[i].id = i
  outer : ∀ i (hi : i < n), (h.outer? i = none ∧ st.scopes[i].outer = []) ∨
    ∃ o, ∃ ho : o < n, h.outer? i = some o ∧ st.scopes[i].outer = o :: st.scopes[o].outer
  bindings : ∀ i x, Assoc.find? x (st.machine.bindings i) = h.latest? i x

namespace Tracks

variable {h : History n} {st : State n}

theorem create (ht : h.Tracks st) (outer : Option (Fin n)) :
    (h.create outer).Tracks ⟨st.scopes.push (st.machine.newScope (outer.map (st.scopes[·]))).1,
      (st.machine.newScope (outer.map (st.scopes[·]))).2⟩ where
  size := by simp [Machine.newScope, ht.size]
  id i hi := by
    rw [Vector.getElem_push]
    split
    case isTrue h => exact ht.id i h
    case isFalse h =>
      exact ht.size.trans (Nat.le_antisymm (Nat.not_lt.mp h) (Nat.le_of_lt_succ hi))
  outer i hi := by
    by_cases h' : i < n
    case pos =>
      rw [outer?, if_neg (Nat.ne_of_lt h'), Vector.getElem_push_lt h']
      refine (ht.outer i h').imp_right ?_
      rintro ⟨o, ho, he, hs⟩
      refine ⟨o, Nat.lt_succ_of_lt ho, he, ?_⟩
      rwa [Vector.getElem_push_lt ho]
    case neg =>
      obtain rfl : i = n := by omega
      rw [outer?, if_pos rfl, Vector.getElem_push_eq]
      cases outer
      case none => exact .inl ⟨rfl, rfl⟩
      case some o =>
        refine .inr ⟨o, Nat.lt_succ_of_lt o.isLt, rfl, ?_⟩
        rw [Vector.getElem_push_lt o.isLt]
        exact congrArg (· :: _) (ht.id o o.isLt)
  bindings i x := by rw [Machine.bindings_newScope, latest?, ht.bindings]

theorem define (ht : h.Tracks st) (s : Fin n) (y : String) (v : Value) :
    (h.define s y v).Tracks
      ⟨st.scopes, Result.machine (Eval.define st.scopes[s] y v st.machine)⟩ where
  size := by
    unfold Eval.define
    split <;> simp [Result.machine, Machine.define, ht.size]
  id := ht.id
  outer := ht.outer
  bindings i x := by
    unfold Eval.define
    split
    case isTrue hv => simp [latest?, Result.machine, hv, ht.bindings]
    case isFalse hv =>
      simp only [Bool.not_eq_true] at hv
      have hs : st.scopes[s].id = s := ht.id s s.isLt
      have hl : s.val < st.machine.scopes.size := ht.size.symm ▸ s.isLt
      simp only [latest?, Result.machine, Machine.bindings_define, hs, hv, and_true]
      by_cases hi : i = s
      case neg => simp [hi, ht.bindings]
      case pos =>
        subst hi
        simp only [hl, and_self, if_true, Assoc.find?_insert, beq_iff_eq, ht.bindings, true_and]

-- The scope holds what is around it, from the inside out.
theorem getElem?_chain (ht : h.Tracks st) {i : Nat} (hi : i < n) (k : Nat) (t : Nat) :
    (st.scopes[i].id :: st.scopes[i].outer)[k]? = some t ↔ h.Around i k t := by
  induction k generalizing i
  case zero =>
    simp only [List.getElem?_cons_zero, Option.some.injEq, ht.id]
    exact ⟨fun e => e ▸ .self, fun ha => by cases ha; rfl⟩
  case succ k hk =>
    rw [List.getElem?_cons_succ]
    rcases ht.outer i hi with ⟨ho, hs⟩ | ⟨o, hl, ho, hs⟩
    case inl =>
      rw [hs]
      exact ⟨nofun, fun ha => by cases ha; simp_all⟩
    case inr =>
      have hn := ht.id o hl ▸ hk hl
      rw [hs, hn]
      exact ⟨.outward ho, fun ha => by cases ha; simp_all⟩

theorem resolve?_eq_some_iff (ht : h.Tracks st) {i : Nat} (hi : i < n) {x : String} {v : Value} :
    st.machine.resolve? st.scopes[i] x = some v ↔
      ∃ k t, h.Nearest i x k t ∧ h.latest? t x = some v := by
  simp only [Machine.resolve?, findSome?_eq_some_iff_getElem?, ht.getElem?_chain hi, ht.bindings]
  constructor
  case mp =>
    rintro ⟨k, t, ha, hn, hv⟩
    exact ⟨k, t, ⟨ha, hn⟩, hv⟩
  case mpr =>
    rintro ⟨k, t, ⟨ha, hn⟩, hv⟩
    exact ⟨k, t, ha, hn, hv⟩

theorem resolve?_eq_none_iff (ht : h.Tracks st) {i : Nat} (hi : i < n) {x : String} :
    st.machine.resolve? st.scopes[i] x = none ↔ ∀ k t, h.Around i k t → h.latest? t x = none := by
  simp only [Machine.resolve?, List.findSome?_eq_none_iff, ht.bindings, List.mem_iff_getElem?,
    forall_exists_index, ht.getElem?_chain hi]
  exact forall_comm

end Tracks

theorem tracks_run (h : History n) : h.Tracks h.run := by
  induction h
  case empty => exact ⟨rfl, nofun, nofun, fun _ _ => rfl⟩
  case create outer hi => exact hi.create outer
  case define s y v hi => exact hi.define s y v

section

variable {h : History n} {s c : Fin n} {x y : String} {v : Value}

theorem resolve?_eq_some_iff : h.resolve? s x = some v ↔
    ∃ k t, h.Nearest s x k t ∧ h.latest? t x = some v :=
  h.tracks_run.resolve?_eq_some_iff s.isLt

theorem resolve?_eq_none_iff : h.resolve? s x = none ↔
    ∀ k t, h.Around s k t → h.latest? t x = none :=
  h.tracks_run.resolve?_eq_none_iff s.isLt

-- A binding in the nearest scope that knows the name, or in one nearer than that, counts.
theorem resolve?_define_of_nearest {k : Nat} (ho : h.Nearest s x k c)
    (hv : v.isControlFlow = false) : (h.define c x v).resolve? s x = some v := by
  refine resolve?_eq_some_iff.mpr ⟨k, c, ⟨around_define.mpr ho.around, fun j hj u hu => ?_⟩, ?_⟩
  case refine_1 =>
    have ha := around_define.mp hu
    have hl := (ha.between ho.around (Nat.le_of_lt hj)).le
    have hn : u ≠ c := by omega
    simp [latest?, hn, ho.nearer j hj u ha]
  case refine_2 => simp [latest?, hv]

-- A binding in a scope that is not around this one is not seen from here.
theorem resolve?_define_of_not_around (hc : ∀ k, ¬h.Around s k c) :
    (h.define c y v).resolve? s x = h.resolve? s x := by
  have hl (k t : Nat) (ha : h.Around s k t) :
      (h.define c y v).latest? t x = h.latest? t x := by
    have hn : t ≠ c := fun e => hc k (e ▸ ha)
    simp [latest?, hn]
  cases hr : h.resolve? s x
  case none =>
    have hn := resolve?_eq_none_iff.mp hr
    refine resolve?_eq_none_iff.mpr fun k t ha => ?_
    have ha := around_define.mp ha
    rw [hl k t ha, hn k t ha]
  case some w =>
    have ⟨k, t, ht, hw⟩ := resolve?_eq_some_iff.mp hr
    refine resolve?_eq_some_iff.mpr ⟨k, t, ⟨around_define.mpr ht.around, fun j hj u hu => ?_⟩, ?_⟩
    · have ha := around_define.mp hu
      rw [hl j u ha, ht.nearer j hj u ha]
    · rw [hl k t ht.around, hw]

theorem not_around_of_inside {k : Nat} (hs : h.Around c (k + 1) s) (j : Nat) : ¬h.Around s j c := by
  intro ha
  have := hs.le
  have := ha.le
  omega

theorem not_around_of_sibling (hn : s ≠ c) (ho : h.outer? s = h.outer? c) (j : Nat) :
    ¬h.Around s j c := by
  intro ha
  generalize hc : c.val = t at ha ho
  cases ha
  case self => exact hn (Fin.ext hc.symm)
  case outward hs ha =>
    have := (outer?_lt (ho.symm.trans hs)).1
    have := ha.le
    omega

theorem run_define_of_isControlFlow (hv : v.isControlFlow) : (h.define c y v).run = h.run := by
  simp [run, Eval.define, hv, Result.machine]

end

-- From each scope there is a way outward that ends. The value that is found is the last one
-- accepted in the nearest scope on this way that ever had one. So a scope sees what is bound later in
-- a scope around it, but nothing that is bound in a scope inside it or beside it, and what is not
-- accepted is seen nowhere.
theorem resolve?_nearest_latest (h : History n) (s : Fin n) (x : String) :
    (∃ k t, h.Around s k t ∧ h.outer? t = none) ∧
    (∀ v, h.resolve? s x = some v ↔ ∃ k t, h.Nearest s x k t ∧ h.latest? t x = some v) ∧
    (h.resolve? s x = none ↔ ∀ k t, h.Around s k t → h.latest? t x = none) ∧
    ∀ (c : Fin n) (y : String) (v : Value),
      (∀ k, h.Nearest s x k c → v.isControlFlow = false →
        (h.define c x v).resolve? s x = some v) ∧
      ((∃ k, h.Around c (k + 1) s) ∨ s ≠ c ∧ h.outer? s = h.outer? c ∨ (∀ k, ¬h.Around s k c) →
        (h.define c y v).resolve? s x = h.resolve? s x) ∧
      (v.isControlFlow →
        Eval.define h.run.scopes[c] y v h.run.machine = .error .controlFlowBound h.run.machine ∧
        (h.define c y v).resolve? s x = h.resolve? s x) := by
  refine ⟨h.exists_around_outermost s, fun v => resolve?_eq_some_iff, resolve?_eq_none_iff,
    fun c y v => ⟨fun k => resolve?_define_of_nearest, ?apart, fun hv => ⟨?rejected, ?unchanged⟩⟩⟩
  case apart =>
    rintro (⟨k, hs⟩ | ⟨hn, ho⟩ | hc)
    · exact resolve?_define_of_not_around (not_around_of_inside hs)
    · exact resolve?_define_of_not_around (not_around_of_sibling hn ho)
    · exact resolve?_define_of_not_around hc
  case rejected => exact if_pos hv
  case unchanged => simp only [resolve?, run_define_of_isControlFlow hv]

-- Two scopes inside one that has no names yet.
def siblings : History 3 :=
  ((empty.create none).create (some 0)).create (some 0)

-- What is bound in the outer scope is seen inside; what is bound inside is not seen outside or
-- beside it; a value that is being returned is not bound.
theorem resolve?_siblings :
    (siblings.define 0 "x" (.int 1)).resolve? 1 "x" = some (.int 1) ∧
    (siblings.define 1 "x" (.int 1)).resolve? 0 "x" = siblings.resolve? 0 "x" ∧
    (siblings.define 1 "x" (.int 1)).resolve? 2 "x" = siblings.resolve? 2 "x" ∧
    (siblings.define 0 "x" (.returned .null)).resolve? 1 "x" = siblings.resolve? 1 "x" := by
  have ha : siblings.Around 1 1 0 := .outward rfl .self
  refine ⟨?late, ?outer, ?beside, ?rejected⟩
  case late =>
    have hn : siblings.Nearest 1 "x" 1 0 := ⟨ha, fun _ _ _ _ => rfl⟩
    exact ((siblings.resolve?_nearest_latest 1 "x").2.2.2 0 "x" (.int 1)).1 1 hn rfl
  case outer =>
    exact ((siblings.resolve?_nearest_latest 0 "x").2.2.2 1 "x" (.int 1)).2.1 (.inl ⟨0, ha⟩)
  case beside =>
    exact ((siblings.resolve?_nearest_latest 2 "x").2.2.2 1 "x" (.int 1)).2.1
      (.inr (.inl ⟨by decide, rfl⟩))
  case rejected =>
    exact (((siblings.resolve?_nearest_latest 1 "x").2.2.2 0 "x" (.returned .null)).2.2 rfl).2

end History

end Marmoset
