import Marmoset.Proofs.Operands

/-!
Hashes as maps over equality of values. A literal inserts its pairs from left to right: of equal
keys the first one stays and the last value counts (`keys_insertAll`, `find?_insertAll_eq_some_iff`).
Two values that are equal have one type and one number, so a table that compares numbers first finds
the same values (`number_eq_of_beq`).
-/

namespace Marmoset

namespace Assoc

variable {κ ν : Type} [BEq κ] {k k' : κ} {v : ν}

-- Inserts the pairs, the first one first.
def insertAll (ps : Assoc κ ν) (kvs : List (κ × ν)) : Assoc κ ν :=
  kvs.foldl (fun ps p => ps.insert p.1 p.2) ps

-- No later pair has a key that is equal to `k`.
def IsLast (kvs : List (κ × ν)) (k : κ) (v : ν) : Prop :=
  ∃ before k' later, kvs = before ++ (k', v) :: later ∧ k' == k ∧ ∀ p ∈ later, (p.1 == k) = false

theorem insertAll_map {κ' : Type} [BEq κ'] {f : κ → κ'} (hf : ∀ k k', (f k == f k') = (k == k'))
    (ps : Assoc κ ν) (kvs : List (κ × ν)) :
    insertAll (ps.map (Prod.map f id)) (kvs.map (Prod.map f id)) =
      (insertAll ps kvs).map (Prod.map f id) := by
  induction kvs generalizing ps
  case nil => rfl
  case cons p kvs hi => exact (congrArg (insertAll · _) (insert_map hf id p.1 p.2 ps)).trans (hi _)

variable [EquivBEq κ]

-- What is there already is found where the pairs do not have the key.
theorem find?_insertAll (k : κ) (ps : Assoc κ ν) (kvs : List (κ × ν)) :
    find? k (insertAll ps kvs) =
      ((kvs.reverse.find? (·.1 == k)).map (·.2)).or (find? k ps) := by
  induction kvs generalizing ps
  case nil => rfl
  case cons p kvs hi =>
    refine (hi _).trans ?_
    rw [find?_insert, List.reverse_cons, List.find?_append]
    cases kvs.reverse.find? (·.1 == k)
    case some => rfl
    case none => cases hp : p.1 == k <;> simp [hp]

theorem find?_insertAll_eq_some_iff {kvs : List (κ × ν)} :
    find? k (insertAll [] kvs) = some v ↔ IsLast kvs k v := by
  simp only [find?_insertAll, find?_nil, Option.or_none, Option.map_eq_some_iff, IsLast]
  constructor
  case mp =>
    intro ⟨p, hp, hv⟩
    have ⟨hk, later, before, hs, hl⟩ := List.find?_eq_some_iff_append.mp hp
    refine ⟨before.reverse, p.1, later.reverse, ?_, hk, fun q hq => ?_⟩
    · rw [← hv, ← List.reverse_reverse kvs, hs]
      simp
    · simpa using hl q (List.mem_reverse.mp hq)
  case mpr =>
    intro ⟨before, k', later, hs, hk, hl⟩
    refine ⟨(k', v), ?_, rfl⟩
    refine List.find?_eq_some_iff_append.mpr ⟨hk, later.reverse, before.reverse, ?_, ?_⟩
    · simp [hs]
    · intro q hq
      simpa using hl q (List.mem_reverse.mp hq)

theorem find?_insertAll_eq_none_iff {kvs : List (κ × ν)} :
    find? k (insertAll [] kvs) = none ↔ ∀ p ∈ kvs, (p.1 == k) = false := by
  simp [find?_insertAll]

-- A key is there after the insertion if it was there or is the one inserted.
theorem isNone_find?_insert (k k' : κ) (v : ν) (ps : Assoc κ ν) :
    (find? k' (insert k v ps)).isNone = ((!(k' == k)) && (find? k' ps).isNone) := by
  rw [find?_insert, BEq.comm]
  cases k' == k <;> rfl

theorem keys_insertAll (ps : Assoc κ ν) (kvs : List (κ × ν)) :
    keys (insertAll ps kvs) =
      keys ps ++ ((kvs.map (·.1)).filter fun k => (find? k ps).isNone).eraseDups := by
  induction kvs generalizing ps
  case nil => simp [insertAll]
  case cons p kvs hi =>
    refine (hi _).trans ?_
    simp only [isNone_find?_insert, List.map_cons]
    rw [← List.filter_filter]
    by_cases hp : find? p.1 ps = none
    case pos =>
      rw [keys_insert_of_find?_eq_none hp, List.filter_cons_of_pos (by simp [hp]),
        List.eraseDups_cons, List.append_assoc]
      rfl
    case neg =>
      -- Keys that are equal to this one are left out anyway.
      have hf (k : κ) (hk : (find? k ps).isNone) : (!(k == p.1)) = true := by
        cases he : k == p.1
        case false => rfl
        case true =>
          exact absurd ((find?_congr he ps).symm.trans (Option.isNone_iff_eq_none.mp hk)) hp
      rw [keys_insert_of_find?_ne_none hp, List.filter_cons_of_neg (by simpa using hp),
        List.filter_eq_self.mpr fun k hk => hf k (List.mem_filter.mp hk).2]

end Assoc

-- How the host numbers what values are made of. Two things that differ may have one number.
structure Hashing where
  int : Int → Int
  text : String → Int
  object : ObjectId → Int

namespace Value

-- The number by which a table looks for the value. A truth value has that of zero or one.
def number (h : Hashing) : Value → Int
  | null => 0
  | bool b => h.int b.toInt
  | int n => h.int n.toInt
  | string s => h.text s
  | array i _ | hash i _ => h.object i
  | function c => h.object c.id
  | builtin b => h.text b.name
  | returned v => v.number h
  | error _ f => h.text f.message

theorem type_eq_of_beq {v w : Value} (h : v == w) : v.type = w.type := by
  change v.beq w at h
  cases v <;> cases w <;> first | rfl | simp [beq] at h

theorem number_eq_of_beq (h : Hashing) {v w : Value} (he : v.beq w) : v.number h = w.number h := by
  fun_induction beq v w <;> simp_all [number]

theorem equivalence_beq : Equivalence fun v w : Value => v == w :=
  ⟨beq_self, beq_symm, beq_trans⟩

theorem isControlFlow_of_isHashable {v : Value} (h : v.isHashable) : v.isControlFlow = false := by
  cases v <;> first | rfl | simp [isHashable] at h

end Value

-- A key as the object that the pair of this number made. Objects are equal if their values are.
structure KeyObject where
  value : Value
  pair : Nat

namespace KeyObject

instance : BEq KeyObject :=
  ⟨fun a b => a.value == b.value⟩

instance : EquivBEq KeyObject where
  rfl := Value.beq_self _
  symm := Value.beq_symm
  trans := Value.beq_trans

-- The pairs with the objects that their keys are.
def ofPairs (kvs : List (Value × Value)) : List (KeyObject × Value) :=
  kvs.zipIdx.map fun (p, i) => (⟨p.1, i⟩, p.2)

theorem map_value_ofPairs (kvs : List (Value × Value)) :
    (ofPairs kvs).map (Prod.map value id) = kvs := by
  rw [ofPairs, List.map_map]
  exact (List.map_congr_left fun _ _ => rfl).trans (List.zipIdx_map_fst 0 kvs)

end KeyObject

-- The entries are what inserting the pairs makes: every key once, as the object and in the place of
-- its first occurrence, with the value of its last one.
structure Assoc.Collects (entries : Assoc Value Value) (kvs : List (Value × Value)) : Prop where
  objects : entries = (insertAll [] (KeyObject.ofPairs kvs)).map (Prod.map KeyObject.value id)
  keys : Assoc.keys (insertAll [] (KeyObject.ofPairs kvs)) =
    ((KeyObject.ofPairs kvs).map (·.1)).eraseDups
  found : ∀ k v, find? k entries = some v ↔ IsLast kvs k v
  missing : ∀ k, find? k entries = none ↔ ∀ p ∈ kvs, (p.1 == k) = false

theorem Assoc.collects_insertAll (kvs : List (Value × Value)) :
    (insertAll [] kvs).Collects kvs where
  objects := by
    have h := insertAll_map (f := KeyObject.value) (fun _ _ => rfl) [] (KeyObject.ofPairs kvs)
    rwa [KeyObject.map_value_ofPairs] at h
  keys := by
    rw [keys_insertAll]
    exact congrArg List.eraseDups (List.filter_eq_self.mpr fun _ _ => rfl)
  found _ _ := find?_insertAll_eq_some_iff
  missing _ := find?_insertAll_eq_none_iff

-- The pairs of a literal come to keys that can be hashed and to values, one after the other.
inductive Eval.Fills (frames : Nat) (s : Scope) :
    Machine → List (Expr × Expr) → List (Value × Value) → Machine → Prop
  | nil : Fills frames s m [] [] m
  | cons : Eval.expr frames s key m = .ok k m₁ → k.isHashable →
    Eval.expr frames s value m₁ = .ok v m₂ → v.isControlFlow = false →
    Fills frames s m₂ pairs kvs m' → Fills frames s m ((key, value) :: pairs) ((k, v) :: kvs) m'

namespace Traced

open Evaluator

variable {frames : Nat} {s : Scope} {m m' : Machine} {v : Value}

theorem parts_plain_of_ok {x : Traced Value} {next : Value → Traced Value}
    (h : x.outcome m = .ok v m') (hv : v.isControlFlow = false) :
    (plain x next).parts m = x.parts m ++ (next v).parts m' := by
  rw [plain, parts_bind_of_ok h, if_neg (by simp [hv])]

theorem outcome_expr (frames : Nat) (s : Scope) (e : Expr) :
    ((Traced.within frames).expr s e).outcome = Eval.expr frames s e :=
  (watching_within frames).expr s e

-- An expression that comes to a value is evaluated in a frame of its own.
theorem tasks_expr {e : Expr} (h : Eval.expr frames s e m = .ok v m') :
    (((Traced.within frames).expr s e).parts m).map Activation.task = [.expr s e] := by
  cases frames
  case zero => nomatch h
  case succ => rfl

-- The evaluations that the pairs take, in order.
def pairTasks (s : Scope) (pairs : List (Expr × Expr)) : List Task :=
  pairs.flatMap fun p => [.expr s p.1, .expr s p.2]

end Traced

namespace Eval.Fills

open Evaluator

variable {frames : Nat} {s : Scope} {m m' : Machine} {pairs : List (Expr × Expr)}
  {kvs : List (Value × Value)}

theorem entries_eq (h : Fills frames s m pairs kvs m') (rest : List (Expr × Expr))
    (ps : Assoc Value Value) (next : Assoc Value Value → Eval Value) :
    entries (Eval.expr frames s) (pairs ++ rest) ps next m =
      entries (Eval.expr frames s) rest (ps.insertAll kvs) next m' := by
  induction h generalizing ps
  case nil => rfl
  case cons hk hh hv hc _ hi =>
    rw [List.cons_append, entries, plain_of_ok hk (Value.isControlFlow_of_isHashable hh), if_pos hh,
      plain_of_ok hv hc]
    exact hi _

theorem tasks_entries (h : Fills frames s m pairs kvs m') (rest : List (Expr × Expr))
    (ps : Assoc Value Value) (next : Assoc Value Value → Traced Value) :
    ((entries ((Traced.within frames).expr s) (pairs ++ rest) ps next).parts m).map
        Activation.task =
      Traced.pairTasks s pairs ++
        ((entries ((Traced.within frames).expr s) rest (ps.insertAll kvs) next).parts m').map
          Activation.task := by
  induction h generalizing ps
  case nil => rfl
  case cons hk hh hv hc _ hi =>
    have htk := (congrFun (Traced.outcome_expr ..) _).trans hk
    have htv := (congrFun (Traced.outcome_expr ..) _).trans hv
    rw [List.cons_append, entries,
      Traced.parts_plain_of_ok htk (Value.isControlFlow_of_isHashable hh), if_pos hh,
      Traced.parts_plain_of_ok htv hc, List.map_append, List.map_append, Traced.tasks_expr hk,
      Traced.tasks_expr hv, hi]
    rfl

-- The literal comes to a hash that is made when all pairs have been evaluated.
theorem expr_hash (h : Fills frames s m pairs kvs m') (l : Location) :
    Eval.expr (frames + 1) s (.hash l pairs) m =
      .ok (.hash m'.nextObject (Assoc.insertAll [] kvs)) m'.newObject.2 := by
  have he := h.entries_eq [] [] Eval.newHash
  rwa [List.append_nil] at he

variable {key : Expr} {k : Value} {m₁ : Machine}

-- What stands behind a key that cannot be hashed does not count.
theorem expr_hash_of_unhashable (h : Fills frames s m pairs kvs m')
    (hk : Eval.expr frames s key m' = .ok k m₁) (hc : k.isControlFlow = false)
    (hh : k.isHashable = false) (l : Location) (value : Expr) (rest : List (Expr × Expr)) :
    Eval.expr (frames + 1) s (.hash l (pairs ++ (key, value) :: rest)) m =
      fail key.location (.unhashable k.type) m₁ := by
  refine (h.entries_eq _ [] Eval.newHash).trans ?_
  rw [entries, plain_of_ok hk hc, if_neg (by simp [hh])]
  rfl

theorem tasks_hash_of_unhashable (h : Fills frames s m pairs kvs m')
    (hk : Eval.expr frames s key m' = .ok k m₁) (hc : k.isControlFlow = false)
    (hh : k.isHashable = false) (l : Location) (value : Expr) (rest : List (Expr × Expr)) :
    ∃ a, ((Traced.within (frames + 1)).expr s (.hash l (pairs ++ (key, value) :: rest))).parts m =
        [a] ∧ a.parts.map Activation.task = Traced.pairTasks s pairs ++ [.expr s key] := by
  have htk := (congrFun (Traced.outcome_expr ..) _).trans hk
  refine ⟨_, rfl, (h.tasks_entries _ [] _).trans ?_⟩
  rw [entries, Traced.parts_plain_of_ok htk hc, if_neg (by simp [hh]), List.map_append,
    Traced.tasks_expr hk]
  rfl

end Eval.Fills

theorem Eval.expr_index {frames : Nat} {s : Scope} {m m₁ m₂ : Machine} {c e : Expr} {v k : Value}
    (hc : Eval.expr frames s c m = .ok v m₁) (hv : v.isControlFlow = false)
    (he : Eval.expr frames s e m₁ = .ok k m₂) (hk : k.isControlFlow = false) (l : Location) :
    Eval.expr (frames + 1) s (.index l c e) m = ofResult l (v.get k) m₂ := by
  change Evaluator.plain (Eval.expr frames s c) _ m = _
  rw [Evaluator.plain_of_ok hc hv]
  exact Evaluator.plain_of_ok he hk

-- Equality of values divides them into classes, each within one type and with one number. A literal
-- whose keys can be hashed makes the map of its pairs; at the first key that cannot, it ends in an
-- error at that key, and nothing after it is evaluated. So does looking up such a key, whatever the
-- hash holds.
theorem Value.hash_last_write_wins :
    (Equivalence fun v w : Value => v == w) ∧
    (∀ v w : Value, v == w → v.type = w.type ∧ ∀ h : Hashing, v.number h = w.number h) ∧
    (∀ frames s m pairs kvs m', Eval.Fills frames s m pairs kvs m' →
      (∀ l, ∃ entries : Assoc Value Value, entries.Collects kvs ∧
        Eval.expr (frames + 1) s (.hash l pairs) m =
          .ok (.hash m'.nextObject entries) m'.newObject.2) ∧
      (∀ l key value rest k m₁, Eval.expr frames s key m' = .ok k m₁ → k.isControlFlow = false →
        k.isHashable = false →
        ∃ e m₂ a, Eval.expr (frames + 1) s (.hash l (pairs ++ (key, value) :: rest)) m = .ok e m₂ ∧
          m₁.Raises key.location (.unhashable k.type) e m₂ ∧
          ((Traced.within (frames + 1)).expr s (.hash l (pairs ++ (key, value) :: rest))).parts m =
            [a] ∧
          a.parts.map Activation.task = Traced.pairTasks s pairs ++ [.expr s key])) ∧
    (∀ frames s m c e i entries m₁ k m₂, Eval.expr frames s c m = .ok (.hash i entries) m₁ →
      Eval.expr frames s e m₁ = .ok k m₂ → k.isControlFlow = false →
      ∀ l, (k.isHashable → Eval.expr (frames + 1) s (.index l c e) m =
          .ok ((Assoc.find? k entries).getD .null) m₂) ∧
        (k.isHashable = false → ∃ e' m₃, Eval.expr (frames + 1) s (.index l c e) m = .ok e' m₃ ∧
          m₂.Raises l (.unhashable k.type) e' m₃)) ∧
    ∀ t, (Fault.unhashable t).message = "unusable as hash key: " ++ t.name := by
  refine ⟨equivalence_beq, fun v w h => ⟨type_eq_of_beq h, fun _ => number_eq_of_beq _ h⟩, ?literal,
    ?index, fun _ => rfl⟩
  case literal =>
    intro frames s m pairs kvs m' h
    refine ⟨fun l => ⟨_, Assoc.collects_insertAll kvs, h.expr_hash l⟩, ?_⟩
    intro l key value rest k m₁ hk hc hh
    have ⟨e, m₂, he, hr⟩ := Eval.fail_raises key.location (.unhashable k.type) m₁
    have ⟨a, ha, ht⟩ := h.tasks_hash_of_unhashable hk hc hh l value rest
    exact ⟨e, m₂, a, (h.expr_hash_of_unhashable hk hc hh l value rest).trans he, hr, ha, ht⟩
  case index =>
    intro frames s m c e i entries m₁ k m₂ hc he hk l
    have hi := Eval.expr_index hc rfl he hk l
    constructor
    · intro hh
      rw [hi, get, if_pos hh]
      rfl
    · intro hh
      rw [hi, get, if_neg (by simp [hh])]
      exact Eval.fail_raises l _ m₂

-- A key that is repeated has its last value, a key that is an array ends the literal, and an empty
-- hash cannot be asked for such a key either.
theorem Value.hash_of_repeated_key :
    (∃ entries : Assoc Value Value, Assoc.find? (.int 1) entries = some (.int 30) ∧
      Eval.expr 2 Session.scope (.hash ⟨1, 1⟩ [(.int ⟨1, 2⟩ 1, .int ⟨1, 5⟩ 10),
        (.bool ⟨1, 9⟩ true, .int ⟨1, 15⟩ 20), (.int ⟨1, 19⟩ 1, .int ⟨1, 22⟩ 30)]) Session.start =
        .ok (.hash 0 entries) Session.start.newObject.2) ∧
    (∃ e m, Eval.expr 3 Session.scope (.hash ⟨1, 1⟩ [(.int ⟨1, 2⟩ 1, .int ⟨1, 5⟩ 10),
        (.array ⟨1, 9⟩ [], .int ⟨1, 13⟩ 20), (.int ⟨1, 17⟩ 2, .int ⟨1, 20⟩ 30)]) Session.start =
          .ok e m ∧
        Session.start.newObject.2.Raises ⟨1, 9⟩ (.unhashable .array) e m) ∧
    ∃ e m, Eval.expr 3 Session.scope (.index ⟨1, 3⟩ (.hash ⟨1, 1⟩ []) (.array ⟨1, 4⟩ []))
        Session.start = .ok e m ∧
      Session.start.newObject.2.newObject.2.Raises ⟨1, 3⟩ (.unhashable .array) e m := by
  have ⟨_, _, hl, hi, _⟩ := hash_last_write_wins
  refine ⟨?repeated, ?unhashable, ?index⟩
  case repeated =>
    have hf : Eval.Fills 1 Session.scope Session.start [(.int ⟨1, 2⟩ 1, .int ⟨1, 5⟩ 10),
        (.bool ⟨1, 9⟩ true, .int ⟨1, 15⟩ 20), (.int ⟨1, 19⟩ 1, .int ⟨1, 22⟩ 30)]
        [(.int 1, .int 10), (.bool true, .int 20), (.int 1, .int 30)] Session.start :=
      .cons rfl rfl rfl rfl (.cons rfl rfl rfl rfl (.cons rfl rfl rfl rfl .nil))
    have ⟨entries, hc, he⟩ := (hl 1 _ _ _ _ _ hf).1 ⟨1, 1⟩
    exact ⟨entries, (hc.found _ _).mpr ⟨[_, _], _, [], rfl, beq_self _, nofun⟩, he⟩
  case unhashable =>
    have hf : Eval.Fills 2 Session.scope Session.start [(.int ⟨1, 2⟩ 1, .int ⟨1, 5⟩ 10)]
        [(.int 1, .int 10)] Session.start :=
      .cons rfl rfl rfl rfl .nil
    have ⟨e, m, _, he, hr, _⟩ := (hl 2 _ _ _ _ _ hf).2 ⟨1, 1⟩ (.array ⟨1, 9⟩ [])
      (.int ⟨1, 13⟩ 20) [(.int ⟨1, 17⟩ 2, .int ⟨1, 20⟩ 30)] (.array 0 []) _ rfl rfl rfl
    exact ⟨e, m, he, hr⟩
  case index =>
    exact (hi 2 Session.scope Session.start (.hash ⟨1, 1⟩ []) (.array ⟨1, 4⟩ []) 0 [] _
      (.array 1 []) _ rfl rfl rfl ⟨1, 3⟩).2 rfl

end Marmoset
