/-!
Association lists in the order in which their keys were first inserted.
-/

namespace Marmoset

-- Pairs of a key and a value.
abbrev Assoc (κ ν : Type) := List (κ × ν)

namespace Assoc

variable {κ ν : Type} [BEq κ]

def find? (k : κ) : Assoc κ ν → Option ν
  | [] => none
  | (k', v) :: ps => if k' == k then some v else find? k ps

-- A key that is there already keeps its place and itself, and gets the new value.
def insert (k : κ) (v : ν) : Assoc κ ν → Assoc κ ν
  | [] => [(k, v)]
  | (k', v') :: ps => if k' == k then (k', v) :: ps else (k', v') :: insert k v ps

def keys (ps : Assoc κ ν) : List κ :=
  ps.map (·.1)

@[simp]
theorem find?_nil (k : κ) : find? k ([] : Assoc κ ν) = none :=
  rfl

theorem exists_mem_of_find?_eq_some {k : κ} {v : ν} {ps : Assoc κ ν} (h : find? k ps = some v) :
    ∃ k', (k', v) ∈ ps := by
  induction ps with
  | nil => simp at h
  | cons p ps ih =>
    simp only [find?] at h
    split at h
    · next hp => exact ⟨p.1, by simp [← Option.some.inj h]⟩
    · next hp =>
      obtain ⟨k', hk⟩ := ih h
      exact ⟨k', List.mem_cons_of_mem _ hk⟩

theorem forall_mem_insert {P : κ → Prop} {Q : ν → Prop} {k : κ} {v : ν} {ps : Assoc κ ν}
    (h : ∀ p ∈ ps, P p.1 ∧ Q p.2) (hk : P k) (hv : Q v) : ∀ p ∈ insert k v ps, P p.1 ∧ Q p.2 := by
  induction ps with
  | nil => simp [insert, hk, hv]
  | cons p ps ih =>
    simp only [List.forall_mem_cons] at h
    simp only [insert]
    split
    · simpa [h.1.1, hv] using h.2
    · simpa [h.1] using ih h.2

theorem find?_eq_none_iff {k : κ} {ps : Assoc κ ν} :
    find? k ps = none ↔ ∀ p ∈ ps, (p.1 == k) = false := by
  induction ps with
  | nil => simp
  | cons p ps ih =>
    simp only [find?, List.forall_mem_cons]
    split
    · next hp => simp [hp]
    · next hp => simp [hp, ih]

-- Keys may be replaced as long as the same ones are equal.
theorem find?_map {κ' ν' : Type} [BEq κ'] {f : κ → κ'} (hf : ∀ k k', (f k == f k') = (k == k'))
    (g : ν → ν') (k : κ) (ps : Assoc κ ν) :
    find? (f k) (ps.map (Prod.map f g)) = (find? k ps).map g := by
  induction ps with
  | nil => rfl
  | cons p ps ih =>
    simp only [List.map_cons, Prod.map, find?, hf]
    split
    · rfl
    · exact ih

theorem insert_map {κ' ν' : Type} [BEq κ'] {f : κ → κ'} (hf : ∀ k k', (f k == f k') = (k == k'))
    (g : ν → ν') (k : κ) (v : ν) (ps : Assoc κ ν) :
    insert (f k) (g v) (ps.map (Prod.map f g)) = (insert k v ps).map (Prod.map f g) := by
  induction ps with
  | nil => rfl
  | cons p ps ih =>
    simp only [List.map_cons, Prod.map, insert, hf]
    split
    · rfl
    · exact congrArg _ ih

theorem find?_insert_self [ReflBEq κ] (k : κ) (v : ν) (ps : Assoc κ ν) :
    find? k (insert k v ps) = some v := by
  induction ps with
  | nil => simp [insert, find?]
  | cons p ps ih =>
    simp only [insert]
    split <;> simp_all [find?]

theorem find?_insert_of_ne [PartialEquivBEq κ] {k k' : κ} (h : (k == k') = false) (v : ν)
    (ps : Assoc κ ν) : find? k' (insert k v ps) = find? k' ps := by
  induction ps with
  | nil => simp [insert, find?, h]
  | cons p ps ih =>
    simp only [insert]
    split
    · next hp =>
      have hk : (p.1 == k') = false := by
        cases hk : p.1 == k'
        · rfl
        · rw [PartialEquivBEq.trans (PartialEquivBEq.symm hp) hk] at h
          contradiction
      simp [find?, hk]
    · simp [find?, ih]

theorem find?_congr [PartialEquivBEq κ] {k k' : κ} (h : k == k') (ps : Assoc κ ν) :
    find? k ps = find? k' ps := by
  induction ps with
  | nil => rfl
  | cons p ps ih => simp only [find?, BEq.congr_right h, ih]

theorem find?_insert [EquivBEq κ] (k k' : κ) (v : ν) (ps : Assoc κ ν) :
    find? k' (insert k v ps) = if k == k' then some v else find? k' ps := by
  split
  case isTrue h => rw [← find?_congr h, find?_insert_self]
  case isFalse h => exact find?_insert_of_ne (by simpa using h) v ps

theorem insert_of_find?_eq_none {k : κ} {ps : Assoc κ ν} (h : find? k ps = none) (v : ν) :
    insert k v ps = ps ++ [(k, v)] := by
  induction ps with
  | nil => rfl
  | cons p ps ih =>
    simp only [find?] at h
    split at h
    · contradiction
    · next hp => simpa [insert, hp] using ih h

theorem keys_insert_of_find?_eq_none {k : κ} {ps : Assoc κ ν} (h : find? k ps = none) (v : ν) :
    keys (insert k v ps) = keys ps ++ [k] := by
  rw [insert_of_find?_eq_none h]
  exact List.map_append

theorem keys_insert_of_find?_ne_none {k : κ} {ps : Assoc κ ν} (h : find? k ps ≠ none) (v : ν) :
    keys (insert k v ps) = keys ps := by
  induction ps with
  | nil => simp at h
  | cons p ps ih =>
    simp only [find?] at h
    split at h
    · next hp => simp [insert, hp, keys]
    · next hp => simpa [insert, hp, keys] using ih h

end Assoc

end Marmoset
