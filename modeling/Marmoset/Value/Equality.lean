import Marmoset.Value.Basic

/-!
Equality of values. Arrays, hashes and functions are equal only to themselves; of an error only
the message counts.
-/

namespace Marmoset

namespace Value

def beq : Value → Value → Bool
  | null, null => true
  | bool a, bool b => a = b
  | int a, int b => a = b
  | string a, string b => a = b
  | array i _, array j _ => i = j
  | hash i _, hash j _ => i = j
  | function c, function d => c.id = d.id
  | builtin a, builtin b => a = b
  | returned v, returned w => beq v w
  | error _ f, error _ g => f.message = g.message
  | _, _ => false

theorem beq_self : ∀ v : Value, v.beq v
  | .null => rfl
  | .bool _ | .int _ | .string _ | .array .. | .hash .. | .function _ | .builtin _ | .error .. => by
    simp [beq]
  | .returned v => beq_self v

theorem beq_symm {v w : Value} (h : v.beq w) : w.beq v := by
  fun_induction beq v w <;> simp_all [beq]

theorem beq_trans {u v w : Value} (h₁ : u.beq v) (h₂ : v.beq w) : u.beq w := by
  fun_induction beq u v generalizing w <;> cases w <;> simp_all [beq]

instance : BEq Value :=
  ⟨beq⟩

instance : EquivBEq Value where
  rfl := beq_self _
  symm := beq_symm
  trans := beq_trans

-- The values that are equal to no earlier one, by position.
def distinct (vs : List Value) : List Nat :=
  (go [] vs.zipIdx).map (·.2)
where
  go (seen : List Value) : List (Value × Nat) → List (Value × Nat)
    | [] => []
    | (v, i) :: vs => if seen.contains v then go seen vs else (v, i) :: go (v :: seen) vs

end Value

end Marmoset
