import Marmoset.Value.Equality

/-!
What operators make of plain values.
-/

namespace Marmoset

-- Values of one type; of the built-in functions, each is of a kind of its own.
def Value.isAlike : Value → Value → Bool
  | .builtin a, .builtin b => a = b
  | v, w => v.type = w.type

namespace PrefixOp

def apply (op : PrefixOp) (v : Value) : Except Fault Value :=
  match op, v with
  | not, v => .ok (.bool !v.isTruthy)
  | negate, .int n => .ok (.int (-n))
  | op, v => .error (.unknownPrefix op v.type)

end PrefixOp

namespace InfixOp

-- Sums, differences, products and quotients wrap around at 64 bits; division truncates.
def applyInt (op : InfixOp) (a b : Int64) : Except Fault Value :=
  match op with
  | add => .ok (.int (a + b))
  | sub => .ok (.int (a - b))
  | mul => .ok (.int (a * b))
  | div => if b = 0 then .error .divisionByZero else .ok (.int (a / b))
  | lt => .ok (.bool (a < b))
  | gt => .ok (.bool (a > b))
  | eq => .ok (.bool (a = b))
  | notEq => .ok (.bool (a ≠ b))

-- The fault of operands that the operator has no meaning for.
def misfit (op : InfixOp) (v w : Value) : Fault :=
  if v.isAlike w then .unknownInfix v.type op w.type else .typeMismatch v.type op w.type

def apply (op : InfixOp) (v w : Value) : Except Fault Value :=
  match v, w, op with
  | .int a, .int b, op => op.applyInt a b
  | .string a, .string b, add => .ok (.string (a ++ b))
  | .bool a, .bool b, eq => .ok (.bool (a == b))
  | .bool a, .bool b, notEq => .ok (.bool (a != b))
  | v, w, op => .error (op.misfit v w)

end InfixOp

namespace Value

-- An element of an array by its position, or a value of a hash by its key; null if there is none.
def get (v index : Value) : Except Fault Value :=
  match v, index with
  | .array _ vs, .int n =>
    if n < 0 then .ok .null else .ok (vs[n.toNatClampNeg]?.getD .null)
  | .hash _ ps, k =>
    if k.isHashable then .ok ((Assoc.find? k ps).getD .null) else .error (.unhashable k.type)
  | v, k => .error (.notIndexable v.type k.type)

end Value

end Marmoset
