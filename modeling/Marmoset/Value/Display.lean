import Marmoset.Program.Source
import Marmoset.Value.Basic

/-!
The text that stands for a value. `depth` counts the nested steps that writing it takes.
-/

namespace Marmoset

-- The function literal that made the function.
def Closure.literal (c : Closure) : Expr :=
  .fn c.location c.params c.body

-- The literal of a function, set off as such, unless it is too deep to be written.
def Closure.source? (frames : Nat) (c : Closure) : Option String :=
  (c.literal.source? frames).map fun s => "Function(" ++ s ++ ")"

instance : ToString Closure :=
  ⟨fun c => "fn@" ++ c.location.bracketed⟩

instance : ToString Builtin :=
  ⟨fun b => b.name ++ "@builtin"⟩

def Callee.display : Callee → String
  | closure c => toString c
  | builtin b => toString b

namespace Value

mutual

def display : Value → String
  | .null => "null"
  | .bool b => if b then "true" else "false"
  | .int n => toString n.toInt
  | .string s => s
  | .array _ vs => "[" ++ ", ".intercalate (displays vs) ++ "]"
  | .hash _ ps => "\x7b" ++ ", ".intercalate (entryDisplays ps) ++ "\x7d"
  | .function c => toString c
  | .builtin b => toString b
  | .returned v => v.display
  | .error _ f => "ERROR: " ++ f.message

def displays : List Value → List String
  | [] => []
  | v :: vs => v.display :: displays vs

def entryDisplays : List (Value × Value) → List String
  | [] => []
  | (k, v) :: ps => (k.display ++ ": " ++ v.display) :: entryDisplays ps

end

mutual

def depth : Value → Nat
  | .null | .bool _ | .int _ | .string _ | .function _ | .builtin _ | .error .. => 1
  | .array _ vs => depths vs + 2
  | .hash _ ps => entryDepths ps + 2
  | .returned v => v.depth + 1

def depths : List Value → Nat
  | [] => 0
  | v :: vs => max v.depth (depths vs)

def entryDepths : List (Value × Value) → Nat
  | [] => 0
  | (k, v) :: ps => max (max k.depth v.depth) (entryDepths ps)

end

-- The text, unless it takes more than `frames` nested steps to write it.
def display? (frames : Nat) (v : Value) : Option String :=
  if v.depth ≤ frames then some v.display else none

theorem displays_eq_map (vs : List Value) : displays vs = vs.map display := by
  induction vs <;> simp_all [displays]

theorem entryDisplays_eq_map (ps : List (Value × Value)) :
    entryDisplays ps = ps.map fun p => p.1.display ++ ": " ++ p.2.display := by
  induction ps <;> simp_all [entryDisplays]

end Value

end Marmoset
