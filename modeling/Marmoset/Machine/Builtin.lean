import Marmoset.Machine.Basic

/-!
The built-in functions. Errors they make get their place from the call.
-/

namespace Marmoset

namespace Builtin

def unary (args : List Value) (f : Value → Eval Value) : Eval Value :=
  match args with
  | [v] => f v
  | args => Eval.fail none (.wrongArgumentCount args.length 1)

def binary (args : List Value) (f : Value → Value → Eval Value) : Eval Value :=
  match args with
  | [v, w] => f v w
  | args => Eval.fail none (.wrongArgumentCount args.length 2)

def onArray (b : Builtin) (v : Value) (f : List Value → Eval Value) : Eval Value :=
  match v with
  | .array _ vs => f vs
  | v => Eval.fail none (.wrongArgument b .array v.type)

def length (v : Value) : Eval Value :=
  match v with
  | .string s => return .ofNat s.length
  | .array _ vs => return .ofNat vs.length
  | v => Eval.fail none (.noLength v.type)

-- A value that nests too deeply to be written is an error; those before it are printed.
def printAll (frames : Nat) : List Value → Eval Value
  | [] => return .null
  | v :: vs =>
    if frames < v.depth then Eval.fail none .tooDeep
    else do
      Eval.print v
      printAll frames vs

def apply (frames : Nat) (b : Builtin) (args : List Value) : Eval Value :=
  match b with
  | len => unary args length
  | first => unary args fun v => b.onArray v fun vs => return vs.head?.getD .null
  | last => unary args fun v => b.onArray v fun vs => return vs.getLast?.getD .null
  | rest => unary args fun v => b.onArray v fun
    | [] => return .null
    | _ :: vs => Eval.newArray vs
  | push => binary args fun v w => b.onArray v fun vs => Eval.newArray (vs ++ [w])
  | puts => printAll frames args

end Builtin

end Marmoset
