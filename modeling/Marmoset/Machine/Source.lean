import Marmoset.Machine.Eval
import Marmoset.Program.Parse

/-!
Running source texts.
-/

namespace Marmoset

-- A text with syntax errors is not evaluated at all; the first of them is the answer.
def evalSource (frames : Nat) (s : Scope) (source : String) :
    Eval (Except SyntaxError (Option Value)) :=
  let p := parse frames source
  match p.errors with
  | e :: _ => return .error e
  | [] => return .ok (← p.program.eval frames s)

end Marmoset
