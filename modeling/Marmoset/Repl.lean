import Marmoset.Machine.Source
import Marmoset.Program.Source

/-!
The interactive session. Lines are gathered in a buffer until they make a chunk that can be run.
-/

namespace Marmoset

-- What is done with a source text: it is evaluated, or its tokens or its program are shown.
inductive Mode
  | eval | tokens | ast
deriving DecidableEq

structure Repl where
  mode : Mode
  scope : Scope
  machine : Machine
  buffer : List String

namespace Repl

def start (mode : Mode) : Repl :=
  let (s, m) := Machine.empty.newScope none
  ⟨mode, s, m, []⟩

-- What a step answers.
structure Reply where
  -- Whether the text is not finished, so that more lines are needed.
  more : Except Abort Bool
  output : String
  -- The errors that were passed over while the text was read.
  recoveries : List Recovery

def face : String :=
  "\n".intercalate
    ["",
     "           __,__",
     "  .--.  .-\"     \"-.  .--.",
     " / .. \\/  .-. .-.  \\/ .. \\",
     "| |  '|  /   Y   \\  |'  | |",
     "| \\   \\  \\ 0 | 0 /  /   / |",
     " \\ '- ,\\.-\"\"\"\"\"\"\"-./, -' /",
     "  ''-' /_   ^ ^   _\\ '-''",
     "      |  \\._   _./  |",
     "      \\   \\ '~' /   /",
     "       '._ '-=-' _.'",
     "          '-----'",
     ""]

def lines (ls : List String) : String :=
  String.join (ls.map (· ++ "\n"))

def errorReport (errors : List SyntaxError) : String :=
  lines ([face, "Woops! We ran into some monkey business here!", " parser errors:"]
    ++ errors.map fun e => "\t" ++ toString e)

-- The line that shows the value of a chunk.
def shown (frames : Nat) (v : Value) : String :=
  (v.display? frames).getD "ERROR: maximum recursion depth exceeded while displaying value"

-- A program may go on unless it ends in a line end or, blanks aside, a semicolon.
def mayGoOn (source : String) : Bool :=
  !(source.toList.getLast? = some '\n' || Text.lastInk? source = some ';')

-- Runs a text, without regard to the buffer.
def run (frames : Nat) (r : Repl) (source : String) : Reply × Repl :=
  match r.mode with
  | .tokens =>
    (⟨.ok false, lines ((TokenStream.ofSource source).pending.map (·.listing)), []⟩, r)
  | mode =>
    let p := parse frames source
    let reply (more : Except Abort Bool) (output : String) : Reply := ⟨more, output, p.recoveries⟩
    if p.recoveries ≠ [] then
      -- An error may lie in what is still to come, unless a line end closes the text.
      if source.toList.getLast? = some '\n' then (reply (.ok false) (errorReport p.errors), r)
      else (reply (.ok true) "", r)
    else if mayGoOn source then (reply (.ok true) "", r)
    else if mode = .ast then
      match p.program.source? frames with
      | some text => (reply (.ok false) (lines [text]), r)
      | none => (reply (.error .tooDeep) "", r)
    else
      match p.program.eval frames r.scope r.machine with
      | .ok v m =>
        let output := m.outputSince r.machine ++ lines (v.toList.map (shown frames))
        (reply (.ok false) output, { r with machine := m })
      | .error a m => (reply (.error a) (m.outputSince r.machine), { r with machine := m })

-- Adds a line to the buffer and runs it; the buffer is emptied unless more lines are needed.
def push (frames : Nat) (r : Repl) (line : String) : Reply × Repl :=
  let buffer := r.buffer ++ [line]
  let (reply, r) := run frames { r with buffer } ("\n".intercalate buffer)
  match reply.more with
  | .ok false => (reply, { r with buffer := [] })
  | _ => (reply, r)

end Repl

end Marmoset
