import Marmoset.CommandLine
import Marmoset.Folder
import Marmoset.Log
import Marmoset.Text.SourceFile

/-!
The program as it is run from the command line, on a file or interactively.
-/

namespace Marmoset

-- Why a run breaks off without an exit code.
inductive Escape
  | undecodable
  | nulInPath
  | aborted (a : Abort)
deriving DecidableEq

-- What a run has written and how it ended.
structure Outcome where
  ending : Except Escape Nat
  output : String
  errors : String

namespace Console

def errorLine (location : Option Location) (message : String) : String :=
  location.elim "" (·.bracketed ++ " ") ++ "error: " ++ message

def callLine (c : Call) : String :=
  "...within " ++ c.callee.display ++ c.location.elim "" (" called from " ++ toString ·)

-- The lines that report an error and the calls it passed through.
def report (f : Fault) (d : Diagnostic) : List String :=
  errorLine d.location f.message :: d.trace.map callLine

-- The lines of a message of level `l`, if it is told.
def told (threshold l : LogLevel) (message : String) : List String :=
  if threshold.isTold l then [message] else []

def recoveryLines (threshold : LogLevel) (rs : List Recovery) : List String :=
  rs.flatMap fun r =>
    told threshold .debug ("synchronizing after parse error at " ++ toString r.skippedFrom)

def runProgram (frames : Nat) (p : Program) (log : List String) : Outcome :=
  let (s, m) := Machine.empty.newScope none
  match p.eval frames s m with
  | .ok (some (.error i f)) m' =>
    ⟨.ok 1, m'.outputSince m, Repl.lines (log ++ report f (m'.diagnostic i))⟩
  | .ok _ m' => ⟨.ok 0, m'.outputSince m, Repl.lines log⟩
  | .error a m' => ⟨.error (.aborted a), m'.outputSince m, Repl.lines log⟩

def runParsed (frames : Nat) (mode : Mode) (p : Parse) (log : List String) : Outcome :=
  if p.recoveries ≠ [] then
    ⟨.ok 1, "", Repl.lines (log ++ p.errors.map fun e => errorLine e.location e.message)⟩
  else if mode = .ast then
    match p.program.source? frames with
    | some text => ⟨.ok 0, Repl.lines [text], Repl.lines log⟩
    | none => ⟨.error (.aborted .tooDeep), "", Repl.lines log⟩
  else runProgram frames p.program log

def runSource (frames : Nat) (threshold : LogLevel) (mode : Mode) (source : String)
    (log : List String) : Outcome :=
  if mode = .tokens then
    ⟨.ok 0, Repl.lines ((TokenStream.ofSource source).toList.map (·.listing)), Repl.lines log⟩
  else
    let p := parse frames source
    let parsed := "parsed " ++ toString p.program.statements.length ++ " statement(s)"
    runParsed frames mode p
      (log ++ recoveryLines threshold p.recoveries ++ told threshold .debug parsed)

-- Runs the file that `read` finds at the path.
def runFile (frames : Nat) (threshold : LogLevel) (mode : Mode)
    (read : String → Except FileFault ByteArray) (path : String) : Outcome :=
  let log := told threshold .info ("evaluating " ++ path)
  if path.toList.contains '\x00' then ⟨.error .nulInPath, "", Repl.lines log⟩
  else
    match read path with
    | .error f => ⟨.ok 1, "", Repl.lines (log ++ [f.message path])⟩
    | .ok bytes =>
      match Text.ofFile? bytes with
      | none => ⟨.error .undecodable, "", Repl.lines log⟩
      | some source => runSource frames threshold mode source log

def banner (user : String) : String :=
  Repl.lines
    ["Hello " ++ user ++ "! This is the Monkey programming language!",
     "Feel free to type in commands"]

def prompt (more : Bool) : String :=
  if more then ".. " else ">> "

-- Lines of a text; what follows the last line end is a line unless it is empty.
def inputLines (input : String) : List String :=
  let ls := input.splitOn "\n"
  if ls.getLast? = some "" then ls.dropLast else ls

-- An interactive run on the lines of an input.
def interact (frames : Nat) (threshold : LogLevel) (mode : Mode) (user input : String) : Outcome :=
  go (Repl.start mode) false ⟨.ok 0, "", banner user⟩ (inputLines input)
where
  go (r : Repl) (more : Bool) (o : Outcome) : List String → Outcome
    | [] => { o with output := o.output ++ prompt more, errors := o.errors ++ "\n" }
    | line :: rest =>
      let (reply, r) := r.push frames line
      let o := { o with
        output := o.output ++ prompt more ++ reply.output
        errors := o.errors ++ Repl.lines (recoveryLines threshold reply.recoveries) }
      match reply.more with
      | .ok more => go r more o rest
      | .error a => { o with ending := .error (.aborted a) }

-- What a run is given besides its files.
structure Setting where
  args : List String
  logSetting : String
  user : String
  input : String

-- A run on the files that `read` finds.
def run (frames : Nat) (setting : Setting) (read : String → Except FileFault ByteArray) :
    Outcome :=
  let threshold := LogLevel.ofSetting setting.logSetting
  match CommandLine.Command.ofArgs setting.args with
  | .help => ⟨.ok 0, CommandLine.help, ""⟩
  | .refuse e => ⟨.ok 2, "", CommandLine.usage ++ "monkey: error: " ++ e.message ++ "\n"⟩
  | .run mode (some path) => runFile frames threshold mode read path
  | .run mode none => interact frames threshold mode setting.user setting.input

end Console

end Marmoset
