import Marmoset.Console

/-!
The command `monkey`: it reads the arguments, the environment and the files, and writes what a run
comes to.
-/

namespace Marmoset

namespace Main

-- The fault that kept a file from being read, if it is one that is told apart.
def faultOf? : IO.Error → Option FileFault
  | .noFileOrDirectory .. => some .notFound
  | .inappropriateType _ code _ | .invalidArgument _ code _ =>
    -- A code may come with its sign changed.
    [.notDirectory, .isDirectory, .nameTooLong].find? fun f =>
      code.toNat = f.number || (0 - code).toNat = f.number
  | _ => none

def readFile (path : String) : IO (Except FileFault ByteArray) := do
  try
    return .ok (← IO.FS.readBinFile path)
  catch e =>
    match faultOf? e with
    | some f => return .error f
    | none => throw e

def escapeMessage : Escape → String
  | .undecodable => "the file is not in UTF-8"
  | .nulInPath => "embedded null byte"
  | .aborted .tooDeep => Fault.tooDeep.message
  | .aborted .controlFlowBound => "a name cannot be bound to an error"

def finish (o : Outcome) : IO UInt32 := do
  IO.print o.output
  IO.eprint o.errors
  match o.ending with
  | .ok code => return code.toUInt32
  | .error e =>
    IO.eprintln (escapeMessage e)
    return 1

partial def interact (threshold : LogLevel) (r : Repl) (more : Bool) : IO UInt32 := do
  IO.print (Console.prompt more)
  (← IO.getStdout).flush
  let line ← (← IO.getStdin).getLine
  if line.isEmpty then
    IO.eprint "\n"
    return 0
  let (reply, r) := r.push defaultFrames (line.dropEndWhile (fun c => c = '\n' || c = '\r')).toString
  IO.print reply.output
  IO.eprint (Repl.lines (Console.recoveryLines threshold reply.recoveries))
  match reply.more with
  | .ok more => interact threshold r more
  | .error a => finish ⟨.error (.aborted a), "", ""⟩

def userName : IO String := do
  for name in ["LOGNAME", "USER", "LNAME", "USERNAME"] do
    if let some user ← IO.getEnv name then
      unless user.isEmpty do return user
  return "friend"

end Main

end Marmoset

open Marmoset in
def main (args : List String) : IO UInt32 := do
  let logSetting := (← IO.getEnv "LOGLEVEL").getD ""
  let user ← Main.userName
  match CommandLine.Command.ofArgs args with
  | .run mode none =>
    IO.eprint (Console.banner user)
    Main.interact (LogLevel.ofSetting logSetting) (Repl.start mode) false
  | .run _ (some path) =>
    let contents ← Main.readFile path
    Main.finish (Console.run defaultFrames ⟨args, logSetting, user, ""⟩ fun _ => contents)
  | _ =>
    Main.finish (Console.run defaultFrames ⟨args, logSetting, user, ""⟩ fun _ => .error .notFound)
