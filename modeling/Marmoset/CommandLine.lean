import Marmoset.Repl
import Marmoset.Text.Numeral
import Marmoset.Text.Quoted

/-!
The command line: switches, which may be shortened as long as it is clear which is meant, and one
file. After `--` all arguments are plain.
-/

namespace Marmoset

namespace CommandLine

inductive Switch
  | help | tokens | ast
deriving DecidableEq

namespace Switch

-- All spellings, in the order in which they are listed.
def spellings : List (String × Switch) :=
  [("-h", help), ("--help", help), ("--tokens", tokens), ("--ast", ast)]

def label : Switch → String
  | help => "-h/--help"
  | tokens => "--tokens"
  | ast => "--ast"

def mode? : Switch → Option Mode
  | help => none
  | tokens => some .tokens
  | ast => some .ast

end Switch

inductive UsageError
  | ambiguous (arg : String) (spellings : List String)
  | ignoredValue (s : Switch) (value : String)
  | conflict (s earlier : Switch)
  | unrecognized (args : List String)

def UsageError.message : UsageError → String
  | ambiguous arg spellings =>
    "ambiguous option: " ++ arg ++ " could match " ++ ", ".intercalate spellings
  | ignoredValue s value =>
    "argument " ++ s.label ++ ": ignored explicit argument " ++ Text.quoted value
  | conflict s earlier => "argument " ++ s.label ++ ": not allowed with argument " ++ earlier.label
  | unrecognized args => "unrecognized arguments: " ++ " ".intercalate args

def usage : String :=
  "usage: monkey [-h] [--tokens | --ast] [file]\n"

def help : String :=
  Repl.lines
    ["usage: monkey [-h] [--tokens | --ast] [file]",
     "",
     "The Monkey Programming Language",
     "",
     "positional arguments:",
     "  file",
     "",
     "options:",
     "  -h, --help  show this help message and exit",
     "  --tokens    print the token stream instead of evaluating",
     "  --ast       print the parsed program instead of evaluating"]

-- An argument by itself. No switch takes a value.
inductive Arg
  | plain (text : String)
  | switch (s : Switch)
  | valued (s : Switch) (value : String)
  | unknown (text : String)

namespace Arg

-- Digits after a minus sign, perhaps with a point before the last of them.
def isNegativeNumber (arg : List Char) : Bool :=
  match arg with
  | '-' :: cs =>
    -- One line end after the number does no harm.
    let cs := if cs.getLast? = some '\n' then cs.dropLast else cs
    let (whole, rest) := cs.span Text.isDecimalDigit
    match rest with
    | [] => !whole.isEmpty
    | '.' :: places => !places.isEmpty && places.all Text.isDecimalDigit
    | _ => false
  | _ => false

-- An argument that is no switch, although it begins with a minus sign.
def unswitched (arg : String) : Arg :=
  if isNegativeNumber arg.toList || arg.toList.contains ' ' then .plain arg else .unknown arg

-- What follows `-h` in one argument: the same letter again and again, or else a value.
def afterHelp (cs : List Char) : Arg :=
  match cs.dropWhile (· = 'h') with
  | [] => .switch .help
  | cs => .valued .help (String.ofList cs)

-- A long switch is known by any beginning that it alone has.
def abbreviated (arg : String) (name : List Char) (value : Option String) :
    Except UsageError Arg :=
  match Switch.spellings.filter (name.isPrefixOf ·.1.toList) with
  | [] => .ok (unswitched arg)
  | [(_, s)] => .ok (value.elim (.switch s) (.valued s))
  | ss => .error (.ambiguous arg (ss.map (·.1)))

def ofString (arg : String) : Except UsageError Arg :=
  let (name, rest) := arg.toList.span (· ≠ '=')
  let value := rest.tail?.map String.ofList
  match arg.toList, Switch.spellings.lookup arg, Switch.spellings.lookup (String.ofList name) with
  | _, some s, _ => .ok (.switch s)
  | '-' :: 'h' :: '=' :: c :: cs, _, _ => .ok (afterHelp (c :: cs))
  | _, none, some s => .ok (value.elim (.switch s) (.valued s))
  | '-' :: '-' :: _, _, _ => abbreviated arg name value
  | '-' :: 'h' :: cs, _, _ => .ok (afterHelp cs)
  | '-' :: _ :: _, _, _ => .ok (unswitched arg)
  | _, _, _ => .ok (.plain arg)

end Arg

inductive Command
  | help
  | refuse (e : UsageError)
  | run (mode : Mode) (file : Option String)

-- What the arguments read so far have settled.
structure Settled where
  chosen : Option Switch
  file : Option String
  -- Whether the argument read last was the file.
  atFile : Bool
  extra : List String

namespace Settled

def nothing : Settled :=
  ⟨none, none, false, []⟩

def addExtra (st : Settled) (arg : String) : Settled :=
  { st with atFile := false, extra := st.extra ++ [arg] }

def addPlain (st : Settled) (arg : String) : Settled :=
  if st.file.isSome then st.addExtra arg else { st with file := some arg, atFile := true }

-- The plain arguments after `--`, which itself is one too many if the file came earlier.
def addAfterDashes (st : Settled) (args : List String) : Settled :=
  if st.file.isSome then
    { st with extra := st.extra ++ if st.atFile then args else "--" :: args }
  else { st with file := args.head?, extra := st.extra ++ args.tail }

def command (st : Settled) : Command :=
  if st.extra.isEmpty then .run ((st.chosen.bind (·.mode?)).getD .eval) st.file
  else .refuse (.unrecognized st.extra)

end Settled

-- Takes the arguments in order, then those after `--`; help ends it at once.
def take (after : Option (List String)) : Settled → List Arg → Command
  | st, [] => (after.elim st st.addAfterDashes).command
  | st, .plain arg :: args => take after (st.addPlain arg) args
  | st, .unknown arg :: args => take after (st.addExtra arg) args
  | _, .valued s value :: _ => .refuse (.ignoredValue s value)
  | _, .switch .help :: _ => .help
  | st, .switch s :: args =>
    match st.chosen with
    | some earlier =>
      if earlier = s then take after { st with atFile := false } args
      else .refuse (.conflict s earlier)
    | none => take after { st with chosen := some s, atFile := false } args

end CommandLine

open CommandLine in
-- The command that the arguments give. Each is read before any of them is taken.
def CommandLine.Command.ofArgs (args : List String) : Command :=
  let (before, rest) := args.span (· ≠ "--")
  match before.mapM Arg.ofString with
  | .error e => .refuse e
  | .ok as => take rest.tail? .nothing as

end Marmoset
