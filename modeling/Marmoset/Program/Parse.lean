import Marmoset.Program.Parser

/-!
Reading whole programs. A statement that does not parse is reported and passed over, and reading
goes on behind the next semicolon.
-/

namespace Marmoset

-- The number of frames that rules, evaluation and display may nest.
def defaultFrames : Nat :=
  1000

-- A syntax error, and where the text that was passed over for it begins.
structure Recovery where
  error : SyntaxError
  skippedFrom : Location

-- What reading a source text comes to.
structure Parse where
  program : Program
  recoveries : List Recovery
  rest : TokenStream

namespace TokenStream

-- Drops the tokens through the next semicolon, or all if there is none.
def skipStatement (s : TokenStream) : TokenStream :=
  { s with pending := (s.pending.dropWhile (·.kind ≠ .symbol .semicolon)).tail }

end TokenStream

namespace Parse

def errors (p : Parse) : List SyntaxError :=
  p.recoveries.map (·.error)

-- Reads statements to the end of the stream, at most as many as the first argument says.
def statements (frames : Nat) : Nat → TokenStream → List Stmt × List Recovery × TokenStream
  | 0, s => ([], [], s)
  | n + 1, s =>
    if s.pending = [] then ([], [], s)
    else
      match Parser.statement frames s with
      | .ok x s =>
        let (xs, rs, s) := statements frames n s
        (x :: xs, rs, s)
      | .error e s =>
        let (xs, rs, s') := statements frames n s.skipStatement
        (xs, ⟨e, s.current.location⟩ :: rs, s')

-- Each statement takes a token, and so does each recovery.
def ofStream (frames : Nat) (s : TokenStream) : Parse :=
  let (xs, rs, rest) := statements frames s.size s
  ⟨⟨s.current.location, xs⟩, rs, rest⟩

end Parse

def parse (frames : Nat) (source : String) : Parse :=
  .ofStream frames (.ofSource source)

end Marmoset
