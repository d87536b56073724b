import Marmoset.Token.Scan

/-!
The tokens of a source text, and the stream a parser reads them from. After its last token a
stream stands at the end of the text and stays there.
-/

namespace Marmoset

structure TokenStream where
  pending : List Token
  -- Where the text ends.
  stop : Location

namespace TokenStream

def eof (s : TokenStream) : Token :=
  ⟨.eof, s.stop⟩

def current (s : TokenStream) : Token :=
  s.pending.headD s.eof

def advance (s : TokenStream) : TokenStream :=
  { s with pending := s.pending.tail }

def push (s : TokenStream) (t : Token) : TokenStream :=
  { s with pending := t :: s.pending }

-- The number of tokens before the end of the text.
def size (s : TokenStream) : Nat :=
  s.pending.length

-- The tokens of a text that begins at `l`.
def scan (l : Location) (cs : List Char) : TokenStream :=
  match _h : skipTrivia l false cs with
  | (here, []) => ⟨[], here⟩
  | (here, c :: rest) =>
    let t := Scan.token c rest
    (scan (here.after t.text) t.rest).push ⟨t.lexeme, here⟩
termination_by cs.length
decreasing_by
  have h₁ := length_skipTrivia_le l false cs
  have h₂ := Scan.length_rest_lt c rest
  rw [_h] at h₁
  exact Nat.lt_of_lt_of_le h₂ h₁

-- The tokens of a source text.
def ofSource (source : String) : TokenStream :=
  scan .start source.toList

-- All tokens, with the one that stands for the end of the text.
def toList (s : TokenStream) : List Token :=
  s.pending ++ [s.eof]

end TokenStream

end Marmoset
