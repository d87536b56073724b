import Marmoset.Token.Basic

/-!
What can be wrong with a source text, and how it is reported.
-/

namespace Marmoset

namespace SyntaxError

inductive Cause
  | expected (kind : TokenKind) (found : Lexeme)
  | expectedExpression (found : Lexeme)
  | expectedBoolean (found : Lexeme)
  | unterminatedString
  | illegalCharacter (found : Lexeme)
  | integerTooLarge (digits : String)
  | duplicateParameter (name : String)
  | tooDeep
deriving DecidableEq

def Cause.message : Cause → String
  | expected kind found =>
    "expected " ++ Text.quote kind.label ++ ", found " ++ Text.quote (toString found)
  | expectedExpression found => "expected expression, found " ++ Text.quote (toString found)
  | expectedBoolean found => "expected boolean, found " ++ Text.quote (toString found)
  | unterminatedString => "unterminated string literal"
  | illegalCharacter found => "illegal character " ++ Text.quote (toString found)
  | integerTooLarge digits => "could not parse " ++ digits ++ " as integer"
  | duplicateParameter name => "duplicate function parameter " ++ Text.quote name
  | tooDeep => "maximum nesting depth exceeded"

-- A message with the place it is about, if it has one.
def located (location : Option Location) (message : String) : String :=
  match location with
  | some l => l.bracketed ++ " " ++ message
  | none => message

end SyntaxError

structure SyntaxError where
  location : Option Location
  cause : SyntaxError.Cause
deriving DecidableEq

namespace SyntaxError

-- Nesting beyond the limit is no fault of one place.
def tooDeep : SyntaxError :=
  ⟨none, .tooDeep⟩

def message (e : SyntaxError) : String :=
  e.cause.message

instance : ToString SyntaxError :=
  ⟨fun e => located e.location e.message⟩

end SyntaxError

end Marmoset
