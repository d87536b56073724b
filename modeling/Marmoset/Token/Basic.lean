import Marmoset.Location
import Marmoset.Text.Escape
import Marmoset.Text.Printable

/-!
Tokens: what the scanner makes of a source text and the parser reads.
-/

namespace Marmoset

inductive Symbol
  | assign | plus | minus | bang | asterisk | slash | lt | gt | eq | notEq
  | comma | semicolon | colon | lparen | rparen | lbrace | rbrace | lbracket | rbracket
deriving DecidableEq

namespace Symbol

def text : Symbol → String
  | assign => "="
  | plus => "+"
  | minus => "-"
  | bang => "!"
  | asterisk => "*"
  | slash => "/"
  | lt => "<"
  | gt => ">"
  | eq => "=="
  | notEq => "!="
  | comma => ","
  | semicolon => ";"
  | colon => ":"
  | lparen => "("
  | rparen => ")"
  | lbrace => "\x7b"
  | rbrace => "\x7d"
  | lbracket => "["
  | rbracket => "]"

theorem toList_text_ne_nil (s : Symbol) : s.text.toList ≠ [] := by
  cases s <;> decide

def name : Symbol → String
  | assign => "ASSIGN"
  | plus => "PLUS"
  | minus => "MINUS"
  | bang => "BANG"
  | asterisk => "ASTERISK"
  | slash => "SLASH"
  | lt => "LT"
  | gt => "GT"
  | eq => "EQ"
  | notEq => "NOT_EQ"
  | comma => "COMMA"
  | semicolon => "SEMICOLON"
  | colon => "COLON"
  | lparen => "LPAREN"
  | rparen => "RPAREN"
  | lbrace => "LBRACE"
  | rbrace => "RBRACE"
  | lbracket => "LBRACKET"
  | rbracket => "RBRACKET"

end Symbol

inductive Keyword
  | kwFn | kwLet | kwTrue | kwFalse | kwIf | kwElse | kwReturn
deriving DecidableEq

namespace Keyword

def text : Keyword → String
  | kwFn => "fn"
  | kwLet => "let"
  | kwTrue => "true"
  | kwFalse => "false"
  | kwIf => "if"
  | kwElse => "else"
  | kwReturn => "return"

def name : Keyword → String
  | kwFn => "FUNCTION"
  | kwLet => "LET"
  | kwTrue => "TRUE"
  | kwFalse => "FALSE"
  | kwIf => "IF"
  | kwElse => "ELSE"
  | kwReturn => "RETURN"

def all : List Keyword :=
  [kwFn, kwLet, kwTrue, kwFalse, kwIf, kwElse, kwReturn]

theorem mem_all (k : Keyword) : k ∈ all := by
  cases k <;> simp [all]

def ofText? (s : String) : Option Keyword :=
  all.find? (·.text = s)

theorem text_of_ofText? {s : String} {k : Keyword} (h : ofText? s = some k) : k.text = s := by
  simpa using List.find?_some h

end Keyword

-- What a token is, without the text that a token of that kind may carry.
inductive TokenKind
  | illegal | eof | ident | int | string
  | symbol (s : Symbol)
  | keyword (k : Keyword)
deriving DecidableEq

namespace TokenKind

def name : TokenKind → String
  | illegal => "ILLEGAL"
  | eof => "EOF"
  | ident => "IDENT"
  | int => "INT"
  | string => "STRING"
  | symbol s => s.name
  | keyword k => k.name

-- How a message speaks of the kind: a symbol stands for itself.
def label : TokenKind → String
  | symbol s => s.text
  | k => k.name

-- The kind of token that a word makes.
def ofWord (s : String) : TokenKind :=
  (Keyword.ofText? s).elim ident keyword

end TokenKind

inductive Lexeme
  | illegal (text : String)
  | eof
  | ident (name : String)
  | int (digits : String)
  | string (contents : String)
  | symbol (s : Symbol)
  | keyword (k : Keyword)
deriving DecidableEq

namespace Lexeme

def kind : Lexeme → TokenKind
  | illegal _ => .illegal
  | eof => .eof
  | ident _ => .ident
  | int _ => .int
  | string _ => .string
  | symbol s => .symbol s
  | keyword k => .keyword k

-- The text that the token stands for; of a string literal, its contents.
def literal : Lexeme → String
  | illegal text => text
  | eof => ""
  | ident name => name
  | int digits => digits
  | string contents => contents
  | symbol s => s.text
  | keyword k => k.text

-- Characters that would not show are written by their code point.
def visible (c : Char) : String :=
  if Text.isPrintable c && c ≠ ' ' then c.toString
  else "0x" ++ Text.hex 2 c.toNat

-- The token as it is written in a message or a listing.
protected def toString : Lexeme → String
  | illegal text => String.join (text.toList.map visible)
  | eof => "end-of-file"
  | string contents => Text.literal contents
  | l => l.literal

instance : ToString Lexeme :=
  ⟨Lexeme.toString⟩

end Lexeme

structure Token where
  lexeme : Lexeme
  location : Location
deriving DecidableEq

namespace Token

abbrev kind (t : Token) : TokenKind :=
  t.lexeme.kind

abbrev literal (t : Token) : String :=
  t.lexeme.literal

instance : ToString Token :=
  ⟨(toString ·.lexeme)⟩

-- The token's line in a listing of tokens.
def listing (t : Token) : String :=
  t.kind.name ++ " " ++ Text.quote (toString t) ++ " " ++ t.location.bracketed

end Token

end Marmoset
