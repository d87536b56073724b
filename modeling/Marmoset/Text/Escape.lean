/-!
String literals write a few characters as a backslash and a letter. `unescape?_escapeCode?` says
that reading such a pair gives back the character.
-/

namespace Marmoset.Text

-- What follows the backslash when the character is written as an escape.
def escapeCode? : Char → Option Char
  | '\t' => some 't'
  | '\n' => some 'n'
  | '\r' => some 'r'
  | '"' => some '"'
  | '\\' => some '\\'
  | _ => none

-- The character that a backslash followed by `c` stands for.
def unescape? : Char → Option Char
  | 't' => some '\t'
  | 'n' => some '\n'
  | 'r' => some '\r'
  | '"' => some '"'
  | '\\' => some '\\'
  | _ => none

theorem unescape?_escapeCode? {c e : Char} (h : escapeCode? c = some e) : unescape? e = some c := by
  unfold escapeCode? at h
  split at h <;> simp_all [unescape?] <;> subst h <;> rfl

def escapeChar (c : Char) : List Char :=
  match escapeCode? c with
  | some e => ['\\', e]
  | none => [c]

def escape (s : String) : String :=
  String.ofList (s.toList.flatMap escapeChar)

-- The text as a string literal.
def literal (s : String) : String :=
  "\"" ++ escape s ++ "\""

-- Sets text off in a message: in backticks, or in double quotes if it has a backtick itself.
def quote (s : String) : String :=
  if s.toList.contains '\x60' then "\"" ++ s ++ "\"" else "`" ++ s ++ "`"

-- The digits of `n` to base sixteen, at least `width` of them.
def hex (width n : Nat) : String :=
  String.ofList (digits.leftpad width '0')
where
  digits := Nat.toDigits 16 n

end Marmoset.Text
