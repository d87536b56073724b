import Marmoset.Assoc
import Marmoset.Program.Basic
import Marmoset.Text.Escape

/-!
The values of the language. A value that is returned and an error travel as values too: they are
the control flow, and evaluation hands them on from wherever they arise.
-/

namespace Marmoset

inductive ValueType
  | null | boolean | integer | string | array | hash | function | builtin | returned | error
deriving DecidableEq

def ValueType.name : ValueType → String
  | null => "NULL"
  | boolean => "BOOLEAN"
  | integer => "INTEGER"
  | string => "STRING"
  | array => "ARRAY"
  | hash => "HASH"
  | function => "FUNCTION"
  | builtin => "BUILTIN"
  | returned => "RETURN_VALUE"
  | error => "ERROR"

inductive Builtin
  | len | first | last | rest | push | puts
deriving DecidableEq

namespace Builtin

def name : Builtin → String
  | len => "len"
  | first => "first"
  | last => "last"
  | rest => "rest"
  | push => "push"
  | puts => "puts"

def all : List Builtin :=
  [len, first, last, rest, push, puts]

theorem mem_all (b : Builtin) : b ∈ all := by
  cases b <;> simp [all]

def ofName? (s : String) : Option Builtin :=
  all.find? (·.name = s)

theorem name_of_ofName? {s : String} {b : Builtin} (h : ofName? s = some b) : b.name = s := by
  simpa using List.find?_some h

end Builtin

-- Arrays, hashes and functions are told apart by where they were made.
abbrev ObjectId := Nat

-- The names bound in one scope are kept under its number.
abbrev ScopeId := Nat

-- What is known of an error is kept under its number.
abbrev ErrorId := Nat

-- A scope and the scopes around it, the nearest first.
structure Scope where
  id : ScopeId
  outer : List ScopeId
deriving DecidableEq

-- A function together with the scope in which it was made.
structure Closure where
  id : ObjectId
  location : Location
  params : List Binder
  body : Block
  scope : Scope

inductive Callee
  | closure (c : Closure)
  | builtin (b : Builtin)

-- A call that an error has passed through.
structure Call where
  location : Option Location
  callee : Callee

-- Why evaluation fails.
inductive Fault
  | divisionByZero
  | typeMismatch (lhs : ValueType) (op : InfixOp) (rhs : ValueType)
  | unknownInfix (lhs : ValueType) (op : InfixOp) (rhs : ValueType)
  | unknownPrefix (op : PrefixOp) (operand : ValueType)
  | unbound (name : String)
  | unhashable (key : ValueType)
  | notIndexable (collection index : ValueType)
  | notCallable (callee : ValueType)
  | wrongArgumentCount (got want : Nat)
  | wrongArgument (callee : Builtin) (want got : ValueType)
  | noLength (argument : ValueType)
  | tooDeep
  | custom (message : String)
deriving DecidableEq

def Fault.message : Fault → String
  | divisionByZero => "division by zero"
  | typeMismatch l op r => "type mismatch: " ++ l.name ++ " " ++ op.text ++ " " ++ r.name
  | unknownInfix l op r => "unknown operator: " ++ l.name ++ " " ++ op.text ++ " " ++ r.name
  | unknownPrefix op t => "unknown operator: " ++ op.text ++ t.name
  | unbound name => "identifier not found: " ++ name
  | unhashable t => "unusable as hash key: " ++ t.name
  | notIndexable c i => "index operator not supported: " ++ c.name ++ "[" ++ i.name ++ "]"
  | notCallable t => "not a function: " ++ t.name
  | wrongArgumentCount got want =>
    "wrong number of arguments. got=" ++ toString got ++ ", want=" ++ toString want
  | wrongArgument b want got =>
    "argument to " ++ Text.quote b.name ++ " must be " ++ want.name ++ ", got " ++ got.name
  | noLength t => "argument to " ++ Text.quote "len" ++ " not supported, got " ++ t.name
  | tooDeep => "maximum recursion depth exceeded"
  | custom message => message

-- Where an error arose and the calls that it has passed through, the innermost first.
structure Diagnostic where
  location : Option Location
  trace : List Call

namespace Diagnostic

-- The diagnostic of an error that has passed through no call.
def fresh (location : Option Location) : Diagnostic :=
  ⟨location, []⟩

-- A place that is known stays.
def placed (d : Diagnostic) (location : Option Location) : Diagnostic :=
  { d with location := d.location.or location }

-- The diagnostic of an error as it leaves a call.
def within (d : Diagnostic) (location : Option Location) (callee : Callee) : Diagnostic :=
  { d with trace := d.trace ++ [⟨location, callee⟩] }

end Diagnostic

inductive Value
  | null
  | bool (b : Bool)
  | int (n : Int64)
  | string (s : String)
  | array (id : ObjectId) (elements : List Value)
  | hash (id : ObjectId) (entries : List (Value × Value))
  | function (c : Closure)
  | builtin (b : Builtin)
  | returned (v : Value)
  | error (id : ErrorId) (fault : Fault)

namespace Value

def type : Value → ValueType
  | null => .null
  | bool _ => .boolean
  | int _ => .integer
  | string _ => .string
  | array .. => .array
  | hash .. => .hash
  | function _ => .function
  | builtin _ => .builtin
  | returned _ => .returned
  | error .. => .error

def isTruthy : Value → Bool
  | null => false
  | bool b => b
  | _ => true

def isControlFlow : Value → Bool
  | returned _ | error .. => true
  | _ => false

-- Only values that are equal by what they hold may be keys.
def isHashable : Value → Bool
  | bool _ | int _ | string _ => true
  | _ => false

def ofNat (n : Nat) : Value :=
  .int (Int64.ofNat n)

-- What a value that is being returned holds; any other value is itself.
def unwrap : Value → Value
  | returned v => v
  | v => v

end Value

end Marmoset
