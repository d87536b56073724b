import Marmoset.Location

/-!
Programs of the Monkey language as trees. Every node carries the place in the source that made
it; of an operator, a call or an index expression this is the place of the operator, of `(` or
of `[`.
-/

namespace Marmoset

inductive PrefixOp
  | not
  | negate
  -- No operand fits an operator that is neither of the two.
  | other (text : String)
deriving DecidableEq

namespace PrefixOp

def text : PrefixOp → String
  | not => "!"
  | negate => "-"
  | other text => text

def ofText (s : String) : PrefixOp :=
  if s = "!" then not else if s = "-" then negate else other s

@[simp]
theorem text_ofText (s : String) : (ofText s).text = s := by
  unfold ofText
  split <;> rename_i h
  · exact h.symm
  · split <;> rename_i h
    · exact h.symm
    · rfl

end PrefixOp

inductive InfixOp
  | add | sub | mul | div | lt | gt | eq | notEq
deriving DecidableEq

def InfixOp.text : InfixOp → String
  | add => "+"
  | sub => "-"
  | mul => "*"
  | div => "/"
  | lt => "<"
  | gt => ">"
  | eq => "=="
  | notEq => "!="

-- A name where it is bound: as a parameter or by `let`.
structure Binder where
  location : Location
  name : String
deriving DecidableEq

mutual

inductive Expr
  | ident (location : Location) (name : String)
  | int (location : Location) (value : Int64)
  | string (location : Location) (contents : String)
  | bool (location : Location) (value : Bool)
  | prefixOp (location : Location) (op : PrefixOp) (operand : Expr)
  | infixOp (location : Location) (op : InfixOp) (lhs rhs : Expr)
  | cond (location : Location) (condition : Expr) (consequence : Block)
      (alternative : Option Block)
  | fn (location : Location) (params : List Binder) (body : Block)
  | call (location : Location) (callee : Expr) (args : List Expr)
  | array (location : Location) (elements : List Expr)
  | hash (location : Location) (pairs : List (Expr × Expr))
  | index (location : Location) (collection index : Expr)

inductive Stmt
  | bind (location : Location) (target : Binder) (value : Expr)
  | ret (location : Location) (value : Expr)
  | expr (value : Expr)

inductive Block
  | mk (location : Location) (statements : List Stmt)

end

def Expr.location : Expr → Location
  | ident l _ | int l _ | string l _ | bool l _ | prefixOp l _ _ | infixOp l _ _ _ | cond l _ _ _
  | fn l _ _ | call l _ _ | array l _ | hash l _ | index l _ _ => l

def Stmt.location : Stmt → Location
  | bind l _ _ | ret l _ => l
  | expr e => e.location

def Block.location : Block → Location
  | mk l _ => l

def Block.statements : Block → List Stmt
  | mk _ ss => ss

structure Program where
  -- The place of the first token.
  location : Location
  statements : List Stmt

end Marmoset
