import Marmoset.Program.Basic
import Marmoset.Text.Escape

/-!
The source text of a program in its canonical form: every operator in parentheses, one statement
a line. `depth` counts the nested steps that writing a node takes.
-/

namespace Marmoset

mutual

def Expr.source : Expr → String
  | .ident _ name => name
  | .int _ n => toString n.toInt
  | .string _ s => Text.literal s
  | .bool _ b => if b then "true" else "false"
  | .prefixOp _ op e => "(" ++ op.text ++ e.source ++ ")"
  | .infixOp _ op l r => "(" ++ l.source ++ " " ++ op.text ++ " " ++ r.source ++ ")"
  | .cond _ c b none => "if " ++ c.source ++ " " ++ b.source
  | .cond _ c b (some a) => "if " ++ c.source ++ " " ++ b.source ++ " else " ++ a.source
  | .fn _ ps b => "fn(" ++ ", ".intercalate (ps.map (·.name)) ++ ") " ++ b.source
  | .call _ f as => f.source ++ "(" ++ ", ".intercalate (Expr.sources as) ++ ")"
  | .array _ es => "[" ++ ", ".intercalate (Expr.sources es) ++ "]"
  | .hash _ ps => "\x7b" ++ ", ".intercalate (Expr.pairSources ps) ++ "\x7d"
  | .index _ c i => "(" ++ c.source ++ "[" ++ i.source ++ "])"

def Expr.sources : List Expr → List String
  | [] => []
  | e :: es => e.source :: Expr.sources es

def Expr.pairSources : List (Expr × Expr) → List String
  | [] => []
  | (k, v) :: ps => (k.source ++ ": " ++ v.source) :: Expr.pairSources ps

def Stmt.source : Stmt → String
  | .bind _ b e => "let " ++ b.name ++ " = " ++ e.source ++ ";"
  | .ret _ e => "return " ++ e.source ++ ";"
  | .expr e => e.source

def Stmt.sources : List Stmt → List String
  | [] => []
  | s :: ss => s.source :: Stmt.sources ss

def Block.source : Block → String
  | .mk _ [] => "\x7b\x7d"
  | .mk _ (s :: ss) => "\x7b " ++ " ".intercalate (s.source :: Stmt.sources ss) ++ " \x7d"

end

attribute [simp] Expr.source Stmt.source Block.source

theorem Expr.sources_eq_map (es : List Expr) : sources es = es.map source := by
  induction es <;> simp_all [sources]

theorem Expr.pairSources_eq_map (ps : List (Expr × Expr)) :
    pairSources ps = ps.map fun p => p.1.source ++ ": " ++ p.2.source := by
  induction ps <;> simp_all [pairSources]

theorem Stmt.sources_eq_map (ss : List Stmt) : sources ss = ss.map source := by
  induction ss <;> simp_all [sources]

mutual

def Expr.depth : Expr → Nat
  | .ident .. | .int .. | .string .. | .bool .. => 1
  | .prefixOp _ _ e => e.depth + 1
  | .infixOp _ _ l r => max l.depth r.depth + 1
  | .cond _ c b none => max c.depth b.depth + 1
  | .cond _ c b (some a) => max c.depth (max b.depth a.depth) + 1
  | .fn _ _ b => max 2 b.depth + 1
  | .call _ f as => max f.depth (Expr.depths as + 1) + 1
  | .array _ es => Expr.depths es + 2
  | .hash _ ps => Expr.pairDepths ps + 2
  | .index _ c i => max c.depth i.depth + 1

def Expr.depths : List Expr → Nat
  | [] => 0
  | e :: es => max e.depth (Expr.depths es)

def Expr.pairDepths : List (Expr × Expr) → Nat
  | [] => 0
  | (k, v) :: ps => max (max k.depth v.depth) (Expr.pairDepths ps)

def Stmt.depth : Stmt → Nat
  | .bind _ _ e | .ret _ e | .expr e => e.depth + 1

def Stmt.depths : List Stmt → Nat
  | [] => 0
  | s :: ss => max s.depth (Stmt.depths ss)

def Block.depth : Block → Nat
  | .mk _ ss => Stmt.depths ss + 2

end

namespace Program

def source (p : Program) : String :=
  "\n".intercalate (p.statements.map Stmt.source)

def depth (p : Program) : Nat :=
  Stmt.depths p.statements + 2

end Program

/-!
`source?` is the source unless writing it takes more than `frames` nested steps.
-/

def Expr.source? (frames : Nat) (e : Expr) : Option String :=
  if e.depth ≤ frames then some e.source else none

def Stmt.source? (frames : Nat) (s : Stmt) : Option String :=
  if s.depth ≤ frames then some s.source else none

def Block.source? (frames : Nat) (b : Block) : Option String :=
  if b.depth ≤ frames then some b.source else none

def Program.source? (frames : Nat) (p : Program) : Option String :=
  if p.depth ≤ frames then some p.source else none

end Marmoset
