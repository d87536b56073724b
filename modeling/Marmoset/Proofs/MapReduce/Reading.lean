import Mathlib
import Marmoset.Proofs.Folding
import Marmoset.Proofs.Layout
import Marmoset.Proofs.Concatenation
import Marmoset.Proofs.Limit.Program

/-!
The text of a program that maps a function over an array and adds up what comes of it, with any
name in place of the array, and how it is read (`parse_mapReduce`).
-/

namespace Marmoset

open Folding

namespace MapReduce

-- The two functions, line by line.
def functions : List String :=
  ["\n",
   "        let map = fn(arr, f) \x7b\n",
   "            let iter = fn(arr, accumulated) \x7b\n",
   "                if (len(arr) == 0) \x7b\n",
   "                    accumulated\n",
   "                \x7d else \x7b\n",
   "                    iter(rest(arr), push(accumulated, f(first(arr))));\n",
   "                \x7d\n",
   "            \x7d;\n",
   "            iter(arr, []);\n",
   "        \x7d;\n",
   "        let reduce = fn(arr, initial, f) \x7b\n",
   "            let iter = fn(arr, result) \x7b\n",
   "                if (len(arr) == 0) \x7b\n",
   "                    result\n",
   "                \x7d else \x7b\n",
   "                    iter(rest(arr), f(result, first(arr)));\n",
   "                \x7d\n",
   "            \x7d;\n",
   "            iter(arr, initial);\n",
   "        \x7d;"]

-- How they are used.
def opening : String :=
  "\n        let doubled = map("

def closing : String :=
  ", fn(x) \x7b x * 2 \x7d);\n        reduce(doubled, 0, fn(a, b) \x7b a + b \x7d);\n        "

-- The program, with `xs` in place of the array.
def source (xs : String) : String :=
  String.join (functions ++ [opening, xs, closing])

def mapStep : Expr :=
  calling "push" [named "accumulated", calling "f" [calling "first" [named "arr"]]]

def reduceStep : Expr :=
  calling "f" [named "result", calling "first" [named "arr"]]

def binders (xs : List String) : List Binder :=
  xs.map (⟨.start, ·⟩)

def double : Block :=
  .mk .start [.expr (.infixOp .start .mul (named "x") (.int .start 2))]

def add : Block :=
  .mk .start [.expr (.infixOp .start .add (named "a") (named "b"))]

def mapBody : Block :=
  folder "accumulated" mapStep (.array .start [])

def reduceBody : Block :=
  folder "result" reduceStep (named "initial")

-- The program as it is read, but for places.
def program (name : String) : Program :=
  ⟨.start,
    [.bind .start ⟨.start, "map"⟩ (.fn .start (binders ["arr", "f"]) mapBody),
     .bind .start ⟨.start, "reduce"⟩ (.fn .start (binders ["arr", "initial", "f"]) reduceBody),
     .bind .start ⟨.start, "doubled"⟩
      (calling "map" [named name, .fn .start (binders ["x"]) double]),
     .expr (calling "reduce"
      [named "doubled", .int .start 0, .fn .start (binders ["a", "b"]) add])]⟩

/-!
Reading the program.
-/

-- The tokens of the program.
def lexed (name : String) : List Lexeme :=
  lexemes (functions.flatMap String.toList) ++ (lexemes opening.toList ++ .ident name ::
    lexemes closing.toList)

theorem toList_source (xs : String) : (source xs).toList =
    functions.flatMap String.toList ++ (opening.toList ++ (xs.toList ++ closing.toList)) := by
  simp [source, String.toList_join]

theorem functions_end : TokenStream.EndsInSemicolon .start (functions.flatMap String.toList) :=
  ⟨(functions.flatMap String.toList).dropLast, by decide +kernel, by decide +kernel⟩

theorem lexemes_functions (cs : List Char) : lexemes (functions.flatMap String.toList ++ cs) =
    lexemes (functions.flatMap String.toList) ++ lexemes cs := by
  rw [lexemes, TokenStream.scan_append_of_ends functions_end, TokenStream.pending_append,
    List.map_append, map_lexeme_scan, map_lexeme_scan]

-- The name is read by itself: there is a parenthesis before it and a comma behind it.
theorem lexemes_opening {name : String} (h : (Lexeme.ident name).Spelled) :
    lexemes (opening.toList ++ (name.toList ++ closing.toList)) =
      lexemes opening.toList ++ .ident name :: lexemes closing.toList := by
  have hd : (Lexeme.ident "doubled").Spelled := by decide +kernel
  have hm : (Lexeme.ident "map").Spelled := by decide +kernel
  have hl : Lexes ("\n        ".toList ++ (Keyword.kwLet.text.toList ++ ' ' :: ("doubled".toList ++
      ' ' :: (Symbol.assign.text.toList ++ ' ' :: ("map".toList ++ (Symbol.lparen.text.toList ++
        name.toList)))))) [.keyword .kwLet, .ident "doubled", .symbol .assign, .ident "map",
          .symbol .lparen, .ident name] :=
    .blanks rfl ((Lexes.keyword .kwLet).space ((Lexes.ident hd).space
      (.spaced .assign ((Lexes.ident hm).before rfl (Lexes.ident h)))))
  have ho : opening.toList = "\n        ".toList ++ (Keyword.kwLet.text.toList ++ ' ' ::
      ("doubled".toList ++ ' ' :: (Symbol.assign.text.toList ++ ' ' :: ("map".toList ++
        Symbol.lparen.text.toList)))) := by decide +kernel
  have hx : lexemes opening.toList = [.keyword .kwLet, .ident "doubled", .symbol .assign,
      .ident "map", .symbol .lparen] := by decide +kernel
  have hh : closing.toList.head? = some ',' := by decide +kernel
  have hc : Breaks closing.toList := by
    rw [Breaks, hh]
    rintro _ ⟨⟩
    decide
  have he := hl closing.toList hc
  rw [hx, ho]
  simpa only [List.append_assoc, List.cons_append, List.nil_append] using he

theorem lexemes_source {name : String} (h : (Lexeme.ident name).Spelled) :
    lexemes (source name).toList = lexed name := by
  rw [toList_source, lexemes_functions, lexemes_opening h]
  rfl

set_option maxRecDepth 20000 in
theorem ofStream_lexed (name : String) :
    Parse.ofStream 26 ⟨tokens (lexed name), .start⟩ = ⟨program name, [], ⟨[], .start⟩⟩ := by
  -- The name is left open, so this is not for `decide`.
  cbv

-- Reading takes twenty-six frames, however the name is spelled.
theorem parse_source_least {name : String} (h : (Lexeme.ident name).Spelled) :
    (parse 26 (source name)).relocate nowhere = ⟨program name, [], ⟨[], .start⟩⟩ := by
  rw [parse, ← Parse.ofStream_relocate, TokenStream.ofSource_relocate, lexemes_source h,
    ofStream_lexed]

theorem parse_mapReduce {frames : Nat} {name : String} (h : (Lexeme.ident name).Spelled)
    (hf : 26 ≤ frames ∨ ¬(parse frames (source name)).Overflows) :
    (parse frames (source name)).errors = [] ∧
      (parse frames (source name)).program.relocate nowhere = program name := by
  have hl := parse_source_least h
  have he : (parse 26 (source name)).errors = [] := by
    have hr := congrArg (·.recoveries) hl
    rw [Parse.errors, List.map_eq_nil_iff.mp hr, List.map_nil]
  have ho : ¬(parse 26 (source name)).Overflows := by
    rw [Parse.Overflows, he]
    exact List.not_mem_nil
  have hp : parse frames (source name) = parse 26 (source name) := by
    cases Nat.le_total 26 frames
    case inl hn => exact parse_of_le hn ho
    case inr hn =>
      cases hf
      case inl hf => exact Nat.le_antisymm hn hf ▸ rfl
      case inr hf => exact (parse_of_le hn hf).symm
  rw [hp]
  exact ⟨he, congrArg (·.program) hl⟩

end MapReduce

end Marmoset
