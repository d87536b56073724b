import Marmoset.Proofs.Spelling
import Marmoset.Proofs.Transaction

/-!
What a session survives. Whatever it has been given before, it answers every text and can go on,
unless a program is to be shown that is too deep for that: nothing catches that the limit is met
there (`survives`). There are such programs for every limit, since a chain of calls is read by a
loop but written by a recursion (`unshowable_calls`).
-/

namespace Marmoset

namespace Repl

variable {frames : Nat} {r : Repl} {source : String}

-- The text is a program, but one that is too deep to be shown.
structure Unshowable (frames : Nat) (source : String) : Prop where
  errors : (parse frames source).errors = []
  complete : mayGoOn source = false
  deep : (parse frames source).program.source? frames = none

theorem run_of_unshowable (hm : r.mode = .ast) (h : Unshowable frames source) :
    r.run frames source = (⟨.error .tooDeep, "", []⟩, r) := by
  have hr : (parse frames source).recoveries = [] := List.map_eq_nil_iff.mp h.errors
  simp [run, hm, hr, h.complete, h.deep]

theorem run_answers_ast (hm : r.mode = .ast) (h : ¬Unshowable frames source) :
    ∃ more, (r.run frames source).1.more = .ok more := by
  simp only [run, hm]
  by_cases hr : (parse frames source).recoveries = []
  case neg =>
    rw [if_pos hr]
    split <;> exact ⟨_, rfl⟩
  case pos =>
    rw [if_neg (not_not_intro hr)]
    cases hc : mayGoOn source
    case true => exact ⟨true, rfl⟩
    case false =>
      cases hd : (parse frames source).program.source? frames
      case some => exact ⟨false, rfl⟩
      case none => exact absurd ⟨List.map_eq_nil_iff.mpr hr, hc, hd⟩ h

-- All other texts are answered.
theorem run_answers (hs : r.machine.Sound) (h : ¬(r.mode = .ast ∧ Unshowable frames source)) :
    ∃ more, (r.run frames source).1.more = .ok more := by
  by_cases hm : r.mode = .ast
  case pos => exact run_answers_ast hm fun hu => h ⟨hm, hu⟩
  case neg =>
    have ho := run_outcome frames source hs
    generalize r.run frames source = x at ho
    cases ho
    case overflows ha _ => exact absurd ha hm
    all_goals exact ⟨_, rfl⟩

-- What a session may be given: a text by itself, or a line, which is run with those that wait.
inductive Input
  | text (source : String)
  | line (l : String)

def take (frames : Nat) (r : Repl) : Input → Repl
  | .text source => (r.run frames source).2
  | .line l => (r.push frames l).2

def after (frames : Nat) (r : Repl) (earlier : List Input) : Repl :=
  earlier.foldl (take frames) r

theorem take_sound (frames : Nat) (hs : r.machine.Sound) (i : Input) :
    (r.take frames i).machine.Sound ∧ (r.take frames i).mode = r.mode := by
  cases i
  case text source => exact run_sound frames hs source
  case line l => exact push_sound frames hs l

theorem after_sound (frames : Nat) (hs : r.machine.Sound) (earlier : List Input) :
    (r.after frames earlier).machine.Sound ∧ (r.after frames earlier).mode = r.mode := by
  induction earlier generalizing r
  case nil => exact ⟨hs, rfl⟩
  case cons i earlier hi =>
    have ⟨ht, hm⟩ := take_sound frames hs i
    exact ⟨(hi ht).left, (hi ht).right.trans hm⟩

-- Whatever a session has been given, it answers every text, also where reading it, running it or
-- showing what it comes to meets the limit, and is ready for the next one. Only a program that is too
-- deep to be shown cuts it short; then nothing has been written, and nothing has changed.
theorem survives (frames : Nat) (mode : Mode) (earlier : List Input) (source : String) :
    let r := (start mode).after frames earlier
    ((∃ more, (r.run frames source).1.more = .ok more) ↔
        ¬(mode = .ast ∧ Unshowable frames source)) ∧
      (mode = .ast → Unshowable frames source →
        r.run frames source = (⟨.error .tooDeep, "", []⟩, r)) ∧
      (r.run frames source).2.machine.Sound ∧ (r.run frames source).2.mode = mode := by
  intro r
  have hs : (start mode).machine.Sound := (Session.start_admits .free).sound
  have ⟨hr, hm⟩ := after_sound frames hs earlier
  replace hm : r.mode = mode := hm
  have ⟨hr', hm'⟩ := run_sound frames hr source
  refine ⟨⟨?fails, fun h => run_answers hr (hm.symm ▸ h)⟩,
    fun ha => run_of_unshowable (hm.trans ha), hr', hm'.trans hm⟩
  case fails =>
    rintro ⟨more, h⟩ ⟨rfl, hu⟩
    rw [run_of_unshowable hm hu] at h
    nomatch h

-- A name with calls behind it: each calls what the one before it comes to.
def calls (n : Nat) : String :=
  "f" ++ String.join (List.replicate n "()") ++ ";"

def callTokens : Nat → List Lexeme
  | 0 => [.symbol .semicolon]
  | n + 1 => .symbol .lparen :: .symbol .rparen :: callTokens n

theorem lexemes_calls (n : Nat) : lexemes (calls n).toList = .ident "f" :: callTokens n := by
  have hf : (Lexeme.ident "f").Spelled := by decide +kernel
  have hl : Lexes ((List.replicate n "()").flatMap String.toList ++ ";".toList) (callTokens n) ∧
      Breaks ((List.replicate n "()").flatMap String.toList ++ ";".toList) := by
    induction n
    case zero => exact ⟨Lexes.nil.symbol (y := .semicolon) rfl, by rintro _ ⟨⟩; decide⟩
    case succ n hi =>
      exact ⟨(hi.left.symbol (y := .rparen) rfl).symbol (y := .lparen) rfl, .symbol .lparen⟩
  have ht : (calls n).toList =
      "f".toList ++ ((List.replicate n "()").flatMap String.toList ++ ";".toList) := by
    simp [calls, String.toList_join]
  rw [ht]
  exact ((Lexes.ident hf).append hl.left hl.right).eq

theorem length_callTokens (n : Nat) : (callTokens n).length = 2 * n + 1 := by
  induction n
  case zero => rfl
  case succ n hi => simp only [callTokens, List.length_cons, hi, Nat.mul_succ]

open Marmoset.Parser

-- The calls are read by a loop: it takes no more frames the more of them there are.
theorem extend_calls {n k : Nat} {ts : List Token} (ht : ts.map (·.lexeme) = callTokens n)
    (hk : n ≤ k) (i : Nat) (e : Expr) (stop : Location) :
    ∃ e' t, extend.go .lowest (suffixed (i + 1)) k e ⟨ts, stop⟩ = .ok e' ⟨[t], stop⟩ ∧
      t.lexeme = .symbol .semicolon ∧ e.depth + n ≤ e'.depth := by
  induction n generalizing k e ts
  case zero =>
    obtain ⟨⟨x, l⟩, rfl, rfl⟩ := List.map_eq_singleton_iff.mp ht
    exact ⟨e, _, by cases k <;> rfl, rfl, Nat.le_refl _⟩
  case succ n hi =>
    obtain ⟨k, rfl⟩ := Nat.exists_eq_add_of_le' (Nat.le_of_add_left_le hk)
    obtain ⟨⟨x, l⟩, us, rfl, rfl, hu⟩ := List.map_eq_cons_iff.mp ht
    obtain ⟨⟨y, r⟩, vs, rfl, rfl, hv⟩ := List.map_eq_cons_iff.mp hu
    have ⟨e', t, he, hx, hd⟩ := hi hv (Nat.le_of_succ_le_succ hk) (.call l e [])
    have hc : e.depth + 1 ≤ (Expr.call l e []).depth := Nat.succ_le_succ (Nat.le_max_left ..)
    exact ⟨e', t, he, hx, by omega⟩

theorem statement_calls {n : Nat} {ts : List Token}
    (ht : ts.map (·.lexeme) = .ident "f" :: callTokens n) (i : Nat) (stop : Location) :
    ∃ e, statement (i + 4) ⟨ts, stop⟩ = .ok (.expr e) ⟨[], stop⟩ ∧ n < e.depth := by
  obtain ⟨⟨x, l⟩, us, rfl, rfl, hu⟩ := List.map_eq_cons_iff.mp ht
  have hk : n ≤ us.length := by
    rw [← List.length_map (f := (·.lexeme)), hu, length_callTokens]
    omega
  obtain ⟨e, ⟨x, r⟩, he, rfl, hd⟩ := extend_calls hu hk i (.ident l "f") stop
  have hs : statement (i + 4) ⟨⟨.ident "f", l⟩ :: us, stop⟩ =
      ((extend.go .lowest (suffixed (i + 1)) us.length (.ident l "f") >>= fun e => do
        skipSemicolon
        return .expr e) : Parser Stmt) ⟨us, stop⟩ := rfl
  replace hd : 1 + n ≤ e.depth := hd
  refine ⟨e, ?_, by omega⟩
  rw [hs, bind_eq he, bind_eq skipSemicolon_cons]
  rfl

-- A text of one statement and nothing else.
theorem ofStream_of_statement {s : TokenStream} {x : Stmt} {stop : Location} (hp : s.pending ≠ [])
    (hx : statement frames s = .ok x ⟨[], stop⟩) :
    Parse.ofStream frames s = ⟨⟨s.current.location, [x]⟩, [], ⟨[], stop⟩⟩ := by
  obtain ⟨k, hk⟩ := Nat.exists_eq_add_of_le' (List.length_pos_iff.mpr hp)
  have hn : Parse.statements frames k ⟨[], stop⟩ = ([], [], ⟨[], stop⟩) := by cases k <;> rfl
  have hs : Parse.statements frames s.size s = ([x], [], ⟨[], stop⟩) := by
    rw [TokenStream.size, hk, Parse.statements, if_neg hp, hx]
    simp only [hn]
  simp only [Parse.ofStream, hs]

-- However high the limit is, some text is read without errors and is too deep to be shown.
theorem unshowable_calls {frames n : Nat} (hf : 4 ≤ frames) (hn : frames ≤ n) :
    Unshowable frames (calls n) := by
  obtain ⟨i, rfl⟩ := Nat.exists_eq_add_of_le' hf
  let s := TokenStream.ofSource (calls n)
  have hl : s.pending.map (·.lexeme) = .ident "f" :: callTokens n := lexemes_calls n
  have hs : s.pending ≠ [] := mt (congrArg (List.map (·.lexeme))) (by simp [hl])
  have ⟨e, he, hd⟩ := statement_calls hl i s.stop
  have hp := ofStream_of_statement hs he
  refine ⟨?errors, ?complete, ?deep⟩
  case errors => exact congrArg Parse.errors hp
  case complete =>
    have hb : Text.isBlank ';' = false := rfl
    simp [mayGoOn, Text.lastInk?, calls, hb]
  case deep =>
    have hi : ¬Program.depth ⟨s.current.location, [.expr e]⟩ ≤ i + 4 := by
      rw [show Program.depth ⟨_, [.expr e]⟩ = e.depth + 3 from rfl]
      omega
    rw [parse, hp]
    exact if_neg hi

-- Three thousand calls are read without errors, and there is no answer to them.
theorem uncaught_calls :
    let source := calls 3000
    (parse defaultFrames source).errors = [] ∧
      (start .ast).run defaultFrames source = (⟨.error .tooDeep, "", []⟩, start .ast) := by
  have hu : Unshowable defaultFrames (calls 3000) := unshowable_calls (by decide) (by decide)
  exact ⟨hu.errors, run_of_unshowable rfl hu⟩

end Repl

end Marmoset
