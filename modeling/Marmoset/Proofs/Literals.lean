import Mathlib.Data.Nat.Digits.Defs
import Marmoset.Proofs.Tiling

/-!
Integer literals. A run of digits is one token, of whatever length it is. It is accepted if and only
if its number, leading zeros aside, is one that a signed integer of 64 bits holds; either way, what
is read is the run and nothing else (`integer_literal`).
-/

namespace Marmoset

-- The number that digits stand for, the last digit being that of the ones.
def Numeral.value (ds : List Char) : Nat :=
  Nat.ofDigits 10 (ds.reverse.map fun c => c.toNat - '0'.toNat)

-- The expression is the literal at `l`, and holds the number of its digits.
def Expr.Holds (e : Expr) (l : Location) (ds : List Char) : Prop :=
  ∃ n : Int64, e = .int l n ∧ n.toInt = Numeral.value ds

-- The error is at `l` and quotes the digits, all of them.
def SyntaxError.Quotes (x : SyntaxError) (l : Location) (ds : List Char) : Prop :=
  x.location = some l ∧ x.message = "could not parse " ++ String.ofList ds ++ " as integer"

-- The result of a rule that meets the digits at `l`, in front of the given stream.
structure Parser.Judges (l : Location) (ds : List Char) (behind : TokenStream)
    (r : EStateM.Result SyntaxError TokenStream Expr) : Prop where
  accepts : (∃ e s, r = .ok e s) ↔ Numeral.value ds ≤ 2 ^ 63 - 1
  ok : ∀ e s, r = .ok e s → e.Holds l ds ∧ s = behind
  error : ∀ x s, r = .error x s → x.Quotes l ds ∧ s = behind

namespace Parser

theorem decimal_ofList (ds : List Char) : decimal (String.ofList ds) = Numeral.value ds := by
  rw [decimal, String.toList_ofList, Numeral.value, Nat.ofDigits_eq_foldr, List.foldr_map,
    List.foldr_reverse]
  congr
  funext n c
  exact Nat.add_comm _ _

theorem decimal_lt_iff (ds : List Char) :
    decimal (String.ofList ds) < integerBound ↔ Numeral.value ds ≤ 2 ^ 63 - 1 := by
  rw [decimal_ofList]
  exact Nat.lt_iff_le_pred (by decide)

-- The token of the literal.
def literal (l : Location) (ds : List Char) : Token :=
  ⟨.int (String.ofList ds), l⟩

variable {l : Location} {ds : List Char} {s : TokenStream}

theorem Judges.inRange {n : Int64} (h : Numeral.value ds ≤ 2 ^ 63 - 1)
    (hn : n.toInt = Numeral.value ds) : Judges l ds s (.ok (.int l n) s) where
  accepts := iff_of_true ⟨_, _, rfl⟩ h
  ok := by
    rintro _ _ ⟨⟩
    exact ⟨⟨n, rfl, hn⟩, rfl⟩
  error := by rintro _ _ ⟨⟩

theorem Judges.tooLarge (h : ¬Numeral.value ds ≤ 2 ^ 63 - 1) :
    Judges l ds s (.error ⟨some l, .integerTooLarge (String.ofList ds)⟩ s) where
  accepts := iff_of_false nofun h
  ok := nofun
  error := by
    rintro _ _ ⟨⟩
    exact ⟨⟨rfl, rfl⟩, rfl⟩

theorem integer_of_not_lt (h : ¬decimal (String.ofList ds) < integerBound) :
    integer (s.push (literal l ds)) =
      .error ⟨some l, .integerTooLarge (String.ofList ds)⟩ s := by
  rw [integer_eq, TokenStream.push, bind_eq (expect_cons (k := .int) rfl)]
  exact congrFun (if_neg h) _

-- The rule takes the token of the literal, whether it accepts it or not.
theorem judges_integer (l : Location) (ds : List Char) (s : TokenStream) :
    Judges l ds s (integer (s.push (literal l ds))) := by
  by_cases h : decimal (String.ofList ds) < integerBound
  case pos =>
    have hn := Int64.toInt_ofNat_of_lt h
    rw [decimal_ofList] at hn
    rw [TokenStream.push, literal, integer_of_lt h, decimal_ofList]
    exact .inRange ((decimal_lt_iff ds).mp h) hn
  case neg =>
    rw [integer_of_not_lt h]
    exact .tooLarge (mt (decimal_lt_iff ds).mpr h)

-- An expression that begins with the literal ends with it unless what follows extends it.
theorem expression_literal {q : Precedence} (n : Nat) (l : Location) (ds : List Char)
    (h : Numeral.value ds ≤ 2 ^ 63 - 1 → s.rank ≤ q.rank) :
    expression (n + 1) q (s.push (literal l ds)) = integer (s.push (literal l ds)) := by
  have hj := judges_integer l ds s
  have hl : leading n (s.push (literal l ds)) = integer (s.push (literal l ds)) :=
    leading_of_int rfl
  rw [expression_succ]
  generalize integer (s.push (literal l ds)) = r at hj hl
  cases r
  case ok e s' =>
    obtain ⟨_, rfl⟩ := hj.ok e s' rfl
    rw [bind_eq hl]
    exact extend_go_of_rank_le (h (hj.accepts.mp ⟨_, _, rfl⟩))
  case error x s' => exact bind_eq_error hl

-- In front of the end of the text, the literal is a statement.
theorem statement_literal (n : Nat) (l : Location) (ds : List Char) (hs : s.pending = []) :
    statement (n + 3) (s.push (literal l ds)) =
      (integer >>= fun e => pure (.expr e)) (s.push (literal l ds)) := by
  have hj := judges_integer l ds s
  have hk : s.current.kind ≠ .symbol .semicolon := by
    rw [TokenStream.current, hs]
    rintro ⟨⟩
  have hq : s.rank ≤ Precedence.lowest.rank := by
    rw [TokenStream.rank_of_size_le (Nat.le_of_eq (congrArg List.length hs))]
    exact Nat.zero_le _
  have he := expression_literal n l ds fun _ => hq
  have hx : (s.push (literal l ds)).current.lexeme.StartsExpr := trivial
  rw [statement_of_startsExpr hx, expressionStatement]
  generalize hr : integer (s.push (literal l ds)) = r at hj he
  cases r
  case ok e s' =>
    obtain ⟨_, rfl⟩ := hj.ok e s' rfl
    rw [bind_eq he, bind_eq hr, bind_eq (skipSemicolon_of_ne hk)]
  case error x s' => rw [bind_eq_error he, bind_eq_error hr]

end Parser

namespace Parse

-- A text of digits is a program, or has one error.
structure Judges (ds : List Char) (p : Parse) : Prop where
  accepts : p.errors = [] ↔ Numeral.value ds ≤ 2 ^ 63 - 1
  ok : p.errors = [] → ∃ e, p.program.statements = [.expr e] ∧ e.Holds .start ds
  error : p.errors ≠ [] →
    p.program.statements = [] ∧ ∃ x, p.errors = [x] ∧ x.Quotes .start ds

theorem judges_ofStream (n : Nat) {s : TokenStream} (hs : s.pending = []) (ds : List Char) :
    Judges ds (ofStream (n + 3) (s.push (Parser.literal .start ds))) := by
  have hj := Parser.judges_integer .start ds s
  have hx := Parser.statement_literal n .start ds hs
  have hp : (s.push (Parser.literal .start ds)).pending ≠ [] := List.cons_ne_nil _ _
  have hn : (s.push (Parser.literal .start ds)).size = 0 + 1 :=
    congrArg (List.length · + 1) hs
  unfold ofStream
  rw [hn]
  generalize hr : Parser.integer (s.push (Parser.literal .start ds)) = r at hj
  cases r
  case ok e s' =>
    obtain ⟨he, rfl⟩ := hj.ok e s' rfl
    rw [Parser.bind_eq hr] at hx
    rw [statements_of_ok hp hx]
    exact ⟨iff_of_true rfl (hj.accepts.mp ⟨_, _, rfl⟩), fun _ => ⟨e, rfl, he⟩, absurd rfl⟩
  case error x s' =>
    obtain ⟨hq, rfl⟩ := hj.error x s' rfl
    rw [Parser.bind_eq_error hr] at hx
    rw [statements_of_error hp hx]
    refine ⟨iff_of_false (List.cons_ne_nil _ _) (mt hj.accepts.mpr nofun), fun h => ?_, fun _ => ?_⟩
    · exact absurd h (List.cons_ne_nil _ _)
    · exact ⟨rfl, x, rfl, hq⟩

end Parse

-- A run of digits, wherever it is, is one token. The rule for integers judges it by its number, and
-- leaves what comes behind it; so does an expression that begins with it, unless it is accepted and
-- what comes behind extends it. All alone, it is judged alike as a text.
theorem integer_literal {ds rest : List Char} (hn : ds ≠ []) (hd : ∀ d ∈ ds, d.isDigit)
    (hr : ∀ c ∈ rest.head?, c.isDigit = false) (l : Location) (frames : Nat) :
    let s := TokenStream.scan l (ds ++ rest)
    let behind := TokenStream.scan (l.after ds) rest
    s = behind.push ⟨.int (String.ofList ds), l⟩ ∧
    Parser.Judges l ds behind (Parser.integer s) ∧
    (∀ q : Precedence, (Numeral.value ds ≤ 2 ^ 63 - 1 → behind.rank ≤ q.rank) →
      Parser.Judges l ds behind (Parser.expression (frames + 1) q s)) ∧
    Parse.Judges ds (parse (frames + 3) (String.ofList ds)) := by
  intro s behind
  obtain ⟨d, ds, rfl⟩ := List.exists_cons_of_ne_nil hn
  obtain ⟨hd, hds⟩ := List.forall_mem_cons.mp hd
  have hs : s = behind.push (Parser.literal l (d :: ds)) :=
    TokenStream.scan_token .nil (.int hd hds hr) l
  have ht : TokenStream.ofSource (String.ofList (d :: ds)) =
      TokenStream.push ⟨[], Location.start.after (d :: ds)⟩ (Parser.literal .start (d :: ds)) := by
    have hx : Spells (d :: ds) [] (.int (String.ofList (d :: ds))) := .int hd hds nofun
    have ht := TokenStream.scan_token .nil hx .start
    rw [TokenStream.scan_nil, List.append_nil] at ht
    rw [TokenStream.ofSource, String.toList_ofList]
    exact ht
  rw [hs, parse, ht]
  refine ⟨rfl, Parser.judges_integer .., fun q hq => ?_, Parse.judges_ofStream _ rfl _⟩
  rw [Parser.expression_literal frames l (d :: ds) hq]
  exact Parser.judges_integer ..

-- The least number that is out of range, with leading zeros in front of it.
theorem integer_literal_leadingZeros :
    let ds := "0009223372036854775808".toList
    let rest := " + 1".toList
    ds ≠ [] ∧ (∀ d ∈ ds, d.isDigit) ∧ (∀ c ∈ rest.head?, c.isDigit = false) ∧
      Numeral.value ds = 2 ^ 63 ∧
      ∃ x, Parser.integer (.scan ⟨3, 5⟩ (ds ++ rest)) = .error x (.scan ⟨3, 27⟩ rest) ∧
        x.location = some ⟨3, 5⟩ ∧
        x.message = "could not parse 0009223372036854775808 as integer" := by
  intro ds rest
  have hn : ds ≠ [] := by decide
  have hd : ∀ d ∈ ds, d.isDigit := List.all_eq_true.mp (by decide)
  have hr : ∀ c ∈ rest.head?, c.isDigit = false := by
    rintro c ⟨⟩
    rfl
  have hv : Numeral.value ds = 2 ^ 63 := by decide
  refine ⟨hn, hd, hr, hv, ?_⟩
  have ⟨_, hj, _⟩ := integer_literal hn hd hr ⟨3, 5⟩ 0
  generalize Parser.integer _ = r at hj ⊢
  cases r
  case ok e s =>
    have hl := hj.accepts.mp ⟨e, s, rfl⟩
    rw [hv] at hl
    exact absurd hl (by decide)
  case error x s =>
    obtain ⟨⟨hl, hm⟩, rfl⟩ := hj.error x s rfl
    exact ⟨x, rfl, hl, hm⟩

end Marmoset
