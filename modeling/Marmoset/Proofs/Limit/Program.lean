import Marmoset.Proofs.Data
import Marmoset.Proofs.Limit.Machine

/-!
The limit on how deep rules may nest matters only where it is met, as it does for evaluation. So
neither a program nor what it comes to depends on limits that are not met (`limit_irrelevant`).
-/

namespace Marmoset

namespace Parser

-- The second parser does the same as the first wherever that does not meet the limit.
def Widens (x y : Parser α) : Prop :=
  ∀ s, (∀ s', x s ≠ .error .tooDeep s') → y s = x s

namespace Widens

variable {x y : Parser α}

theorem refl (x : Parser α) : x.Widens x :=
  fun _ _ => rfl

theorem tooDeep : (tooDeep : Parser α).Widens y :=
  fun s h => absurd rfl (h s)

theorem bind {f g : α → Parser β} (hx : x.Widens y) (hf : ∀ a, (f a).Widens (g a)) :
    (x >>= f).Widens (y >>= g) := by
  intro s h
  simp only [Bind.bind, EStateM.bind] at h ⊢
  cases hr : x s
  case ok a s' =>
    simp only [hr] at h
    rw [hx s (by simp [hr]), hr]
    exact hf a s' h
  case error e s' =>
    simp only [hr] at h
    rw [hx s (by simpa [hr] using h), hr]

theorem ite {c : Prop} [Decidable c] {x' y' : Parser α} (h : x.Widens y) (h' : x'.Widens y') :
    (if c then x else x').Widens (if c then y else y') := by
  split
  case isTrue => exact h
  case isFalse => exact h'

-- One more item and those that are still to come.
theorem cons {xs ys : Parser (List α)} (h : x.Widens y) (hs : xs.Widens ys) :
    (do return (← x) :: (← xs) : Parser (List α)).Widens (do return (← y) :: (← ys)) :=
  h.bind fun _ => hs.bind fun _ => .refl _

theorem items (trailing : Bool) (close : Symbol) (h : x.Widens y) :
    (items trailing close x).Widens (items trailing close y) := by
  have go (n : Nat) (first : Bool) :
      (items.go trailing close x n first).Widens (items.go trailing close y n first) := by
    induction n generalizing first
    case zero => exact .refl _
    case succ n hi =>
      refine .bind (.refl _) fun _ => .ite (.refl _) (.ite (.cons h (hi false)) ?_)
      exact .bind (.refl _) fun _ => .bind (.refl _) fun _ => .ite (.refl _) (.cons h (hi false))
  exact .bind (.refl _) fun n => .bind (go _ true) fun _ => .refl _

theorem extend {p : Precedence} {step step' : Suffix → Expr → Parser Expr}
    (h : ∀ x e, (step x e).Widens (step' x e)) (e : Expr) :
    (extend p step e).Widens (extend p step' e) := by
  have go (n : Nat) (e : Expr) : (extend.go p step n e).Widens (extend.go p step' n e) := by
    induction n generalizing e
    case zero => exact .refl _
    case succ n hi =>
      refine .bind (.refl _) fun t => ?_
      split
      · exact .ite ((h _ e).bind hi) (.refl _)
      · exact .refl _
  exact .bind (.refl _) fun n => go n e

theorem statements {x y : Parser Stmt} (h : x.Widens y) :
    (statements x).Widens (statements y) := by
  have go (n : Nat) : (statements.go x n).Widens (statements.go y n) := by
    induction n
    case zero => exact .refl _
    case succ n hi =>
      refine .bind (.refl _) fun _ => .ite (.refl _) (.bind (.refl _) fun _ => ?_)
      exact .ite (.bind (.refl _) fun _ => .cons h hi) (.cons h hi)
  exact .bind (.refl _) fun n => go _

end Widens

-- No rule does anything else with `k` frames than with `n`, unless it needs more than `n`.
structure Widening (n k : Nat) : Prop where
  expression : ∀ p, (expression n p).Widens (expression k p)
  suffixed : ∀ x e, (suffixed n x e).Widens (suffixed k x e)
  prefixed : (prefixed n).Widens (prefixed k)
  grouped : (grouped n).Widens (grouped k)
  conditional : (conditional n).Widens (conditional k)
  function : (function n).Widens (function k)
  array : (array n).Widens (array k)
  hash : (hash n).Widens (hash k)
  block : (block n).Widens (block k)
  statement : (statement n).Widens (statement k)
  letStatement : (letStatement n).Widens (letStatement k)
  returnStatement : (returnStatement n).Widens (returnStatement k)
  expressionStatement : (expressionStatement n).Widens (expressionStatement k)

namespace Widening

theorem zero (k : Nat) : Widening 0 k := by
  constructor
  case expression => exact fun _ => .tooDeep
  case suffixed => exact fun _ _ => .tooDeep
  all_goals exact .tooDeep

variable {n k : Nat} (h : Widening n k)
include h

theorem leading : (leading n).Widens (leading k) := by
  refine .bind (.refl _) fun ⟨x, l⟩ => ?_
  cases x
  case keyword k =>
    cases k
    case kwIf => exact h.conditional
    case kwFn => exact h.function
    all_goals exact .refl _
  case symbol y =>
    cases y
    case bang | minus => exact h.prefixed
    case lparen => exact h.grouped
    case lbracket => exact h.array
    case lbrace => exact h.hash
    all_goals exact .refl _
  all_goals exact .refl _

theorem suffixed_succ (x : Suffix) (e : Expr) :
    (Parser.suffixed (n + 1) x e).Widens (Parser.suffixed (k + 1) x e) := by
  rw [Parser.suffixed, Parser.suffixed]
  refine .bind (.refl _) fun t => ?_
  cases x
  case infixOp => exact .bind (h.expression _) fun _ => .refl _
  case call => exact .bind (.items _ _ (h.expression _)) fun _ => .refl _
  case index => exact .bind (h.expression _) fun _ => .refl _

theorem conditional_succ : (Parser.conditional (n + 1)).Widens (Parser.conditional (k + 1)) := by
  rw [Parser.conditional, Parser.conditional]
  refine .bind (.refl _) fun t => .bind (.refl _) fun _ => .bind (h.expression _) fun c =>
    .bind (.refl _) fun _ => .bind h.block fun b => .bind (.refl _) fun _ => .ite ?_ (.refl _)
  exact .bind (.refl _) fun _ => .bind h.block fun _ => .refl _

theorem statement_succ : (Parser.statement (n + 1)).Widens (Parser.statement (k + 1)) := by
  rw [Parser.statement, Parser.statement]
  refine .bind (.refl _) fun t => ?_
  split
  · exact h.letStatement
  · exact h.returnStatement
  · exact h.expressionStatement

theorem succ : Widening (n + 1) (k + 1) where
  expression p := by
    rw [expression_succ, expression_succ]
    exact .bind h.leading fun e => .extend h.suffixed e
  suffixed := h.suffixed_succ
  prefixed := by
    rw [Parser.prefixed, Parser.prefixed]
    exact .bind (.refl _) fun t => .bind (h.expression _) fun _ => .refl _
  grouped := by
    rw [Parser.grouped, Parser.grouped]
    exact .bind (.refl _) fun _ => .bind (h.expression _) fun _ => .refl _
  conditional := h.conditional_succ
  function := by
    rw [Parser.function, Parser.function]
    exact .bind (.refl _) fun t => .bind (.refl _) fun _ => .bind (.refl _) fun ps =>
      .bind h.block fun _ => .refl _
  array := by
    rw [Parser.array, Parser.array]
    exact .bind (.refl _) fun t => .bind (.items _ _ (h.expression _)) fun _ => .refl _
  hash := by
    rw [Parser.hash, Parser.hash]
    refine .bind (.refl _) fun t => .bind (.items _ _ ?_) fun _ => .refl _
    exact .bind (h.expression _) fun _ => .bind (.refl _) fun _ => .bind (h.expression _) fun _ =>
      .refl _
  block := by
    rw [Parser.block, Parser.block]
    exact .bind (.refl _) fun t => .bind (.statements h.statement) fun _ => .refl _
  statement := h.statement_succ
  letStatement := by
    rw [Parser.letStatement, Parser.letStatement]
    exact .bind (.refl _) fun t => .bind (.refl _) fun b => .bind (.refl _) fun _ =>
      .bind (h.expression _) fun _ => .refl _
  returnStatement := by
    rw [Parser.returnStatement, Parser.returnStatement]
    exact .bind (.refl _) fun t => .bind (h.expression _) fun _ => .refl _
  expressionStatement := by
    rw [Parser.expressionStatement, Parser.expressionStatement]
    exact .bind (h.expression _) fun _ => .refl _

end Widening

theorem widening_of_le {n k : Nat} (h : n ≤ k) : Widening n k := by
  induction n generalizing k
  case zero => exact .zero k
  case succ n hi =>
    obtain ⟨k, rfl⟩ := Nat.exists_eq_add_of_le' (Nat.le_of_add_left_le h)
    exact (hi (Nat.le_of_succ_le_succ h)).succ

end Parser

namespace Parse

-- Somewhere in the text, rules nest beyond the limit.
def Overflows (p : Parse) : Prop :=
  SyntaxError.tooDeep ∈ p.errors

instance (p : Parse) : Decidable p.Overflows :=
  inferInstanceAs (Decidable (_ ∈ _))

variable {n k : Nat}

theorem statements_of_frames_le (h : n ≤ k) (i : Nat) (s : TokenStream)
    (hf : ∀ r ∈ (statements n i s).2.1, r.error ≠ .tooDeep) :
    statements k i s = statements n i s := by
  induction i generalizing s
  case zero => rfl
  case succ i hi =>
    unfold statements at hf ⊢
    split
    case isTrue => rfl
    case isFalse hp =>
      rw [if_neg hp] at hf
      have hw := (Parser.widening_of_le h).statement s
      cases hx : Parser.statement n s <;> simp only [hx] at hf hw
      case ok x s' => rw [hw (by simp)]; simp only [hi s' hf]
      case error e s' =>
        have ⟨he, hf⟩ := List.forall_mem_cons.mp hf
        rw [hw (by simpa using he)]
        simp only [hi _ hf]

end Parse

theorem parse_of_le (h : n ≤ k) {source : String} (hf : ¬(parse n source).Overflows) :
    parse k source = parse n source := by
  simp only [parse, Parse.ofStream]
  rw [Parse.statements_of_frames_le h]
  exact fun r hr he => hf (List.mem_map.mpr ⟨r, hr, he⟩)

-- What comes of a program or a text under a limit that is not met comes of it under every higher
-- one, so that all limits that are not met are as good as each other.
theorem limit_irrelevant (n k : Nat) :
    (∀ s p m, n ≤ k → ¬Program.Overflows n s p m →
      p.eval k s m = p.eval n s m ∧ ¬p.Overflows k s m) ∧
    (∀ source, n ≤ k → ¬(parse n source).Overflows → parse k source = parse n source) ∧
    (∀ s p m, ¬Program.Overflows n s p m → ¬Program.Overflows k s p m →
      p.eval n s m = p.eval k s m) ∧
    ∀ source, ¬(parse n source).Overflows → ¬(parse k source).Overflows →
      parse n source = parse k source := by
  refine ⟨fun s p m h hn => ?higher, fun _ h hn => parse_of_le h hn, fun s p m hn hk => ?eval,
    fun source hn hk => ?parse⟩
  case higher => exact ⟨Program.eval_of_le h hn, (Program.activation_of_le h hn).right⟩
  case eval =>
    cases Nat.le_total n k
    case inl h => exact (Program.eval_of_le h hn).symm
    case inr h => exact Program.eval_of_le h hk
  case parse =>
    cases Nat.le_total n k
    case inl h => exact (parse_of_le h hn).symm
    case inr h => exact parse_of_le h hk

-- A function that calls itself and prints: five frames are too few for it, and twenty-five are as
-- good as a thousand.
theorem limit_irrelevant_recursion :
    let source := "let f = fn(x) { if (x) { [x, f(false)] } else { 0 } }; puts(f(true))"
    let p := (parse 25 source).program
    let s := Session.scope
    let m := Session.start
    (p.Overflows 5 s m ∧ ¬p.Overflows 25 s m ∧ p.eval 1000 s m = p.eval 25 s m) ∧
      (parse 5 source).Overflows ∧ ¬(parse 25 source).Overflows ∧
        parse 1000 source = parse 25 source := by
  intro source p s m
  have ⟨he, hp, _⟩ := limit_irrelevant 25 1000
  have hn : ¬p.Overflows 25 s m := by decide +kernel
  have hf : ¬(parse 25 source).Overflows := by decide +kernel
  exact ⟨⟨by decide +kernel, hn, (he s p m (by decide) hn).left⟩, by decide +kernel, hf,
    hp source (by decide) hf⟩

end Marmoset
