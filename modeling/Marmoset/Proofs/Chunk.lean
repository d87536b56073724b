import Marmoset.Proofs.Derivable
import Marmoset.Proofs.Lines
import Marmoset.Proofs.Relocation.Machine

/-!
Programs that are cut in two behind the semicolon of a statement. Reading and running the parts
one after the other comes to what reading and running the whole does.
-/

namespace Marmoset

namespace Parse

variable {frames n m : Nat} {s s' : TokenStream}

theorem statements_of_nil (h : s.pending = []) : statements frames n s = ([], [], s) := by
  cases n
  case zero => rfl
  case succ => rw [statements, if_pos h]

theorem statements_of_ok (hp : s.pending ≠ []) (h : Parser.statement frames s = .ok x s') :
    statements frames (n + 1) s =
      (x :: (statements frames n s').1, (statements frames n s').2) := by
  rw [statements, if_neg hp, h]

theorem exists_statement (hp : s.pending ≠ []) (h : (statements frames (n + 1) s).2.1 = []) :
    ∃ x s', Parser.statement frames s = .ok x s' := by
  cases hx : Parser.statement frames s
  case ok x s' => exact ⟨x, s', rfl⟩
  case error =>
    rw [statements, if_neg hp, hx] at h
    cases h

-- A statement has a token, so more steps than there are tokens do not make a difference.
theorem statements_of_le (hn : s.size ≤ n) (hm : s.size ≤ m)
    (h : (statements frames n s).2.1 = []) : statements frames m s = statements frames n s := by
  induction n generalizing s m
  case zero =>
    have hp : s.pending = [] := List.length_eq_zero_iff.mp (Nat.le_zero.mp hn)
    rw [statements_of_nil hp, statements_of_nil hp]
  case succ n hi =>
    by_cases hp : s.pending = []
    case pos => rw [statements_of_nil hp, statements_of_nil hp]
    case neg =>
      have ⟨x, s', hx⟩ := exists_statement hp h
      have hl : s'.size < s.size := ((Parser.sound frames).statement s x s' hx).shortens
      rw [statements_of_ok hp hx] at h
      cases m
      case zero => omega
      case succ m =>
        rw [statements_of_ok hp hx, statements_of_ok hp hx, hi (m := m) (by omega) (by omega) h]

end Parse

-- The last token, if there is one, is a semicolon.
def Terminated (ts : List Token) : Prop :=
  ∀ t ∈ ts.getLast?, t.lexeme = .symbol .semicolon

theorem Terminated.of_suffix {ts us : List Token} (h : Terminated ts) (hs : us <:+ ts) :
    Terminated us := by
  intro t ht
  obtain ⟨vs, rfl⟩ := hs
  refine h t ?_
  rw [List.getLast?_append, ht]
  rfl

namespace Derives

variable {ts us : List Token}

-- A statement that ends in front of another or has its semicolon is read there whatever follows.
theorem statement_eq {vs : List Token} {stop : Location} (h : Derives .stmt ts x us)
    (hs : us = [] ∨ ∃ t ∈ us.head?, t.lexeme.StartsStmt) (ht : Terminated ts)
    (hy : ∃ y s, Parser.statement frames ⟨ts ++ vs, stop⟩ = .ok y s) :
    Parser.statement frames ⟨ts ++ vs, stop⟩ = .ok x ⟨us ++ vs, stop⟩ := by
  obtain rfl | hs := hs
  case inl =>
    cases h
    case closed h => exact (((h.append (by simp) vs).read stop).terminated frames).eq_of_ok hy
    case unclosed h =>
      have ⟨t, hn, us, he⟩ := h.ends
      subst he
      exact absurd (ht t List.getLast?_concat) hn
  case inr =>
    obtain ⟨t, hh, hs⟩ := hs
    obtain ⟨us, rfl⟩ := List.head?_eq_some_iff.mp hh
    have hn : (⟨t :: us ++ vs, stop⟩ : TokenStream).current.kind ≠ .symbol .semicolon :=
      Parser.kind_ne hs.ne.left
    exact ((h.append (by simp) vs).read stop frames hn hs.ne.right.right.left).eq_of_ok hy

end Derives

-- Behind a first part that ends in a semicolon, the second part is read as on its own.
theorem Parse.statements_append {frames n : Nat} {ts us : List Token} {stop : Location}
    (hn : (ts ++ us).length ≤ n) (hd : Derives .stmts ts xs []) (ht : Terminated ts)
    (h : (statements frames n ⟨ts ++ us, stop⟩).2.1 = []) :
    (statements frames n ⟨ts ++ us, stop⟩).1 = xs ++ (statements frames us.length ⟨us, stop⟩).1 ∧
      (statements frames us.length ⟨us, stop⟩).2.1 = [] := by
  induction xs generalizing n ts
  case nil =>
    cases hd
    simp only [List.nil_append] at hn h ⊢
    rw [statements_of_le hn (m := us.length) (Nat.le_refl _) h]
    exact ⟨rfl, h⟩
  case cons x xs hi =>
    cases hd
    case moreStmts vs hx hg =>
      have hl : vs.length < ts.length := hx.shortens
      have hp : ts ++ us ≠ [] :=
        List.append_ne_nil_of_left_ne_nil (List.ne_nil_of_length_pos (by omega)) us
      rw [List.length_append] at hn
      cases n
      case zero => omega
      case succ n =>
        have hy := hx.statement_eq hg.heads ht (exists_statement hp h)
        rw [statements_of_ok hp hy] at h ⊢
        have hi := hi (by rw [List.length_append]; omega) hg (ht.of_suffix hx.ends) h
        exact ⟨congrArg (x :: ·) hi.left, hi.right⟩

namespace Parse

theorem ofStream_append {frames : Nat} {ts us : List Token} {stop : Location}
    (hd : Derives .stmts ts xs []) (ht : Terminated ts)
    (h : (ofStream frames ⟨ts ++ us, stop⟩).recoveries = []) :
    (ofStream frames ⟨ts ++ us, stop⟩).program.statements =
        xs ++ (ofStream frames ⟨us, stop⟩).program.statements ∧
      (ofStream frames ⟨us, stop⟩).recoveries = [] :=
  statements_append (Nat.le_refl _) hd ht h

variable {frames : Nat} {f : Location → Location} {s s' : TokenStream}

-- Streams that only differ in places are read alike.
theorem ofStream_congr (h : s.relocate f = s'.relocate f)
    (hr : (ofStream frames s).recoveries = []) : (ofStream frames s').recoveries = [] ∧
      (ofStream frames s').program.statements.map (·.relocate f) =
        (ofStream frames s).program.statements.map (·.relocate f) := by
  have hp : (ofStream frames s').relocate f = (ofStream frames s).relocate f := by
    rw [← ofStream_relocate, ← ofStream_relocate, h]
  refine ⟨?_, congrArg (·.program.statements) hp⟩
  have he := congrArg (·.recoveries) hp
  simpa [relocate, hr] using he

end Parse

-- The machine that a run leaves, unless it is cut short or comes to an error or a return.
def Result.plain? : Result (Option Value) → Option Machine
  | .ok r m => if r.any (·.isControlFlow) then none else some m
  | .error .. => none

-- What came before does not matter to a run, since all of it was plain.
theorem Evaluator.plain?_sequence {run : Stmt → Eval (Option Value)} {last : Option Value}
    (hl : last.any (·.isControlFlow) = false) (xs : List Stmt) (m : Machine) :
    Result.plain? (sequence run last xs m) = Result.plain? (sequence run none xs m) := by
  cases xs
  case nil => simp [sequence, pure, EStateM.pure, Result.plain?, hl]
  case cons => rfl

namespace Eval

-- The machine that the statements leave, if the last one is reached and all of them are plain.
def complete? (frames : Nat) (s : Scope) (xs : List Stmt) (m : Machine) : Option Machine :=
  Result.plain? (Evaluator.sequence (stmt frames s) none xs m)

variable {frames : Nat} {s : Scope} {xs ys : List Stmt} {m m' : Machine}

theorem complete?_cons (x : Stmt) (xs : List Stmt) (m : Machine) :
    complete? frames s (x :: xs) m =
      (Result.plain? (stmt frames s x m)).bind (complete? frames s xs) := by
  unfold complete?
  rw [Evaluator.sequence]
  cases hx : stmt frames s x m
  case ok r m' =>
    rw [bind_of_ok hx]
    cases hr : r.any (·.isControlFlow)
    case false =>
      simp only [Bool.false_eq_true, if_false, Result.plain?, hr, Option.bind_some]
      exact Evaluator.plain?_sequence hr xs m'
    case true =>
      simp only [if_true, Result.plain?, hr, Option.bind_none, pure, EStateM.pure]
  case error =>
    rw [bind_of_error hx]
    rfl

theorem complete?_append (xs ys : List Stmt) (m : Machine) :
    complete? frames s (xs ++ ys) m =
      (complete? frames s xs m).bind (complete? frames s ys) := by
  induction xs generalizing m
  case nil => rfl
  case cons x xs hi =>
    rw [List.cons_append, complete?_cons, complete?_cons, Option.bind_assoc, funext hi]

theorem complete?_relocate (f : Location → Location) :
    complete? frames s (xs.map (·.relocate f)) (m.relocate f) =
      (complete? frames s xs m).map (·.relocate f) := by
  have hm : Moves f (Option.map (Value.relocate f)) (Evaluator.sequence (stmt frames s) none xs)
      (Evaluator.sequence (stmt frames s) none (xs.map (·.relocate f))) :=
    Evaluator.sequence_moves ((within_natural f frames).stmt s)
  unfold complete?
  cases hx : Evaluator.sequence (stmt frames s) none xs m
  case ok r m' =>
    rw [hm.of_ok hx]
    cases r
    case none => rfl
    case some v =>
      simp only [Result.plain?, Option.map_some, Option.any_some, Value.isControlFlow_relocate]
      split <;> rfl
  case error =>
    rw [hm.of_error hx]
    rfl

-- Statements that only differ in places leave machines that only differ in places.
theorem complete?_congr {f : Location → Location}
    (h : xs.map (·.relocate f) = ys.map (·.relocate f)) :
    (complete? frames s xs m).map (·.relocate f) = (complete? frames s ys m).map (·.relocate f) := by
  rw [← complete?_relocate, ← complete?_relocate, h]

theorem eval_of_complete? {p : Program} (h : complete? frames s p.statements m = some m') :
    ∃ r, p.eval frames s m = .ok r m' := by
  unfold complete? at h
  unfold Program.eval
  cases hx : Evaluator.sequence (stmt frames s) none p.statements m <;> rw [hx] at h
  case ok r m'' =>
    simp only [Result.plain?, Option.ite_none_left_eq_some, Option.some.injEq] at h
    exact ⟨_, by rw [h.right]⟩
  case error => cases h

end Eval

namespace TokenStream

-- Where a text begins does not matter but for the places of its tokens.
theorem scan_relocate (l l' : Location) (cs : List Char) :
    (scan l cs).relocate (fun _ => o) = (scan l' cs).relocate fun _ => o := by
  induction l, cs using scan_induction generalizing l'
  case trivia l cs here ht =>
    have ⟨here', ht'⟩ := exists_skipTrivia l' ht
    rw [scan_of_nil ht, scan_of_nil ht']
    rfl
  case token l cs here c rest ht hi =>
    have ⟨here', ht'⟩ := exists_skipTrivia l' ht
    rw [scan_of_cons ht, scan_of_cons ht', push_relocate, push_relocate, hi]
    rfl

end TokenStream

end Marmoset
