import Marmoset.Proofs.Chunk

/-!
Parsing is local: a rule looks no further than at the token that it stops in front of, so it does
not matter how the text goes on behind that one. Behind tokens that end in a semicolon, statements
are read as on their own, whatever is wrong with those in front.
-/

namespace Marmoset

namespace TokenStream

-- One stream behind the other.
instance : Append TokenStream :=
  ⟨fun s u => ⟨s.pending ++ u.pending, u.stop⟩⟩

-- What is left of a stream once some of it has been read.
structure RestOf (s' s : TokenStream) : Prop where
  suffix : s'.pending <:+ s.pending
  stop : s'.stop = s.stop

variable {s s' s'' u : TokenStream}

@[simp]
theorem pending_append : (s ++ u).pending = s.pending ++ u.pending :=
  rfl

theorem append_of_nil (h : s.pending = []) : s ++ u = u := by
  change (⟨s.pending ++ u.pending, u.stop⟩ : TokenStream) = u
  rw [h]
  rfl

theorem size_append : (s ++ u).size = s.size + u.size :=
  List.length_append

theorem current_append (h : s.pending ≠ []) : (s ++ u).current = s.current := by
  obtain ⟨ts, stop⟩ := s
  cases ts
  case nil => exact absurd rfl h
  case cons => rfl

theorem advance_append (h : s.pending ≠ []) : (s ++ u).advance = s.advance ++ u := by
  obtain ⟨ts, stop⟩ := s
  cases ts
  case nil => exact absurd rfl h
  case cons => rfl

theorem size_pos (h : s.pending ≠ []) : 0 < s.size :=
  List.length_pos_iff.mpr h

namespace RestOf

theorem refl (s : TokenStream) : s.RestOf s :=
  ⟨List.suffix_rfl, rfl⟩

theorem trans (h' : s''.RestOf s') (h : s'.RestOf s) : s''.RestOf s :=
  ⟨h'.suffix.trans h.suffix, h'.stop.trans h.stop⟩

theorem advance (s : TokenStream) : s.advance.RestOf s :=
  ⟨List.tail_suffix _, rfl⟩

theorem size_le (h : s'.RestOf s) : s'.size ≤ s.size :=
  h.suffix.length_le

theorem ne_nil (h : s'.RestOf s) (hs : s'.pending ≠ []) : s.pending ≠ [] :=
  h.suffix.ne_nil hs

end RestOf

theorem size_advance_lt (h : s.pending ≠ []) : s.advance.size < s.size := by
  have := size_pos h
  rw [TokenStream.advance, size, List.length_tail]
  exact Nat.sub_one_lt_of_lt this

theorem size_skipStatement_lt (h : s'.RestOf s) (hs : s.pending ≠ []) :
    s'.skipStatement.size < s.size := by
  have hd := (List.dropWhile_suffix (l := s'.pending) (·.kind ≠ .symbol .semicolon)).length_le
  have := h.size_le
  have := size_pos hs
  simp only [skipStatement, size, List.length_tail] at *
  omega

-- A semicolon keeps what is behind it apart from what is passed over.
theorem skipStatement_append (ht : Terminated s.pending) (hs : s.pending ≠ []) :
    (s ++ u).skipStatement = s.skipStatement ++ u := by
  obtain ⟨ts, t, he⟩ := List.eq_nil_or_concat s.pending |>.resolve_left hs
  have hk : t.kind = .symbol .semicolon := congrArg Lexeme.kind (ht t (by simp [he]))
  have hd : s.pending.dropWhile (·.kind ≠ .symbol .semicolon) ≠ [] := by
    rw [he, List.concat_eq_append, List.dropWhile_append]
    split <;> simp [hk]
  have ha : (s.pending ++ u.pending).dropWhile (·.kind ≠ .symbol .semicolon) =
      s.pending.dropWhile (·.kind ≠ .symbol .semicolon) ++ u.pending := by
    rw [List.dropWhile_append, if_neg (by simpa using hd)]
  change (⟨((s.pending ++ u.pending).dropWhile _).tail, u.stop⟩ : TokenStream) =
    ⟨(s.pending.dropWhile _).tail ++ u.pending, u.stop⟩
  rw [ha, List.tail_append_of_ne_nil hd]

theorem skipStatement_restOf (s : TokenStream) : s.skipStatement.RestOf s :=
  ⟨(List.tail_suffix _).trans (List.dropWhile_suffix _), rfl⟩

end TokenStream

-- What ends in another token is not terminated.
theorem Terminated.ne_nil {ts us : List Token} (h : Terminated ts)
    (he : ∃ t : Token, t.lexeme ≠ .symbol .semicolon ∧ t :: us <:+ ts) : us ≠ [] := by
  rintro rfl
  obtain ⟨t, hn, vs, rfl⟩ := he
  exact hn (h t List.getLast?_concat)

namespace Parser

open TokenStream

variable {u s s' : TokenStream} {α β : Type}

theorem bind_error {x : Parser α} {f : α → Parser β} (h : (x >>= f) s = .error e s') :
    x s = .error e s' ∨ ∃ a s₁, x s = .ok a s₁ ∧ f a s₁ = .error e s' := by
  simp only [bind, EStateM.bind] at h
  split at h
  case h_1 a s₁ he => exact .inr ⟨a, s₁, he, h⟩
  case h_2 he =>
    cases h
    exact .inl he

-- What `x` does with `s`, `y` does with the stream that goes on with `u`, if this is settled before
-- the end of `s`. An error at the end has the place of the end, unless frames are lacking or the
-- last token was none that a statement may end with.
structure Agrees (u : TokenStream) (x y : Parser α) (s : TokenStream) : Prop where
  ok : ∀ a s', x s = .ok a s' → s'.RestOf s ∧ (s'.pending ≠ [] → y (s ++ u) = .ok a (s' ++ u))
  error : ∀ e s', x s = .error e s' → s'.RestOf s ∧
    (s'.pending ≠ [] → y (s ++ u) = .error e (s' ++ u)) ∧
    (s'.pending = [] → Terminated s.pending → e.location = some s.stop ∨ e = .tooDeep)

-- How the text goes on does not matter to the rule.
def Local (u : TokenStream) (x : Parser α) : Prop :=
  ∀ s, Agrees u x x s

-- The rule reads at least one token.
def Shortens (x : Parser α) : Prop :=
  ∀ s a s', x s = .ok a s' → s'.size < s.size

namespace Agrees

variable {x y : Parser α} {f g : α → Parser β}

protected theorem pure (a : α) : Agrees u (pure a) (pure a) s where
  ok _ _ h := by
    cases h
    exact ⟨.refl s, fun _ => rfl⟩
  error _ _ h := by cases h

protected theorem bind (hx : Agrees u x y s)
    (hf : ∀ a s', x s = .ok a s' → s'.RestOf s → Agrees u (f a) (g a) s') :
    Agrees u (x >>= f) (y >>= g) s where
  ok b s' h := by
    have ⟨a, s₁, ha, hb⟩ := bind_ok h
    have ⟨hr, hy⟩ := hx.ok a s₁ ha
    have ⟨hr', hg⟩ := (hf a s₁ ha hr).ok b s' hb
    refine ⟨hr'.trans hr, fun hs => ?_⟩
    rw [bind_eq (hy (hr'.ne_nil hs)), hg hs]
  error e s' h := by
    obtain ha | ⟨a, s₁, ha, hb⟩ := bind_error h
    case inl =>
      have ⟨hr, hy, he⟩ := hx.error e s' ha
      refine ⟨hr, fun hs => ?_, he⟩
      simp only [bind, EStateM.bind, hy hs]
    case inr =>
      have ⟨hr, hy⟩ := hx.ok a s₁ ha
      have ⟨hr', hg, he⟩ := (hf a s₁ ha hr).error e s' hb
      refine ⟨hr'.trans hr, fun hs => ?_, fun hs ht => ?_⟩
      · rw [bind_eq (hy (hr'.ne_nil hs)), hg hs]
      · exact hr.stop ▸ he hs (ht.of_suffix hr.suffix)

-- What is looked at is the same as long as there are tokens.
theorem peek {x' y' : Parser α} (h : Agrees u x y s) (hx : x' s = x s)
    (hy : s.pending ≠ [] → y' (s ++ u) = y (s ++ u)) : Agrees u x' y' s where
  ok a s' ha := by
    have ⟨hr, hs⟩ := h.ok a s' (hx ▸ ha)
    exact ⟨hr, fun hn => hy (hr.ne_nil hn) ▸ hs hn⟩
  error e s' ha := by
    have ⟨hr, hs, he⟩ := h.error e s' (hx ▸ ha)
    exact ⟨hr, fun hn => hy (hr.ne_nil hn) ▸ hs hn, he⟩

theorem current_bind {f g : Token → Parser β} (h : Agrees u (f s.current) (g s.current) s) :
    Agrees u (current >>= f) (current >>= g) s :=
  h.peek rfl fun hs => by rw [bind_eq (current_eq _), current_append hs]

theorem isAt_bind {k : TokenKind} {f g : Bool → Parser β} (h : ∀ b, Agrees u (f b) (g b) s) :
    Agrees u (isAt k >>= f) (isAt k >>= g) s := by
  refine (h (s.current.kind = k)).peek rfl fun hs => ?_
  change g (decide ((s ++ u).current.kind = k)) (s ++ u) = _
  rw [current_append hs]

theorem ite {c : Prop} [Decidable c] {x' y' : Parser α} (hx : Agrees u x y s)
    (hx' : Agrees u x' y' s) : Agrees u (if c then x else x') (if c then y else y') s := by
  split
  · exact hx
  · exact hx'

theorem advance (s : TokenStream) : Agrees u advance advance s where
  ok _ _ h := by
    cases h
    refine ⟨.advance s, fun hs => ?_⟩
    have hs := (RestOf.advance s).ne_nil hs
    rw [Parser.advance, current_append hs, advance_append hs]
  error _ _ h := by cases h

theorem fail_current (c : SyntaxError.Cause) :
    Agrees u (fail s.current c : Parser α) (fail s.current c) s where
  ok _ _ h := by cases h
  error _ _ h := by
    cases h
    refine ⟨.refl s, fun _ => rfl, fun hs _ => .inl ?_⟩
    rw [TokenStream.current, hs]
    rfl

theorem tooDeep (s : TokenStream) : Agrees u (tooDeep : Parser α) tooDeep s where
  ok _ _ h := by cases h
  error _ _ h := by
    cases h
    exact ⟨.refl s, fun _ => rfl, fun _ _ => .inr rfl⟩

theorem discard (h : Agrees u x y s) : Agrees u (discard x) (discard y) s := by
  have hd (x : Parser α) : Functor.discard x = x >>= fun _ => pure () := by
    funext s
    simp only [Functor.discard, Functor.mapConst, EStateM.map, bind, EStateM.bind,
      Function.comp]
    cases x s <;> rfl
  rw [hd, hd]
  exact h.bind fun _ _ _ _ => .pure ()

theorem expect (k : TokenKind) (s : TokenStream) : Agrees u (expect k) (expect k) s :=
  current_bind (.ite (.advance s) (fail_current _))

theorem skip (k : TokenKind) (s : TokenStream) :
    Agrees u (Functor.discard (Parser.expect k)) (Functor.discard (Parser.expect k)) s :=
  (expect k s).discard

theorem skipSemicolon (s : TokenStream) : Agrees u skipSemicolon skipSemicolon s :=
  isAt_bind fun _ => .ite (advance s).discard (.pure ())

-- A verdict on what has been read leaves the stream as it is. It does not come at the end of a
-- terminated text if that is not what has been read.
theorem judge (hx : Agrees u x x s)
    (he : ∀ a s', x s = .ok a s' →
      ∃ t : Token, t.lexeme ≠ .symbol .semicolon ∧ t :: s'.pending <:+ s.pending)
    (hf : ∀ a, (∃ b, f a = pure b) ∨ ∃ e, f a = throw e) : Agrees u (x >>= f) (x >>= f) s where
  ok b s' h := by
    have ⟨a, s₁, ha, hb⟩ := bind_ok h
    have ⟨hr, hy⟩ := hx.ok a s₁ ha
    obtain ⟨c, hc⟩ | ⟨e, hc⟩ := hf a <;> rw [hc] at hb <;> cases hb
    exact ⟨hr, fun hs => by rw [bind_eq (hy hs), hc]; rfl⟩
  error e s' h := by
    obtain ha | ⟨a, s₁, ha, hb⟩ := bind_error h
    case inl =>
      have ⟨hr, hy, he⟩ := hx.error e s' ha
      exact ⟨hr, fun hs => by simp only [bind, EStateM.bind, hy hs], he⟩
    case inr =>
      have ⟨hr, hy⟩ := hx.ok a s₁ ha
      obtain ⟨c, hc⟩ | ⟨e, hc⟩ := hf a <;> rw [hc] at hb <;> cases hb
      refine ⟨hr, fun hs => by rw [bind_eq (hy hs), hc]; rfl, fun hs ht => ?_⟩
      exact absurd hs (ht.ne_nil (he a _ ha))

variable {item : Parser α} {n m : Nat}

-- The loops may be given more steps for the longer stream.
theorem items_go {trailing : Bool} {close : Symbol} (hi : Local u item) (hl : Shortens item)
    (first : Bool) (hn : s.size < n) (hm : n ≤ m) :
    Agrees u (items.go trailing close item n first) (items.go trailing close item m first) s := by
  induction n generalizing m s first
  case zero => contradiction
  case succ n hg =>
    obtain ⟨m, rfl⟩ := Nat.exists_eq_add_of_lt hm
    have next (s : TokenStream) (hs : s.size < n + 1) : Agrees u
        (item >>= fun x => items.go trailing close item n false >>= fun xs => pure (x :: xs))
        (item >>= fun x => items.go trailing close item (n + m) false >>= fun xs =>
          pure (x :: xs)) s := by
      refine (hi s).bind fun x s' hx _ => ?_
      refine (hg false ?_ (Nat.le_add_right n m)).bind fun xs _ _ _ => .pure _
      exact Nat.lt_of_lt_of_le (hl s x s' hx) (Nat.le_of_lt_succ hs)
    refine isAt_bind fun _ => .ite (.pure []) (.ite (next s hn) ?_)
    refine (skip _ s).bind fun _ s' _ hr => isAt_bind fun _ => .ite (.pure []) ?_
    exact next s' (Nat.lt_of_le_of_lt hr.size_le hn)

theorem extend_go {p : Precedence} {step : Suffix → Expr → Parser Expr}
    (hs : ∀ x e, Local u (step x e))
    (hl : ∀ x e s a s', s.pending ≠ [] → step x e s = .ok a s' → s'.size < s.size) (e : Expr)
    (hn : s.size ≤ n) (hm : n ≤ m) :
    Agrees u (extend.go p step n e) (extend.go p step m e) s := by
  induction n generalizing m s e
  case zero =>
    have hp : s.pending = [] := List.length_eq_zero_iff.mp (Nat.le_zero.mp hn)
    constructor
    case ok =>
      intro _ _ h
      cases h
      exact ⟨.refl s, fun hs => absurd hp hs⟩
    case error =>
      intro _ _ h
      cases h
  case succ n hg =>
    obtain ⟨m, rfl⟩ := Nat.exists_eq_add_of_lt hm
    refine current_bind ?_
    cases hx : Suffix.ofLexeme? s.current.lexeme
    case none => exact .pure e
    case some x =>
      have hp : s.pending ≠ [] := by
        intro hp
        rw [TokenStream.current, hp] at hx
        cases hx
      refine .ite ((hs x e s).bind fun e' s' he _ => hg e' ?_ (Nat.le_add_right n m)) (.pure e)
      exact Nat.le_of_lt_succ (Nat.lt_of_lt_of_le (hl x e s e' s' hp he) hn)

theorem statements_go {statement : Parser Stmt} (hs : Local u statement)
    (hl : Shortens statement) (hn : s.size < n) (hm : n ≤ m) :
    Agrees u (statements.go statement n) (statements.go statement m) s := by
  induction n generalizing m s
  case zero => contradiction
  case succ n hg =>
    obtain ⟨m, rfl⟩ := Nat.exists_eq_add_of_lt hm
    have next (s : TokenStream) (hn : s.size < n + 1) : Agrees u
        (statement >>= fun x => statements.go statement n >>= fun xs => pure (x :: xs))
        (statement >>= fun x => statements.go statement (n + m) >>= fun xs =>
          pure (x :: xs)) s := by
      refine (hs s).bind fun x s' hx _ => ?_
      refine (hg ?_ (Nat.le_add_right n m)).bind fun xs _ _ _ => .pure _
      exact Nat.lt_of_lt_of_le (hl s x s' hx) (Nat.le_of_lt_succ hn)
    refine isAt_bind fun _ => .ite (.pure []) (isAt_bind fun _ => .ite ?_ (next s hn))
    exact (skip _ s).bind fun _ s' _ hr => next s' (Nat.lt_of_le_of_lt hr.size_le hn)

end Agrees

namespace Local

theorem items {trailing : Bool} {close : Symbol} {item : Parser α} (hi : Local u item)
    (hl : Shortens item) : Local u (items trailing close item) := by
  intro s
  have hg : Agrees u (items.go trailing close item (s.size + 1) true)
      (items.go trailing close item ((s ++ u).size + 1) true) s :=
    .items_go hi hl true (Nat.lt_succ_self _) (by rw [size_append]; omega)
  exact (hg.bind fun xs s' _ _ => (Agrees.skip _ s').bind fun _ _ _ _ => .pure xs).peek rfl
    fun _ => rfl

theorem extend {p : Precedence} {step : Suffix → Expr → Parser Expr}
    (hs : ∀ x e, Local u (step x e))
    (hl : ∀ x e s a s', s.pending ≠ [] → step x e s = .ok a s' → s'.size < s.size) (e : Expr) :
    Local u (extend p step e) := by
  intro s
  have hg : Agrees u (extend.go p step s.size e) (extend.go p step (s ++ u).size e) s :=
    .extend_go hs hl e (Nat.le_refl _) (by rw [size_append]; omega)
  exact hg.peek rfl fun _ => rfl

theorem statements {statement : Parser Stmt} (hs : Local u statement)
    (hl : Shortens statement) : Local u (statements statement) := by
  intro s
  have hg : Agrees u (statements.go statement (s.size + 1))
      (statements.go statement ((s ++ u).size + 1)) s :=
    .statements_go hs hl (Nat.lt_succ_self _) (by rw [size_append]; omega)
  exact hg.peek rfl fun _ => rfl

theorem binder : Local u binder :=
  fun s => (Agrees.expect _ s).bind fun t _ _ _ => .pure (Binder.mk t.location t.literal)

theorem identifier : Local u identifier :=
  fun s => (Agrees.expect _ s).bind fun t _ _ _ => .pure (Expr.ident t.location t.literal)

theorem string : Local u string :=
  fun s => (Agrees.expect _ s).bind fun t _ _ _ => .pure (Expr.string t.location t.literal)

-- A token that has been asked for is the last one that has been read.
theorem expect_last {k : TokenKind} (hk : k ≠ .symbol .semicolon) (he : k ≠ .eof)
    (h : expect k s = .ok t s') :
    ∃ t : Token, t.lexeme ≠ .symbol .semicolon ∧ t :: s'.pending <:+ s.pending := by
  have ⟨ht, hp⟩ := expect_ok h he
  exact ⟨t, fun hl => hk (ht ▸ congrArg Lexeme.kind hl), hp ▸ List.suffix_rfl⟩

theorem integer : Local u integer := by
  rw [integer_eq]
  refine fun s =>
    (Agrees.expect _ s).judge (fun t s' => expect_last (by simp) (by simp)) fun t => ?_
  split
  · exact .inl ⟨_, rfl⟩
  · exact .inr ⟨_, rfl⟩

theorem illegal : Local u illegal := by
  refine fun s =>
    (Agrees.expect _ s).judge (fun t s' => expect_last (by simp) (by simp)) fun t => ?_
  split
  · exact .inr ⟨_, rfl⟩
  · exact .inr ⟨_, rfl⟩

theorem boolean : Local u boolean := by
  intro s
  refine Agrees.current_bind ?_
  have hf (c : SyntaxError.Cause) : Agrees u (fail s.current c : Parser Expr) _ s :=
    .fail_current c
  generalize s.current = t at hf
  split
  · exact (Agrees.advance s).discard.bind fun _ _ _ _ => .pure (Expr.bool t.location true)
  · exact (Agrees.advance s).discard.bind fun _ _ _ _ => .pure (Expr.bool t.location false)
  · exact hf _

end Local

theorem shortens_expression (n : Nat) : Shortens (expression n .lowest) :=
  fun s e s' h => ((sound n).expression_lowest s e s' h).shortens

theorem shortens_statement (n : Nat) : Shortens (statement n) :=
  fun s x s' h => ((sound n).statement s x s' h).shortens

theorem shortens_binder : Shortens binder := by
  intro s b s' h
  rw [TokenStream.size, TokenStream.size, binder_reads s b s' h]
  exact Nat.lt_succ_self _

-- How the text goes on does not matter to the rules, given that many frames.
structure Locality (u : TokenStream) (n : Nat) : Prop where
  expression : ∀ p, Local u (expression n p)
  suffixed : ∀ x e, Local u (suffixed n x e)
  suffixed_lt : ∀ x e s a s', s.pending ≠ [] → Parser.suffixed n x e s = .ok a s' →
    s'.size < s.size
  prefixed : Local u (prefixed n)
  grouped : Local u (grouped n)
  conditional : Local u (conditional n)
  function : Local u (function n)
  array : Local u (array n)
  hash : Local u (hash n)
  block : Local u (block n)
  statement : Local u (statement n)
  letStatement : Local u (letStatement n)
  returnStatement : Local u (returnStatement n)
  expressionStatement : Local u (expressionStatement n)

namespace Locality

theorem zero : Locality u 0 := by
  constructor
  case suffixed_lt => exact fun _ _ _ _ _ _ h => nomatch h
  case expression => exact fun _ => Agrees.tooDeep
  case suffixed => exact fun _ _ => Agrees.tooDeep
  all_goals exact Agrees.tooDeep

variable {n : Nat} (h : Locality u n)
include h

theorem leading : Local u (leading n) := by
  intro s
  refine Agrees.current_bind ?_
  have hf (c : SyntaxError.Cause) : Agrees u (fail s.current c : Parser Expr) _ s :=
    .fail_current c
  generalize s.current = t at hf
  obtain ⟨x, l⟩ := t
  cases x
  case ident => exact Local.identifier s
  case int => exact Local.integer s
  case string => exact Local.string s
  case illegal => exact Local.illegal s
  case eof => exact hf _
  case keyword k =>
    cases k
    case kwTrue | kwFalse => exact Local.boolean s
    case kwIf => exact h.conditional s
    case kwFn => exact h.function s
    all_goals exact hf _
  case symbol y =>
    cases y
    case bang | minus => exact h.prefixed s
    case lparen => exact h.grouped s
    case lbracket => exact h.array s
    case lbrace => exact h.hash s
    all_goals exact hf _

theorem expression_succ (p : Precedence) : Local u (Parser.expression (n + 1) p) := by
  rw [Parser.expression_succ]
  exact fun s => (h.leading s).bind fun e s' _ _ => Local.extend h.suffixed h.suffixed_lt e s'

-- The token of a suffix is always taken.
theorem suffixed_eq (x : Suffix) (e : Expr) :
    ∃ f : Token → Parser Expr, Parser.suffixed (n + 1) x e = Parser.advance >>= f ∧
      ∀ t, Local u (f t) := by
  rw [Parser.suffixed]
  refine ⟨_, rfl, fun t s => ?_⟩
  obtain op | _ | _ := x
  case infixOp =>
    exact (h.expression _ s).bind fun b _ _ _ => .pure (Expr.infixOp t.location op e b)
  case call =>
    exact (Local.items (h.expression _) (shortens_expression n) s).bind fun as _ _ _ =>
      .pure (Expr.call t.location e as)
  case index =>
    exact (h.expression _ s).bind fun i s' _ _ => (Agrees.skip _ s').bind fun _ _ _ _ =>
      .pure (Expr.index t.location e i)

theorem suffixed_succ (x : Suffix) (e : Expr) : Local u (Parser.suffixed (n + 1) x e) := by
  have ⟨f, hx, hf⟩ := h.suffixed_eq x e
  exact hx ▸ fun s => (Agrees.advance s).bind fun t s' _ _ => hf t s'

theorem suffixed_lt_succ (x : Suffix) (e : Expr) (s : TokenStream) (e' : Expr) (s' : TokenStream)
    (hs : s.pending ≠ []) (hr : Parser.suffixed (n + 1) x e s = .ok e' s') : s'.size < s.size := by
  have ⟨f, hx, hf⟩ := h.suffixed_eq x e
  rw [hx] at hr
  have ⟨t, s₁, ht, hr⟩ := bind_ok hr
  cases ht
  exact Nat.lt_of_le_of_lt ((hf _ _).ok e' s' hr).left.size_le (size_advance_lt hs)

theorem prefixed_succ : Local u (Parser.prefixed (n + 1)) := by
  rw [Parser.prefixed]
  exact fun s => (Agrees.advance s).bind fun t s' _ _ => (h.expression _ s').bind fun e _ _ _ =>
    .pure (Expr.prefixOp t.location (.ofText t.literal) e)

theorem grouped_succ : Local u (Parser.grouped (n + 1)) := by
  rw [Parser.grouped]
  exact fun s => (Agrees.skip _ s).bind fun _ s' _ _ => (h.expression _ s').bind fun e s' _ _ =>
    (Agrees.skip _ s').bind fun _ _ _ _ => .pure e

theorem conditional_succ : Local u (Parser.conditional (n + 1)) := by
  rw [Parser.conditional]
  refine fun s => (Agrees.expect _ s).bind fun t s _ _ => (Agrees.skip _ s).bind fun _ s _ _ =>
    (h.expression _ s).bind fun c s _ _ => (Agrees.skip _ s).bind fun _ s _ _ =>
    (h.block s).bind fun b s _ _ => Agrees.isAt_bind fun _ => .ite ?_ ?_
  · exact (Agrees.advance s).discard.bind fun _ s _ _ => (h.block s).bind fun a _ _ _ =>
      .pure (Expr.cond t.location c b (some a))
  · exact .pure (Expr.cond t.location c b none)

theorem function_succ : Local u (Parser.function (n + 1)) := by
  rw [Parser.function]
  refine fun s => (Agrees.expect _ s).bind fun t s _ _ => (Agrees.skip _ s).bind fun _ s _ _ =>
    (Local.items Local.binder shortens_binder s).bind fun ps s _ _ =>
    (h.block s).judge (fun b s' hb => ((sound n).block s b s' hb).ends) fun b => ?_
  cases repeated? ps
  case none => exact .inl ⟨_, rfl⟩
  case some => exact .inr ⟨_, rfl⟩

theorem array_succ : Local u (Parser.array (n + 1)) := by
  rw [Parser.array]
  exact fun s => (Agrees.expect _ s).bind fun t s _ _ =>
    (Local.items (h.expression _) (shortens_expression n) s).bind fun es _ _ _ =>
    .pure (Expr.array t.location es)

theorem pair : Local u (pair n) :=
  fun s => (h.expression _ s).bind fun k s _ _ => (Agrees.skip _ s).bind fun _ s _ _ =>
    (h.expression _ s).bind fun v _ _ _ => .pure (k, v)

theorem shortens_pair : Shortens (Parser.pair n) := by
  intro s p s' hp
  have ⟨k, s₁, hk, hp⟩ := bind_ok hp
  have hr := (((Agrees.skip (.symbol .colon) s₁).bind fun _ s _ _ =>
    (h.expression .lowest s).bind fun v _ _ _ => .pure (k, v)).ok p s' hp).left
  exact Nat.lt_of_le_of_lt hr.size_le (shortens_expression n s k s₁ hk)

theorem hash_succ : Local u (Parser.hash (n + 1)) := by
  rw [Parser.hash]
  exact fun s => (Agrees.expect _ s).bind fun t s _ _ =>
    (Local.items h.pair h.shortens_pair s).bind fun ps _ _ _ => .pure (Expr.hash t.location ps)

theorem block_succ : Local u (Parser.block (n + 1)) := by
  rw [Parser.block]
  exact fun s => (Agrees.expect _ s).bind fun t s _ _ =>
    (Local.statements h.statement (shortens_statement n) s).bind fun ss s _ _ =>
    (Agrees.skip _ s).bind fun _ _ _ _ => .pure (Block.mk t.location ss)

theorem statement_succ : Local u (Parser.statement (n + 1)) := by
  rw [Parser.statement]
  intro s
  refine Agrees.current_bind ?_
  split
  · exact h.letStatement s
  · exact h.returnStatement s
  · exact h.expressionStatement s

theorem letStatement_succ : Local u (Parser.letStatement (n + 1)) := by
  rw [Parser.letStatement]
  exact fun s => (Agrees.expect _ s).bind fun t s _ _ => (Local.binder s).bind fun b s _ _ =>
    (Agrees.skip _ s).bind fun _ s _ _ => (h.expression _ s).bind fun e s _ _ =>
    (Agrees.skipSemicolon s).bind fun _ _ _ _ => .pure (Stmt.bind t.location b e)

theorem returnStatement_succ : Local u (Parser.returnStatement (n + 1)) := by
  rw [Parser.returnStatement]
  exact fun s => (Agrees.expect _ s).bind fun t s _ _ => (h.expression _ s).bind fun e s _ _ =>
    (Agrees.skipSemicolon s).bind fun _ _ _ _ => .pure (Stmt.ret t.location e)

theorem expressionStatement_succ : Local u (Parser.expressionStatement (n + 1)) := by
  rw [Parser.expressionStatement]
  exact fun s => (h.expression _ s).bind fun e s _ _ =>
    (Agrees.skipSemicolon s).bind fun _ _ _ _ => .pure (Stmt.expr e)

theorem succ : Locality u (n + 1) where
  expression := h.expression_succ
  suffixed := h.suffixed_succ
  suffixed_lt := h.suffixed_lt_succ
  prefixed := h.prefixed_succ
  grouped := h.grouped_succ
  conditional := h.conditional_succ
  function := h.function_succ
  array := h.array_succ
  hash := h.hash_succ
  block := h.block_succ
  statement := h.statement_succ
  letStatement := h.letStatement_succ
  returnStatement := h.returnStatement_succ
  expressionStatement := h.expressionStatement_succ

end Locality

theorem locality (u : TokenStream) (n : Nat) : Locality u n := by
  induction n
  case zero => exact .zero
  case succ hi => exact hi.succ

-- A terminated text that the rule reads to its end it reads whatever follows.
def Concludes (u : TokenStream) (x : Parser α) : Prop :=
  ∀ s a s', Terminated s.pending → x s = .ok a s' → s'.pending = [] →
    s.pending ≠ [] ∧ x (s ++ u) = .ok a (s' ++ u)

namespace Concludes

theorem bind {x : Parser α} {f : α → Parser β} (hx : Local u x) (hf : ∀ a, Concludes u (f a)) :
    Concludes u (x >>= f) := by
  intro s b s' ht h he
  have ⟨a, s₁, ha, hb⟩ := bind_ok h
  have ⟨hr, hy⟩ := (hx s).ok a s₁ ha
  have ⟨hp, hg⟩ := hf a s₁ b s' (ht.of_suffix hr.suffix) hb he
  exact ⟨hr.ne_nil hp, by rw [bind_eq (hy hp), hg]⟩

-- An expression does not end in a semicolon, so the semicolon has been read behind it.
theorem terminator (n : Nat) (f : Expr → Stmt) : Concludes u (do
    let e ← expression n .lowest
    skipSemicolon
    return f e) := by
  intro s x s' ht h he
  have ⟨e, s₁, hx, h⟩ := bind_ok h
  have ⟨hr, hy⟩ := ((locality u n).expression .lowest s).ok e s₁ hx
  have hp := ht.ne_nil ((sound n).expression_lowest s e s₁ hx).ends
  refine ⟨hr.ne_nil hp, ?_⟩
  rw [bind_eq (hy hp)]
  have ⟨_, s₂, hs, h⟩ := bind_ok h
  cases h
  obtain ⟨hk, hs⟩ | ⟨_, hs⟩ := isAt_ok hs
  case inl =>
    cases hs
    rw [← current_append (u := u) hp] at hk
    rw [skipSemicolon, bind_assoc, bind_eq (isAt_of_eq hk), ← advance_append hp]
    rfl
  case inr =>
    cases hs
    exact absurd he hp

theorem tooDeep : Concludes u (tooDeep : Parser α) := by
  intro s a s' _ h
  cases h

theorem current_bind {f : Token → Parser β} (hf : ∀ t, Concludes u (f t)) :
    Concludes u (current >>= f) := by
  intro s b s' ht h he
  have ⟨hp, hg⟩ := hf s.current s b s' ht h he
  refine ⟨hp, ?_⟩
  rw [bind_eq (current_eq _), current_append hp, hg]

theorem letStatement (n : Nat) : Concludes u (letStatement n) := by
  cases n
  case zero => exact tooDeep
  case succ n =>
    rw [Parser.letStatement]
    exact bind (Agrees.expect _) fun t => bind Local.binder fun b => bind (Agrees.skip _) fun _ =>
      terminator n (Stmt.bind t.location b)

theorem returnStatement (n : Nat) : Concludes u (returnStatement n) := by
  cases n
  case zero => exact tooDeep
  case succ n =>
    rw [Parser.returnStatement]
    exact bind (Agrees.expect _) fun t => terminator n (Stmt.ret t.location)

theorem expressionStatement (n : Nat) : Concludes u (expressionStatement n) := by
  cases n
  case zero => exact tooDeep
  case succ n =>
    rw [Parser.expressionStatement]
    exact terminator n Stmt.expr

theorem statement (n : Nat) : Concludes u (statement n) := by
  cases n
  case zero => exact tooDeep
  case succ n =>
    rw [Parser.statement]
    refine current_bind fun t => ?_
    split
    · exact letStatement n
    · exact returnStatement n
    · exact expressionStatement n

end Concludes

-- A statement of a terminated text is read alike however the text goes on.
theorem statement_append {n : Nat} {x : Stmt} (ht : Terminated s.pending)
    (h : statement n s = .ok x s') : statement n (s ++ u) = .ok x (s' ++ u) := by
  by_cases hs : s'.pending = []
  case pos => exact (Concludes.statement n s x s' ht h hs).right
  case neg => exact (((locality u n).statement s).ok x s' h).right hs

end Parser

namespace Parse

open TokenStream

variable {frames n m : Nat} {s u : TokenStream}

theorem statements_of_error {s' : TokenStream} (hp : s.pending ≠ [])
    (h : Parser.statement frames s = .error e s') :
    statements frames (n + 1) s =
      ((statements frames n s'.skipStatement).1,
        ⟨e, s'.current.location⟩ :: (statements frames n s'.skipStatement).2.1,
        (statements frames n s'.skipStatement).2.2) := by
  rw [statements, if_neg hp, h]

-- Each step takes a token, so more steps than there are tokens do not make a difference.
theorem statements_steps (hn : s.size ≤ n) (hm : s.size ≤ m) :
    statements frames n s = statements frames m s := by
  induction n generalizing s m
  case zero =>
    have hp : s.pending = [] := List.length_eq_zero_iff.mp (Nat.le_zero.mp hn)
    rw [statements_of_nil hp, statements_of_nil hp]
  case succ n hi =>
    by_cases hp : s.pending = []
    case pos => rw [statements_of_nil hp, statements_of_nil hp]
    case neg =>
      obtain ⟨m, rfl⟩ := Nat.exists_eq_add_of_lt (Nat.lt_of_lt_of_le (size_pos hp) hm)
      rw [Nat.zero_add] at hm ⊢
      cases hx : Parser.statement frames s
      case ok x s' =>
        have hl := Parser.shortens_statement frames s x s' hx
        rw [statements_of_ok hp hx, statements_of_ok hp hx, hi (m := m) (by omega) (by omega)]
      case error e s' =>
        have hs := ((Parser.locality s frames).statement s).error e s' hx
        have hl := size_skipStatement_lt hs.left hp
        rw [statements_of_error hp hx, statements_of_error hp hx,
          hi (m := m) (by omega) (by omega)]

-- With `u` behind it, `s` is read as on its own, and so is `u`.
def ReadApart (frames n m : Nat) (s u : TokenStream) : Prop :=
  (statements frames n (s ++ u)).1 =
      (statements frames m s).1 ++ (statements frames u.size u).1 ∧
    (statements frames n (s ++ u)).2.1 =
      (statements frames m s).2.1 ++ (statements frames u.size u).2.1

namespace ReadApart

theorem of_nil (hp : s.pending = []) (hn : (s ++ u).size ≤ n) : ReadApart frames n m s u := by
  rw [append_of_nil hp] at hn
  rw [ReadApart, append_of_nil hp, statements_steps hn (Nat.le_refl _), statements_of_nil hp]
  exact ⟨rfl, rfl⟩

variable {s' : TokenStream}

theorem of_ok (ht : Terminated s.pending) (hp : s.pending ≠ [])
    (hx : Parser.statement frames s = .ok x s') (h : ReadApart frames n m s' u) :
    ReadApart frames (n + 1) (m + 1) s u := by
  have hp' : (s ++ u).pending ≠ [] := List.append_ne_nil_of_left_ne_nil hp _
  rw [ReadApart, statements_of_ok hp hx, statements_of_ok hp' (Parser.statement_append ht hx)]
  exact ⟨congrArg (x :: ·) h.left, h.right⟩

-- An error that is not at the end of `s` is recovered from in `s`.
theorem of_error (ht : Terminated s.pending) (hp : s.pending ≠ [])
    (hx : Parser.statement frames s = .error e s') (hn : s'.pending ≠ [])
    (h : ReadApart frames n m s'.skipStatement u) : ReadApart frames (n + 1) (m + 1) s u := by
  have hp' : (s ++ u).pending ≠ [] := List.append_ne_nil_of_left_ne_nil hp _
  have ⟨hr, hy, _⟩ := ((Parser.locality u frames).statement s).error e s' hx
  rw [ReadApart, statements_of_error hp hx, statements_of_error hp' (hy hn), current_append hn,
    skipStatement_append (ht.of_suffix hr.suffix) hn]
  exact ⟨h.left, congrArg (_ :: ·) h.right⟩

end ReadApart

-- Behind a terminated text without an error at its end, what follows is read as on its own.
theorem statements_append_of_terminated (hn : (s ++ u).size ≤ n) (hm : s.size ≤ m)
    (ht : Terminated s.pending)
    (he : ∀ r ∈ (statements frames m s).2.1,
      r.error.location ≠ some s.stop ∧ r.error ≠ .tooDeep) : ReadApart frames n m s u := by
  induction m generalizing s n
  case zero => exact .of_nil (List.length_eq_zero_iff.mp (Nat.le_zero.mp hm)) hn
  case succ m hi =>
    by_cases hp : s.pending = []
    case pos => exact .of_nil hp hn
    case neg =>
      have hl := size_pos hp
      rw [size_append] at hn
      obtain ⟨n, rfl⟩ := Nat.exists_eq_add_of_lt (show 0 < n by omega)
      rw [Nat.zero_add] at hn ⊢
      cases hx : Parser.statement frames s
      case ok x s' =>
        have hl := Parser.shortens_statement frames s x s' hx
        have hr := (((Parser.locality u frames).statement s).ok x s' hx).left
        rw [statements_of_ok hp hx] at he
        exact .of_ok ht hp hx
          (hi (by rw [size_append]; omega) (by omega) (ht.of_suffix hr.suffix) (hr.stop ▸ he))
      case error e s' =>
        have ⟨hr, _, hs⟩ := ((Parser.locality u frames).statement s).error e s' hx
        rw [statements_of_error hp hx] at he
        have ⟨hd, hc⟩ := he _ List.mem_cons_self
        have hl := size_skipStatement_lt hr hp
        have hq := (skipStatement_restOf s').trans hr
        exact .of_error ht hp hx (fun hn => (hs hn ht).elim hd hc)
          (hi (by rw [size_append]; omega) (by omega) (ht.of_suffix hq.suffix)
            fun r hm => hq.stop ▸ he r (List.mem_cons_of_mem _ hm))

end Parse

end Marmoset
