import Marmoset.Proofs.Locality

/-!
What a rule does is settled by the tokens that it reads and the one that it stops in front of
(`Parser.settled`). An error that names a token is raised where that token is found; every other one
is about a token that has been read.
-/

namespace Marmoset

namespace TokenStream

-- The stream with tokens in front of it.
def prepend (s : TokenStream) (ts : List Token) : TokenStream :=
  { s with pending := ts ++ s.pending }

-- Both streams go on with the same token, unless they are at their end and the same.
def SameHead (s v : TokenStream) : Prop :=
  v = s ∨ ∃ t, s.pending.head? = some t ∧ v.pending.head? = some t

variable {s s' v : TokenStream} {ts us : List Token} {t : Token}

@[simp]
theorem prepend_nil (s : TokenStream) : s.prepend [] = s :=
  rfl

theorem prepend_append (s : TokenStream) (ts us : List Token) :
    s.prepend (ts ++ us) = (s.prepend us).prepend ts := by
  simp [prepend]

theorem size_prepend : (s.prepend ts).size = ts.length + s.size :=
  List.length_append

theorem restOf_prepend (s : TokenStream) (ts : List Token) : s.RestOf (s.prepend ts) :=
  ⟨List.suffix_append ts _, rfl⟩

theorem eq_prepend (h : s.current.kind ≠ .eof) : s = s.advance.prepend [s.current] := by
  obtain ⟨ts, stop⟩ := s
  cases ts
  case nil => exact absurd rfl h
  case cons => rfl

theorem eq_singleton_of_prepend (h : s = s'.prepend ts) (hp : s.pending = t :: s'.pending) :
    ts = [t] := by
  have he : ts ++ s'.pending = [t] ++ s'.pending := (congrArg pending h).symm.trans hp
  exact List.append_cancel_right he

theorem head?_toList (s : TokenStream) : s.toList.head? = some s.current := by
  obtain ⟨ts, stop⟩ := s
  cases ts <;> rfl

theorem toList_prepend (s : TokenStream) (ts : List Token) :
    (s.prepend ts).toList = ts ++ s.toList :=
  List.append_assoc ..

theorem prepend_inj (h : s.prepend ts = s.prepend us) : ts = us :=
  List.append_cancel_right (congrArg pending h)

namespace SameHead

theorem current (h : s.SameHead v) : v.current = s.current := by
  obtain rfl | ⟨t, hs, hv⟩ := h
  · rfl
  · simp only [TokenStream.current, List.headD_eq_head?_getD, hs, hv, Option.getD_some]

theorem prepend (h : s.SameHead v) (ts : List Token) :
    (s.prepend ts).SameHead (v.prepend ts) := by
  cases ts
  case nil => exact h
  case cons t ts => exact .inr ⟨t, rfl, rfl⟩

end SameHead

end TokenStream

namespace SyntaxError

-- The token that stands where another one is expected.
def Cause.found? : Cause → Option Lexeme
  | expected _ x | expectedExpression x | expectedBoolean x => some x
  | _ => none

-- Where the error is, once the tokens have been read and `t` comes next.
inductive Raised (ts : List Token) (t : Token) : SyntaxError → Prop
  | found : c.found? = some t.lexeme → Raised ts t ⟨t.location, c⟩
  | passed : c.found? = none → u ∈ ts → Raised ts t ⟨u.location, c⟩
  | tooDeep : Raised ts t .tooDeep

theorem Raised.mono {ts us : List Token} {t : Token} {e : SyntaxError} (h : e.Raised ts t)
    (hs : ∀ u ∈ ts, u ∈ us) : e.Raised us t := by
  cases h
  case found hc => exact .found hc
  case passed hc hu => exact .passed hc (hs _ hu)
  case tooDeep => exact .tooDeep

end SyntaxError

-- The tokens of parameters are among those that the list has been read from.
theorem Params.mem {ts us : List Token} {ps : List Binder} (h : Params ts ps us) :
    ∃ p, ts = p ++ us ∧ ∀ b ∈ ps, ⟨.ident b.name, b.location⟩ ∈ p := by
  induction h
  case none => exact ⟨[], rfl, nofun⟩
  case last => exact ⟨[_], rfl, by simp⟩
  case more hi =>
    obtain ⟨p, rfl, hp⟩ := hi
    refine ⟨_ :: _ :: p, rfl, List.forall_mem_cons.mpr ⟨List.mem_cons_self, fun b hb => ?_⟩⟩
    exact List.mem_cons_of_mem _ (List.mem_cons_of_mem _ (hp b hb))

namespace Parser

open TokenStream

variable {s s' : TokenStream} {α β : Type} {ts : List Token}

-- What `x` does with `s`, behind the tokens `ts`, it does with every stream that begins with what
-- it reads and goes on alike.
structure Settled (ts : List Token) (x : Parser α) (s : TokenStream) : Prop where
  ok : ∀ a s', x s = .ok a s' →
    ∃ p, s = s'.prepend p ∧ ∀ v, s'.SameHead v → x (v.prepend p) = .ok a v
  error : ∀ e s', x s = .error e s' → ∃ p, s = s'.prepend p ∧ e.Raised (ts ++ p) s'.current ∧
    ∀ v, s'.SameHead v → x (v.prepend p) = .error e v

-- What the rule does is settled wherever it begins.
def Settles (x : Parser α) : Prop :=
  ∀ ts s, Settled ts x s

theorem bind_congr {x : Parser α} {f g : α → Parser β}
    (h : ∀ a s', x s = .ok a s' → f a s' = g a s') : (x >>= f) s = (x >>= g) s := by
  simp only [bind, EStateM.bind]
  cases hx : x s
  case ok a s' => exact h a s' hx
  case error => rfl

theorem discard_eq (x : Parser α) : discard x = x >>= fun _ => pure () := by
  funext s
  simp only [discard, Functor.discard, Functor.mapConst, EStateM.map, bind, EStateM.bind,
    Function.comp]
  cases x s <;> rfl

namespace Settled

variable {x y : Parser α} {f : α → Parser β}

protected theorem pure (a : α) : Settled ts (pure a) s where
  ok _ _ h := by
    cases h
    exact ⟨[], rfl, fun _ _ => rfl⟩
  error _ _ h := by cases h

protected theorem bind (hx : Settled ts x s)
    (hf : ∀ a p s', s = s'.prepend p → x s = .ok a s' → Settled (ts ++ p) (f a) s') :
    Settled ts (x >>= f) s where
  ok b s' h := by
    have ⟨a, s₁, ha, hb⟩ := bind_ok h
    obtain ⟨p, hs, hp⟩ := hx.ok a s₁ ha
    obtain ⟨q, rfl, hq⟩ := (hf a p s₁ hs ha).ok b s' hb
    refine ⟨p ++ q, by rw [prepend_append, hs], fun v hv => ?_⟩
    rw [prepend_append, bind_eq (hp _ (hv.prepend q)), hq v hv]
  error e s' h := by
    obtain ha | ⟨a, s₁, ha, hb⟩ := bind_error h
    case inl =>
      obtain ⟨p, hs, he, hp⟩ := hx.error e s' ha
      exact ⟨p, hs, he, fun v hv => by simp only [bind, EStateM.bind, hp v hv]⟩
    case inr =>
      obtain ⟨p, hs, hp⟩ := hx.ok a s₁ ha
      obtain ⟨q, rfl, he, hq⟩ := (hf a p s₁ hs ha).error e s' hb
      refine ⟨p ++ q, by rw [prepend_append, hs], List.append_assoc .. ▸ he, fun v hv => ?_⟩
      rw [prepend_append, bind_eq (hp _ (hv.prepend q)), hq v hv]

-- What the rule looks at is the same in all streams that go on alike.
theorem peek (h : Settled ts x s) (hy : ∀ v, s.SameHead v → y v = x v) : Settled ts y s where
  ok a s' ha := by
    obtain ⟨p, rfl, hp⟩ := h.ok a s' (hy s (.inl rfl) ▸ ha)
    exact ⟨p, rfl, fun v hv => (hy _ (hv.prepend p)).trans (hp v hv)⟩
  error e s' ha := by
    obtain ⟨p, rfl, he, hp⟩ := h.error e s' (hy s (.inl rfl) ▸ ha)
    exact ⟨p, rfl, he, fun v hv => (hy _ (hv.prepend p)).trans (hp v hv)⟩

theorem current_bind {f : Token → Parser β} (h : Settled ts (f s.current) s) :
    Settled ts (current >>= f) s :=
  h.peek fun v hv => by rw [bind_eq (current_eq v), hv.current]

theorem isAt_bind {k : TokenKind} {f : Bool → Parser β} (h : ∀ b, Settled ts (f b) s) :
    Settled ts (isAt k >>= f) s := by
  refine (h (s.current.kind = k)).peek fun v hv => ?_
  change f (decide (v.current.kind = k)) v = _
  rw [hv.current]

theorem ite {c : Prop} [Decidable c] (hx : Settled ts x s) (hy : Settled ts y s) :
    Settled ts (if c then x else y) s := by
  split
  · exact hx
  · exact hy

theorem advance (ts : List Token) (s : TokenStream) : Settled ts advance s where
  ok t s' h := by
    cases h
    obtain ⟨us, stop⟩ := s
    cases us
    case nil =>
      refine ⟨[], rfl, fun v hv => ?_⟩
      obtain rfl | ⟨t, hs, _⟩ := hv
      · rfl
      · cases hs
    case cons t us => exact ⟨[t], rfl, fun _ _ => rfl⟩
  error _ _ h := by cases h

theorem fail_current {c : SyntaxError.Cause} (hc : c.found? = some s.current.lexeme) :
    Settled ts (fail s.current c : Parser α) s where
  ok _ _ h := by cases h
  error _ _ h := by
    cases h
    exact ⟨[], rfl, .found hc, fun _ _ => rfl⟩

-- An error about a token that has been read.
theorem throw {t : Token} {c : SyntaxError.Cause} (hc : c.found? = none) (ht : t ∈ ts) :
    Settled ts (throw ⟨some t.location, c⟩ : Parser α) s where
  ok _ _ h := by cases h
  error _ _ h := by
    cases h
    exact ⟨[], rfl, .passed hc (List.mem_append_left _ ht), fun _ _ => rfl⟩

theorem tooDeep : Settled ts (tooDeep : Parser α) s where
  ok _ _ h := by cases h
  error _ _ h := by
    cases h
    exact ⟨[], rfl, .tooDeep, fun _ _ => rfl⟩

theorem discard (h : Settled ts x s) : Settled ts (discard x) s := by
  rw [discard_eq]
  exact h.bind fun _ _ _ _ _ => .pure ()

theorem expect (k : TokenKind) (ts : List Token) (s : TokenStream) : Settled ts (expect k) s :=
  current_bind (.ite (.advance ts s) (fail_current rfl))

theorem skip (k : TokenKind) (ts : List Token) (s : TokenStream) :
    Settled ts (Functor.discard (Parser.expect k)) s :=
  (expect k ts s).discard

theorem skipSemicolon (ts : List Token) (s : TokenStream) : Settled ts skipSemicolon s :=
  isAt_bind fun _ => .ite (advance ts s).discard (.pure ())

theorem size_le (h : Settled ts x s) (hx : x s = .ok a s') : s'.size ≤ s.size := by
  obtain ⟨p, rfl, _⟩ := h.ok a s' hx
  rw [size_prepend]
  exact Nat.le_add_left _ _

end Settled

/-!
The loops, without the number of steps that is set aside for them: each item takes a token.
-/

section

variable {trailing : Bool} {close : Symbol} {item : Parser α}

-- An item, which takes a token, and what reads the rest of the list.
theorem cons_congr (hl : Shortens item) {r r' : Parser (List α)}
    (h : ∀ s', s'.size < s.size → r s' = r' s') :
    (do return (← item) :: (← r) : Parser (List α)) s = (do return (← item) :: (← r')) s := by
  refine bind_congr fun x s' hx => ?_
  simp only [bind, EStateM.bind, h s' (hl s x s' hx)]

theorem Settled.cons (hi : Settles item) (hl : Shortens item) {r : Parser (List α)}
    (h : ∀ ts s', s'.size < s.size → Settled ts r s') :
    Settled ts (do return (← item) :: (← r) : Parser (List α)) s :=
  (hi ts s).bind fun x _ s' _ hx => (h _ s' (hl s x s' hx)).bind fun xs _ _ _ _ => .pure (x :: xs)

-- One step of the loop.
def itemsStep (trailing : Bool) (close : Symbol) (item : Parser α) (rest : Parser (List α))
    (first : Bool) : Parser (List α) := do
  if ← isAt (.symbol close) then return []
  unless first do
    discard (expect (.symbol .comma))
    if trailing && (← isAt (.symbol close)) then return []
  let x ← item
  return x :: (← rest)

theorem itemsStep_congr (hl : Shortens item) {r r' : Parser (List α)} {first : Bool}
    (h : ∀ s', s'.size < s.size → r s' = r' s') :
    itemsStep trailing close item r first s = itemsStep trailing close item r' first s := by
  refine bind_congr fun b s₁ hb => ?_
  cases hb
  split
  · rfl
  · split
    · exact cons_congr hl h
    · refine bind_congr fun _ s₁ hc => bind_congr fun b s₂ hb => ?_
      cases hb
      split
      · rfl
      · have hs := (Settled.skip (.symbol .comma) [] s).size_le hc
        exact cons_congr hl fun s' h' => h s' (Nat.lt_of_lt_of_le h' hs)

theorem items_go_steps (hl : Shortens item) {n m : Nat} {first : Bool} (hn : s.size < n)
    (hm : s.size < m) :
    items.go trailing close item n first s = items.go trailing close item m first s := by
  induction n generalizing m first s
  case zero => contradiction
  case succ n hi =>
    obtain ⟨m, rfl⟩ := Nat.exists_eq_add_one.mpr (Nat.zero_lt_of_lt hm)
    exact itemsStep_congr hl fun s' hs => hi (by omega) (by omega)

def itemsFrom (trailing : Bool) (close : Symbol) (item : Parser α) (first : Bool) :
    Parser (List α) :=
  fun s => items.go trailing close item (s.size + 1) first s

theorem itemsFrom_eq (hl : Shortens item) (first : Bool) :
    itemsFrom trailing close item first =
      itemsStep trailing close item (itemsFrom trailing close item false) first := by
  funext s
  exact itemsStep_congr hl fun s' hs => items_go_steps hl hs (Nat.lt_succ_self _)

theorem Settled.itemsStep (hi : Settles item) (hl : Shortens item) {r : Parser (List α)}
    {first : Bool} (h : ∀ ts s', s'.size < s.size → Settled ts r s') :
    Settled ts (itemsStep trailing close item r first) s := by
  refine isAt_bind fun _ => .ite (.pure []) (.ite (.cons hi hl h) ?_)
  refine (skip _ ts s).bind fun _ _ s₁ _ hc => isAt_bind fun _ => .ite (.pure []) ?_
  have hs := (skip _ ts s).size_le hc
  exact .cons hi hl fun ts s' h' => h ts s' (Nat.lt_of_lt_of_le h' hs)

theorem Settles.items (hi : Settles item) (hl : Shortens item) :
    Settles (items trailing close item) := by
  have go (k : Nat) (first : Bool) (ts : List Token) (s : TokenStream) (hk : s.size < k) :
      Settled ts (itemsFrom trailing close item first) s := by
    induction k generalizing first ts s
    case zero => contradiction
    case succ k hg =>
      rw [itemsFrom_eq hl]
      exact .itemsStep hi hl fun ts s' hs => hg false ts s' (by omega)
  intro ts s
  refine ((go _ true ts s (Nat.lt_succ_self _)).bind (f := fun xs => do
    discard (expect (.symbol close)); return xs) fun xs p s' _ _ => ?_).peek fun v _ => rfl
  exact (Settled.skip _ _ s').bind fun _ _ _ _ _ => .pure xs

end

section

variable {p : Precedence} {step : Suffix → Expr → Parser Expr}

def extendStep (p : Precedence) (step : Suffix → Expr → Parser Expr) (rest : Expr → Parser Expr)
    (e : Expr) : Parser Expr := do
  match Suffix.ofLexeme? (← current).lexeme with
  | some x => if p < x.precedence then rest (← step x e) else return e
  | none => return e

-- Where a suffix comes next, the text does not end.
theorem ne_nil_of_suffix {x : Suffix} (h : Suffix.ofLexeme? s.current.lexeme = some x) :
    s.pending ≠ [] := by
  intro hp
  rw [TokenStream.current, hp] at h
  cases h

-- A step takes a token, if there is one.
def ShortensAll (step : Suffix → Expr → Parser Expr) : Prop :=
  ∀ x e s a s', s.pending ≠ [] → step x e s = .ok a s' → s'.size < s.size

theorem extendStep_congr (hl : ShortensAll step) {r r' : Expr → Parser Expr} {e : Expr}
    (h : ∀ e s', s'.size < s.size → r e s' = r' e s') :
    extendStep p step r e s = extendStep p step r' e s := by
  refine bind_congr fun t s₁ ht => ?_
  obtain ⟨rfl, rfl⟩ := current_ok ht
  cases hx : Suffix.ofLexeme? s₁.current.lexeme
  case none => rfl
  case some x =>
    dsimp only
    split
    · exact bind_congr fun e' s' he => h e' s' (hl x e s₁ e' s' (ne_nil_of_suffix hx) he)
    · rfl

theorem extend_go_steps (hl : ShortensAll step) {n m : Nat} {e : Expr} (hn : s.size ≤ n)
    (hm : s.size ≤ m) : extend.go p step n e s = extend.go p step m e s := by
  induction n generalizing m e s
  case zero =>
    have hr := TokenStream.rank_of_size_le hn ▸ Nat.zero_le p.rank
    rw [extend_go_of_rank_le hr, extend_go_of_rank_le hr]
  case succ n hi =>
    cases m
    case zero =>
      have hr := TokenStream.rank_of_size_le hm ▸ Nat.zero_le p.rank
      rw [extend_go_of_rank_le hr, extend_go_of_rank_le hr]
    case succ m => exact extendStep_congr hl fun e s' hs => hi (by omega) (by omega)

theorem extend_eq (hl : ShortensAll step) :
    extend p step = extendStep p step (extend p step) := by
  funext e s
  have hs : extend p step e s = extend.go p step (s.size + 1) e s :=
    extend_go_steps hl (Nat.le_refl _) (Nat.le_succ _)
  rw [hs]
  exact extendStep_congr hl fun e s' hs => extend_go_steps hl (Nat.le_of_lt hs) (Nat.le_refl _)

theorem Settles.extend (hs : ∀ x e, Settles (step x e)) (hl : ShortensAll step) (e : Expr) :
    Settles (extend p step e) := by
  have go (k : Nat) (e : Expr) (ts : List Token) (s : TokenStream) (hk : s.size < k) :
      Settled ts (Parser.extend p step e) s := by
    induction k generalizing e ts s
    case zero => contradiction
    case succ k hg =>
      rw [extend_eq hl]
      refine .current_bind ?_
      cases hx : Suffix.ofLexeme? s.current.lexeme
      case none => exact .pure e
      case some x =>
        refine .ite ((hs x e ts s).bind fun e' p s' _ he => hg e' _ s' ?_) (.pure e)
        have := hl x e s e' s' (ne_nil_of_suffix hx) he
        omega
  exact fun ts s => go _ e ts s (Nat.lt_succ_self _)

end

section

variable {statement : Parser Stmt}

def statementsStep (statement : Parser Stmt) (rest : Parser (List Stmt)) : Parser (List Stmt) := do
  if ← isAt (.symbol .rbrace) then return []
  if ← isAt .eof then discard (expect (.symbol .rbrace))
  let s ← statement
  return s :: (← rest)

theorem statementsStep_congr (hl : Shortens statement) {r r' : Parser (List Stmt)}
    (h : ∀ s', s'.size < s.size → r s' = r' s') :
    statementsStep statement r s = statementsStep statement r' s := by
  refine bind_congr fun b s₁ hb => ?_
  cases hb
  split
  · rfl
  · refine bind_congr fun b s₁ hb => ?_
    cases hb
    split
    · refine bind_congr fun _ s₁ hc => ?_
      have hs := (Settled.skip (.symbol .rbrace) [] s).size_le hc
      exact cons_congr hl fun s' h' => h s' (Nat.lt_of_lt_of_le h' hs)
    · exact cons_congr hl h

theorem statements_go_steps (hl : Shortens statement) {n m : Nat} (hn : s.size < n)
    (hm : s.size < m) : statements.go statement n s = statements.go statement m s := by
  induction n generalizing m s
  case zero => contradiction
  case succ n hi =>
    obtain ⟨m, rfl⟩ := Nat.exists_eq_add_one.mpr (Nat.zero_lt_of_lt hm)
    exact statementsStep_congr hl fun s' hs => hi (by omega) (by omega)

theorem statements_eq (hl : Shortens statement) :
    statements statement = statementsStep statement (statements statement) := by
  funext s
  exact statementsStep_congr hl fun s' hs => statements_go_steps hl hs (Nat.lt_succ_self _)

theorem Settles.statements (hs : Settles statement) (hl : Shortens statement) :
    Settles (statements statement) := by
  have go (k : Nat) (ts : List Token) (s : TokenStream) (hk : s.size < k) :
      Settled ts (Parser.statements statement) s := by
    induction k generalizing ts s
    case zero => contradiction
    case succ k hg =>
      rw [statements_eq hl]
      refine .isAt_bind fun _ => .ite (.pure []) (.isAt_bind fun _ => .ite ?_ ?_)
      · refine (Settled.skip _ ts s).bind fun _ _ s₁ _ hc => ?_
        have := (Settled.skip _ ts s).size_le hc
        exact .cons hs hl fun ts s' h => hg ts s' (by omega)
      · exact .cons hs hl fun ts s' h => hg ts s' (by omega)
  exact fun ts s => go _ ts s (Nat.lt_succ_self _)

end

/-!
The rules.
-/

theorem mem_of_repeated? {bs : List Binder} {b : Binder} (h : repeated? bs = some b) : b ∈ bs := by
  induction bs
  case nil => cases h
  case cons c bs hi =>
    rw [repeated?, Option.or_eq_some_iff] at h
    obtain h | h := h
    · exact List.mem_cons_of_mem c (List.mem_of_find?_eq_some h)
    · exact List.mem_cons_of_mem c (hi h.right)

namespace Settles

theorem binder : Settles binder :=
  fun ts s => (Settled.expect _ ts s).bind fun t _ _ _ _ => .pure (Binder.mk t.location t.literal)

theorem identifier : Settles identifier :=
  fun ts s => (Settled.expect _ ts s).bind fun t _ _ _ _ => .pure (Expr.ident t.location t.literal)

theorem string : Settles string :=
  fun ts s => (Settled.expect _ ts s).bind fun t _ _ _ _ => .pure (Expr.string t.location t.literal)

-- A token that has been asked for has been read.
theorem mem_of_expect {k : TokenKind} (hk : k ≠ .eof) (hs : s = s'.prepend ts)
    (h : expect k s = .ok t s') : t ∈ ts :=
  eq_singleton_of_prepend hs (expect_ok h hk).right ▸ List.mem_singleton_self t

theorem integer : Settles integer := by
  rw [integer_eq]
  refine fun ts s => (Settled.expect _ ts s).bind fun t p s' hs ht => ?_
  have hm := List.mem_append_right ts (mem_of_expect (by simp) hs ht)
  exact .ite (.pure (Expr.int t.location _)) (.throw rfl hm)

theorem illegal : Settles illegal := by
  refine fun ts s => (Settled.expect _ ts s).bind fun t p s' hs ht => ?_
  have hm := List.mem_append_right ts (mem_of_expect (by simp) hs ht)
  exact .ite (.throw rfl hm) (.throw rfl hm)

theorem boolean : Settles boolean := by
  intro ts s
  refine .current_bind ?_
  have hf : Settled ts (fail s.current (.expectedBoolean s.current.lexeme) : Parser Expr) s :=
    .fail_current rfl
  generalize s.current = t at hf
  split
  · exact (Settled.advance ts s).discard.bind fun _ _ _ _ _ => .pure (Expr.bool t.location true)
  · exact (Settled.advance ts s).discard.bind fun _ _ _ _ _ => .pure (Expr.bool t.location false)
  · exact hf

end Settles

-- What the rules do with that many frames is settled.
structure AllSettled (n : Nat) : Prop where
  expression : ∀ p, Settles (expression n p)
  suffixed : ∀ x e, Settles (suffixed n x e)
  prefixed : Settles (prefixed n)
  grouped : Settles (grouped n)
  conditional : Settles (conditional n)
  function : Settles (function n)
  array : Settles (array n)
  hash : Settles (hash n)
  block : Settles (block n)
  statement : Settles (statement n)
  letStatement : Settles (letStatement n)
  returnStatement : Settles (returnStatement n)
  expressionStatement : Settles (expressionStatement n)

namespace AllSettled

theorem zero : AllSettled 0 := by
  constructor
  case expression => exact fun _ _ _ => .tooDeep
  case suffixed => exact fun _ _ _ _ => .tooDeep
  all_goals exact fun _ _ => .tooDeep

variable {n : Nat} (h : AllSettled n)
include h

theorem leading : Settles (leading n) := by
  intro ts s
  refine .current_bind ?_
  have hf : Settled ts (fail s.current (.expectedExpression s.current.lexeme) : Parser Expr) s :=
    .fail_current rfl
  generalize s.current = t at hf
  obtain ⟨x, l⟩ := t
  cases x
  case ident => exact Settles.identifier ts s
  case int => exact Settles.integer ts s
  case string => exact Settles.string ts s
  case illegal => exact Settles.illegal ts s
  case eof => exact hf
  case keyword k =>
    cases k
    case kwTrue | kwFalse => exact Settles.boolean ts s
    case kwIf => exact h.conditional ts s
    case kwFn => exact h.function ts s
    all_goals exact hf
  case symbol y =>
    cases y
    case bang | minus => exact h.prefixed ts s
    case lparen => exact h.grouped ts s
    case lbracket => exact h.array ts s
    case lbrace => exact h.hash ts s
    all_goals exact hf

theorem expression_succ (p : Precedence) : Settles (Parser.expression (n + 1) p) := by
  have hl : ShortensAll (Parser.suffixed n) := (locality ⟨[], .start⟩ n).suffixed_lt
  rw [Parser.expression_succ]
  exact fun ts s => (h.leading ts s).bind fun e p s' _ _ => Settles.extend h.suffixed hl e _ s'

theorem suffixed_succ (x : Suffix) (e : Expr) : Settles (Parser.suffixed (n + 1) x e) := by
  rw [Parser.suffixed]
  refine fun ts s => (Settled.advance ts s).bind fun t _ s _ _ => ?_
  cases x
  case infixOp op =>
    exact (h.expression _ _ s).bind fun b _ _ _ _ => .pure (Expr.infixOp t.location op e b)
  case call =>
    exact (Settles.items (h.expression _) (shortens_expression n) _ s).bind fun as _ _ _ _ =>
      .pure (Expr.call t.location e as)
  case index =>
    exact (h.expression _ _ s).bind fun i _ s _ _ => (Settled.skip _ _ s).bind fun _ _ _ _ _ =>
      .pure (Expr.index t.location e i)

theorem prefixed_succ : Settles (Parser.prefixed (n + 1)) := by
  rw [Parser.prefixed]
  exact fun ts s => (Settled.advance ts s).bind fun t _ s _ _ =>
    (h.expression _ _ s).bind fun e _ _ _ _ =>
    .pure (Expr.prefixOp t.location (.ofText t.literal) e)

theorem grouped_succ : Settles (Parser.grouped (n + 1)) := by
  rw [Parser.grouped]
  exact fun ts s => (Settled.skip _ ts s).bind fun _ _ s _ _ =>
    (h.expression _ _ s).bind fun e _ s _ _ => (Settled.skip _ _ s).bind fun _ _ _ _ _ => .pure e

theorem conditional_succ : Settles (Parser.conditional (n + 1)) := by
  rw [Parser.conditional]
  refine fun ts s => (Settled.expect _ ts s).bind fun t _ s _ _ =>
    (Settled.skip _ _ s).bind fun _ _ s _ _ => (h.expression _ _ s).bind fun c _ s _ _ =>
    (Settled.skip _ _ s).bind fun _ _ s _ _ => (h.block _ s).bind fun b _ s _ _ =>
    .isAt_bind fun _ => .ite ?_ ?_
  · exact (Settled.advance _ s).discard.bind fun _ _ s _ _ => (h.block _ s).bind fun a _ _ _ _ =>
      .pure (Expr.cond t.location c b (some a))
  · exact .pure (Expr.cond t.location c b none)

theorem function_succ : Settles (Parser.function (n + 1)) := by
  rw [Parser.function]
  refine fun ts s => (Settled.expect _ ts s).bind fun t _ s _ _ =>
    (Settled.skip _ _ s).bind fun _ _ s₁ _ _ =>
    (Settles.items Settles.binder shortens_binder _ s₁).bind fun ps p s₂ hs hp =>
    (h.block _ s₂).bind fun b _ s _ _ => ?_
  cases hr : repeated? ps
  case none => exact .pure (Expr.fn t.location ps b)
  case some c =>
    -- The parameters have been read in front of the body.
    obtain ⟨q, hp⟩ := Listed.params.items_reads binder_reads _ _ _ hp
    obtain ⟨us, he, hm⟩ := hp.mem
    rw [hs] at he
    have he : p ++ s₂.pending = us ++ [.symbol .rparen q] ++ s₂.pending := by
      simpa [prepend] using he
    obtain rfl := List.append_cancel_right he
    have hm := hm c (mem_of_repeated? hr)
    exact .throw (t := ⟨.ident c.name, c.location⟩) rfl (by simp [hm])

theorem array_succ : Settles (Parser.array (n + 1)) := by
  rw [Parser.array]
  exact fun ts s => (Settled.expect _ ts s).bind fun t _ s _ _ =>
    (Settles.items (h.expression _) (shortens_expression n) _ s).bind fun es _ _ _ _ =>
    .pure (Expr.array t.location es)

theorem pair : Settles (pair n) :=
  fun ts s => (h.expression _ ts s).bind fun k _ s _ _ => (Settled.skip _ _ s).bind fun _ _ s _ _ =>
    (h.expression _ _ s).bind fun v _ _ _ _ => .pure (k, v)

theorem hash_succ : Settles (Parser.hash (n + 1)) := by
  have hl : Shortens (Parser.pair n) := (locality ⟨[], .start⟩ n).shortens_pair
  rw [Parser.hash]
  exact fun ts s => (Settled.expect _ ts s).bind fun t _ s _ _ =>
    (Settles.items h.pair hl _ s).bind fun ps _ _ _ _ => .pure (Expr.hash t.location ps)

theorem block_succ : Settles (Parser.block (n + 1)) := by
  rw [Parser.block]
  exact fun ts s => (Settled.expect _ ts s).bind fun t _ s _ _ =>
    (Settles.statements h.statement (shortens_statement n) _ s).bind fun ss _ s _ _ =>
    (Settled.skip _ _ s).bind fun _ _ _ _ _ => .pure (Block.mk t.location ss)

theorem statement_succ : Settles (Parser.statement (n + 1)) := by
  rw [Parser.statement]
  intro ts s
  refine .current_bind ?_
  split
  · exact h.letStatement ts s
  · exact h.returnStatement ts s
  · exact h.expressionStatement ts s

theorem letStatement_succ : Settles (Parser.letStatement (n + 1)) := by
  rw [Parser.letStatement]
  exact fun ts s => (Settled.expect _ ts s).bind fun t _ s _ _ =>
    (Settles.binder _ s).bind fun b _ s _ _ => (Settled.skip _ _ s).bind fun _ _ s _ _ =>
    (h.expression _ _ s).bind fun e _ s _ _ => (Settled.skipSemicolon _ s).bind fun _ _ _ _ _ =>
    .pure (Stmt.bind t.location b e)

theorem returnStatement_succ : Settles (Parser.returnStatement (n + 1)) := by
  rw [Parser.returnStatement]
  exact fun ts s => (Settled.expect _ ts s).bind fun t _ s _ _ =>
    (h.expression _ _ s).bind fun e _ s _ _ => (Settled.skipSemicolon _ s).bind fun _ _ _ _ _ =>
    .pure (Stmt.ret t.location e)

theorem expressionStatement_succ : Settles (Parser.expressionStatement (n + 1)) := by
  rw [Parser.expressionStatement]
  exact fun ts s => (h.expression _ ts s).bind fun e _ s _ _ =>
    (Settled.skipSemicolon _ s).bind fun _ _ _ _ _ => .pure (Stmt.expr e)

theorem succ : AllSettled (n + 1) where
  expression := h.expression_succ
  suffixed := h.suffixed_succ
  prefixed := h.prefixed_succ
  grouped := h.grouped_succ
  conditional := h.conditional_succ
  function := h.function_succ
  array := h.array_succ
  hash := h.hash_succ
  block := h.block_succ
  statement := h.statement_succ
  letStatement := h.letStatement_succ
  returnStatement := h.returnStatement_succ
  expressionStatement := h.expressionStatement_succ

end AllSettled

theorem settled (n : Nat) : AllSettled n := by
  induction n
  case zero => exact .zero
  case succ hi => exact hi.succ

end Parser

end Marmoset
