import Marmoset.Proofs.Lookahead
import Marmoset.Proofs.Phrase
import Marmoset.Proofs.Tiling

/-!
Where a rule misses a token, what it has read so far can still be completed (`Parser.guided`): there
are tokens that make a phrase of it, unless parameters of a function have the same name.
-/

namespace Marmoset

theorem Token.eq_mk {t : Token} {x : Lexeme} (h : t.lexeme = x) : t = ⟨x, t.location⟩ :=
  congrArg (Token.mk · t.location) h

-- A token that some text spells.
structure Lexeme.Writable (x : Lexeme) : Prop where
  legal : x.kind ≠ .illegal
  spelled : ∃ text rest, Spells text rest x

namespace Lexeme.Writable

theorem symbol (y : Symbol) : (Lexeme.symbol y).Writable :=
  ⟨nofun, _, [], .symbol y (fun _ => nofun) fun _ => nofun⟩

theorem keyword (k : Keyword) : (Lexeme.keyword k).Writable :=
  ⟨nofun, _, [], .keyword k nofun⟩

-- Names of underscores, of which there are as many as one likes.
theorem ident (n : Nat) :
    (Lexeme.ident (String.ofList ('_' :: List.replicate n '_'))).Writable := by
  refine ⟨nofun, _, [], .ident (by decide) (fun d hd => ?_) (fun k hk => ?_) nofun⟩
  · rw [List.eq_of_mem_replicate hd]
    decide
  · have hk : k.text.toList.head? = some '_' := by rw [hk, String.toList_ofList, List.head?_cons]
    revert hk
    cases k <;> decide

end Lexeme.Writable

-- The longest parameters that the tokens begin with.
def Params.longest : List Token → List Binder
  | ⟨.ident x, o⟩ :: ⟨.symbol .comma, _⟩ :: ts => ⟨o, x⟩ :: longest ts
  | ⟨.ident x, o⟩ :: _ => [⟨o, x⟩]
  | _ => []

theorem Params.prefix_longest {ts us : List Token} {ps : List Binder} (h : Params ts ps us) :
    ps <+: longest ts := by
  induction h
  case none => exact List.nil_prefix
  case last x o us =>
    unfold longest
    split
    case h_1 he =>
      cases he
      exact ⟨_, rfl⟩
    case h_2 he =>
      cases he
      exact List.prefix_rfl
    case h_3 hn => exact absurd rfl (hn x o us)
  case more hi => exact List.prefix_cons_inj _ |>.mpr hi

theorem Params.exists_longest (ts : List Token) : ∃ us, Params ts (longest ts) us := by
  fun_induction longest ts
  case case1 ts hi =>
    obtain ⟨us, h⟩ := hi
    cases hl : longest ts
    case nil => exact ⟨_, .last⟩
    case cons => exact ⟨us, .more (hl ▸ h)⟩
  case case2 => exact ⟨_, .last⟩
  case case3 => exact ⟨_, .none⟩

-- No function that begins among the tokens has two parameters of one name there.
def DistinctParams (ts : List Token) : Prop :=
  ∀ o c us, .keyword .kwFn o :: .symbol .lparen c :: us <:+ ts →
    ∀ ps vs, Params us ps vs → (ps.map (·.name)).Nodup

namespace DistinctParams

variable {t : Token} {ts us : List Token}

theorem of_append (h : DistinctParams (ts ++ us)) : DistinctParams us :=
  fun o c vs hs => h o c vs (hs.trans (List.suffix_append ts us))

theorem tail (h : DistinctParams (t :: ts)) : DistinctParams ts :=
  fun o c vs hs => h o c vs hs.cons

-- What there is to see where the tokens begin.
def Here : List Token → Prop
  | ⟨.keyword .kwFn, _⟩ :: ⟨.symbol .lparen, _⟩ :: us => ((Params.longest us).map (·.name)).Nodup
  | _ => True

instance : DecidablePred Here := fun ts => by
  unfold Here
  split <;> infer_instance

theorem nil : DistinctParams [] :=
  fun _ _ _ hs => nomatch List.suffix_nil.mp hs

theorem cons_iff : DistinctParams (t :: ts) ↔ Here (t :: ts) ∧ DistinctParams ts := by
  refine ⟨fun h => ⟨?_, h.tail⟩, fun ⟨hh, h⟩ o c us hs ps vs hp => ?_⟩
  case refine_1 =>
    unfold Here
    split
    case h_1 o c us he =>
      obtain ⟨vs, hp⟩ := Params.exists_longest us
      exact h o c us (he ▸ List.suffix_rfl) _ vs hp
    case h_2 => trivial
  case refine_2 =>
    obtain he | hs := List.suffix_cons_iff.mp hs
    case inl =>
      rw [← he] at hh
      exact List.Nodup.sublist (hp.prefix_longest.sublist.map _) hh
    case inr => exact h o c us hs ps vs hp

instance decidable : (ts : List Token) → Decidable (DistinctParams ts)
  | [] => isTrue nil
  | _ :: ts => @decidable_of_iff' _ _ cons_iff (@instDecidableAnd _ _ _ (decidable ts))

end DistinctParams

namespace Parser

open TokenStream Nonterminal

variable {s s' : TokenStream} {α β : Type} {x : Parser α} {f : α → Parser β}
    {D D' : List Token → Prop} {Q Q' : List Token → α → Prop} {R : List Token → β → Prop}

theorem expect_error {k : TokenKind} (h : expect k s = .error e s') : s' = s := by
  obtain h | ⟨t, s₁, ht, h⟩ := bind_error h
  case inl => cases h
  case inr =>
    obtain ⟨rfl, rfl⟩ := current_ok ht
    split at h <;> cases h
    rfl

theorem skip_error {k : TokenKind} (h : Functor.discard (expect k) s = .error e s') : s' = s := by
  rw [discard_eq] at h
  obtain h | ⟨_, _, _, h⟩ := bind_error h
  case inl => exact expect_error h
  case inr => cases h

theorem isAt_error {g : Bool → Parser β} (h : (isAt k >>= g) s = .error e s') :
    s.current.kind = k ∧ g .true s = .error e s' ∨
      s.current.kind ≠ k ∧ g .false s = .error e s' := by
  by_cases hk : s.current.kind = k
  case pos => exact .inl ⟨hk, (bind_eq (isAt_of_eq hk)).symm.trans h⟩
  case neg => exact .inr ⟨hk, (bind_eq (isAt_of_ne hk)).symm.trans h⟩

-- There are tokens that can be written and make what is asked for.
def Completable (Q : List Token → α → Prop) : Prop :=
  ∃ ts a, (∀ t ∈ ts, t.lexeme.Writable) ∧ Q ts a

theorem Completable.imp (h : Completable Q) (hq : ∀ ts a, Q ts a → Q' ts a) : Completable Q' := by
  obtain ⟨ts, a, hw, h⟩ := h
  exact ⟨ts, a, hw, hq ts a h⟩

theorem Completable.of_nil (a : α) (h : Q [] a) : Completable Q :=
  ⟨[], a, nofun, h⟩

theorem Completable.bind (h : Completable Q)
    (hr : ∀ p a, Q p a → Completable fun ts => R (p ++ ts)) : Completable R := by
  obtain ⟨ts, a, hw, hq⟩ := h
  obtain ⟨us, b, hv, hr⟩ := hr ts a hq
  exact ⟨ts ++ us, b, List.forall_mem_append.mpr ⟨hw, hv⟩, hr⟩

theorem Completable.cons {y : Lexeme} {o : Location} (hy : y.Writable)
    (h : Completable fun ts => Q (⟨y, o⟩ :: ts)) : Completable Q := by
  obtain ⟨ts, a, hw, h⟩ := h
  exact ⟨⟨y, o⟩ :: ts, a, List.forall_mem_cons.mpr ⟨hy, hw⟩, h⟩

-- If the rule misses a token, what it has read can be completed, as far as it is as `D` says.
def Completes (D : List Token → Prop) (Q : List Token → α → Prop) (x : Parser α)
    (s : TokenStream) : Prop :=
  ∀ e s', x s = .error e s' → e.cause.found? ≠ none →
    ∃ p, s = s'.prepend p ∧ (D p → Completable fun ts => Q (p ++ ts))

namespace Completes

theorem pure (a : α) : Completes D Q (pure a) s :=
  fun _ _ h => nomatch h

theorem imp (h : Completes D' Q' x s) (hd : ∀ p, D p → D' p)
    (hq : ∀ p ts a, D p → Q' (p ++ ts) a → Q (p ++ ts) a) : Completes D Q x s := by
  intro e s' hx he
  obtain ⟨p, hs, hc⟩ := h e s' hx he
  exact ⟨p, hs, fun hp => (hc (hd p hp)).imp fun ts a => hq p ts a hp⟩

protected theorem bind (hx : Completes D Q x s)
    (hd : ∀ p a, Q p a → Completable fun ts => R (p ++ ts))
    (hf : ∀ a s', x s = .ok a s' → ∃ p, s = s'.prepend p ∧
      Completes (fun q => D (p ++ q)) (fun q => R (p ++ q)) (f a) s') :
    Completes D R (x >>= f) s := by
  intro e s' h he
  obtain ha | ⟨a, s₁, ha, hb⟩ := bind_error h
  case inl =>
    obtain ⟨p, hs, hc⟩ := hx e s' ha he
    refine ⟨p, hs, fun hp => (hc hp).bind fun ts a hq => (hd (p ++ ts) a hq).imp fun us b hr => ?_⟩
    rwa [List.append_assoc] at hr
  case inr =>
    obtain ⟨p, rfl, hg⟩ := hf a s₁ ha
    obtain ⟨q, rfl, hc⟩ := hg e s' hb he
    refine ⟨p ++ q, by rw [prepend_append], fun hp => (hc hp).imp fun ts b hr => ?_⟩
    rwa [List.append_assoc]

theorem congr {y : Parser α} (h : Completes D Q y s) (hx : x s = y s) : Completes D Q x s :=
  fun e s' he => h e s' (hx ▸ he)

end Completes

-- What the rule reads is as `Q` says. Where it misses a token it can be completed to that, as it
-- can where it has not begun.
structure Guides (Q : List Token → α → Prop) (x : Parser α) : Prop where
  ok : ∀ s a s', x s = .ok a s' → ∃ p, s = s'.prepend p ∧ Q p a
  error : ∀ s, Completes DistinctParams Q x s
  default : Completable Q

namespace Guides

theorem shift (h : Guides Q x) (p : List Token) (s : TokenStream) :
    Completes (fun q => DistinctParams (p ++ q)) Q x s :=
  (h.error s).imp (fun _ => .of_append) fun _ _ _ _ => id

protected theorem pure (h : Q [] a) : Guides Q (pure a) where
  ok _ _ _ h' := by
    cases h'
    exact ⟨[], rfl, h⟩
  error _ := .pure a
  default := .of_nil a h

protected theorem bind (hx : Guides Q x) (hf : ∀ p a, Q p a → Guides (fun q => R (p ++ q)) (f a)) :
    Guides R (x >>= f) where
  ok s b s' h := by
    have ⟨a, s₁, ha, hb⟩ := bind_ok h
    obtain ⟨p, rfl, hp⟩ := hx.ok s a s₁ ha
    obtain ⟨q, rfl, hq⟩ := (hf p a hp).ok s₁ b s' hb
    exact ⟨p ++ q, by rw [prepend_append], hq⟩
  error s := by
    refine (hx.error s).bind (fun p a hp => (hf p a hp).default) fun a s' ha => ?_
    obtain ⟨p, hs, hp⟩ := hx.ok s a s' ha
    exact ⟨p, hs, (hf p a hp).shift p s'⟩
  default := hx.default.bind fun p a hq => (hf p a hq).default

theorem isAt_bind {k : TokenKind} {f : Bool → Parser β} (h : ∀ b, Guides R (f b)) :
    Guides R (isAt k >>= f) where
  ok s b s' hb := (h _).ok s b s' hb
  error s e s' he := (h _).error s e s' he
  default := (h true).default

theorem current_bind {f : Token → Parser β} (h : ∀ t, Guides R (f t)) :
    Guides R (current >>= f) where
  ok s b s' hb := (h s.current).ok s b s' hb
  error s e s' he := (h s.current).error s e s' he
  default := (h (.symbol .semicolon .start)).default

theorem mono (h : Guides Q' x) (hq : ∀ p a, Q' p a → Q p a) : Guides Q x where
  ok s a s' hx := by
    obtain ⟨p, hs, hp⟩ := h.ok s a s' hx
    exact ⟨p, hs, hq p a hp⟩
  error s := (h.error s).imp (fun _ => id) fun p ts a _ => hq (p ++ ts) a
  default := h.default.imp hq

theorem ite {c : Prop} [Decidable c] {y : Parser α} (hx : c → Guides Q x)
    (hy : ¬c → Guides Q y) : Guides Q (if c then x else y) := by
  split
  case isTrue hc => exact hx hc
  case isFalse hc => exact hy hc

theorem discard (h : Guides Q x) : Guides (fun p _ => ∃ a, Q p a) (discard x) := by
  rw [discard_eq]
  exact h.bind fun p a hq => .pure ⟨a, by rwa [List.append_nil]⟩

theorem expect {k : TokenKind} (hk : k ≠ .eof) (hw : ∃ y : Lexeme, y.kind = k ∧ y.Writable) :
    Guides (fun p t => p = [t] ∧ t.kind = k) (expect k) where
  ok s t s' h := by
    obtain ⟨p, hs, _⟩ := (Settled.expect k [] s).ok t s' h
    have ⟨ht, hp⟩ := expect_ok h hk
    exact ⟨p, hs, eq_singleton_of_prepend hs hp, ht⟩
  error s e s' h _ := by
    obtain ⟨y, hy, hw⟩ := hw
    obtain rfl := expect_error h
    exact ⟨[], rfl, fun _ => ⟨[⟨y, .start⟩], _, by simpa using hw, rfl, hy⟩⟩
  default := by
    obtain ⟨y, hy, hw⟩ := hw
    exact ⟨[⟨y, .start⟩], _, by simpa using hw, rfl, hy⟩

theorem symbol (y : Symbol) :
    Guides (fun p t => p = [.symbol y t.location]) (Parser.expect (.symbol y)) :=
  (expect (k := .symbol y) nofun ⟨_, rfl, .symbol y⟩).mono fun _ t ⟨hp, ht⟩ =>
    hp.trans (congrArg ([·]) (Token.eq_mk (Token.lexeme_of_symbol ht)))

theorem skip (y : Symbol) :
    Guides (fun p _ => ∃ c, p = [.symbol y c]) (Functor.discard (Parser.expect (.symbol y))) :=
  (symbol y).discard.mono fun _ _ ⟨t, ht⟩ => ⟨t.location, ht⟩

theorem keyword (k : Keyword) :
    Guides (fun p t => p = [.keyword k t.location]) (Parser.expect (.keyword k)) :=
  (expect (k := .keyword k) nofun ⟨_, rfl, .keyword k⟩).mono fun _ t ⟨hp, ht⟩ =>
    hp.trans (congrArg ([·]) (Token.eq_mk (Token.lexeme_of_keyword ht)))

theorem binder : Guides (fun p b => p = [⟨.ident b.name, b.location⟩]) binder := by
  refine (expect (k := .ident) nofun ⟨_, rfl, .ident 0⟩).bind fun p t ⟨hp, ht⟩ => .pure ?_
  obtain ⟨x, l⟩ := t
  cases x <;> cases ht
  rw [hp]
  rfl

-- A token that is taken if it comes next.
theorem ifAt {k : TokenKind} (hk : k ≠ .eof) {x y : Parser α}
    (hx : ∀ t : Token, t.kind = k → Guides (fun q => Q ([t] ++ q)) x) (hy : Guides Q y) :
    Guides Q (isAt k >>= fun b => if b then Functor.discard advance >>= fun _ => x else y) := by
  have taken (s : TokenStream) (h : s.current.kind = k) :
      (isAt k >>= fun b => if b then Functor.discard advance >>= fun _ => x else y) s =
        x s.advance := by
    rw [bind_eq (isAt_of_eq h)]
    rfl
  have left (s : TokenStream) (h : s.current.kind ≠ k) :
      (isAt k >>= fun b => if b then Functor.discard advance >>= fun _ => x else y) s = y s := by
    rw [bind_eq (isAt_of_ne h)]
    rfl
  refine ⟨fun s a s' h => ?ok, fun s => ?error, hy.default⟩
  case ok =>
    by_cases hs : s.current.kind = k
    case pos =>
      rw [taken s hs] at h
      obtain ⟨p, hp, hq⟩ := (hx _ hs).ok _ a s' h
      exact ⟨[s.current] ++ p, by rw [prepend_append, ← hp, ← eq_prepend (hs ▸ hk)], hq⟩
    case neg => exact hy.ok s a s' (left s hs ▸ h)
  case error =>
    by_cases hs : s.current.kind = k
    case pos =>
      intro e s' h he
      rw [taken s hs] at h
      obtain ⟨p, hp, hc⟩ := (hx _ hs).shift [s.current] _ e s' h he
      refine ⟨[s.current] ++ p, by rw [prepend_append, ← hp, ← eq_prepend (hs ▸ hk)], fun hd => ?_⟩
      exact (hc hd).imp fun ts a hq => by rwa [List.append_assoc]
    case neg => exact (hy.error s).congr (left s hs)

theorem skipSemicolon :
    Guides (fun p _ => p = [] ∨ ∃ c, p = [.symbol .semicolon c]) skipSemicolon := by
  refine ifAt (k := .symbol .semicolon) nofun (fun t ht => .pure (.inr ?_)) (.pure (.inl rfl))
  exact ⟨t.location, congrArg ([·]) (Token.eq_mk (Token.lexeme_of_symbol ht))⟩

-- A rule of the grammar, of which it is known what it reads.
theorem of_reads {k : Nonterminal} {x : Parser k.Tree} (hs : Settles x) (hr : x.Reads (Derives k))
    (he : ∀ s, Completes DistinctParams k.Phrase x s) (hd : Completable k.Phrase) :
    Guides k.Phrase x where
  ok s a s' h := by
    obtain ⟨p, rfl, _⟩ := (hs [] s).ok a s' h
    exact ⟨p, rfl, (hr _ a s' h).phrase⟩
  error := he
  default := hd

end Guides

theorem completable_expr (l : Level) : Completable (expr l).Phrase :=
  ⟨_, _, by simpa using .keyword _, .true l .start⟩

theorem completable_block : Completable Nonterminal.block.Phrase :=
  ⟨[.symbol .lbrace .start, .symbol .rbrace .start], _,
    by simp [Lexeme.Writable.symbol], Phrase.noStmts.block⟩

theorem completable_stmt : Completable stmt.Phrase :=
  ⟨_, _, by simpa using .keyword _, (Phrase.true .equality .start).exprClause.unclosed⟩

/-!
Lists.
-/

-- Lists of `I`, with commas between them and perhaps one behind.
structure Lists (I : List Token → α → Prop) (L : List Token → List α → Prop) : Prop where
  none : L [] []
  last : I p a → L p [a]
  more : I p a → L q as → L (p ++ .symbol .comma c :: q) (a :: as)

namespace Lists

theorem exprs : Lists (expr .equality).Phrase exprs.Phrase where
  none _ _ := .noExprs
  last h us _ := .lastExpr (h us trivial)
  more h hs us _ := by
    rw [List.append_assoc]
    exact .moreExprs (h _ trivial) (hs us trivial)

theorem pairs : Lists Nonterminal.pair.Phrase pairs.Phrase where
  none _ _ := .noPairs
  last h us _ := .lastPair (h us trivial)
  more h hs us _ := by
    rw [List.append_assoc]
    exact .morePairs (h _ trivial) (hs us trivial)

variable {I : List Token → α → Prop} {L : List Token → List α → Prop} {item : Parser α}
    {close : Symbol}

-- What is behind an item: nothing, or a comma and a list.
def Rest (L : List Token → List α → Prop) (p : List Token) (xs : List α) : Prop :=
  p = [] ∧ xs = [] ∨ ∃ c q, p = .symbol .comma c :: q ∧ L q xs

variable (hl : Lists I L) (hi : Guides I item)
include hl hi

theorem cons {r : Parser (List α)} (hr : Guides (Rest L) r) :
    Guides L (do return (← item) :: (← r)) := by
  refine hi.bind fun p x hx => hr.bind fun q xs hs => .pure ?_
  rw [List.append_nil]
  obtain ⟨rfl, rfl⟩ | ⟨c, q, rfl, hs⟩ := hs
  · rw [List.append_nil]
    exact hl.last hx
  · exact hl.more hx hs

theorem rest (n : Nat) : Guides (Rest L) (items.go true close item n false) := by
  induction n
  case zero => exact .pure (.inl ⟨rfl, rfl⟩)
  case succ n hn =>
    refine .isAt_bind fun _ => .ite (fun _ => .pure (.inl ⟨rfl, rfl⟩)) fun _ => ?_
    refine (Guides.skip .comma).bind ?_
    rintro _ _ ⟨c, rfl⟩
    refine .isAt_bind fun _ => .ite (fun _ => .pure (.inr ⟨c, [], rfl, hl.none⟩)) fun _ => ?_
    exact (hl.cons hi hn).mono fun q xs hs => .inr ⟨c, q, rfl, hs⟩

theorem items : Guides (fun p xs => ∃ q c, p = q ++ [.symbol close c] ∧ L q xs)
    (Parser.items true close item) := by
  have go (n : Nat) : Guides L (items.go true close item n true) := by
    cases n
    case zero => exact .pure hl.none
    case succ n =>
      exact .isAt_bind fun _ => .ite (fun _ => .pure hl.none) fun _ => hl.cons hi (hl.rest hi n)
  have close (n : Nat) : Guides (fun p xs => ∃ q c, p = q ++ [.symbol close c] ∧ L q xs)
      (do
        let xs ← items.go true close item n true
        Functor.discard (expect (.symbol close))
        return xs) := by
    refine (go n).bind fun p xs hs => (Guides.skip close).bind ?_
    rintro _ _ ⟨c, rfl⟩
    exact .pure ⟨p, c, by simp, hs⟩
  exact ⟨fun s => (close _).ok s, fun s => (close _).error s, (close 0).default⟩

end Lists

/-!
Parameters.
-/

-- Parameters each with a comma behind it.
inductive OpenParams : List Token → List Binder → Prop
  | nil : OpenParams [] []
  | cons : OpenParams p bs →
    OpenParams (⟨.ident z, o⟩ :: .symbol .comma c :: p) (⟨o, z⟩ :: bs)

namespace OpenParams

variable {p : List Token} {bs : List Binder}

theorem exists_params (h : OpenParams p bs) : ∃ us, Params p bs us := by
  induction h
  case nil => exact ⟨[], .none⟩
  case cons h hi =>
    have ⟨us, hp⟩ := hi
    cases h
    case nil => exact ⟨_, .last⟩
    case cons => exact ⟨us, .more hp⟩

theorem snoc (h : OpenParams p bs) (z : String) (o : Location) :
    ParamsPhrase (p ++ [⟨.ident z, o⟩]) (bs ++ [⟨o, z⟩]) := by
  intro us
  induction h
  case nil => exact .last
  case cons h hi =>
    cases h
    case nil => exact .more hi
    case cons => exact .more hi

end OpenParams

-- A name that does not occur, and that can be written.
theorem exists_fresh (xs : List String) : ∃ z, (Lexeme.ident z).Writable ∧ z ∉ xs := by
  obtain ⟨n, hn⟩ : ∃ n, ∀ z ∈ xs, z.toList.length ≤ n := by
    induction xs
    case nil => exact ⟨0, nofun⟩
    case cons y ys hi =>
      have ⟨n, hn⟩ := hi
      refine ⟨max y.toList.length n, List.forall_mem_cons.mpr ⟨Nat.le_max_left .., fun z hz => ?_⟩⟩
      exact Nat.le_trans (hn z hz) (Nat.le_max_right ..)
  refine ⟨_, .ident n, fun h => ?_⟩
  have hl := hn _ h
  rw [String.toList_ofList, List.length_cons, List.length_replicate] at hl
  omega

-- What has been read where parameters stop short: the last thing is a comma, or a parameter.
def BeginsParams (p : List Token) (bs : List Binder) : Prop :=
  OpenParams p bs ∨ ParamsPhrase p bs ∧ bs ≠ []

theorem params_cons_error {r : Parser (List Binder)}
    (hr : ∀ s e s', r s = .error e s' → s' = s ∨
      ∃ c q bs, s.pending = .symbol .comma c :: q ++ s'.pending ∧ BeginsParams q bs)
    (h : (do return (← Parser.binder) :: (← r) : Parser (List Binder)) s = .error e s') :
    ∃ p bs, s.pending = p ++ s'.pending ∧ BeginsParams p bs := by
  obtain h | ⟨b, s₁, hb, h⟩ := bind_error h
  case inl =>
    obtain ht | ⟨_, _, _, h⟩ := bind_error h
    case inl => exact ⟨[], [], by rw [expect_error ht]; rfl, .inl .nil⟩
    case inr => cases h
  case inr =>
    have hs := binder_reads s b s₁ hb
    obtain h | ⟨_, _, _, h⟩ := bind_error h
    case inr => cases h
    obtain rfl | ⟨c, q, bs, hq, hb⟩ := hr s₁ e s' h
    case inl => exact ⟨[_], [b], hs, .inr ⟨fun _ => .last, by simp⟩⟩
    case inr =>
      refine ⟨⟨.ident b.name, b.location⟩ :: .symbol .comma c :: q, b :: bs, by simp [hs, hq], ?_⟩
      obtain hb | ⟨hb, hn⟩ := hb
      · exact .inl hb.cons
      · obtain ⟨d, ds, rfl⟩ := List.exists_cons_of_ne_nil hn
        exact .inr ⟨fun us => .more (hb us), by simp⟩

theorem params_rest_error (n : Nat) (s : TokenStream) (e : SyntaxError) (s' : TokenStream)
    (h : items.go false .rparen Parser.binder n false s = .error e s') : s' = s ∨
      ∃ c q bs, s.pending = .symbol .comma c :: q ++ s'.pending ∧ BeginsParams q bs := by
  induction n generalizing s e s'
  case zero => cases h
  case succ n hn =>
    obtain ⟨_, h⟩ | ⟨_, h⟩ := isAt_error h
    case inl => cases h
    obtain h | ⟨_, s₁, hc, h⟩ := bind_error h
    case inl => exact .inl (skip_error h)
    case inr =>
      obtain ⟨c, hc⟩ := skip_ok hc
      obtain ⟨p, bs, hp, hb⟩ := params_cons_error hn h
      exact .inr ⟨c, p, bs, by rw [hc, hp]; rfl, hb⟩

-- Parameters that stop short, and none that has been read so far repeats another.
theorem BeginsParams.completable (h : BeginsParams p bs) (hn : (bs.map (·.name)).Nodup) :
    Completable fun ts ps => ParamsPhrase (p ++ ts) ps ∧ (ps.map (·.name)).Nodup := by
  obtain h | ⟨h, _⟩ := h
  case inl =>
    obtain ⟨z, hw, hz⟩ := exists_fresh (bs.map (·.name))
    refine ⟨[⟨.ident z, .start⟩], _, by simpa using hw, h.snoc z .start, ?_⟩
    rw [List.map_append]
    refine List.nodup_append.mpr ⟨hn, List.pairwise_singleton _ z, fun y hy w hm he => ?_⟩
    obtain rfl := List.mem_singleton.mp hm
    exact hz (he ▸ hy)
  case inr => exact ⟨[], bs, nofun, by rwa [List.append_nil], hn⟩

theorem BeginsParams.exists_params (h : BeginsParams p bs) : ∃ us, Params p bs us := by
  obtain h | ⟨h, _⟩ := h
  case inl => exact h.exists_params
  case inr => exact ⟨[], by simpa using h []⟩

theorem params_nil {ts us : List Token} (h : Params ts [] us) : ts = us := by
  cases h
  rfl

theorem items_params_error (h : items false .rparen Parser.binder s = .error e s') :
    ∃ p bs, s = s'.prepend p ∧ BeginsParams p bs := by
  obtain ⟨p, hs, _⟩ := (Settles.items Settles.binder shortens_binder [] s).error e s' h
  suffices ∃ q bs, s.pending = q ++ s'.pending ∧ BeginsParams q bs by
    obtain ⟨q, bs, hq, hb⟩ := this
    have hp : p = q := List.append_cancel_right ((congrArg pending hs).symm.trans hq)
    exact ⟨p, bs, hs, hp ▸ hb⟩
  obtain h | ⟨_, _, hz, h⟩ := bind_error h
  case inl => cases h
  cases hz
  obtain h | ⟨ps, s₁, hg, h⟩ := bind_error h
  case inl =>
    by_cases hs : s.current.kind = .symbol .rparen
    case pos =>
      rw [items_go_none hs] at h
      cases h
    case neg =>
      rw [items_go_some hs] at h
      exact params_cons_error (params_rest_error _) h
  case inr =>
    obtain h | ⟨_, _, _, h⟩ := bind_error h
    case inr => cases h
    obtain rfl := skip_error h
    have hp := Listed.params.first_reads binder_reads _ s ps s' hg
    obtain ⟨q, hq, _⟩ := hp.mem
    refine ⟨q, ps, hq, ?_⟩
    rw [hq] at hp
    cases ps
    case nil =>
      obtain rfl : q = [] := List.append_left_eq_self.mp (params_nil hp)
      exact .inl .nil
    case cons => exact .inr ⟨hp.phrase, by simp⟩

theorem items_params_ok (h : items false .rparen Parser.binder s = .ok ps s') :
    ∃ p c, s = s'.prepend (p ++ [.symbol .rparen c]) ∧ ParamsPhrase p ps := by
  obtain ⟨p, hs, _⟩ := (Settles.items Settles.binder shortens_binder [] s).ok ps s' h
  obtain ⟨c, hp⟩ := Listed.params.items_reads binder_reads s ps s' h
  obtain ⟨q, hq, _⟩ := hp.mem
  have he : p = q ++ [.symbol .rparen c] := by
    rw [hs] at hq
    exact List.append_cancel_right (hq.trans (by simp))
  rw [hq] at hp
  exact ⟨q, c, he ▸ hs, hp.phrase⟩

/-!
Statements.
-/

-- The tokens can be completed to statements, by nothing if there are none.
def BeginsStmts (q : List Token) : Prop :=
  ∃ ts xs, (∀ t ∈ ts, t.lexeme.Writable) ∧ (q = [] → ts = []) ∧ stmts.Phrase (q ++ ts) xs

namespace BeginsStmts

theorem nil : BeginsStmts [] :=
  ⟨[], [], nofun, fun _ => rfl, .noStmts⟩

theorem stmt {p : List Token} (h : Completable fun ts => stmt.Phrase (p ++ ts)) :
    BeginsStmts p := by
  cases p
  case nil => exact nil
  case cons =>
    obtain ⟨ts, x, hw, h⟩ := h
    exact ⟨ts, [x], hw, nofun, h.oneStmt⟩

-- What follows a statement begins with the same token, whatever it is completed to.
theorem cons {p q us : List Token} {x : Stmt} (hx : Derives .stmt (p ++ (q ++ us)) x (q ++ us))
    (hq : BeginsStmts q) : BeginsStmts (p ++ q) := by
  obtain ⟨ts, xs, hw, hn, h⟩ := hq
  refine ⟨ts, x :: xs, hw, fun hp => hn (List.append_eq_nil_iff.mp hp).right, fun vs hv => ?_⟩
  have hs := h vs hv
  rw [List.append_assoc] at hs
  rw [List.append_assoc, List.append_assoc]
  refine .moreStmts (hx.follow (q ++ (ts ++ vs)) ?_) hs
  cases q
  case nil =>
    rw [hn rfl]
    exact fun _ => hv
  case cons => exact id

end BeginsStmts

-- Statements that stop short: those before are whole, and the last one can be completed.
theorem statements_go_error {n m : Nat}
    (h : ∀ s, Completes DistinctParams stmt.Phrase (statement n) s)
    (he : statements.go (statement n) m s = .error e s') (hc : e.cause.found? ≠ none) :
    ∃ q, s = s'.prepend q ∧ (DistinctParams q → BeginsStmts q) := by
  induction m generalizing s
  case zero => cases he
  case succ m hi =>
    obtain ⟨_, he⟩ | ⟨_, he⟩ := isAt_error he
    case inl => cases he
    obtain ⟨hs, he⟩ | ⟨_, he⟩ := isAt_error he
    case inl =>
      obtain he | ⟨_, s₁, hb, _⟩ := bind_error he
      case inl => exact ⟨[], by rw [skip_error he]; rfl, fun _ => .nil⟩
      case inr =>
        -- No brace can have been read at the end.
        obtain ⟨b, hb⟩ := skip_ok hb
        rw [TokenStream.current, hb] at hs
        cases hs
    case inr =>
      obtain he | ⟨x, s₁, hx, he⟩ := bind_error he
      case inl =>
        obtain ⟨p, hp, hq⟩ := h s e s' he hc
        exact ⟨p, hp, fun hd => .stmt (hq hd)⟩
      case inr =>
        obtain hg | ⟨_, _, _, hg⟩ := bind_error he
        case inr => cases hg
        obtain ⟨p, rfl, _⟩ := ((settled n).statement [] s).ok x s₁ hx
        obtain ⟨q, rfl, hq⟩ := hi hg
        have hd := (sound n).statement _ x _ hx
        exact ⟨p ++ q, by rw [prepend_append], fun hn => .cons hd (hq hn.of_append)⟩

theorem Guides.statements {n : Nat}
    (h : ∀ s, Completes DistinctParams stmt.Phrase (statement n) s) :
    Guides stmts.Phrase (Parser.statements (statement n)) := by
  have hs := Settles.statements (settled n).statement (shortens_statement n)
  refine .of_reads hs (statements_reads (sound n).statement) (fun s e s' he hc => ?_)
    (.of_nil [] .noStmts)
  obtain ⟨q, hq, hb⟩ := statements_go_error h he hc
  refine ⟨q, hq, fun hd => ?_⟩
  obtain ⟨ts, xs, hw, _, hp⟩ := hb hd
  exact ⟨ts, xs, hw, hp⟩

end Parser

end Marmoset
