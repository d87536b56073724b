import Marmoset.Proofs.Accepted
import Marmoset.Proofs.Policy

/-!
Code that stands in a text. All that a run of a text evaluates is a phrase of it, so what the
grammar says of phrases holds of all code that is run.
-/

namespace Marmoset

-- The code is a phrase of the tokens.
def Code.StandsIn (tokens : List Token) : Code → Prop
  | expr e => ∃ l ts us, ts <:+ tokens ∧ Derives (.expr l) ts e us
  | block b => ∃ ts us, ts <:+ tokens ∧ Derives .block ts b us
  | stmt x => ∃ ts us, ts <:+ tokens ∧ Derives .clause ts x us

-- The tokens have a call of the callee with the arguments, of which the parenthesis is at `o`.
def CallStandsIn (tokens : List Token) (o : Location) (callee : Expr) (args : List Expr) : Prop :=
  ∃ ts us vs c, ts <:+ tokens ∧ Derives (.expr .suffixed) ts callee (.symbol .lparen o :: us) ∧
    Derives .exprs us args (.symbol .rparen c :: vs)

variable {tokens ts us : List Token}

-- What an expression says of the tokens it stands in.
structure Expr.Spread (tokens : List Token) (e : Expr) : Prop where
  parts : ∀ c ∈ (Code.expr e).parts, c.StandsIn tokens
  call : ∀ o f as, e = .call o f as → CallStandsIn tokens o f as

namespace Nonterminal

-- The parts of a phrase are phrases as well.
def Spread (tokens : List Token) : (k : Nonterminal) → k.Tree → Prop
  | expr _, e => e.Spread tokens
  | exprs, es => ∀ e ∈ es, (Code.expr e).StandsIn tokens
  | pair, p => (Code.expr p.1).StandsIn tokens ∧ (Code.expr p.2).StandsIn tokens
  | pairs, ps => ∀ p ∈ ps, (Code.expr p.1).StandsIn tokens ∧ (Code.expr p.2).StandsIn tokens
  | clause, x => ∀ c ∈ (Code.stmt x).parts, c.StandsIn tokens
  | stmt, x => (Code.stmt x).StandsIn tokens
  | stmts, xs => ∀ x ∈ xs, (Code.stmt x).StandsIn tokens
  | block, b => ∀ c ∈ (Code.block b).parts, c.StandsIn tokens

end Nonterminal

namespace Derives

theorem standsIn (h : Derives (.expr l) ts e us) (hs : ts <:+ tokens) :
    (Code.expr e).StandsIn tokens :=
  ⟨l, ts, us, hs, h⟩

theorem behind {k : Nonterminal} {t : k.Tree} (h : Derives k ts t (a :: us)) (hs : ts <:+ tokens) :
    us <:+ tokens :=
  h.ends.suffix.tail.trans hs

-- By induction on how a phrase is derived from tokens of the text.
theorem spread {k : Nonterminal} {t : k.Tree} (h : Derives k ts t us) (hs : ts <:+ tokens) :
    k.Spread tokens t := by
  induction h
  case tighter hi => exact hi hs
  case infixOp ha hb _ _ =>
    refine ⟨?_, by rintro _ _ _ ⟨⟩⟩
    simp only [Code.parts, List.forall_mem_cons]
    exact ⟨ha.standsIn hs, hb.standsIn (ha.behind hs), List.forall_mem_nil _⟩
  case not he _ | negate he _ =>
    refine ⟨?_, by rintro _ _ _ ⟨⟩⟩
    simp only [Code.parts, List.forall_mem_cons]
    exact ⟨he.standsIn hs.tail, List.forall_mem_nil _⟩
  case call hf ha _ hi =>
    refine ⟨?_, ?_⟩
    · simp only [Code.parts, List.forall_mem_cons, List.forall_mem_map]
      exact ⟨hf.standsIn hs, hi (hf.behind hs)⟩
    · rintro _ _ _ ⟨⟩
      exact ⟨_, _, _, _, hs, hf, ha⟩
  case index ha hi _ _ =>
    refine ⟨?_, by rintro _ _ _ ⟨⟩⟩
    simp only [Code.parts, List.forall_mem_cons]
    exact ⟨ha.standsIn hs, hi.standsIn (ha.behind hs), List.forall_mem_nil _⟩
  case ident | int | string | true | false => exact ⟨List.forall_mem_nil _, by rintro _ _ _ ⟨⟩⟩
  case group hi => exact hi hs.tail
  case cond hc hb _ _ =>
    refine ⟨?_, by rintro _ _ _ ⟨⟩⟩
    simp only [Code.parts, List.forall_mem_cons]
    exact ⟨hc.standsIn hs.tail.tail, ⟨_, _, hc.behind hs.tail.tail, hb⟩, List.forall_mem_nil _⟩
  case condElse hc hb ha _ _ _ =>
    have hu := hc.behind hs.tail.tail
    refine ⟨?_, by rintro _ _ _ ⟨⟩⟩
    simp only [Code.parts, Option.toList_some, List.map_cons, List.forall_mem_cons]
    exact ⟨hc.standsIn hs.tail.tail, ⟨_, _, hu, hb⟩, ⟨_, _, hb.behind hu, ha⟩, List.forall_mem_nil _⟩
  case fn hp _ hb _ =>
    refine ⟨?_, by rintro _ _ _ ⟨⟩⟩
    simp only [Code.parts, List.forall_mem_cons]
    exact ⟨⟨_, _, hp.suffix.tail.trans hs.tail.tail, hb⟩, List.forall_mem_nil _⟩
  case array hi =>
    refine ⟨?_, by rintro _ _ _ ⟨⟩⟩
    simp only [Code.parts, List.forall_mem_map]
    exact hi hs.tail
  case hash hi =>
    refine ⟨?_, by rintro _ _ _ ⟨⟩⟩
    simp only [Code.parts, List.mem_flatMap]
    rintro c ⟨p, hp, hc⟩
    obtain ⟨hk, hv⟩ := hi hs.tail p hp
    simp only [List.mem_cons, List.not_mem_nil, or_false] at hc
    obtain rfl | rfl := hc
    · exact hk
    · exact hv
  case noExprs | noPairs | noStmts => exact List.forall_mem_nil _
  case lastExpr he _ => exact List.forall_mem_singleton.mpr (he.standsIn hs)
  case moreExprs he _ _ hj => exact List.forall_mem_cons.mpr ⟨he.standsIn hs, hj (he.behind hs)⟩
  case pair hk hv _ _ => exact ⟨hk.standsIn hs, hv.standsIn (hk.behind hs)⟩
  case lastPair hi => exact List.forall_mem_singleton.mpr (hi hs)
  case morePairs hp _ hi hj => exact List.forall_mem_cons.mpr ⟨hi hs, hj (hp.behind hs)⟩
  case bind he _ => exact List.forall_mem_singleton.mpr (he.standsIn hs.tail.tail.tail)
  case ret he _ => exact List.forall_mem_singleton.mpr (he.standsIn hs.tail)
  case expr he _ => exact List.forall_mem_singleton.mpr (he.standsIn hs)
  case closed hx _ | unclosed hx _ _ => exact ⟨_, _, hs, hx⟩
  case moreStmts hx _ hi hj => exact List.forall_mem_cons.mpr ⟨hi hs, hj (hx.ends.suffix.trans hs)⟩
  case block hi =>
    simp only [Nonterminal.Spread, Code.parts, Block.statements, List.forall_mem_map]
    exact hi hs.tail

end Derives

theorem Code.StandsIn.call {o : Location} {f : Expr} {as : List Expr}
    (h : (Code.expr (.call o f as)).StandsIn tokens) : CallStandsIn tokens o f as := by
  obtain ⟨_, _, _, hs, hd⟩ := h
  exact (hd.spread hs).call o f as rfl

-- Only phrases of the tokens are run, and only functions that are written there are made.
def Policy.standing (tokens : List Token) : Policy where
  code c := c.StandsIn tokens
  function c := (Code.expr (.fn c.location c.params c.body)).StandsIn tokens

theorem Policy.standing_lawful (tokens : List Token) : (standing tokens).Lawful where
  parts {c} h := by
    cases c <;> obtain ⟨_, _, h⟩ := h
    case expr =>
      obtain ⟨_, hs, hd⟩ := h
      exact (hd.spread hs).parts
    case block => exact h.right.spread h.left
    case stmt => exact h.right.spread h.left
  makes h := h
  body h := by
    obtain ⟨_, _, _, hs, hd⟩ := h
    exact (hd.spread hs).parts _ List.mem_cons_self

-- A text that is read without errors only runs its own phrases.
theorem Program.standing_of_within {frames : Nat} {source : String} {s : Scope} {m : Machine}
    {u : Activation} (he : (parse frames source).errors = [])
    (hm : (Policy.standing (TokenStream.ofSource source).pending).Admits m)
    (hu : u.Within ((parse frames source).program.activation frames s m)) :
    (Policy.standing (TokenStream.ofSource source).pending).Governs u :=
  activation_governed (Policy.standing_lawful _) ((parse_sound he).spread List.suffix_rfl) hm hu

end Marmoset
