import Marmoset.Proofs.Recovery

/-!
The places of nodes. In the order in which they stand in the text, the nodes of a program are among
the tokens that it has been read from, each at the token that it is made of (`parse_places`). So no
two of them are at the same place.
-/

namespace Marmoset

-- What a node is, as far as its own token tells.
inductive Mark
  | name (x : String)
  | number (n : Int64)
  | literal (contents : String)
  | symbol (text : String)
  | keyword (k : Keyword)

namespace Mark

-- The token that makes such a node.
def Fits : Mark → Lexeme → Prop
  | name x, l => l = .ident x
  | number n, l => ∃ digits, l = .int digits ∧ Parser.decimal digits = n.toInt
  | literal contents, l => l = .string contents
  | symbol text, l => ∃ y : Symbol, l = .symbol y ∧ y.text = text
  | keyword k, l => l = .keyword k

-- How the token is written.
def Written : Mark → List Char → Prop
  | name x, cs => cs = x.toList
  | number n, cs => (∀ c ∈ cs, c.isDigit) ∧ Parser.decimal (String.ofList cs) = n.toInt
  | literal contents, cs => ∃ body, cs = '"' :: (body ++ ['"']) ∧ Decodes body contents.toList
  | symbol text, cs => cs = text.toList
  | keyword k, cs => cs = k.text.toList

theorem Fits.written {m : Mark} {x : Lexeme} {text rest : List Char} (h : m.Fits x)
    (hx : Spells text rest x) : m.Written text := by
  cases m
  case name =>
    subst h
    cases hx
    exact String.toList_ofList.symm
  case number =>
    obtain ⟨digits, rfl, hn⟩ := h
    cases hx
    case int hc hs _ => exact ⟨List.forall_mem_cons.mpr ⟨hc, hs⟩, hn⟩
  case literal =>
    subst h
    cases hx
    case string body contents hd =>
      exact ⟨body, rfl, String.toList_ofList.symm ▸ hd⟩
  case symbol =>
    obtain ⟨y, rfl, rfl⟩ := h
    cases hx
    rfl
  case keyword =>
    subst h
    cases hx
    rfl

end Mark

structure Node where
  mark : Mark
  location : Location

def Binder.node (b : Binder) : Node :=
  ⟨.name b.name, b.location⟩

/-!
The nodes of a tree in the order of their tokens. That a statement is an expression does not make
a node of its own.
-/

mutual

def Expr.nodes : Expr → List Node
  | .ident l x => [⟨.name x, l⟩]
  | .int l n => [⟨.number n, l⟩]
  | .string l s => [⟨.literal s, l⟩]
  | .bool l b => [⟨.keyword (if b then .kwTrue else .kwFalse), l⟩]
  | .prefixOp l op e => ⟨.symbol op.text, l⟩ :: e.nodes
  | .infixOp l op a b => a.nodes ++ ⟨.symbol op.text, l⟩ :: b.nodes
  | .cond l c b none => ⟨.keyword .kwIf, l⟩ :: (c.nodes ++ b.nodes)
  | .cond l c b (some a) => ⟨.keyword .kwIf, l⟩ :: (c.nodes ++ (b.nodes ++ a.nodes))
  | .fn l ps b => ⟨.keyword .kwFn, l⟩ :: (ps.map Binder.node ++ b.nodes)
  | .call l f as => f.nodes ++ ⟨.symbol Symbol.lparen.text, l⟩ :: Expr.allNodes as
  | .array l es => ⟨.symbol Symbol.lbracket.text, l⟩ :: Expr.allNodes es
  | .hash l ps => ⟨.symbol Symbol.lbrace.text, l⟩ :: Expr.pairNodes ps
  | .index l c i => c.nodes ++ ⟨.symbol Symbol.lbracket.text, l⟩ :: i.nodes

def Expr.allNodes : List Expr → List Node
  | [] => []
  | e :: es => e.nodes ++ Expr.allNodes es

def Expr.pairNodes : List (Expr × Expr) → List Node
  | [] => []
  | (k, v) :: ps => k.nodes ++ v.nodes ++ Expr.pairNodes ps

def Stmt.nodes : Stmt → List Node
  | .bind l b e => ⟨.keyword .kwLet, l⟩ :: b.node :: e.nodes
  | .ret l e => ⟨.keyword .kwReturn, l⟩ :: e.nodes
  | .expr e => e.nodes

def Stmt.allNodes : List Stmt → List Node
  | [] => []
  | s :: ss => s.nodes ++ Stmt.allNodes ss

def Block.nodes : Block → List Node
  | .mk l ss => ⟨.symbol Symbol.lbrace.text, l⟩ :: Stmt.allNodes ss

end

def Nonterminal.nodes : (k : Nonterminal) → k.Tree → List Node
  | expr _, e => e.nodes
  | exprs, es => Expr.allNodes es
  | pair, p => p.1.nodes ++ p.2.nodes
  | pairs, ps => Expr.pairNodes ps
  | clause, x | stmt, x => x.nodes
  | stmts, xs => Stmt.allNodes xs
  | block, b => b.nodes

-- The token makes the node.
structure Node.Of (n : Node) (t : Token) : Prop where
  location : n.location = t.location
  fits : n.mark.Fits t.lexeme

-- From `ts` up to `us`, the tokens make the nodes, one after another, with others between them.
inductive Along : List Node → List Token → List Token → Prop
  | done : Along [] us us
  | node : n.Of t → Along ns ts us → Along (n :: ns) (t :: ts) us
  | pass : Along ns ts us → Along ns (t :: ts) us

namespace Along

variable {ns ms : List Node} {ts us vs : List Token}

theorem trans (h : Along ns ts us) (h' : Along ms us vs) : Along (ns ++ ms) ts vs := by
  induction h
  case done => exact h'
  case node hn _ hi => exact .node hn (hi h')
  case pass hi => exact .pass (hi h')

-- What closes a phrase makes no node.
theorem close (h : Along ns ts (t :: us)) : Along ns ts us := by
  have h := h.trans (.pass .done)
  rwa [List.append_nil] at h

theorem append (h : Along ns us vs) (ts : List Token) : Along ns (ts ++ us) vs := by
  induction ts
  case nil => exact h
  case cons hi => exact .pass hi

theorem exists_token (h : Along ns ts us) : ∀ n ∈ ns, ∃ t ∈ ts, n.Of t := by
  induction h
  case done => exact nofun
  case node hn _ hi =>
    refine List.forall_mem_cons.mpr ⟨⟨_, List.mem_cons_self, hn⟩, fun n hm => ?_⟩
    have ⟨t, ht, hn⟩ := hi n hm
    exact ⟨t, List.mem_cons_of_mem _ ht, hn⟩
  case pass hi =>
    intro n hm
    have ⟨t, ht, hn⟩ := hi n hm
    exact ⟨t, List.mem_cons_of_mem _ ht, hn⟩

theorem sublist (h : Along ns ts us) :
    (ns.map Node.location).Sublist (ts.map Token.location) := by
  induction h
  case done => exact List.nil_sublist _
  case node hn _ hi =>
    rw [List.map_cons, List.map_cons, hn.location]
    exact hi.cons_cons _
  case pass hi => exact hi.cons _

end Along

theorem Params.along {ts us : List Token} {ps : List Binder} (h : Params ts ps us) :
    Along (ps.map Binder.node) ts us := by
  induction h
  case none => exact .done
  case last => exact .node ⟨rfl, rfl⟩ .done
  case more hi => exact .node ⟨rfl, rfl⟩ (.pass hi)

theorem InfixOp.text_symbol (op : InfixOp) : op.symbol.text = op.text := by
  cases op <;> rfl

-- A number in range is the value of its digits.
theorem Parser.toInt_decimal {digits : String} (h : decimal digits < integerBound) :
    (Int64.ofNat (decimal digits)).toInt = decimal digits :=
  Int64.toInt_ofNat_of_lt h

theorem Derives.along {k : Nonterminal} {t : k.Tree} {ts us : List Token}
    (h : Derives k ts t us) : Along (k.nodes t) ts us := by
  induction h
  case tighter h | expr h | unclosed h => exact h
  case infixOp ha hb => exact ha.trans (.node ⟨rfl, _, rfl, InfixOp.text_symbol _⟩ hb)
  case not h | negate h => exact .node ⟨rfl, _, rfl, rfl⟩ h
  case call hf ha => exact hf.trans (.node ⟨rfl, _, rfl, rfl⟩ ha.close)
  case index ha hi => exact ha.trans (.node ⟨rfl, _, rfl, rfl⟩ hi.close)
  case ident | string | true | false => exact .node ⟨rfl, rfl⟩ .done
  case int hd => exact .node ⟨rfl, _, rfl, (Parser.toInt_decimal hd).symm⟩ .done
  case group h => exact .pass h.close
  case cond hc hb => exact .node ⟨rfl, rfl⟩ (.pass (hc.close.trans hb))
  case condElse hc hb ha => exact .node ⟨rfl, rfl⟩ (.pass (hc.close.trans (hb.close.trans ha)))
  case fn hp _ _ hb => exact .node ⟨rfl, rfl⟩ (.pass (hp.along.close.trans hb))
  case array h | hash h => exact .node ⟨rfl, _, rfl, rfl⟩ h.close
  case noExprs | noPairs | noStmts => exact .done
  case lastExpr h | lastPair h => exact h.trans .done
  case moreExprs h hg | morePairs h hg => exact h.close.trans hg
  case pair hk hv => exact hk.close.trans hv
  case bind h => exact .node ⟨rfl, rfl⟩ (.node ⟨rfl, rfl⟩ (.pass h))
  case ret h => exact .node ⟨rfl, rfl⟩ h
  case closed h => exact h.close
  case moreStmts h hg => exact h.trans hg
  case block h => exact .node ⟨rfl, _, rfl, rfl⟩ h.close

theorem Regions.along {eof : Token} {ts : List Token} {rs : List Region} (h : Regions eof ts rs) :
    Along (Stmt.allNodes (Region.trees rs)) ts [] := by
  induction h
  case nil => exact .done
  case statement hd _ hi => exact hd.along.trans hi
  case skipped hi => exact hi.append _

-- The place of an expression is that of the node at its root.
theorem Expr.exists_node (e : Expr) : ∃ n ∈ e.nodes, n.location = e.location := by
  cases e
  case infixOp | call | index => exact ⟨_, List.mem_append_right _ List.mem_cons_self, rfl⟩
  case cond a =>
    cases a
    case none | some => exact ⟨_, List.mem_cons_self, rfl⟩
  all_goals exact ⟨_, List.mem_cons_self, rfl⟩

-- Whatever errors a text has, the nodes of the statements that are read are at the tokens that make
-- them, in the order of these. The program as a whole is at its first token.
theorem parse_places (frames : Nat) (source : String) :
    let tokens := TokenStream.ofSource source
    let program := (parse frames source).program
    let nodes := Stmt.allNodes program.statements
    (∀ n ∈ nodes, ∃ x, ⟨x, n.location⟩ ∈ tokens.pending ∧ n.mark.Fits x ∧
      ∃ before text rest, source.toList = before ++ text ++ rest ∧ n.location = .behind before ∧
        Spells text rest x ∧ n.mark.Written text) ∧
    (nodes.map (·.location)).Pairwise (· < ·) ∧ (nodes.map (·.location)).Nodup ∧
    (∀ e, (Stmt.expr e).location = e.location ∧ ∃ n ∈ e.nodes, n.location = e.location) ∧
    ∃ t ∈ tokens.toList.head?, program.location = t.location := by
  intro tokens program nodes
  have ⟨rs, hr, ht, _⟩ := Parse.statements_regions frames (Nat.le_refl tokens.size)
  have ht : Region.trees rs = program.statements := ht
  have ha : Along nodes tokens.pending [] := by
    have ha := hr.along
    rwa [ht] at ha
  have hs := ha.sublist.trans ((List.sublist_append_left _ [tokens.eof]).map _)
  have ho := (TokenStream.toList_ordered source).sublist hs
  refine ⟨fun n hn => ?_, ho, ho.imp fun hl he => ?_, fun e => ⟨rfl, e.exists_node⟩,
    ⟨_, tokens.head?_toList, rfl⟩⟩
  · have ⟨⟨x, l⟩, hm, hl, hf⟩ := ha.exists_token n hn
    have ht : Tiles [] source.toList tokens.pending := tiles_scan [] source.toList
    obtain ⟨before, text, rest, he, hb, hx⟩ := ht.exists_spells _ hm
    exact ⟨x, hl ▸ hm, hf, before, text, rest, he, hl.trans hb, hx, hf.written hx⟩
  · exact Location.lt_irrefl _ (he ▸ hl)

end Marmoset
