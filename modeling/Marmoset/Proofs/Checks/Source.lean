import Marmoset.Proofs.Checks.Parser
import Marmoset.Proofs.Data
import Marmoset.Proofs.Parameters
import Marmoset.Proofs.Standing

/-!
Whatever a text is, nothing goes wrong with what reads and runs it (`evalSource_checked`). All
checks of the scan and of the parser are passed, and all that the parser makes is code that asks for
nothing a run does not know: operators of the language, and functions that tell their parameters
apart. So no check of a run fails either, at any moment of any session.
-/

namespace Marmoset

namespace Code

-- The operator is one of the language; the parameters have different names.
def Proper : Code → Prop
  | expr (.prefixOp _ op _) => op = .not ∨ op = .negate
  | expr (.fn _ ps _) => (ps.map (·.name)).Nodup
  | _ => True

-- A piece of the other piece, at any depth.
inductive PartOf (c : Code) : Code → Prop
  | refl : PartOf c c
  | part : d ∈ e.parts → PartOf c d → PartOf c e

def Regular (c : Code) : Prop :=
  ∀ d : Code, d.PartOf c → d.Proper

theorem Regular.part {c d : Code} (h : c.Regular) (hd : d ∈ c.parts) : d.Regular :=
  fun e he => h e (.part hd he)

end Code

variable {c : Code} {tokens ts us : List Token}

def Nonterminal.Proper : (k : Nonterminal) → k.Tree → Prop
  | expr _, e => (Code.expr e).Proper
  | _, _ => True

theorem Derives.proper {k : Nonterminal} {t : k.Tree} (h : Derives k ts t us) : k.Proper t := by
  induction h
  case tighter hi | group hi => exact hi
  case not => exact .inl rfl
  case negate => exact .inr rfl
  case fn hn _ _ => exact hn
  all_goals trivial

theorem Code.StandsIn.proper (h : c.StandsIn tokens) : c.Proper := by
  cases c
  case block | stmt => trivial
  case expr =>
    obtain ⟨_, _, _, _, hd⟩ := h
    exact hd.proper

-- The parts of a phrase are phrases.
theorem Code.StandsIn.regular (h : c.StandsIn tokens) : c.Regular := by
  intro d hd
  induction hd
  case refl => exact h.proper
  case part hm _ hi => exact hi ((Policy.standing_lawful tokens).parts h _ hm)

-- Statements that are read are phrases even if there are errors elsewhere in the text.
theorem Parse.statements_standIn {frames n : Nat} {s : TokenStream} (hs : s.pending <:+ tokens) :
    ∀ x ∈ (statements frames n s).1, (Code.stmt x).StandsIn tokens := by
  induction n generalizing s
  case zero => exact List.forall_mem_nil _
  case succ n hi =>
    unfold statements
    split
    case isTrue => exact List.forall_mem_nil _
    case isFalse =>
      have hl := (Parser.locality s frames).statement s
      cases hx : Parser.statement frames s
      case ok x s' =>
        have hd := (Parser.sound frames).statement s x s' hx
        have hr := (hl.ok x s' hx).left.suffix.trans hs
        exact List.forall_mem_cons.mpr ⟨hd.spread hs, hi hr⟩
      case error e s' =>
        have hr := s'.skipStatement_restOf.trans (hl.error e s' hx).left
        exact hi (hr.suffix.trans hs)

theorem parse_regular {frames : Nat} {source : String} :
    ∀ x ∈ (parse frames source).program.statements, (Code.stmt x).Regular :=
  fun x hx => (Parse.statements_standIn List.suffix_rfl x hx).regular

namespace Policy

-- Only regular code is run, and functions tell their parameters apart.
def regular : Policy where
  code := Code.Regular
  function c := (c.params.map (·.name)).Nodup ∧ (Code.block c.body).Regular

theorem regular_lawful : regular.Lawful where
  parts h _ := h.part
  makes h := ⟨h _ .refl, h.part List.mem_cons_self⟩
  body h := h.right

variable {u : Activation}

theorem Governs.bindable (h : regular.Governs u) : u.task.Bindable := by
  have ht := h.task
  unfold Task.Bindable
  split
  case h_2 => trivial
  case h_1 hk =>
    rw [hk] at ht
    exact ⟨ht.left.of_function.left, fun v hv => (ht.right v hv).not_controlFlow⟩

end Policy

-- Reading and running one more text in a session. No check of the scan fails, nor does one of the
-- parser, wherever it looks for an expression and whatever is wrong with the text. The code is
-- regular, each evaluation is of regular code and binds nothing but data, and each call supplies
-- its parameters. What comes of it is a syntax error or how the program ends.
theorem evalSource_checked (frames : Nat) (earlier : List String) (source : String) :
    let tokens := TokenStream.ofSource source
    let p := (parse frames source).program
    let m := Session.after frames earlier
    TokenStream.checkedScan .start source.toList = .ok tokens ∧
      (∀ n q s, s.RestOf tokens →
        CheckedParser.expression n q s = Parser.reporting (Parser.expression (n + 1) q) s) ∧
      (∀ x ∈ p.statements, (Code.stmt x).Regular) ∧
      (∀ u : Activation, u.Within (p.activation frames Session.scope m) →
        Policy.regular.Governs u ∧ u.Supplies) ∧
      ∃ r m', evalSource frames Session.scope source m = .ok r m' := by
  have hm : Policy.regular.Admits (Session.after frames earlier) :=
    Session.after_admits Policy.regular_lawful (fun _ => parse_regular) earlier
  refine ⟨TokenStream.checkedScan_eq _ _, fun n q s hs => ?_, parse_regular, fun u hu => ?_, ?_⟩
  · exact CheckedParser.expression_eq ((TokenStream.numeric_ofSource source).rest hs) n q
  · have hg := Program.activation_governed Policy.regular_lawful parse_regular hm hu
    exact ⟨hg, Program.supplies_of_within hu hg.bindable⟩
  · obtain ⟨r, m', he, -⟩ :=
      evalSource_governed (P := Policy.regular) Policy.regular_lawful parse_regular Session.scope hm
    exact ⟨r, m', he⟩

end Marmoset
