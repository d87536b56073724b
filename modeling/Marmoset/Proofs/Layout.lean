import Marmoset.Proofs.Canonical
import Marmoset.Proofs.Data

/-!
Layout does not matter. Texts of the same tokens are read as the same program but for places, and
come to the same value and leave the same machine but for places (`evalSource_layout`).
-/

namespace Marmoset

-- Computations that are the same along the maps agree where their states do.
theorem Simulates.agree {f : σ → σ} {g : ε → ε} {h : α → β} {x y : EStateM ε σ α}
    {z : EStateM ε σ β} (hx : Simulates f g h x z) (hy : Simulates f g h y z) (hs : f s = f s')
    (hr : x s = .ok a t) : ∃ b t', y s' = .ok b t' ∧ h a = h b ∧ f t = f t' := by
  have hz := hx.of_ok hr
  rw [hs] at hz
  cases hy' : y s'
  case ok b t' =>
    have he := (hy.of_ok hy').symm.trans hz
    injection he with hb ht
    exact ⟨b, t', rfl, hb.symm, ht.symm⟩
  case error e t' => cases (hy.of_error hy').symm.trans hz

-- The token of a kind that stands for a text.
def TokenKind.lexeme (text : String) : TokenKind → Lexeme
  | illegal => .illegal text
  | eof => .eof
  | ident => .ident text
  | int => .int text
  | string => .string text
  | symbol s => .symbol s
  | keyword k => .keyword k

theorem Lexeme.lexeme_kind (x : Lexeme) : x.kind.lexeme x.literal = x := by
  cases x <;> rfl

variable {f : Location → Location}

namespace Value

@[simp]
theorem unwrap_relocate (v : Value) : (v.relocate f).unwrap = v.unwrap.relocate f := by
  cases v <;> rfl

end Value

namespace Program

def relocate (f : Location → Location) (p : Program) : Program :=
  ⟨f p.location, p.statements.map (·.relocate f)⟩

theorem eval_moves (frames : Nat) (s : Scope) (p : Program) :
    Eval.Moves f (Option.map (Value.relocate f)) (p.eval frames s)
      ((p.relocate f).eval frames s) := by
  intro m
  have hm : Eval.Moves f (Option.map (Value.relocate f))
      (Evaluator.sequence (Eval.stmt frames s) none p.statements)
      (Evaluator.sequence (Eval.stmt frames s) none (p.relocate f).statements) :=
    Evaluator.sequence_moves ((Eval.within_natural f frames).stmt s)
  unfold eval
  cases hr : Evaluator.sequence (Eval.stmt frames s) none p.statements m
  case ok r m' =>
    rw [hm.of_ok hr]
    simp [Function.comp_def]
  case error a m' =>
    rw [hm.of_error hr]
    cases a
    case tooDeep => exact ((Eval.fail_moves (some p.location) .tooDeep).map fun _ => rfl) m'
    case controlFlowBound => rfl

-- Programs that only differ in places do the same to machines that only differ in places.
theorem eval_congr {frames : Nat} {s : Scope} {p q : Program} {m m' : Machine}
    (hp : p.relocate f = q.relocate f) (hm : m.relocate f = m'.relocate f)
    (hr : p.eval frames s m = .ok r n) : ∃ r' n', q.eval frames s m' = .ok r' n' ∧
      r.map (·.relocate f) = r'.map (·.relocate f) ∧ n.relocate f = n'.relocate f :=
  (p.eval_moves frames s).agree (hp ▸ q.eval_moves frames s) hm hr

end Program

-- Streams of the same tokens only differ in places.
theorem TokenStream.relocate_congr {s s' : TokenStream}
    (h : s.toList.map (fun t => (t.kind, t.literal)) =
      s'.toList.map fun t => (t.kind, t.literal)) :
    s.relocate nowhere = s'.relocate nowhere := by
  simp only [toList, List.map_append, List.map_cons, List.map_nil, eof] at h
  have hp := congrArg (List.map fun p => Token.mk (p.1.lexeme p.2) .start)
    (List.append_inj_left' h rfl)
  simp only [List.map_map, Function.comp_def, Lexeme.lexeme_kind] at hp
  exact congrArg (TokenStream.mk · .start) hp

namespace Parse

theorem errors_relocate (f : Location → Location) (p : Parse) :
    (p.relocate f).errors = p.errors.map (·.relocate f) := by
  simp only [errors, relocate, List.map_map]
  rfl

theorem message_relocate (f : Location → Location) (p : Parse) :
    (p.relocate f).errors.map (·.message) = p.errors.map (·.message) := by
  rw [errors_relocate, List.map_map]
  rfl

end Parse

-- Two texts of the same tokens are read as the same statements, and as the same errors in the same
-- order, wherever these are. If there are no errors, running them leaves the same names with the
-- same values, the same values printed, and errors of which the same is known, but for places.
theorem evalSource_layout (frames : Nat) {source other : String}
    (h : (TokenStream.ofSource source).toList.map (fun t => (t.kind, t.literal)) =
      (TokenStream.ofSource other).toList.map fun t => (t.kind, t.literal)) :
    let p := parse frames source
    let q := parse frames other
    p.program.statements.map (·.relocate nowhere) =
      q.program.statements.map (·.relocate nowhere) ∧
    p.errors.map (·.message) = q.errors.map (·.message) ∧
    (p.errors = [] → ∃ r m r' m',
      evalSource frames Session.scope source Session.start = .ok (.ok r) m ∧
      evalSource frames Session.scope other Session.start = .ok (.ok r') m' ∧
      r.map (·.relocate nowhere) = r'.map (·.relocate nowhere) ∧
      m.relocate nowhere = m'.relocate nowhere) := by
  intro p q
  have hp : p.relocate nowhere = q.relocate nowhere := by
    simp only [p, q, parse, ← Parse.ofStream_relocate, TokenStream.relocate_congr h]
  have hm : p.errors.map (·.message) = q.errors.map (·.message) := by
    rw [← p.message_relocate nowhere, hp, q.message_relocate]
  refine ⟨congrArg (·.program.statements) hp, hm, fun he => ?_⟩
  have hq : q.errors = [] := List.map_eq_nil_iff.mp (hm.symm.trans (congrArg (List.map _) he))
  obtain ⟨r, m, hr, _⟩ := p.program.eval_sound frames Session.scope
    (Session.start_admits .free).sound
  have hpq : p.program.relocate nowhere = q.program.relocate nowhere :=
    congrArg (·.program) hp
  obtain ⟨r', m', hr', hv, hn⟩ := Program.eval_congr hpq rfl hr
  refine ⟨r, m, r', m', ?_, ?_, hv, hn⟩
  · simp only [evalSource, show (parse frames source).errors = [] from he]
    exact Eval.bind_of_ok hr
  · simp only [evalSource, show (parse frames other).errors = [] from hq]
    exact Eval.bind_of_ok hr'

-- A call that fails, on one line and on five; one text has the escape that the other one spells
-- out.
theorem evalSource_layout_failing :
    let source := "let f = fn(x) \x7b puts(\"a\\tb\"); x + true \x7d; f(1)"
    let other := "let f = // fails\n\n  fn(x) \x7b\n\tputs(\"a\tb\");x+true\n\x7d;f(1)"
    (TokenStream.ofSource source).toList.map (fun t => (t.kind, t.literal)) =
      (TokenStream.ofSource other).toList.map (fun t => (t.kind, t.literal)) ∧
    (parse defaultFrames source).errors = [] ∧
    ∃ r m r' m',
      evalSource defaultFrames Session.scope source Session.start = .ok (.ok r) m ∧
      evalSource defaultFrames Session.scope other Session.start = .ok (.ok r') m' ∧
      r.map (·.relocate nowhere) = r'.map (·.relocate nowhere) ∧
      m.relocate nowhere = m'.relocate nowhere := by
  intro source other
  have h : (TokenStream.ofSource source).toList.map (fun t => (t.kind, t.literal)) =
      (TokenStream.ofSource other).toList.map (fun t => (t.kind, t.literal)) := by
    decide +kernel
  have he : (parse defaultFrames source).errors = [] := by decide +kernel
  exact ⟨h, he, (evalSource_layout defaultFrames h).right.right he⟩

end Marmoset
