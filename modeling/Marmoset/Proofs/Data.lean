import Marmoset.Proofs.Policy

/-!
What is returned and what has gone wrong never becomes data: no scope, array or hash holds it.
This holds at every moment of every session.
-/

namespace Marmoset

namespace Value

-- A value that programs may bind, print and put into arrays and hashes, as may all its parts.
inductive IsData : Value → Prop
  | null : IsData .null
  | bool (b : Bool) : IsData (.bool b)
  | int (n : Int64) : -0x8000000000000000 ≤ n.toInt → n.toInt ≤ 0x7fffffffffffffff →
    IsData (.int n)
  | string (s : String) : IsData (.string s)
  | array (i : ObjectId) : (∀ v ∈ vs, IsData v) → IsData (.array i vs)
  | hash (i : ObjectId) : (∀ p ∈ ps, p.1.isHashable) → (∀ p ∈ ps, IsData p.1) →
    (∀ p ∈ ps, IsData p.2) → IsData (.hash i ps)
  | function (c : Closure) : IsData (.function c)
  | builtin (b : Builtin) : IsData (.builtin b)

-- What a call or a whole program may come to.
inductive IsAnswer : Value → Prop
  | data : IsData v → IsAnswer v
  | error (i : ErrorId) (f : Fault) : IsAnswer (.error i f)

-- What an expression may come to: a value on its way out of a function is wrapped once.
inductive IsResult : Value → Prop
  | answer : IsAnswer v → IsResult v
  | returned : IsData v → IsResult (.returned v)

end Value

structure Machine.Sound (m : Machine) : Prop where
  bindings : ∀ i, ∀ p ∈ m.bindings i, p.2.IsData
  printed : ∀ v ∈ m.printed, v.IsData

namespace Task

-- A function is only ever called with data, and only data is ever called.
def Sound : Task → Prop
  | call _ f args => f.IsData ∧ ∀ v ∈ args, v.IsData
  | _ => True

-- Only statements and what is made of them may have no value, and only calls and whole programs
-- put an end to control flow.
def Yields : Task → Option Value → Prop
  | expr .., r => ∃ v, r = some v ∧ v.IsResult
  | block .., r | stmt .., r => ∀ v ∈ r, v.IsResult
  | call .., r => ∃ v, r = some v ∧ v.IsAnswer
  | program .., r => ∀ v ∈ r, v.IsAnswer

end Task

structure Activation.Sound (u : Activation) : Prop where
  task : u.task.Sound
  start : u.start.Sound
  stop : (Result.machine u.outcome).Sound
  yields : ∀ r m, u.outcome = .ok r m → u.task.Yields r
  binds : ∀ m, u.outcome ≠ .error .controlFlowBound m

/-!
Soundness is what any policy comes to; the one that permits all code asks for nothing else.
-/

section

open Policy

variable {P : Policy} {v : Value} {m : Machine}

theorem Policy.Data.isData (h : P.Data v) : v.IsData := by
  induction h
  case null => exact .null
  case bool b => exact .bool b
  case int n => exact .int n n.le_toInt (by have := n.toInt_lt; omega)
  case string s => exact .string s
  case array i _ hi => exact .array i hi
  case hash i hh _ _ hk hv => exact .hash i hh hk hv
  case function => exact .function _
  case builtin b => exact .builtin b

theorem Value.IsData.data (h : v.IsData) : free.Data v := by
  induction h
  case null => exact .null
  case bool b => exact .bool b
  case int n _ _ => exact .int n
  case string s => exact .string s
  case array i _ hi => exact .array i hi
  case hash i hh _ _ hk hv => exact .hash i hh hk hv
  case function => exact .function trivial
  case builtin b => exact .builtin b

theorem Policy.Answer.isAnswer (h : P.Answer v) : v.IsAnswer := by
  cases h
  case data h => exact .data h.isData
  case error => exact .error _ _

theorem Policy.Yield.isResult (h : P.Yield v) : v.IsResult := by
  cases h
  case answer h => exact .answer h.isAnswer
  case returned h => exact .returned h.isData

theorem Policy.Admits.sound (h : P.Admits m) : m.Sound where
  bindings i p hp := (h.bindings i p hp).isData
  printed v hv := (h.printed v hv).isData

theorem Machine.Sound.admits (h : m.Sound) : free.Admits m where
  bindings i p hp := (h.bindings i p hp).data
  printed v hv := (h.printed v hv).data

theorem Policy.Governs.sound {u : Activation} (h : P.Governs u) : u.Sound where
  task := by
    have ht := h.task
    cases hk : u.task <;> rw [hk] at ht
    case call => exact ⟨ht.left.isData, fun v hv => (ht.right v hv).isData⟩
    all_goals trivial
  start := h.start.sound
  stop := h.stop.sound
  yields := by
    intro r m he
    have hy := h.yields r m he
    cases hk : u.task <;> rw [hk] at hy
    case expr =>
      obtain ⟨v, rfl, hv⟩ := hy
      exact ⟨v, rfl, hv.isResult⟩
    case call =>
      obtain ⟨v, rfl, hv⟩ := hy
      exact ⟨v, rfl, hv.isAnswer⟩
    case block | stmt => exact fun v hv => (hy v hv).isResult
    case program => exact fun v hv => (hy v hv).isAnswer
  binds := h.binds

end

namespace Program

variable {frames : Nat} {s : Scope} {p : Program} {m : Machine}

theorem eval_sound (frames : Nat) (s : Scope) (p : Program) (hm : m.Sound) :
    ∃ r m', p.eval frames s m = .ok r m' ∧ m'.Sound ∧ ∀ v ∈ r, v.IsAnswer := by
  obtain ⟨r, m', he, hm', hr⟩ :=
    eval_governed Policy.free_lawful (fun _ _ => trivial) frames s hm.admits
  exact ⟨r, m', he, hm'.sound, fun v hv => (hr v hv).isAnswer⟩

theorem activation_sound (hm : m.Sound) {u : Activation}
    (hu : u.Within (p.activation frames s m)) : u.Sound :=
  (activation_governed Policy.free_lawful (fun _ _ => trivial) hm.admits hu).sound

end Program

namespace Session

-- The scope of a session and the machine it begins with.
def scope : Scope :=
  (Machine.empty.newScope none).1

def start : Machine :=
  (Machine.empty.newScope none).2

-- The machine after the texts have been run one after another.
def after (frames : Nat) (sources : List String) : Machine :=
  sources.foldl (fun m source => Result.machine (evalSource frames scope source m)) start

theorem start_admits (P : Policy) : P.Admits start :=
  Policy.Admits.empty.newScope none

end Session

-- A text, if it is of permitted code, leaves the machine with permitted data.
theorem evalSource_governed {P : Policy} {frames : Nat} {source : String} {m : Machine}
    (hP : P.Lawful) (hp : ∀ x ∈ (parse frames source).program.statements, P.code (.stmt x))
    (s : Scope) (hm : P.Admits m) :
    ∃ r m', evalSource frames s source m = .ok r m' ∧ P.Admits m' ∧
      ∀ v, r = .ok (some v) → P.Answer v := by
  cases h : (parse frames source).errors
  case nil =>
    obtain ⟨r, m', he, hm', hr⟩ := Program.eval_governed hP hp frames s hm
    simp only [evalSource, h, bind, EStateM.bind, he]
    exact ⟨_, _, rfl, hm', by rintro v ⟨⟩; exact hr v rfl⟩
  case cons =>
    simp only [evalSource, h]
    exact ⟨_, _, rfl, hm, by simp⟩

theorem Session.after_admits {P : Policy} {frames : Nat} (hP : P.Lawful)
    (hp : ∀ source, ∀ x ∈ (parse frames source).program.statements, P.code (.stmt x))
    (sources : List String) : P.Admits (Session.after frames sources) := by
  suffices h : ∀ m : Machine, P.Admits m →
      P.Admits (sources.foldl (fun m t => Result.machine (evalSource frames scope t m)) m) from
    h _ (Session.start_admits P)
  induction sources
  case nil => exact fun m hm => hm
  case cons source sources hi =>
    intro m hm
    obtain ⟨r, m', he, hm', -⟩ := evalSource_governed hP (hp source) scope hm
    simpa [he, Result.machine] using hi m' hm'

theorem evalSource_meets (frames : Nat) (s : Scope) (source : String) {m : Machine}
    (hm : m.Sound) :
    ∃ r m', evalSource frames s source m = .ok r m' ∧ m'.Sound ∧
      ∀ v, r = .ok (some v) → v.IsAnswer := by
  obtain ⟨r, m', he, hm', hr⟩ :=
    evalSource_governed Policy.free_lawful (fun _ _ => trivial) s hm.admits
  exact ⟨r, m', he, hm'.sound, fun v hv => (hr v hv).isAnswer⟩

theorem Session.after_sound (frames : Nat) (sources : List String) :
    (Session.after frames sources).Sound :=
  (Session.after_admits Policy.free_lawful (fun _ _ _ => trivial) sources).sound

-- However many texts have been run in the session, running one more is sound at every moment, and
-- it ends with a syntax error or with an answer.
theorem evalSource_sound (frames : Nat) (earlier : List String) (source : String) :
    let m := Session.after frames earlier
    (∀ u : Activation,
      u.Within ((parse frames source).program.activation frames Session.scope m) → u.Sound) ∧
      ∃ r m', evalSource frames Session.scope source m = .ok r m' ∧ m'.Sound ∧
        ∀ v, r = .ok (some v) → v.IsAnswer :=
  have hm := Session.after_sound frames earlier
  ⟨fun _ => Program.activation_sound hm, evalSource_meets frames _ source hm⟩

end Marmoset
