import Marmoset.Value.Display
import Marmoset.Value.Equality

/-!
The state of a running program: the names bound in each scope, the objects and errors made and the
values printed. `Eval` is a computation on it; where it is cut short, the state stays as it was
then.
-/

namespace Marmoset

abbrev Bindings := Assoc String Value

structure Machine where
  -- The names bound in each scope itself, by the number of the scope.
  scopes : Array Bindings
  nextObject : ObjectId
  -- What is known of each error.
  diagnostics : Array Diagnostic
  -- All values printed so far.
  printed : Array Value

namespace Machine

def empty : Machine :=
  ⟨#[], 0, #[], #[]⟩

def bindings (m : Machine) (i : ScopeId) : Bindings :=
  m.scopes[i]?.getD []

-- The names bound in the scope itself.
def names (m : Machine) (s : Scope) : List String :=
  Assoc.keys (m.bindings s.id)

-- The innermost value of the name in the scope and those around it.
def resolve? (m : Machine) (s : Scope) (name : String) : Option Value :=
  (s.id :: s.outer).findSome? fun i => Assoc.find? name (m.bindings i)

-- A scope without names, inside `outer` if that is given.
def newScope (m : Machine) (outer : Option Scope) : Scope × Machine :=
  (⟨m.scopes.size, outer.elim [] fun o => o.id :: o.outer⟩,
    { m with scopes := m.scopes.push [] })

def define (m : Machine) (s : Scope) (name : String) (v : Value) : Machine :=
  { m with scopes := m.scopes.modify s.id (Assoc.insert name v) }

def newObject (m : Machine) : ObjectId × Machine :=
  (m.nextObject, { m with nextObject := m.nextObject + 1 })

def diagnostic (m : Machine) (i : ErrorId) : Diagnostic :=
  m.diagnostics[i]?.getD (.fresh none)

def newError (m : Machine) (l : Option Location) : ErrorId × Machine :=
  (m.diagnostics.size, { m with diagnostics := m.diagnostics.push (.fresh l) })

-- Wherever the error is held, it is this error: what is learned of it holds there too.
def annotate (m : Machine) (i : ErrorId) (f : Diagnostic → Diagnostic) : Machine :=
  { m with diagnostics := m.diagnostics.modify i f }

def print (m : Machine) (v : Value) : Machine :=
  { m with printed := m.printed.push v }

-- The text printed since the machine was `earlier`, one value a line.
def outputSince (m earlier : Machine) : String :=
  String.join ((m.printed.toList.drop earlier.printed.size).map (·.display ++ "\n"))

variable {m : Machine} {s : Scope}

theorem bindings_define (name : String) (v : Value) (i : ScopeId) :
    (m.define s name v).bindings i =
      if i = s.id ∧ i < m.scopes.size then Assoc.insert name v (m.bindings i)
      else m.bindings i := by
  simp only [bindings, define, Array.getElem?_modify]
  by_cases h : i = s.id
  case neg => simp [h, Ne.symm h]
  case pos =>
    subst h
    by_cases hi : s.id < m.scopes.size <;> simp [hi]

@[simp]
theorem bindings_newScope (outer : Option Scope) (i : ScopeId) :
    (m.newScope outer).2.bindings i = m.bindings i := by
  simp only [bindings, newScope, Array.getElem?_push]
  split
  case isTrue h => simp [h]
  case isFalse => rfl

theorem resolve?_define_self (h : s.id < m.scopes.size) (name : String) (v : Value) :
    (m.define s name v).resolve? s name = some v := by
  simp [resolve?, bindings_define, h, Assoc.find?_insert_self]

theorem diagnostic_newError (l : Option Location) (i : ErrorId) :
    (m.newError l).2.diagnostic i = if i = (m.newError l).1 then .fresh l else m.diagnostic i := by
  by_cases h : i = m.diagnostics.size <;> simp [diagnostic, newError, Array.getElem?_push, h]

theorem diagnostic_annotate {i : ErrorId} (h : i < m.diagnostics.size)
    (f : Diagnostic → Diagnostic) (j : ErrorId) :
    (m.annotate i f).diagnostic j = if i = j then f (m.diagnostic j) else m.diagnostic j := by
  simp only [diagnostic, annotate, Array.getElem?_modify]
  split
  case isTrue e =>
    subst e
    simp [h]
  case isFalse => rfl

@[simp]
theorem bindings_newError (l : Option Location) (i : ScopeId) :
    (m.newError l).2.bindings i = m.bindings i :=
  rfl

@[simp]
theorem bindings_annotate (i : ErrorId) (f : Diagnostic → Diagnostic) (j : ScopeId) :
    (m.annotate i f).bindings j = m.bindings j :=
  rfl

@[simp]
theorem printed_define (name : String) (v : Value) : (m.define s name v).printed = m.printed :=
  rfl

@[simp]
theorem printed_newScope (outer : Option Scope) : (m.newScope outer).2.printed = m.printed :=
  rfl

@[simp]
theorem printed_newError (l : Option Location) : (m.newError l).2.printed = m.printed :=
  rfl

@[simp]
theorem printed_annotate (i : ErrorId) (f : Diagnostic → Diagnostic) :
    (m.annotate i f).printed = m.printed :=
  rfl

end Machine

-- Why a computation is cut short without a value.
inductive Abort
  -- It nests beyond the limit.
  | tooDeep
  -- A name was to be bound to a control flow value.
  | controlFlowBound
deriving DecidableEq

abbrev Eval := EStateM Abort Machine

-- What a computation comes to, and the machine that it leaves.
abbrev Result := EStateM.Result Abort Machine

def Result.machine : Result α → Machine
  | .ok _ m | .error _ m => m

namespace Eval

section

variable {x : Eval α} {m m' : Machine}

theorem bind_of_ok {f : α → Eval β} (h : x m = .ok a m') : (x >>= f) m = f a m' := by
  simp only [bind, EStateM.bind, h]

theorem bind_of_error {f : α → Eval β} (h : x m = .error e m') : (x >>= f) m = .error e m' := by
  simp only [bind, EStateM.bind, h]

theorem map_of_ok {f : α → β} (h : x m = .ok a m') : (f <$> x) m = .ok (f a) m' := by
  simp only [Functor.map, EStateM.map, h]

theorem map_congr {y : Eval α} {f : α → β} (h : x m = y m') : (f <$> x) m = (f <$> y) m' := by
  simp only [Functor.map, EStateM.map, h]

end

def tooDeep : Eval α :=
  throw .tooDeep

def resolve? (s : Scope) (name : String) : Eval (Option Value) :=
  fun m => .ok (m.resolve? s name) m

def newScope (outer : Option Scope) : Eval Scope :=
  fun m => .ok (m.newScope outer).1 (m.newScope outer).2

def define (s : Scope) (name : String) (v : Value) : Eval Unit :=
  fun m => if v.isControlFlow then .error .controlFlowBound m else .ok () (m.define s name v)

def defineAll (s : Scope) : List (Binder × Value) → Eval Unit
  | [] => return
  | (b, v) :: ps => do
    define s b.name v
    defineAll s ps

def newObject : Eval ObjectId :=
  fun m => .ok m.newObject.1 m.newObject.2

def newArray (vs : List Value) : Eval Value := do
  return .array (← newObject) vs

def newHash (ps : List (Value × Value)) : Eval Value := do
  return .hash (← newObject) ps

-- A new error; its place may not be known yet.
def fail (l : Option Location) (f : Fault) : Eval Value :=
  fun m => .ok (.error (m.newError l).1 f) (m.newError l).2

-- The value of an operation at a place of the program.
def ofResult (l : Location) : Except Fault Value → Eval Value
  | .ok v => return v
  | .error f => fail l f

-- Adds to what is known of an error; other values have nothing to add to.
def annotate (v : Value) (f : Diagnostic → Diagnostic) : Eval Unit :=
  match v with
  | .error i _ => fun m => .ok () (m.annotate i f)
  | _ => return

def print (v : Value) : Eval Unit :=
  fun m => .ok () (m.print v)

end Eval

end Marmoset
