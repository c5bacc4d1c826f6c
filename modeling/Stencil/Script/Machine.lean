import Stencil.Context
import Stencil.Error
import Stencil.Resource
import Stencil.Script.Binding
import Stencil.Script.Tree
import Stencil.Value.Access

/-!
# The state of a running program

A running program reads and writes the context of its render, its own local variables and the
text it has written.  Everything else it asks of its host: registered functions, other templates,
and resources.

## Main definitions

* `Host` — what a program may ask of its surroundings.
* `State`, `Run` — the state of a program, and a step that may change it and fail.
* `Flow` — how a statement ends.
* `Place`, `Run.store` — where an assignment goes, and the assignment.
* `whileRounds`, `eachRound` — bounded repetition of a body.
-/

namespace Stencil

/-- What a program may ask of its surroundings, whose state is of type `σ`. -/
structure Host (σ : Type) where
  /-- The registered functions. -/
  functions : String → Option (List Value → Except RuntimeError Value)
  /-- The most rounds that one loop may run. -/
  limit : Nat
  /-- Renders the template with a directory and a file name. -/
  render : String → String → Context → σ → Except TemplateError String × Context × σ
  /-- Records a resource that the program asks for. -/
  record : ResourceEvent → σ → σ

/-- The state of a running program. -/
structure State (σ : Type) where
  /-- The context of the render. -/
  context : Context
  /-- The variables of the program itself. -/
  locals : Assoc String Value
  /-- The text written so far. -/
  out : String
  /-- The state of the host. -/
  host : σ

/-- A step of a program; after a failure the changes made before it remain. -/
abbrev Run (σ : Type) := EStateM TemplateError (State σ)

/-- How a statement ends. -/
inductive Flow where
  /-- The next statement follows. -/
  | normal : Flow
  /-- The innermost loop or switch ends. -/
  | breakOut : Flow
  /-- The next round of the innermost loop follows. -/
  | continueOn : Flow
  /-- The program ends. -/
  | exit : Flow
  deriving DecidableEq

/-- The variable in which a place lies. -/
inductive Root where
  /-- A variable of the context. -/
  | context (name : String) : Root
  /-- A variable of the program. -/
  | local (name : String) : Root
  deriving DecidableEq

/-- Where an assignment goes: a variable, and the way from it to one of its elements. -/
structure Place where
  /-- The variable. -/
  root : Root
  /-- The way to the element. -/
  path : List Step
  deriving DecidableEq

/-- The place one step farther. -/
def Place.extend (p : Place) (step : Step) : Place := { p with path := p.path ++ [step] }

namespace State

/-- The value of a variable before an assignment to it or to one of its elements. -/
def root {σ : Type} (st : State σ) : Root → Value
  | .context name => (st.context.get? name).getD .null
  | .local name => (Assoc.get? st.locals name).getD .null

/-- The state with a variable set. -/
def setRoot {σ : Type} (st : State σ) (v : Value) : Root → State σ
  | .context name => { st with context := st.context.set name v }
  | .local name => { st with locals := Assoc.insert st.locals name v }

end State

namespace Run

variable {σ α : Type}

/-- Stops the program. -/
def fail (e : RuntimeError) : Run σ α := throw (.runtime e)

/-- Goes on with a result, or stops the program. -/
def ofExcept : Except RuntimeError α → Run σ α
  | .ok a => pure a
  | .error e => fail e

/-- Writes text. -/
def write (s : String) : Run σ Unit := modify fun st => { st with out := st.out ++ s }

/-- The value of a variable: all variables of the context under the name `contextName`, and null
for a variable that was never set. -/
def readVar (name : String) : Run σ Value := do
  let st ← get
  if name = contextName then pure (.map st.context.vars)
  else pure ((Assoc.get? st.locals name).getD .null)

/-- Stores a value in a place.  The variable is there from now on and holds what the walk to the
place has made of it, also when a step of the walk is refused and the program stops. -/
def store (p : Place) (v : Value) : Run σ Unit := do
  let st ← get
  let written := Value.write v p.path (st.root p.root)
  set (st.setRoot written.1 p.root)
  if written.2 then pure () else fail .invalidAssignment

end Run

/-! ### Loops -/

section Loops

variable {σ : Type}

/-- Runs a body and a step while a condition holds, at most `n` times; `limit` is the number that
the failure names. -/
def whileRounds (limit : Nat) (cond : Run σ Bool) (body : Run σ Flow) (step : Run σ Unit) :
    Nat → Run σ Flow
  | 0 => do
    -- the condition is asked once more after the last round
    if ← cond then Run.fail (.iterationLimit limit) else pure .normal
  | n + 1 => do
    if ← cond then
      match ← body with
      | .breakOut => pure .normal
      | .exit => pure .exit
      | _ => do
        step
        whileRounds limit cond body step n
    else pure .normal

/-- Runs a body for every entry, at most `n` times, after the entry was bound. -/
def eachRound (limit : Nat) (bind : Value → Value → Run σ Unit) (body : Run σ Flow) :
    Nat → List (Value × Value) → Run σ Flow
  | _, [] => pure .normal
  | 0, _ :: _ => Run.fail (.iterationLimit limit)
  | n + 1, (k, v) :: rest => do
    bind k v
    match ← body with
    | .breakOut => pure .normal
    | .exit => pure .exit
    | _ => eachRound limit bind body n rest

end Loops

end Stencil
