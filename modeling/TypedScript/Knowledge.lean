import TypedScript.Tree
import TypedScript.Types.Denotation
import TypedScript.Value

/-!
# What is known while a program is checked

A `Knowledge` is all that checking can change: the scopes of names with their
types, the functions whose bodies are being looked at, the types of their
receivers, the functions whose result is being inferred, and the diagnostics
found so far. A `Check` changes what is known and ends with a value, or stops
without an answer; stopping says nothing about the program.

`inScope`, `inFunction`, `inferring` and `aside` change the knowledge for the
time of an action and take the change back afterwards.
-/

namespace TypedScript

/-- What is known of a name. -/
structure Binding where
  type : Ty
  position : Position
  /-- The declared function that the name stands for, as long as its result has
  still to be inferred. -/
  pending? : Option Function

/-- The names of one block, function or loop. -/
abbrev Scope := Record Binding

/-- A function whose body is being looked at. -/
structure Activation where
  /-- The result that the function declares. -/
  declared? : Option Ty
  /-- The types of the values given back so far. -/
  returns : List Ty

/-- All that is known. Of the lists of scopes, functions and receivers the
innermost comes first. -/
structure Knowledge where
  scopes : List Scope
  functions : List Activation
  receivers : List Ty
  /-- The places of the declared functions whose bodies are being looked at for
  their results. -/
  inferring : List Position
  /-- How many functions are being looked at ahead of their turn. -/
  ahead : Nat
  diagnostics : List Diagnostic

namespace Knowledge

/-- What is known of a name: the innermost scope that has it counts. -/
def lookup? (k : Knowledge) (name : String) : Option Binding :=
  k.scopes.findSome? (·.get? name)

end Knowledge

/-- Why a check stops without an answer. -/
inductive Unfinished where
  /-- The fuel for the descent into the program was used up. -/
  | descent
  /-- A question about types was not answered with the effort given. -/
  | question
deriving DecidableEq

/-- A computation that changes what is known. -/
abbrev Check := EStateM Unfinished Knowledge

namespace Check

variable {α : Type}

/-- The answer to a question about types. -/
def ask : Answer α → Check α
  | some a => pure a
  | none => throw .question

/-- Adds diagnostics. -/
def reportAll (found : List Diagnostic) : Check Unit :=
  modify fun k => { k with diagnostics := k.diagnostics ++ found }

/-- Adds a diagnostic. -/
def report (cause : TypeCause) (position : Position) : Check Unit :=
  reportAll [⟨cause, position⟩]

/-- Enters a name into the innermost scope. A name that is there already keeps
its entry. -/
def enter (name : String) (binding : Binding) : Check Unit := do
  match (← get).scopes with
  | [] => pure ()
  | scope :: rest =>
    if scope.has name then report (.duplicateDeclaration name) binding.position
    else modify fun k => { k with scopes := scope.set name binding :: rest }

/-- Declares a name. -/
def declare (name : String) (type : Ty) (position : Position) : Check Unit :=
  enter name ⟨type, position, none⟩

/-- Declares the names of parameters. -/
def declareParams : List Parameter → List Ty → Check Unit
  | param :: params, type :: types => do
    declare param.name type param.position
    declareParams params types
  | _, _ => pure ()

/-- Runs an action in a scope of its own. -/
def inScope (action : Check α) : Check α := do
  modify fun k => { k with scopes := .empty :: k.scopes }
  let a ← action
  modify fun k => { k with scopes := k.scopes.tail }
  return a

/-- Runs an action as the body of a function, and tells the types of the values
given back. -/
def inFunction (declared? : Option Ty) (receiver : Ty) (action : Check Unit) :
    Check (List Ty) := do
  modify fun k =>
    { k with functions := ⟨declared?, []⟩ :: k.functions, receivers := receiver :: k.receivers }
  action
  let returns := match (← get).functions with
    | [] => []
    | activation :: _ => activation.returns
  modify fun k => { k with functions := k.functions.tail, receivers := k.receivers.tail }
  return returns

/-- Notes that the function being looked at gives back a value of a type. -/
def noteReturn (type : Ty) : Check Unit :=
  modify fun k =>
    { k with
      functions := match k.functions with
        | [] => []
        | activation :: rest =>
          { activation with returns := activation.returns ++ [type] } :: rest }

/-- Runs an action while the function declared at a place counts as being
looked at for its result. -/
def inferring (position : Position) (action : Check α) : Check α := do
  modify fun k => { k with inferring := position :: k.inferring }
  let a ← action
  modify fun k => { k with inferring := k.inferring.tail }
  return a

/-- Runs an action ahead of its turn, in the scopes from the innermost one that
has a name outward. Its diagnostics are dropped. -/
def aside (name : String) (action : Check α) : Check α := do
  let before ← get
  let (inner, outer) := before.scopes.span fun scope => !scope.has name
  set { before with scopes := outer, ahead := before.ahead + 1 }
  let a ← action
  modify fun k =>
    { k with
      scopes := inner ++ k.scopes
      ahead := k.ahead - 1
      diagnostics := before.diagnostics }
  return a

/-- Gives a name of the innermost scope its final type. -/
def refine (name : String) (type : Ty) : Check Unit :=
  modify fun k =>
    { k with
      scopes := match k.scopes with
        | [] => []
        | scope :: rest =>
          match scope.get? name with
          | some binding => scope.set name { binding with type, pending? := none } :: rest
          | none => scope :: rest }

end Check

end TypedScript
