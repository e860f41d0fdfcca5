import TypedScript.Checking

/-!
# Parts of the rules of checking

The rules of the checker ask for the types of the parts first, and then do something with
them. The second halves get names here: what a call, an assignment and a return do with the
types (`Checker.resultOfCall`, `Checker.resultOfAssign`, `Checker.noteGiven`), how the
properties of an object literal go on behind one that has a type (`Checker.fieldsBehind`),
and a loop from its condition on (`Checker.loopRound`). So what is to be shown of the
checker needs one lemma for each of them, whatever the parts are.
-/

namespace TypedScript.Checker

variable (go : Checker)

/-- The type of a call whose callee and arguments have types. -/
def resultOfCall (type : Ty) (found : List (Ty × Position)) (count : Nat) (position : Position) :
    Check Ty := do
  if type = .unknown then return .unknown
  match type.callable? with
  | none =>
    Check.report (.notCallable type) position
    return .unknown
  | some signature =>
    unless signature.arity.accepts count do
      Check.report (.argumentCount signature.arity count) position
    go.expectArguments signature 0 found
    return signature.result

/-- The type of an assignment whose target and value have types. -/
def resultOfAssign (expected given : Ty) (op? : Option BinaryOp) (value : Expr)
    (position : Position) : Check Ty := do
  let found ←
    match op? with
    | some op => go.typeOfBinary op expected given position
    | none => pure given
  go.expect found expected value.position
  return expected

/-- A loop behind its condition: the update, if there is one, and the body. -/
def loopRest (update? : Option Expr) (body : Block) : Check Unit := do
  if let some update := update? then
    discard (go.typeOf update)
  go.checkBlock body

/-- A loop from its condition on. -/
def loopRound (condition? update? : Option Expr) (body : Block) : Check Unit := do
  if let some condition := condition? then
    go.checkCondition condition
  go.loopRest update? body

/-- What is left of the properties of an object literal once the first of them has a type:
the type is added to the shape, unless the shape has the name already, and the others
follow. -/
def fieldsBehind (field : Field) (rest : List Field) (shape : Shape) (type : Ty)
    (methods : List Method) : Check (Shape × List Method) := do
  let extended ←
    if shape.has field.name then
      Check.report (.duplicateDeclaration field.name) field.position
      pure shape
    else pure (shape ++ [⟨field.name, type, false⟩])
  let (final, others) ← go.fieldTypes extended rest
  return (final, methods ++ others)

theorem fieldTypes_cons (shape : Shape) (field : Field) (rest : List Field) :
    go.fieldTypes shape (field :: rest) =
      match field.value with
      | .function f =>
        go.signature f >>= fun signature =>
          go.fieldsBehind field rest shape (.function signature) [⟨field.name, f, signature⟩]
      | value => go.typeOf value >>= fun type => go.fieldsBehind field rest shape type [] := by
  rw [fieldTypes]
  cases field.value <;> rfl

theorem fieldTypes_cons_of_ne {field : Field} (hne : ∀ f, field.value ≠ .function f)
    (shape : Shape) (rest : List Field) :
    go.fieldTypes shape (field :: rest) =
      go.typeOf field.value >>= fun type => go.fieldsBehind field rest shape type [] := by
  rw [fieldTypes_cons]
  split
  · next f hvalue => exact absurd hvalue (hne f)
  · rfl

/-- What a return does once its value has a type. -/
def noteGiven (type : Ty) (blamed position : Position) : Check Unit := do
  match (← get).functions with
  | [] => Check.report .returnOutsideFunction position
  | activation :: _ =>
    if let some declared := activation.declared? then
      go.expect type declared blamed
    Check.noteReturn type

end TypedScript.Checker
