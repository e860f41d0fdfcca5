import TypedScript.Knowledge

/-!
# Checking a program

Each kind of expression and statement has a rule, and each rule is written
over a `Checker` that checks the parts of the node. The functions at the end
tie the knot: with fuel `n + 1` a rule is used, and its parts are checked with
fuel `n`, so the fuel bounds how deep a check descends.

An expression whose type cannot be told, be it for a mistake or because
`unknown` takes part, has the type `unknown`, so that one mistake does not
entail others. Functions declared in a list of statements are known from the
start of the list on, and their bodies are checked at its end, when all names
of the list are known. The result of a function that declares none is inferred
from its body: at the end of the list, or before that where its name is used
first. A function that is used while its own body is being looked at has an
`unknown` result there, which ends the recursion.
-/

namespace TypedScript

/-- How the parts of an expression or statement are checked. -/
structure Checker where
  /-- The interfaces of the program. -/
  table : Table
  /-- The effort put into each question about types. -/
  effort : Nat
  typeOf : Expr → Check Ty
  check : Stmt → Check Unit
  /-- Statements in a row, in the innermost scope. -/
  checkAll : List Stmt → Check Unit

namespace Checker

open Check

section Rules

variable (go : Checker)

/-- Reports a type that does not fit where another is expected. -/
def expect (found expected : Ty) (position : Position) : Check Unit := do
  if ← ask (go.table.fits? go.effort found expected) then pure ()
  else report (.mismatch expected found) position

/-- The type that a written type denotes. -/
def readType (type : TypeExpr) : Check Ty := do
  reportAll (← ask (go.table.problems? go.effort type))
  return go.table.denote type

/-- The type of a parameter, `unknown` if none is written. -/
def readParam (param : Parameter) : Check Ty :=
  match param.type? with
  | some type => go.readType type
  | none => pure .unknown

/-- The type of a function as far as it is written down: a result that is not
is `unknown`. -/
def signature (f : Function) : Check Signature := do
  let params ← f.params.mapM go.readParam
  let result ←
    match f.result? with
    | some type => go.readType type
    | none => pure .unknown
  return ⟨params, requiredCount f.params, false, result⟩

/-- The body of a function, given its type as far as it is written down and
the type of its receiver. Gives the result: that declared, or else the union of
the types given back. -/
def checkBody (f : Function) (signature : Signature) (receiver : Ty) : Check Ty := do
  let declared? := f.result?.map fun _ => signature.result
  let returns ← inScope do
    declareParams f.params signature.params
    inFunction declared? receiver (go.checkAll f.body.statements)
  return declared?.getD (.unionOf returns)

/-! ## Statements in a row -/

/-- Declares the functions of a list of statements, in their order. -/
def hoist : List Stmt → Check (List (Function × Signature))
  | [] => return []
  | .function f :: rest => do
    let signature ← go.signature f
    if let some name := f.name? then
      enter name
        ⟨.function signature, f.position, if f.result?.isNone then some f else none⟩
    return (f, signature) :: (← hoist rest)
  | _ :: rest => hoist rest

/-- Statements one after the other. -/
def checkEach : List Stmt → Check Unit
  | [] => pure ()
  | statement :: rest => do
    go.check statement
    checkEach rest

/-- Whether a name of the innermost scope was declared by a function that
leaves its result to be inferred. -/
def awaitsResult (f : Function) (name : String) : Check Bool := do
  match (← get).scopes with
  | [] => return false
  | scope :: _ =>
    match scope.get? name with
    | some binding => return f.result?.isNone && binding.position = f.position
    | none => return false

/-- The bodies of the functions declared in a list of statements. -/
def checkHoisted : List (Function × Signature) → Check Unit
  | [] => pure ()
  | (f, signature) :: rest => do
    let result ← inferring f.position (go.checkBody f signature .unknown)
    if let some name := f.name? then
      if ← awaitsResult f name then
        refine name (.function { signature with result })
    checkHoisted rest

/-- The rule of statements in a row. Ahead of its turn a list is looked at for
what it gives back only, and the functions used for that are inferred when they
are used. -/
def rowRule (statements : List Stmt) : Check Unit := do
  let hoisted ← go.hoist statements
  go.checkEach statements
  if (← get).ahead = 0 then go.checkHoisted hoisted

/-- A block, in a scope of its own. -/
def checkBlock (b : Block) : Check Unit :=
  inScope (go.checkAll b.statements)

/-! ## Names -/

/-- Infers the result of the function that a name stands for, ahead of its
turn, and gives the name its final type. -/
def infer (name : String) (f : Function) (signature : Signature) : Check Unit :=
  unless f.position ∈ (← get).inferring do
    aside name do
      let result ← inferring f.position (go.checkBody f signature .unknown)
      refine name (.function { signature with result })

/-- The type of a name. -/
def typeOfName (name : String) (position : Position) : Check Ty := do
  match (← get).lookup? name with
  | none =>
    report (.unknownName name) position
    return .unknown
  | some binding =>
    if let (.function signature, some f) := (binding.type, binding.pending?) then
      go.infer name f signature
    return ((← get).lookup? name).elim .unknown (·.type)

/-! ## Expressions -/

/-- The type of a property. -/
def typeOfProperty (object : Ty) (property : String) (position : Position) : Check Ty := do
  match ← ask (go.table.property? go.effort property object) with
  | some type => return type
  | none =>
    report (.unknownProperty property object) position
    return .unknown

/-- The type of the result of a binary operator, whose operands have to suit
it. -/
def typeOfBinary (op : BinaryOp) (left right : Ty) (position : Position) : Check Ty := do
  let hasText := left = .text || right = .text
  let both (operand result : Ty) : Check Ty := do
    go.expect left operand position
    go.expect right operand position
    return result
  match op with
  | .add =>
    if hasText then return .text
    else if left = .unknown || right = .unknown then return .unknown
    else both .number .number
  | .subtract | .multiply | .divide | .modulo => both .number .number
  | .less | .greater | .lessEqual | .greaterEqual =>
    both (if hasText then .text else .number) .boolean
  | .equal | .notEqual | .strictEqual | .strictNotEqual => return .boolean
  | .and | .or => both .boolean .boolean

/-- The arguments of a call against the parameters of a function, from a place
on. -/
def expectArguments (signature : Signature) (index : Nat) :
    List (Ty × Position) → Check Unit
  | [] => pure ()
  | (found, position) :: rest => do
    if let some expected := signature.param? index then
      go.expect found expected position
    expectArguments signature (index + 1) rest

/-- The type of a call. -/
def typeOfCall (callee : Expr) (arguments : List Expr) (position : Position) : Check Ty := do
  let type ← go.typeOf callee
  let found ← arguments.mapM fun argument => do
    return (← go.typeOf argument, argument.position)
  if type = .unknown then return .unknown
  match type.callable? with
  | none =>
    report (.notCallable type) position
    return .unknown
  | some signature =>
    unless signature.arity.accepts arguments.length do
      report (.argumentCount signature.arity arguments.length) position
    go.expectArguments signature 0 found
    return signature.result

/-- A function among the properties of an object literal. -/
structure Method where
  name : String
  definition : Function
  signature : Signature

/-- The properties of an object literal in their order: the shape that they
add to, and the functions among them, whose bodies are left for later. -/
def fieldTypes (shape : Shape) : List Field → Check (Shape × List Method)
  | [] => return (shape, [])
  | field :: rest => do
    let (type, methods) ←
      match field.value with
      | .function f =>
        let signature ← go.signature f
        pure (.function signature, [⟨field.name, f, signature⟩])
      | value => pure (← go.typeOf value, [])
    let extended ←
      if shape.has field.name then
        report (.duplicateDeclaration field.name) field.position
        pure shape
      else pure (shape ++ [⟨field.name, type, false⟩])
    let (final, others) ← fieldTypes extended rest
    return (final, methods ++ others)

/-- The bodies of the functions of an object literal, which is their receiver:
each sees the results inferred for those before it. -/
def checkMethods (shape : Shape) : List Method → Check Shape
  | [] => return shape
  | method :: rest => do
    let result ← go.checkBody method.definition method.signature (.object shape)
    let refined :=
      if method.definition.result?.isNone then
        shape.update method.name fun slot =>
          { slot with type := .function { method.signature with result } }
      else shape
    checkMethods refined rest

/-- The rule of expressions. -/
def exprRule (e : Expr) : Check Ty := do
  match e with
  | .literal (.number _) _ => return .number
  | .literal (.text _) _ => return .text
  | .literal (.boolean _) _ => return .boolean
  | .literal .undefined _ => return .void
  | .reference name position => go.typeOfName name position
  | .receiver position =>
    match (← get).receivers with
    | type :: _ => return type
    | [] =>
      report (.unknownName "this") position
      return .unknown
  | .unary op operand _ =>
    let type ← go.typeOf operand
    let wanted : Ty := match op with
      | .negate => .number
      | .not => .boolean
    go.expect type wanted operand.position
    return wanted
  | .binary left op right position =>
    let a ← go.typeOf left
    let b ← go.typeOf right
    go.typeOfBinary op a b position
  | .assign target op? value position =>
    let expected ← go.typeOf target
    let given ← go.typeOf value
    let found ←
      match op? with
      | some op => go.typeOfBinary op expected given position
      | none => pure given
    go.expect found expected value.position
    return expected
  | .update target _ _ position =>
    let type ← go.typeOf target
    go.expect type .number position
    return .number
  | .call callee arguments position => go.typeOfCall callee arguments position
  | .member object property position =>
    let type ← go.typeOf object
    go.typeOfProperty type property position
  | .object fields _ =>
    let (shape, methods) ← go.fieldTypes [] fields
    return .object (← go.checkMethods shape methods)
  | .function f =>
    let signature ← go.signature f
    let result ← go.checkBody f signature .unknown
    return .function { signature with result }

/-! ## Statements -/

/-- A condition has to be a truth value. -/
def checkCondition (condition : Expr) : Check Unit := do
  let type ← go.typeOf condition
  go.expect type .boolean condition.position

/-- The rule of statements. Functions are seen to where the list of statements
is, and interfaces where the table was made. -/
def stmtRule (s : Stmt) : Check Unit := do
  match s with
  | .variable name type? value? position =>
    let declared? ← type?.mapM go.readType
    let found? ← value?.mapM go.typeOf
    if let (some declared, some found, some value) := (declared?, found?, value?) then
      go.expect found declared value.position
    declare name ((declared? <|> found?).getD .unknown) position
  | .function _ => pure ()
  | .interface _ => pure ()
  | .expression e _ => discard (go.typeOf e)
  | .giveBack value? position =>
    let (type, blamed) ←
      match value? with
      | some value => pure (← go.typeOf value, value.position)
      | none => pure (.void, position)
    match (← get).functions with
    | [] => report .returnOutsideFunction position
    | activation :: _ =>
      if let some declared := activation.declared? then
        go.expect type declared blamed
      noteReturn type
  | .branch condition body otherwise? _ =>
    go.checkCondition condition
    go.checkBlock body
    if let some otherwise := otherwise? then
      go.check otherwise
  | .block b => go.checkBlock b
  | .loop init? condition? update? body _ =>
    inScope do
      if let some init := init? then
        go.check init
      if let some condition := condition? then
        go.checkCondition condition
      if let some update := update? then
        discard (go.typeOf update)
      go.checkBlock body
  | .repeatWhile condition body _ =>
    go.checkCondition condition
    go.checkBlock body

end Rules

end Checker

/-! ## Tying the knot -/

section Knot

variable (table : Table) (effort : Nat)

mutual

/-- The type of an expression. -/
def Expr.typeOf : (fuel : Nat) → Expr → Check Ty
  | 0, _ => throw .descent
  | fuel + 1, e =>
    Checker.exprRule
      ⟨table, effort, Expr.typeOf fuel, Stmt.check fuel, Block.checkAll fuel⟩ e

/-- The check of a statement. -/
def Stmt.check : (fuel : Nat) → Stmt → Check Unit
  | 0, _ => throw .descent
  | fuel + 1, s =>
    Checker.stmtRule
      ⟨table, effort, Expr.typeOf fuel, Stmt.check fuel, Block.checkAll fuel⟩ s

/-- The check of statements in a row. -/
def Block.checkAll : (fuel : Nat) → List Stmt → Check Unit
  | 0, _ => throw .descent
  | fuel + 1, statements =>
    Checker.rowRule
      ⟨table, effort, Expr.typeOf fuel, Stmt.check fuel, Block.checkAll fuel⟩ statements

end

end Knot

/-- The type of a built-in function. -/
def Native.signature : Native → Signature
  | .log => ⟨[.unknown], 0, true, .void⟩

/-- What is known before a program is checked: the object that holds the
built-in function. It stands in a scope outside that of the program, so a
program may declare the name for itself. -/
def Knowledge.initial : Knowledge where
  scopes := [.ofList [(Native.log.holder,
    ⟨.object [⟨Native.log.name, .function Native.log.signature, false⟩], .start, none⟩)]]
  functions := []
  receivers := []
  inferring := []
  ahead := 0
  diagnostics := []

namespace Program

/-- All that is wrong with the types of a program: first its interfaces, then
its statements. -/
def check (effort fuel : Nat) (program : Program) : Except Unfinished (List Diagnostic) :=
  match program.interfaceProblems? effort with
  | none => .error .question
  | some problems =>
    let whole := Check.inScope (Block.checkAll program.table effort fuel program.statements)
    match whole Knowledge.initial with
    | .ok _ k => .ok (problems ++ k.diagnostics)
    | .error unfinished _ => .error unfinished

end Program

end TypedScript
