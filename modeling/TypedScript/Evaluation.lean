import TypedScript.Machine

/-!
# Running a program

Each kind of expression and statement has a rule, and each rule is written
over an `Evaluator` that runs the parts of the node. The functions at the end
tie the knot: with fuel `n + 1` a rule runs, and its parts run with fuel `n`.
One unit of fuel is also one round of a loop, so the fuel bounds both how deep
a run descends and how long it loops. More fuel never changes the end of a run
that had enough.

Functions declared in a list of statements are there from the start of the
list on. Arguments are evaluated from left to right after the function and its
receiver. A loop with a header keeps its variables in a frame that is copied
before each update, so a function made in one round keeps the values of that
round.
-/

namespace TypedScript

/-- How the parts of an expression or statement are run. -/
structure Evaluator where
  eval : Expr → Run Value
  exec : Stmt → Run Completion
  /-- The rounds of a loop whose variables are in the given frame. -/
  loop : FrameId → Option Expr → Option Expr → Block → Run Completion
  /-- The rounds of a loop with a condition only. -/
  repeatWhile : Expr → Block → Run Completion

/-- What an assignment writes to. -/
inductive Place where
  | variable (name : String) (position : Position)
  | property (object : ObjectId) (name : String)

/-- The name under which a place holds its value. -/
def Place.name : Place → String
  | .variable name _ => name
  | .property _ name => name

namespace Place

/-- The value in a place. -/
def read : Place → Run Value
  | .variable name position => Run.lookup name position
  | .property object name => do
    return (← Run.ask (·.properties object |>.get? name)).getD .undefined

/-- Puts a value into a place. -/
def write (place : Place) (value : Value) : Run Unit :=
  match place with
  | .variable name position => Run.assign name value position
  | .property object name => Run.change (·.setProperty object name value)

end Place

namespace Evaluator

open Run

section Rules

variable (go : Evaluator) (limit : Nat)

/-- An expression whose value is given a name: a function without a name of
its own takes it. -/
def evalNamed (e : Expr) (name : String) : Run Value :=
  match e with
  | .function definition =>
    match definition.name? with
    | none => makeClosure definition (some name)
    | some _ => go.eval e
  | _ => go.eval e

/-- An expression that has to be a truth value. -/
def evalCondition (e : Expr) : Run Bool := do
  ofExcept ((← go.eval e).asBoolean e.position)

/-- The place that an expression denotes. -/
def resolvePlace (target : Expr) : Run Place :=
  match target with
  | .reference name position => pure (.variable name position)
  | .member object property position => do
    let value ← go.eval object
    return .property (← ofExcept (value.expectObject property position)) property
  | other => fail (.typeMismatch "variable or property" "expression") other.position

/-- Makes the functions declared in a list of statements, in their order. -/
def hoist : List Stmt → Run Unit
  | [] => pure ()
  | .function definition :: rest => do
    if let some name := definition.name? then
      define name (← makeClosure definition (some name))
    hoist rest
  | _ :: rest => hoist rest

/-- Statements one after the other, up to the first that gives back a value. -/
def execEach : List Stmt → Run Completion
  | [] => pure .normal
  | statement :: rest => do
    match ← go.exec statement with
    | .normal => execEach rest
    | .gaveBack value => return .gaveBack value

/-- A list of statements in the current frame. -/
def execStatements (statements : List Stmt) : Run Completion := do
  hoist statements
  go.execEach statements

/-- A block, in a frame of its own. -/
def execBlock (b : Block) : Run Completion := do
  inFrame (← newChild) (go.execStatements b.statements)

/-- Gives the parameters of a call their values; those without an argument are
`undefined`. -/
def bindParameters (s : Store) (f : FrameId) : List Parameter → List Value → Store
  | [], _ => s
  | param :: params, [] => bindParameters (s.define f param.name .undefined) f params []
  | param :: params, value :: values =>
    bindParameters (s.define f param.name value) f params values

/-- Refuses a number of arguments that a function does not take. -/
def requireArity (arity : Arity) (count : Nat) (position : Position) : Run Unit :=
  if arity.accepts count then pure ()
  else fail (.argumentCount arity count) position

/-- A call of a declared function. -/
def callClosure (c : Closure) (receiver? : Option Value) (arguments : List Value)
    (position : Position) : Run Value := do
  requireArity c.arity arguments.length position
  if limit ≤ (← get).depth then fail (.stackOverflow limit) position
  let f ← make (·.callFrame c.frame receiver?)
  change (bindParameters · f c.definition.params arguments)
  match ← deeper (inFrame f (go.execStatements c.definition.body.statements)) with
  | .gaveBack value => return value
  | .normal => return .undefined

/-- A call of a built-in function. -/
def callNative (f : Native) (arguments : List Value) : Run Value :=
  match f with
  | .log => do
    let line ← ask fun s => String.intercalate " " (arguments.map s.textOf)
    emit line
    return .undefined

/-- A call of a value. -/
def call (f : Value) (receiver? : Option Value) (arguments : List Value)
    (position : Position) : Run Value := do
  match f with
  | .native f =>
    requireArity f.arity arguments.length position
    callNative f arguments
  | .closure id =>
    match ← ask (·.closure? id) with
    | some c => go.callClosure limit c receiver? arguments position
    | none => fail (.notCallable f.kindName) position
  | other => fail (.notCallable other.kindName) position

/-- The function that a call means, with its receiver: calling a property
makes its object the receiver. -/
def evalCallee (callee : Expr) : Run (Value × Option Value) := do
  match callee with
  | .member object property position =>
    let receiver ← go.eval object
    return (← Run.property receiver property position, some receiver)
  | other => return (← go.eval other, none)

/-- Writes the properties of an object literal in their order. -/
def evalFields (object : ObjectId) : List Field → Run Unit
  | [] => pure ()
  | field :: rest => do
    let value ← go.evalNamed field.value field.name
    change (·.setProperty object field.name value)
    evalFields object rest

/-- A conjunction or disjunction: the right operand counts only if the left
one leaves the result open. -/
def evalLogic (op : BinaryOp) (left right : Expr) : Run Value := do
  let first ← go.evalCondition left
  let decided := if op = .and then !first else first
  if decided then return .boolean first
  else return .boolean (← go.evalCondition right)

/-- The rule of expressions. -/
def evalRule (e : Expr) : Run Value := do
  match e with
  | .literal value _ => return .ofLiteral value
  | .reference name position => lookup name position
  | .receiver position => receiver position
  | .unary op operand _ =>
    let value ← go.eval operand
    match op with
    | .negate => return .number (-(← ofExcept (value.asNumber operand.position)))
    | .not => return .boolean !(← ofExcept (value.asBoolean operand.position))
  | .binary left op right position =>
    match op with
    | .and | .or => go.evalLogic op left right
    | _ =>
      let a ← go.eval left
      let b ← go.eval right
      ofExcept (← ask (Operation.apply · op a b position))
  | .assign target op? value position =>
    let place ← go.resolvePlace target
    let result ←
      match op? with
      | some op =>
        let current ← place.read
        let operand ← go.eval value
        ofExcept (← ask (Operation.apply · op current operand position))
      | none => go.evalNamed value place.name
    place.write result
    return result
  | .update target op isBefore position =>
    let place ← go.resolvePlace target
    let old ← ofExcept ((← place.read).asNumber position)
    let new := old + op.delta
    place.write (.number new)
    return .number (if isBefore then new else old)
  | .call callee arguments position =>
    let (f, receiver?) ← go.evalCallee callee
    let values ← arguments.mapM go.eval
    go.call limit f receiver? values position
  | .member object property position =>
    let value ← go.eval object
    Run.property value property position
  | .object fields _ =>
    let object ← make (·.newObject .empty)
    go.evalFields object fields
    return .object object
  | .function definition => makeClosure definition definition.name?

/-- The rule of statements. -/
def execRule (s : Stmt) : Run Completion := do
  match s with
  | .variable name _ value? _ =>
    let value ←
      match value? with
      | some e => go.evalNamed e name
      | none => pure .undefined
    define name value
    return .normal
  | .function _ => return .normal
  | .interface _ => return .normal
  | .expression e _ =>
    let _ ← go.eval e
    return .normal
  | .giveBack value? _ =>
    match value? with
    | some e => return .gaveBack (← go.eval e)
    | none => return .gaveBack .undefined
  | .branch condition body otherwise? _ =>
    if ← go.evalCondition condition then go.execBlock body
    else
      match otherwise? with
      | some otherwise => go.exec otherwise
      | none => return .normal
  | .block b => go.execBlock b
  | .loop init? condition? update? body _ =>
    let f ← newChild
    if let some init := init? then
      let _ ← inFrame f (go.exec init)
    go.loop f condition? update? body
  | .repeatWhile condition body _ => go.repeatWhile condition body

/-- One round of a loop with a header, in the frame of its variables: how the
loop ends, or the frame of the next round. -/
def loopRound (f : FrameId) (condition? update? : Option Expr) (body : Block) :
    Run (Completion ⊕ FrameId) := do
  let goesOn ←
    match condition? with
    | some condition => inFrame f (go.evalCondition condition)
    | none => pure true
  if goesOn then
    match ← inFrame f (go.execBlock body) with
    | .gaveBack value => return .inl (.gaveBack value)
    | .normal =>
      let next ← make (·.fork f)
      if let some update := update? then
        let _ ← inFrame next (go.eval update)
      return .inr next
  else return .inl .normal

/-- One round of a loop with a condition only: how the loop ends, if it
does. -/
def whileRound (condition : Expr) (body : Block) : Run (Option Completion) := do
  if ← go.evalCondition condition then
    match ← go.execBlock body with
    | .gaveBack value => return some (.gaveBack value)
    | .normal => return none
  else return some .normal

end Rules

end Evaluator

variable (limit : Nat)

mutual

/-- The value of an expression, with at most `limit` calls in progress. -/
def Expr.eval : (fuel : Nat) → Expr → Run Value
  | 0, _ => Run.outOfFuel
  | fuel + 1, e =>
    Evaluator.evalRule
      ⟨Expr.eval fuel, Stmt.exec fuel, Block.loop fuel, Block.repeatWhile fuel⟩ limit e

/-- The effect of a statement. -/
def Stmt.exec : (fuel : Nat) → Stmt → Run Completion
  | 0, _ => Run.outOfFuel
  | fuel + 1, s =>
    Evaluator.execRule
      ⟨Expr.eval fuel, Stmt.exec fuel, Block.loop fuel, Block.repeatWhile fuel⟩ s

/-- The rounds of a loop with a header. -/
def Block.loop : (fuel : Nat) → FrameId → Option Expr → Option Expr → Block → Run Completion
  | 0, _, _, _, _ => Run.outOfFuel
  | fuel + 1, f, condition?, update?, body => do
    match ← Evaluator.loopRound
        ⟨Expr.eval fuel, Stmt.exec fuel, Block.loop fuel, Block.repeatWhile fuel⟩
        f condition? update? body with
    | .inl completion => return completion
    | .inr next => Block.loop fuel next condition? update? body

/-- The rounds of a loop with a condition only. -/
def Block.repeatWhile : (fuel : Nat) → Expr → Block → Run Completion
  | 0, _, _ => Run.outOfFuel
  | fuel + 1, condition, body => do
    match ← Evaluator.whileRound
        ⟨Expr.eval fuel, Stmt.exec fuel, Block.loop fuel, Block.repeatWhile fuel⟩
        condition body with
    | some completion => return completion
    | none => Block.repeatWhile fuel condition body

end

/-- The evaluator with a given amount of fuel. -/
def evaluator (fuel : Nat) : Evaluator :=
  ⟨Expr.eval limit fuel, Stmt.exec limit fuel, Block.loop limit fuel,
    Block.repeatWhile limit fuel⟩

/-- Runs the statements of a program in the current frame. A return at the top
level ends the program. -/
def Program.exec (fuel : Nat) (program : Program) : Run Unit := do
  let _ ← (evaluator limit fuel).execStatements program.statements

/-- Calls a value. -/
def Value.call (fuel : Nat) (f : Value) (receiver? : Option Value) (arguments : List Value)
    (position : Position) : Run Value :=
  (evaluator limit fuel).call limit f receiver? arguments position

end TypedScript
