import TypedScript.Grammar.Expressions

/-!
# The grammar of statements and programs

```
program     = (interface | export | statement | ";")*
export      = "export" "{" names "}" [";"]
interface   = "interface" name "{" members
statement   = variable [";"] | "function" name ... [";"] | "return" [expression] [";"]
            | "if" conditional | loop | while | block | expression [";"]
conditional = "(" expression ")" body ["else" ("if" conditional | body)]
loop        = "for" "(" [variable | expression] ";" [expression] ";" [expression] ")" body
while       = "while" "(" expression ")" body
variable    = "let" name [":" type] ["=" expression]
body        = block | statement
```

Exports name what other files may use, so they leave nothing in the tree.
Interfaces and exports stand at the top level only. `Grammar.upTo` ties the
knot over all rules, and `Program.ofTokens?` reads a program.
-/

namespace TypedScript

namespace Grammar

open TypedScript.Parser

section Rules

variable (g : Grammar)

/-- What follows a condition or a loop header: a block, or one statement that
stands for a block. -/
def body : Parser Block := do
  if ← sees .leftBrace then g.block
  else
    let position ← position
    let statement ← g.statement
    return { statements := [statement], position }

/-- A statement with the semicolon that may end it. -/
def terminated (statement : Parser Stmt) : Parser Stmt := do
  let statement ← statement
  let _ ← eat .semicolon
  return statement

/-- The value behind an assignment symbol, if there is one. -/
def initialValue : Parser (Option Expr) := do
  if ← eat .assign then return some (← g.expression) else return none

/-- The declaration of a variable. -/
def variableRule : Parser Stmt := do
  let t ← expectWord .letWord
  let (name, _) ← identifier
  let type? ← typeMark typeExpr
  let value? ← g.initialValue
  return .variable name type? value? t.position

/-- Whether the token behind the next one is a name. -/
def seesNameSecond : Parser Bool := do
  match (← get).tokens with
  | _ :: t :: _ =>
    match t.kind with
    | .identifier _ => return true
    | _ => return false
  | _ => return false

/-- An expression as a statement. -/
def expressionRule : Parser Stmt := do
  let position ← position
  return .expression (← g.expression) position

/-- A return, with a value unless the statement ends right behind the word. -/
def returnRule : Parser Stmt := do
  let t ← expectWord .returnWord
  let endsHere := ((← peek?).map fun t =>
    t.kind.isSymbol .semicolon || t.kind.isSymbol .rightBrace || t.kind.isEnd).getD false
  if endsHere then return .giveBack none t.position
  else return .giveBack (some (← g.expression)) t.position

/-- An expression, or nothing right before the given symbol. -/
def expressionUnless (sign : Symbol) : Parser (Option Expr) := do
  if ← sees sign then return none else return some (← g.expression)

/-- What a loop does first: declare a variable, evaluate an expression, or
nothing. -/
def loopStart : Parser (Option Stmt) := do
  if ← sees .semicolon then return none
  else if ← seesWord .letWord then return some (← g.variableRule)
  else return some (← g.expressionRule)

/-- A loop with a header of three parts. -/
def loopRule : Parser Stmt := do
  let t ← expectWord .forWord
  let _ ← expect .leftParen "'(' after 'for'"
  let init? ← g.loopStart
  let _ ← expect .semicolon "';' after loop initializer"
  let condition? ← g.expressionUnless .semicolon
  let _ ← expect .semicolon "';' after loop condition"
  let update? ← g.expressionUnless .rightParen
  let _ ← expect .rightParen "')' after loop header"
  let body ← g.body
  return .loop init? condition? update? body t.position

/-- A loop with a condition only. -/
def whileRule : Parser Stmt := do
  let t ← expectWord .whileWord
  let _ ← expect .leftParen "'(' after 'while'"
  let condition ← g.expression
  let _ ← expect .rightParen "')' after while condition"
  let body ← g.body
  return .repeatWhile condition body t.position

/-- A conditional from behind its first word, one level deeper. -/
def conditionalRule (position : Position) : Parser Stmt := do
  nested position do
    let _ ← expect .leftParen "'(' after 'if'"
    let condition ← g.expression
    let _ ← expect .rightParen "')' after if condition"
    let body ← g.body
    if ← eatWord .elseWord then
      match ← peek? with
      | some t =>
        if t.kind.isKeyword .ifWord then
          skip
          let otherwise ← g.conditional t.position
          return .branch condition body (some otherwise) position
        else
          let otherwise ← g.body
          return .branch condition body (some (.block otherwise)) position
      | none =>
        let otherwise ← g.body
        return .branch condition body (some (.block otherwise)) position
    else return .branch condition body none position

/-- A statement, one level deeper. -/
def statementRule : Parser Stmt := do
  match ← peek? with
  | none => throw (exhausted "statement")
  | some t =>
    nested t.position do
      match t.kind with
      | .keyword .letWord => terminated g.variableRule
      | .keyword .functionWord =>
        if ← seesNameSecond then terminated (return .function (← g.function))
        else terminated g.expressionRule
      | .keyword .returnWord => terminated g.returnRule
      | .keyword .ifWord =>
        skip
        g.conditional t.position
      | .keyword .forWord => g.loopRule
      | .keyword .whileWord => g.whileRule
      | .symbol .leftBrace => return .block (← g.block)
      | .keyword .interfaceWord =>
        throw ⟨.notAtTopLevel "interface declaration", t.position⟩
      | .keyword .exportWord =>
        throw ⟨.notAtTopLevel "export declaration", t.position⟩
      | _ => terminated g.expressionRule

end Rules

/-- The grammar with at most `levels` levels inside each other. -/
def upTo : (levels : Nat) → Grammar
  | 0 => bottom
  | levels + 1 =>
    let g := upTo levels
    { expression := g.assignmentRule
      unary := g.unaryRule
      statement := g.statementRule
      conditional := g.conditionalRule }

/-- The grammar of the language. Each level of the recursion opens one level
of nesting, so the limit on nesting is met before the recursion ends. -/
def full : Grammar :=
  upTo (maxNesting + 1)

/-- The declaration of an interface. -/
def interface : Parser Interface := do
  let word ← expectWord .interfaceWord
  let (name, _) ← identifier
  match ← peek? with
  | none => throw ⟨.endOfInput Symbol.leftBrace.quoted, word.position⟩
  | some t =>
    skip
    unless t.kind.isSymbol .leftBrace do
      throw (t.unexpected (Symbol.leftBrace.quoted ++ " after interface name"))
    return { name, members := ← members typeExpr, position := word.position }

/-- An export: names between braces. -/
def exports : Parser Unit := do
  let _ ← expectWord .exportWord
  let _ ← expect .leftBrace (Symbol.leftBrace.quoted ++ " after 'export'")
  let _ ← commaSeparated .rightBrace identifier
  let _ ← eat .semicolon

/-- The statements of a program, at most `bound` of them. -/
def programStatements (g : Grammar) : (bound : Nat) → Parser (List Stmt)
  | 0 => return []
  | bound + 1 => do
    match ← peek? with
    | none => return []
    | some t =>
      match t.kind with
      | .endOfInput => return []
      | .symbol .semicolon =>
        skip
        programStatements g bound
      | .keyword .interfaceWord =>
        let declaration ← interface
        return .interface declaration :: (← programStatements g bound)
      | .keyword .exportWord =>
        exports
        programStatements g bound
      | _ =>
        let statement ← g.statement
        return statement :: (← programStatements g bound)

/-- A whole program, up to the end marker. -/
def program : Parser Program := do
  return ⟨← programStatements full (← remaining)⟩

end Grammar

/-- The program that a list of tokens makes up. -/
def Program.ofTokens? (tokens : List Token) : Except ParseFault Program :=
  (Grammar.program.run tokens).1

end TypedScript
