import TypedScript.Grammar.Types

/-!
# The grammar of expressions

```
expression = or [("=" | "+=" | "-=" | "*=" | "/=") expression]
or         = and ("||" and)*
and        = equality ("&&" equality)*
equality   = relation (("==" | "!=" | "===" | "!==") relation)*
relation   = sum (("<" | ">" | "<=" | ">=") sum)*
sum        = product (("+" | "-") product)*
product    = unary (("*" | "/" | "%") unary)*
unary      = ("-" | "!" | "++" | "--") unary | primary trailer*
trailer    = "(" arguments ")" | "." name | "++" | "--"
primary    = literal | name | "this" | "(" expression ")"
           | "{" fields "}" | function
```

An update ends its chain of trailers. The target of an assignment or update is
a variable or a property. Each rule takes what it needs of the rest of the
grammar as a `Grammar`, whose parsers start one level deeper.
-/

namespace TypedScript

/-- The parsers that lie one level deeper: each opens a level of its own. -/
structure Grammar where
  expression : Parser Expr
  unary : Parser Expr
  statement : Parser Stmt
  /-- A conditional from behind its first word, which stands at the given
  position. -/
  conditional : Position → Parser Stmt

namespace Grammar

open TypedScript.Parser

/-- The grammar when no level may be opened any more. -/
def bottom : Grammar where
  expression := outOfLevels
  unary := outOfLevels
  statement := outOfLevels
  conditional := fun _ => outOfLevels

/-- Accepts an expression that can be assigned to. -/
def requirePlace (target : Expr) : Parser Unit :=
  if target.isPlace then pure () else throw ⟨.invalidTarget, target.position⟩

/-- The operator that the next token denotes, if `accepts` takes it, with its
position. -/
def operatorAhead? (accepts : BinaryOp → Bool) : Parser (Option (BinaryOp × Position)) := do
  match ← peek? with
  | some t =>
    match t.kind with
    | .symbol sign =>
      match BinaryOp.ofSymbol? sign with
      | some op => return if accepts op then some (op, t.position) else none
      | none => return none
    | _ => return none
  | none => return none

/-- The operators and operands that follow `left`, at most `bound` of them,
gathered to the left. Every operator opens one more level, and the levels stay
open until the last operand has been read. -/
def operations (accepts : BinaryOp → Bool) (operand : Parser Expr) :
    (bound : Nat) → (left : Expr) → Parser Expr
  | 0, left => pure left
  | bound + 1, left => do
    match ← operatorAhead? accepts with
    | some (op, position) =>
      nested position do
        skip
        let right ← operand
        operations accepts operand bound (.binary left op right position)
    | none => return left

/-- Operands with accepted operators between any two. -/
def leftAssociative (accepts : BinaryOp → Bool) (operand : Parser Expr) : Parser Expr := do
  let left ← operand
  operations accepts operand (← remaining) left

/-- The operator behind an assignment symbol: none for a plain assignment. -/
def assignment? : Symbol → Option (Option BinaryOp)
  | .assign => some none
  | .plusAssign => some (some .add)
  | .minusAssign => some (some .subtract)
  | .timesAssign => some (some .multiply)
  | .divideAssign => some (some .divide)
  | _ => none

/-- The update that a symbol denotes. -/
def update? : Symbol → Option UpdateOp
  | .plusPlus => some .increment
  | .minusMinus => some .decrement
  | _ => none

/-- The operator that a symbol denotes in front of an operand. -/
def unary? : Symbol → Option UnaryOp
  | .minus => some .negate
  | .bang => some .not
  | _ => none

section Rules

variable (g : Grammar)

/-- Factors. -/
def product : Parser Expr :=
  leftAssociative (fun op => op = .multiply || op = .divide || op = .modulo) g.unary

/-- Summands. -/
def sum : Parser Expr :=
  leftAssociative (fun op => op = .add || op = .subtract) g.product

/-- Comparisons by order. -/
def relation : Parser Expr :=
  leftAssociative BinaryOp.isRelational g.sum

/-- Comparisons for equality. -/
def equality : Parser Expr :=
  leftAssociative BinaryOp.isEquality g.relation

/-- Conjunctions. -/
def conjunction : Parser Expr :=
  leftAssociative (· = .and) g.equality

/-- Disjunctions. -/
def disjunction : Parser Expr :=
  leftAssociative (· = .or) g.conjunction

/-- An expression, one level deeper. -/
def assignmentRule : Parser Expr := do
  nested (← position) do
    let target ← g.disjunction
    match ← peek? with
    | some t =>
      match t.kind with
      | .symbol sign =>
        match assignment? sign with
        | some op? =>
          skip
          requirePlace target
          let value ← g.expression
          return .assign target op? value t.position
        | none => return target
      | _ => return target
    | none => return target

/-- A block of statements between braces: at most `bound` of them up to the
closing brace. Semicolons between them are passed over. -/
def statementsUntilBrace : (bound : Nat) → Parser (List Stmt)
  | 0 => throw (exhausted "statement")
  | bound + 1 => do
    if ← eat .rightBrace then return []
    if ← eat .semicolon then statementsUntilBrace bound
    else
      match ← peek? with
      | some t =>
        if t.kind.isEnd then throw (t.unexpected Symbol.rightBrace.quoted)
        let first ← g.statement
        return first :: (← statementsUntilBrace bound)
      | none =>
        let first ← g.statement
        return first :: (← statementsUntilBrace bound)

/-- A block of statements between braces. -/
def block : Parser Block := do
  let t ← expect .leftBrace Symbol.leftBrace.quoted
  let statements ← g.statementsUntilBrace ((← remaining) + 1)
  return { statements, position := t.position }

/-- A name, if the next token is one. -/
def optionalName : Parser (Option String) := do
  match ← peek? with
  | some t =>
    match t.kind with
    | .identifier name =>
      skip
      return some name
    | _ => return none
  | none => return none

/-- A function, with or without a name. -/
def function : Parser Function := do
  let t ← expectWord .functionWord
  let name? ← optionalName
  let params ← parameters typeExpr
  let result? ← typeMark typeExpr
  let body ← g.block
  return { name?, params, result?, body, position := t.position }

/-- A property of an object literal. -/
def field : Parser Field := do
  let (name, position) ← propertyName
  let _ ← expect .colon "':' after property name"
  let value ← g.expression
  return { name, value, position }

/-- An expression without operators around it. -/
def primary : Parser Expr := do
  match ← peek? with
  | none => throw (exhausted "expression")
  | some t =>
    let literal (value : Literal) : Parser Expr := do
      skip
      return .literal value t.position
    match t.kind with
    | .number value => literal (.number value)
    | .text value => literal (.text value)
    | .boolean value => literal (.boolean value)
    | .keyword .undefinedWord | .keyword .nullWord => literal .undefined
    | .identifier name =>
      skip
      return .reference name t.position
    | .keyword .thisWord =>
      skip
      return .receiver t.position
    | .symbol .leftParen =>
      skip
      let inner ← g.expression
      let _ ← expect .rightParen "')'"
      return inner
    | .symbol .leftBrace =>
      skip
      return .object (← commaSeparated .rightBrace g.field) t.position
    | .keyword .functionWord => return .function (← g.function)
    | _ => throw (t.unexpected "expression")

/-- The calls, properties and updates that follow `base`, at most `bound` of
them. Calls and properties open one more level each. -/
def trailers : (bound : Nat) → (base : Expr) → Parser Expr
  | 0, base => pure base
  | bound + 1, base => do
    match ← peek? with
    | none => return base
    | some t =>
      match t.kind with
      | .symbol .leftParen =>
        nested t.position do
          skip
          let arguments ← commaSeparated .rightParen g.expression
          trailers bound (.call base arguments t.position)
      | .symbol .dot =>
        nested t.position do
          skip
          let (property, position) ← propertyName
          trailers bound (.member base property position)
      | .symbol sign =>
        match update? sign with
        | some op =>
          skip
          requirePlace base
          return .update base op false t.position
        | none => return base
      | _ => return base

/-- An operand of the binary operators, one level deeper. -/
def unaryRule : Parser Expr := do
  match ← peek? with
  | none => throw (exhausted "expression")
  | some t =>
    nested t.position do
      match t.kind with
      | .symbol sign =>
        match unary? sign, update? sign with
        | some op, _ =>
          skip
          return .unary op (← g.unary) t.position
        | none, some op =>
          skip
          let target ← g.unary
          requirePlace target
          return .update target op true t.position
        | none, none =>
          let base ← g.primary
          g.trailers (← remaining) base
      | _ =>
        let base ← g.primary
        g.trailers (← remaining) base

end Rules

end Grammar

end TypedScript
