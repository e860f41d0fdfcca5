import TypedScript.Grammar.Parser

/-!
# The grammar of types

```
type         = intersection ("|" intersection)*
intersection = primary ("&" primary)*
primary      = name | "undefined" | "null" | "{" members "}"
             | "(" type ")" | params "=>" type
member       = name ["?"] (":" type | params [":" type])
param        = name ["?"] [":" type]
```

A chain of one member is that member. After each member of an object type
stands a semicolon, a comma, or nothing. The parsers of a rule take the parser
of nested types as an argument; `typeExpr` ties the knot.
-/

namespace TypedScript

namespace Grammar

open TypedScript.Parser

/-- Whether the parenthesis at the front is closed right before an arrow.
`depth` counts the parentheses open so far. -/
def closesBeforeArrow (depth : Nat) : List Token → Bool
  | [] => false
  | t :: rest =>
    match t.kind with
    | .symbol .leftParen => closesBeforeArrow (depth + 1) rest
    | .symbol .rightParen =>
      if depth ≤ 1 then
        match rest with
        | [] => false
        | following :: _ => following.kind.isSymbol .arrow
      else closesBeforeArrow (depth - 1) rest
    | .endOfInput => false
    | _ => closesBeforeArrow depth rest

/-- Whether the parenthesis ahead opens the parameters of a function type. -/
def seesFunctionType : Parser Bool := do
  return closesBeforeArrow 0 (← get).tokens

/-- One member for a chain of one, and the chain otherwise. -/
def collapse (build : List TypeExpr → Position → TypeExpr) (members : List TypeExpr)
    (position : Position) : TypeExpr :=
  match members with
  | [only] => only
  | _ => build members position

section Rules

variable (inner : Parser TypeExpr)

/-- The type behind a colon, if there is one. -/
def typeMark : Parser (Option TypeExpr) := do
  if ← eat .colon then return some (← inner) else return none

/-- A parameter. -/
def parameter : Parser Parameter := do
  let (name, position) ← identifier
  let isOptional ← eat .question
  let type? ← typeMark inner
  return { name, type?, isOptional, position }

/-- Parameters between parentheses. -/
def parameters : Parser (List Parameter) := do
  let _ ← expect .leftParen "'('"
  commaSeparated .rightParen (parameter inner)

/-- A function type, from its parameters on. -/
def functionType : Parser TypeExpr := do
  let position ← position
  let params ← parameters inner
  let _ ← expect .arrow "'=>' in function type"
  let result ← inner
  return .function params result position

/-- A member. A method is a property of a function type; without a type for
its result, the result may be anything. -/
def member : Parser Member := do
  let (name, start) ← propertyName
  let isOptional ← eat .question
  if ← sees .leftParen then
    let position ← position
    let params ← parameters inner
    let result := (← typeMark inner).getD (.named "any" start)
    return { name, type := .function params result position, isOptional, position := start }
  else
    let _ ← expect .colon "':' after property name"
    let type ← inner
    return { name, type, isOptional, position := start }

/-- At most `bound` members up to the closing brace. -/
def membersUntilBrace : (bound : Nat) → Parser (List Member)
  | 0 => throw (exhausted "property name")
  | bound + 1 => do
    if ← eat .rightBrace then return []
    let first ← member inner
    unless ← eat .semicolon do
      let _ ← eat .comma
    return first :: (← membersUntilBrace bound)

/-- The members of an object type, from behind the opening brace. -/
def members : Parser (List Member) := do
  membersUntilBrace inner ((← remaining) + 1)

/-- A type that is no chain. -/
def primaryType : Parser TypeExpr := do
  match ← peek? with
  | none => throw (exhausted "type")
  | some t =>
    match t.kind with
    | .identifier name =>
      skip
      return .named name t.position
    | .keyword .undefinedWord | .keyword .nullWord =>
      skip
      return .named t.lexeme t.position
    | .symbol .leftBrace =>
      skip
      return .object (← members inner) t.position
    | .symbol .leftParen =>
      if ← seesFunctionType then functionType inner
      else
        skip
        let type ← inner
        let _ ← expect .rightParen "')'"
        return type
    | _ => throw (t.unexpected "type")

/-- A chain of `&`. -/
def intersectionType : Parser TypeExpr := do
  let position ← position
  return collapse .intersection (← separatedBy .ampersand (primaryType inner)) position

/-- A chain of `|`, one level deeper. -/
def unionType : Parser TypeExpr := do
  let position ← position
  nested position do
    return collapse .union (← separatedBy .bar (intersectionType inner)) position

end Rules

/-- A type with at most `levels` levels inside each other. -/
def typeUpTo : (levels : Nat) → Parser TypeExpr
  | 0 => outOfLevels
  | levels + 1 => unionType (typeUpTo levels)

/-- A type. Each level of the recursion opens one level of nesting, so the
limit on nesting is met before the recursion ends. -/
def typeExpr : Parser TypeExpr :=
  typeUpTo (maxNesting + 1)

end Grammar

end TypedScript
