import TypedScript.Tree

/-!
# Parsers over a list of tokens

A `Parser` takes tokens from the front of a `Cursor` and keeps count of the
nesting levels that are open. It answers with a value or a fault, and in both
cases with the cursor it has reached, so the tokens left over are known after
a fault as well. `nested` opens one level around a parser and closes it again
however the parser ends.

Every parser of the grammar that can call itself does so inside a level. As
there are at most `maxNesting` levels, the grammar is defined by recursion on
the number of levels that may still be opened; loops over a sequence of items
recurse on the number of tokens, since every item takes at least one.
-/

namespace TypedScript

/-- Why tokens do not make up what was expected. -/
inductive ParseCause where
  | unexpectedToken (expected : String) (found : Token.Kind)
  | endOfInput (expected : String)
  | invalidTarget
  | notAtTopLevel (construct : String)
  | tooDeeplyNested

/-- How many levels of a program may lie inside each other. -/
def maxNesting : Nat := 256

instance : Cause ParseCause where
  text
    | .unexpectedToken expected found =>
      "Expected " ++ expected ++ ", found " ++ found.description ++ "."
    | .endOfInput expected =>
      "Unexpected end of input, expected " ++ expected ++ "."
    | .invalidTarget => "Invalid assignment target."
    | .notAtTopLevel construct => construct ++ " is only allowed at the top level."
    | .tooDeeplyNested =>
      "Maximum nesting depth of " ++ toString maxNesting ++ " exceeded."

/-- A fault met while parsing. -/
abbrev ParseFault := Fault ParseCause

/-- The tokens still to be read and the number of nesting levels open. -/
structure Cursor where
  tokens : List Token
  depth : Nat

/-- A computation that reads tokens and may fail. -/
abbrev Parser := EStateM ParseFault Cursor

/-- The fault of meeting a token where something else was expected. The end
marker is not quoted. -/
def Token.unexpected (t : Token) (expected : String) : ParseFault :=
  if t.kind.isEnd then ⟨.endOfInput expected, t.position⟩
  else ⟨.unexpectedToken expected t.kind, t.position⟩

namespace Parser

variable {α : Type}

/-- The fault of running out of tokens altogether, without an end marker. -/
def exhausted (expected : String) : ParseFault :=
  ⟨.endOfInput expected, .start⟩

/-- The next token, which stays where it is. -/
def peek? : Parser (Option Token) := do
  return (← get).tokens.head?

/-- Where the next token stands. -/
def position : Parser Position := do
  return ((← peek?).map (·.position)).getD .start

/-- How many tokens are left. -/
def remaining : Parser Nat := do
  return (← get).tokens.length

/-- Passes over the next token. -/
def skip : Parser Unit :=
  modify fun c => { c with tokens := c.tokens.tail }

/-- Takes the next token. -/
def next (expected : String) : Parser Token := do
  match ← peek? with
  | none => throw (exhausted expected)
  | some t =>
    skip
    return t

/-- Whether the next token is the given symbol. -/
def sees (sign : Symbol) : Parser Bool := do
  return ((← peek?).map (·.kind.isSymbol sign)).getD false

/-- Whether the next token is the given reserved word. -/
def seesWord (word : Keyword) : Parser Bool := do
  return ((← peek?).map (·.kind.isKeyword word)).getD false

/-- Passes over the next token if it is the given symbol, and says whether it
was. -/
def eat (sign : Symbol) : Parser Bool := do
  if ← sees sign then
    skip
    return true
  else
    return false

/-- Passes over the next token if it is the given reserved word, and says
whether it was. -/
def eatWord (word : Keyword) : Parser Bool := do
  if ← seesWord word then
    skip
    return true
  else
    return false

/-- Takes the next token, which has to be the given symbol. -/
def expect (sign : Symbol) (expected : String) : Parser Token := do
  let t ← next expected
  if t.kind.isSymbol sign then return t else throw (t.unexpected expected)

/-- Takes the next token, which has to be the given reserved word. -/
def expectWord (word : Keyword) : Parser Token := do
  let expected := "'" ++ word.spelling ++ "'"
  let t ← next expected
  if t.kind.isKeyword word then return t else throw (t.unexpected expected)

/-- Takes a name, with its position. -/
def identifier : Parser (String × Position) := do
  let t ← next "identifier"
  match t.kind with
  | .identifier name => return (name, t.position)
  | _ => throw (t.unexpected "identifier")

/-- Takes the name of a property, with its position: a name, a text literal,
or a reserved word as it is written. -/
def propertyName : Parser (String × Position) := do
  let t ← next "property name"
  match t.kind with
  | .identifier name => return (name, t.position)
  | .text value => return (value, t.position)
  | kind =>
    if kind.isReserved then return (t.lexeme, t.position)
    else throw (t.unexpected "property name")

/-- Runs a parser one level deeper, if there is a level left. The level is
closed again whether the parser succeeds or fails. -/
def nested (position : Position) (p : Parser α) : Parser α := fun c =>
  if maxNesting ≤ c.depth then .error ⟨.tooDeeplyNested, position⟩ c
  else
    match p { c with depth := c.depth + 1 } with
    | .ok a c => .ok a { c with depth := c.depth - 1 }
    | .error fault c => .error fault { c with depth := c.depth - 1 }

/-- If a parser gives a value one level deeper, it gives it here. -/
theorem nested_of_ok {p : Parser α} {ts rest : List Token} {depth : Nat} {a : α}
    (position : Position) (hdepth : depth < maxNesting)
    (h : p ⟨ts, depth + 1⟩ = .ok a ⟨rest, depth + 1⟩) :
    nested position p ⟨ts, depth⟩ = .ok a ⟨rest, depth⟩ := by
  unfold nested
  rw [if_neg (by simpa using hdepth)]
  dsimp only
  rw [h]
  rfl

/-- A parser one level deeper gives a value only if there is a level left, and closes it. -/
theorem nested_eq_ok {p : Parser α} {position : Position} {ts : List Token} {depth : Nat}
    {c : Cursor} {a : α} (h : nested position p ⟨ts, depth⟩ = .ok a c) :
    depth < maxNesting ∧ ∃ deeper, p ⟨ts, depth + 1⟩ = .ok a ⟨c.tokens, deeper⟩ ∧
      c.depth = deeper - 1 := by
  unfold nested at h
  split at h
  · cases h
  · next hdepth =>
    refine ⟨Nat.lt_of_not_le hdepth, ?_⟩
    cases hp : p ⟨ts, depth + 1⟩ with
    | ok b c' =>
      rw [hp] at h
      cases h
      exact ⟨c'.depth, rfl, rfl⟩
    | error fault c' =>
      rw [hp] at h
      cases h

/-- What a parser does when no level may be opened any more. -/
def outOfLevels : Parser α := do
  throw ⟨.tooDeeplyNested, ← position⟩

/-- Items up to a closing symbol, at most `bound` of them: each is followed by
a comma or by the closing symbol, which may follow a comma as well. -/
def itemsUntil (closing : Symbol) (item : Parser α) : (bound : Nat) → Parser (List α)
  | 0 => throw (exhausted closing.quoted)
  | bound + 1 => do
    if ← eat closing then return []
    let first ← item
    let t ← next closing.quoted
    if t.kind.isSymbol .comma then
      return first :: (← itemsUntil closing item bound)
    else if t.kind.isSymbol closing then return [first]
    else throw (t.unexpected ("',' or " ++ closing.quoted))

/-- Items separated by commas, up to and with a closing symbol. -/
def commaSeparated (closing : Symbol) (item : Parser α) : Parser (List α) := do
  itemsUntil closing item ((← remaining) + 1)

/-- Items that each follow a separator, at most `bound` of them. -/
def itemsAfter (separator : Symbol) (item : Parser α) : (bound : Nat) → Parser (List α)
  | 0 => return []
  | bound + 1 => do
    if ← eat separator then
      let first ← item
      return first :: (← itemsAfter separator item bound)
    else
      return []

/-- One item or more, with a separator between any two. -/
def separatedBy (separator : Symbol) (item : Parser α) : Parser (List α) := do
  let first ← item
  return first :: (← itemsAfter separator item (← remaining))

/-- Runs a parser on a list of tokens. The answer comes with the tokens that
were not read. -/
def run (p : Parser α) (tokens : List Token) : Except ParseFault α × List Token :=
  match p ⟨tokens, 0⟩ with
  | .ok a c => (.ok a, c.tokens)
  | .error fault c => (.error fault, c.tokens)

end Parser

end TypedScript
