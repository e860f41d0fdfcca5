import TypedScript.Grammar.Statements

/-!
# Derivations

The grammar of the language, apart from the parsers that read it. A `Phrase` is a
nonterminal, or one of the forms in which phrases are repeated or left out, and its
`Tree` is what it means. `Derives phrase ts a` says that the tokens `ts`, all of them
and in this order, make up a phrase that means `a`. A derivation goes along the text
only: nothing is looked ahead at, and no level of nesting is counted.

```
program     = (";" | interface | export | statement)*
interface   = "interface" name "{" members
export      = "export" "{" list(name, "}") [";"]
statement   = simple [";"] | "if" conditional | block
            | "for" "(" [variable | expression] ";" [expression] ";" [expression] ")" body
            | "while" "(" expression ")" body
simple      = variable | function | "return" [expression] | expression
variable    = "let" name [":" type] ["=" expression]
conditional = "(" expression ")" body ["else" ("if" conditional | body)]
body        = block | statement
block       = "{" (";" | statement)* "}"
function    = "function" [name] parameters [":" type] block
expression  = disjunction [("=" | "+=" | "-=" | "*=" | "/=") expression]
disjunction = [disjunction "||"] conjunction, and so on for each rank
unary       = ("-" | "!" | "++" | "--") unary | trailed ["++" | "--"]
trailed     = primary | trailed "(" list(expression, ")") | trailed "." property
primary     = literal | name | "this" | "(" expression ")" | function
            | "{" list(property ":" expression, "}")
type        = intersection ("|" intersection)*
intersection = primaryType ("&" primaryType)*
primaryType = name | "undefined" | "null" | "(" type ")" | "{" members
            | parameters "=>" type
members     = (member [";" | ","])* "}"
member      = property ["?"] (":" type | parameters [":" type])
parameters  = "(" list(name ["?"] [":" type], ")")
list(x, c)  = [x ("," x)* [","]] c
```
-/

namespace TypedScript

/-- The ranks of operators between two operands, the loosest one first. -/
inductive Rank where
  | disjunction
  | conjunction
  | equality
  | relation
  | sum
  | product
deriving DecidableEq, Repr

/-- Whether an operator has a rank. -/
def Rank.accepts : Rank → BinaryOp → Bool
  | .disjunction, op => op = .or
  | .conjunction, op => op = .and
  | .equality, op => op.isEquality
  | .relation, op => op.isRelational
  | .sum, op => op = .add || op = .subtract
  | .product, op => op = .multiply || op = .divide || op = .modulo

/-- The rank that binds one step tighter. -/
def Rank.next? : Rank → Option Rank
  | .disjunction => some .conjunction
  | .conjunction => some .equality
  | .equality => some .relation
  | .relation => some .sum
  | .sum => some .product
  | .product => none

/-- What tokens may make up. -/
inductive Phrase where
  /-- A symbol that may be left out. -/
  | mark (sign : Symbol)
  /-- A phrase that may be left out. -/
  | optional (part : Phrase)
  /-- A phrase behind a symbol, or nothing. -/
  | after (sign : Symbol) (part : Phrase)
  /-- One phrase or more, with a symbol between any two. -/
  | chain (separator : Symbol) (part : Phrase)
  /-- Phrases with commas between any two and after the last one if need be, up to and
  with a closing symbol. -/
  | list (closing : Symbol) (part : Phrase)
  | type
  | intersectionType
  | primaryType
  | member
  /-- The members of an object type, up to and with the closing brace. -/
  | members
  | parameter
  | parameters
  | expression
  | operation (rank : Rank)
  /-- An operand of the operators of a rank. -/
  | operand (rank : Rank)
  | unary
  /-- A primary expression with calls and properties behind it. -/
  | trailed
  | primary
  | field
  | function (isNamed : Bool)
  | variable
  /-- A statement that may be ended by a semicolon, without it. -/
  | simple
  | statement
  /-- The statements of a block, up to and with the closing brace. -/
  | statements
  | block
  | body
  /-- A conditional from behind its first word, which stands at the given position. -/
  | conditional (position : Position)
  | alternative
  | loopStart
  | name
  | interface
  | exports
  /-- The statements of a program. -/
  | items
  | program

namespace Phrase

/-- What a phrase means. -/
@[reducible]
def Tree : Phrase → Type
  | .mark _ => Bool
  | .optional part => Option part.Tree
  | .after _ part => Option part.Tree
  | .chain _ part => List part.Tree
  | .list _ part => List part.Tree
  | .type | .intersectionType | .primaryType => TypeExpr
  | .member => Member
  | .members => List Member
  | .parameter => Parameter
  | .parameters => List Parameter
  | .expression | .operation _ | .operand _ | .unary | .trailed | .primary => Expr
  | .field => Field
  | .function _ => Function
  | .variable | .simple | .statement | .conditional _ => Stmt
  | .statements | .items => List Stmt
  | .block | .body => Block
  | .alternative | .loopStart => Option Stmt
  | .name => String × Position
  | .interface => Interface
  | .exports => Unit
  | .program => Program

end Phrase

/-- The name of a property that a token may be: a name, a text literal, or a reserved
word as it is written. -/
def Token.property? (t : Token) : Option String :=
  match t.kind with
  | .identifier name => some name
  | .text value => some value
  | kind => if kind.isReserved then some t.lexeme else none

/-- The value that a token denotes by itself. -/
def Token.literal? (t : Token) : Option Literal :=
  match t.kind with
  | .number value => some (.number value)
  | .text value => some (.text value)
  | .boolean value => some (.boolean value)
  | .keyword .undefinedWord => some .undefined
  | .keyword .nullWord => some .undefined
  | _ => none

/-- The tokens make up a phrase that means the tree. -/
inductive Derives : (phrase : Phrase) → List Token → phrase.Tree → Prop
  /- Forms -/
  | unmarked {sign : Symbol} : Derives (.mark sign) [] false
  | marked {sign : Symbol} {t : Token} : t.kind = .symbol sign → Derives (.mark sign) [t] true
  | leftOut {part : Phrase} : Derives (.optional part) [] none
  | given {part : Phrase} {ts : List Token} {a : part.Tree} : Derives part ts a →
      Derives (.optional part) ts (some a)
  | notBehind {sign : Symbol} {part : Phrase} : Derives (.after sign part) [] none
  | behind {sign : Symbol} {part : Phrase} {t : Token} {ts : List Token} {a : part.Tree} :
      t.kind = .symbol sign → Derives part ts a → Derives (.after sign part) (t :: ts) (some a)
  | lastOfChain {separator : Symbol} {part : Phrase} {ts : List Token} {a : part.Tree} :
      Derives part ts a → Derives (.chain separator part) ts [a]
  | chained {separator : Symbol} {part : Phrase} {t : Token} {ts us : List Token} {a : part.Tree}
      {l : List part.Tree} : Derives part ts a → t.kind = .symbol separator →
      Derives (.chain separator part) us l → Derives (.chain separator part) (ts ++ t :: us) (a :: l)
  | closed {closing : Symbol} {part : Phrase} {t : Token} : t.kind = .symbol closing →
      Derives (.list closing part) [t] []
  | lastOfList {closing : Symbol} {part : Phrase} {t : Token} {ts : List Token} {a : part.Tree} :
      Derives part ts a → t.kind = .symbol closing → Derives (.list closing part) (ts ++ [t]) [a]
  | listed {closing : Symbol} {part : Phrase} {t : Token} {ts us : List Token} {a : part.Tree}
      {l : List part.Tree} : Derives part ts a → t.kind = .symbol .comma →
      Derives (.list closing part) us l → Derives (.list closing part) (ts ++ t :: us) (a :: l)
  /- Types -/
  | oneType {ts : List Token} {a : TypeExpr} : Derives .intersectionType ts a → Derives .type ts a
  | union {t : Token} {ts : List Token} {l : List TypeExpr} :
      Derives (.chain .bar .intersectionType) (t :: ts) l → 2 ≤ l.length →
      Derives .type (t :: ts) (.union l t.position)
  | oneIntersected {ts : List Token} {a : TypeExpr} : Derives .primaryType ts a →
      Derives .intersectionType ts a
  | intersection {t : Token} {ts : List Token} {l : List TypeExpr} :
      Derives (.chain .ampersand .primaryType) (t :: ts) l → 2 ≤ l.length →
      Derives .intersectionType (t :: ts) (.intersection l t.position)
  | namedType {t : Token} {name : String} : t.kind = .identifier name →
      Derives .primaryType [t] (.named name t.position)
  | absentType {t : Token} : t.kind = .keyword .undefinedWord ∨ t.kind = .keyword .nullWord →
      Derives .primaryType [t] (.named t.lexeme t.position)
  | objectType {t : Token} {ts : List Token} {l : List Member} : t.kind = .symbol .leftBrace →
      Derives .members ts l → Derives .primaryType (t :: ts) (.object l t.position)
  | functionType {first arrow : Token} {ts us : List Token} {params : List Parameter}
      {result : TypeExpr} : Derives .parameters (first :: ts) params →
      arrow.kind = .symbol .arrow → Derives .type us result →
      Derives .primaryType (first :: (ts ++ arrow :: us)) (.function params result first.position)
  | groupedType {opening closing : Token} {ts : List Token} {a : TypeExpr} :
      opening.kind = .symbol .leftParen → Derives .type ts a →
      closing.kind = .symbol .rightParen → Derives .primaryType (opening :: (ts ++ [closing])) a
  | propertyMember {t colon : Token} {qs ts : List Token} {name : String} {isOptional : Bool}
      {type : TypeExpr} : t.property? = some name → Derives (.mark .question) qs isOptional →
      colon.kind = .symbol .colon → Derives .type ts type →
      Derives .member (t :: (qs ++ colon :: ts)) ⟨name, type, isOptional, t.position⟩
  | methodMember {t first : Token} {qs ps ts : List Token} {name : String} {isOptional : Bool}
      {params : List Parameter} {result? : Option TypeExpr} : t.property? = some name →
      Derives (.mark .question) qs isOptional → Derives .parameters (first :: ps) params →
      Derives (.after .colon .type) ts result? →
      Derives .member (t :: (qs ++ first :: (ps ++ ts)))
        ⟨name, .function params (result?.getD (.named "any" t.position)) first.position,
          isOptional, t.position⟩
  | lastMember {t : Token} : t.kind = .symbol .rightBrace → Derives .members [t] []
  | memberOf {separator : Symbol} {ts ss us : List Token} {isSeparated : Bool} {first : Member}
      {l : List Member} : Derives .member ts first →
      separator = .semicolon ∨ separator = .comma → Derives (.mark separator) ss isSeparated →
      Derives .members us l → Derives .members (ts ++ (ss ++ us)) (first :: l)
  | parameter {t : Token} {qs ts : List Token} {name : String} {isOptional : Bool}
      {type? : Option TypeExpr} : t.kind = .identifier name →
      Derives (.mark .question) qs isOptional → Derives (.after .colon .type) ts type? →
      Derives .parameter (t :: (qs ++ ts)) ⟨name, type?, isOptional, t.position⟩
  | parameters {t : Token} {ts : List Token} {l : List Parameter} :
      t.kind = .symbol .leftParen → Derives (.list .rightParen .parameter) ts l →
      Derives .parameters (t :: ts) l
  /- Expressions -/
  | value {ts : List Token} {e : Expr} : Derives (.operation .disjunction) ts e →
      Derives .expression ts e
  | assignment {t : Token} {sign : Symbol} {op? : Option BinaryOp} {ts us : List Token}
      {target value : Expr} : Derives (.operation .disjunction) ts target →
      target.isPlace = true → t.kind = .symbol sign → Grammar.assignment? sign = some op? →
      Derives .expression us value →
      Derives .expression (ts ++ t :: us) (.assign target op? value t.position)
  | oneOperand {rank : Rank} {ts : List Token} {e : Expr} : Derives (.operand rank) ts e →
      Derives (.operation rank) ts e
  | operation {rank : Rank} {t : Token} {op : BinaryOp} {ts us : List Token}
      {left right : Expr} : Derives (.operation rank) ts left → rank.accepts op = true →
      t.kind = .symbol op.symbol → Derives (.operand rank) us right →
      Derives (.operation rank) (ts ++ t :: us) (.binary left op right t.position)
  | tighter {rank next : Rank} {ts : List Token} {e : Expr} : rank.next? = some next →
      Derives (.operation next) ts e → Derives (.operand rank) ts e
  | tightest {rank : Rank} {ts : List Token} {e : Expr} : rank.next? = none →
      Derives .unary ts e → Derives (.operand rank) ts e
  | operator {t : Token} {sign : Symbol} {op : UnaryOp} {ts : List Token} {e : Expr} :
      t.kind = .symbol sign → Grammar.unary? sign = some op → Derives .unary ts e →
      Derives .unary (t :: ts) (.unary op e t.position)
  | updateBefore {t : Token} {sign : Symbol} {op : UpdateOp} {ts : List Token} {target : Expr} :
      t.kind = .symbol sign → Grammar.update? sign = some op → Derives .unary ts target →
      target.isPlace = true → Derives .unary (t :: ts) (.update target op true t.position)
  | updateAfter {t : Token} {sign : Symbol} {op : UpdateOp} {ts : List Token} {target : Expr} :
      Derives .trailed ts target → target.isPlace = true → t.kind = .symbol sign →
      Grammar.update? sign = some op →
      Derives .unary (ts ++ [t]) (.update target op false t.position)
  | noUpdate {ts : List Token} {e : Expr} : Derives .trailed ts e → Derives .unary ts e
  | base {ts : List Token} {e : Expr} : Derives .primary ts e → Derives .trailed ts e
  | call {t : Token} {ts us : List Token} {callee : Expr} {arguments : List Expr} :
      Derives .trailed ts callee → t.kind = .symbol .leftParen →
      Derives (.list .rightParen .expression) us arguments →
      Derives .trailed (ts ++ t :: us) (.call callee arguments t.position)
  | property {dot t : Token} {ts : List Token} {object : Expr} {name : String} :
      Derives .trailed ts object → dot.kind = .symbol .dot → t.property? = some name →
      Derives .trailed (ts ++ [dot, t]) (.member object name t.position)
  | literal {t : Token} {value : Literal} : t.literal? = some value →
      Derives .primary [t] (.literal value t.position)
  | reference {t : Token} {name : String} : t.kind = .identifier name →
      Derives .primary [t] (.reference name t.position)
  | receiver {t : Token} : t.kind = .keyword .thisWord →
      Derives .primary [t] (.receiver t.position)
  | grouped {opening closing : Token} {ts : List Token} {e : Expr} :
      opening.kind = .symbol .leftParen → Derives .expression ts e →
      closing.kind = .symbol .rightParen → Derives .primary (opening :: (ts ++ [closing])) e
  | object {t : Token} {ts : List Token} {fields : List Field} : t.kind = .symbol .leftBrace →
      Derives (.list .rightBrace .field) ts fields →
      Derives .primary (t :: ts) (.object fields t.position)
  | functionValue {isNamed : Bool} {ts : List Token} {f : Function} :
      Derives (.function isNamed) ts f → Derives .primary ts (.function f)
  | field {t colon : Token} {ts : List Token} {name : String} {value : Expr} :
      t.property? = some name → colon.kind = .symbol .colon → Derives .expression ts value →
      Derives .field (t :: colon :: ts) ⟨name, value, t.position⟩
  | namelessFunction {word : Token} {ps rs bs : List Token} {params : List Parameter}
      {result? : Option TypeExpr} {body : Block} : word.kind = .keyword .functionWord →
      Derives .parameters ps params → Derives (.after .colon .type) rs result? →
      Derives .block bs body →
      Derives (.function false) (word :: (ps ++ (rs ++ bs)))
        ⟨none, params, result?, body, word.position⟩
  | namedFunction {word t : Token} {ps rs bs : List Token} {name : String}
      {params : List Parameter} {result? : Option TypeExpr} {body : Block} :
      word.kind = .keyword .functionWord → t.kind = .identifier name →
      Derives .parameters ps params → Derives (.after .colon .type) rs result? →
      Derives .block bs body →
      Derives (.function true) (word :: t :: (ps ++ (rs ++ bs)))
        ⟨some name, params, result?, body, word.position⟩
  /- Statements -/
  | variable {word t : Token} {ts vs : List Token} {name : String} {type? : Option TypeExpr}
      {value? : Option Expr} : word.kind = .keyword .letWord → t.kind = .identifier name →
      Derives (.after .colon .type) ts type? → Derives (.after .assign .expression) vs value? →
      Derives .variable (word :: t :: (ts ++ vs)) (.variable name type? value? word.position)
  | variableAlone {ts : List Token} {s : Stmt} : Derives .variable ts s → Derives .simple ts s
  | functionAlone {ts : List Token} {f : Function} : Derives (.function true) ts f →
      Derives .simple ts (.function f)
  | giveBack {word : Token} {ts : List Token} {value? : Option Expr} :
      word.kind = .keyword .returnWord → Derives (.optional .expression) ts value? →
      Derives .simple (word :: ts) (.giveBack value? word.position)
  | expressionAlone {t : Token} {ts : List Token} {e : Expr} : Derives .expression (t :: ts) e →
      Derives .simple (t :: ts) (.expression e t.position)
  | ended {ts ss : List Token} {s : Stmt} {isEnded : Bool} : Derives .simple ts s →
      Derives (.mark .semicolon) ss isEnded → Derives .statement (ts ++ ss) s
  | branch {word : Token} {ts : List Token} {s : Stmt} : word.kind = .keyword .ifWord →
      Derives (.conditional word.position) ts s → Derives .statement (word :: ts) s
  | blockAlone {ts : List Token} {b : Block} : Derives .block ts b →
      Derives .statement ts (.block b)
  | loop {word opening first second closing : Token} {is cs us bs : List Token}
      {init? : Option Stmt} {condition? update? : Option Expr} {body : Block} :
      word.kind = .keyword .forWord → opening.kind = .symbol .leftParen →
      Derives .loopStart is init? → first.kind = .symbol .semicolon →
      Derives (.optional .expression) cs condition? → second.kind = .symbol .semicolon →
      Derives (.optional .expression) us update? → closing.kind = .symbol .rightParen →
      Derives .body bs body →
      Derives .statement
        (word :: opening :: (is ++ first :: (cs ++ second :: (us ++ closing :: bs))))
        (.loop init? condition? update? body word.position)
  | repeatWhile {word opening closing : Token} {cs bs : List Token} {condition : Expr}
      {body : Block} : word.kind = .keyword .whileWord → opening.kind = .symbol .leftParen →
      Derives .expression cs condition → closing.kind = .symbol .rightParen →
      Derives .body bs body →
      Derives .statement (word :: opening :: (cs ++ closing :: bs))
        (.repeatWhile condition body word.position)
  | noStart : Derives .loopStart [] none
  | startVariable {ts : List Token} {s : Stmt} : Derives .variable ts s →
      Derives .loopStart ts (some s)
  | startExpression {t : Token} {ts : List Token} {e : Expr} : Derives .expression (t :: ts) e →
      Derives .loopStart (t :: ts) (some (.expression e t.position))
  | conditional {position : Position} {opening closing : Token} {cs bs os : List Token}
      {condition : Expr} {body : Block} {otherwise? : Option Stmt} :
      opening.kind = .symbol .leftParen → Derives .expression cs condition →
      closing.kind = .symbol .rightParen → Derives .body bs body →
      Derives .alternative os otherwise? →
      Derives (.conditional position) (opening :: (cs ++ closing :: (bs ++ os)))
        (.branch condition body otherwise? position)
  | noAlternative : Derives .alternative [] none
  | otherConditional {elseWord word : Token} {ts : List Token} {s : Stmt} :
      elseWord.kind = .keyword .elseWord → word.kind = .keyword .ifWord →
      Derives (.conditional word.position) ts s →
      Derives .alternative (elseWord :: word :: ts) (some s)
  | otherBody {elseWord : Token} {ts : List Token} {b : Block} :
      elseWord.kind = .keyword .elseWord → Derives .body ts b →
      Derives .alternative (elseWord :: ts) (some (.block b))
  | block {t : Token} {ts : List Token} {l : List Stmt} : t.kind = .symbol .leftBrace →
      Derives .statements ts l → Derives .block (t :: ts) ⟨l, t.position⟩
  | noStatements {t : Token} : t.kind = .symbol .rightBrace → Derives .statements [t] []
  | strayInBlock {t : Token} {ts : List Token} {l : List Stmt} : t.kind = .symbol .semicolon →
      Derives .statements ts l → Derives .statements (t :: ts) l
  | statementInBlock {ts us : List Token} {s : Stmt} {l : List Stmt} : Derives .statement ts s →
      Derives .statements us l → Derives .statements (ts ++ us) (s :: l)
  | bodyBlock {ts : List Token} {b : Block} : Derives .block ts b → Derives .body ts b
  | bodyStatement {t : Token} {ts : List Token} {s : Stmt} : Derives .statement (t :: ts) s →
      Derives .body (t :: ts) ⟨[s], t.position⟩
  /- Programs -/
  | name {t : Token} {name : String} : t.kind = .identifier name →
      Derives .name [t] (name, t.position)
  | interface {word t opening : Token} {ts : List Token} {name : String} {l : List Member} :
      word.kind = .keyword .interfaceWord → t.kind = .identifier name →
      opening.kind = .symbol .leftBrace → Derives .members ts l →
      Derives .interface (word :: t :: opening :: ts) ⟨name, l, word.position⟩
  | exports {word opening : Token} {ts ss : List Token} {l : List (String × Position)}
      {isEnded : Bool} : word.kind = .keyword .exportWord → opening.kind = .symbol .leftBrace →
      Derives (.list .rightBrace .name) ts l → Derives (.mark .semicolon) ss isEnded →
      Derives .exports (word :: opening :: (ts ++ ss)) ()
  | noItems : Derives .items [] []
  | stray {t : Token} {ts : List Token} {l : List Stmt} : t.kind = .symbol .semicolon →
      Derives .items ts l → Derives .items (t :: ts) l
  | interfaceItem {ts us : List Token} {declaration : Interface} {l : List Stmt} :
      Derives .interface ts declaration → Derives .items us l →
      Derives .items (ts ++ us) (.interface declaration :: l)
  | exportsItem {ts us : List Token} {l : List Stmt} : Derives .exports ts () →
      Derives .items us l → Derives .items (ts ++ us) l
  | statementItem {ts us : List Token} {s : Stmt} {l : List Stmt} : Derives .statement ts s →
      Derives .items us l → Derives .items (ts ++ us) (s :: l)
  | program {ts : List Token} {l : List Stmt} : Derives .items ts l → Derives .program ts ⟨l⟩

/-- Whether a phrase may be made up of no tokens at all. -/
def Phrase.mayBeEmpty : Phrase → Bool
  | .mark _ | .optional _ | .after _ _ | .alternative | .loopStart | .items | .program => true
  | .chain _ part => part.mayBeEmpty
  | _ => false

/-- A phrase takes a token, unless it is one that may be left out. -/
theorem Derives.ne_nil {phrase : Phrase} {ts : List Token} {a : phrase.Tree}
    (h : Derives phrase ts a) (hphrase : phrase.mayBeEmpty = false) : ts ≠ [] := by
  induction h with
  | _ => simp_all [Phrase.mayBeEmpty]

theorem Derives.of_chain_singleton {separator : Symbol} {part : Phrase} {ts : List Token}
    {a : part.Tree} (h : Derives (.chain separator part) ts [a]) : Derives part ts a := by
  cases h with
  | lastOfChain h => exact h
  | chained _ _ hrest => cases hrest

theorem Derives.chain_ne_nil {separator : Symbol} {part : Phrase} {ts : List Token}
    {l : List part.Tree} (h : Derives (.chain separator part) ts l) : l ≠ [] := by
  cases h <;> simp

end TypedScript
