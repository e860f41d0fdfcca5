import TypedScript.Token

/-!
# Syntax trees

What a program says once its tokens are read: type expressions, expressions,
functions, statements and interface declarations. Every node knows the
position it is blamed at: for an operator that of its symbol, for a call that
of the opening parenthesis, for a property that of the property's name, and
otherwise that of its first token.

What one definition stands for here:
- A `Parameter` is one of a function or of a function type.
- A `Member` is one of an interface or of an object type that is written out. A
  method is a member with a function type.
- A `Function` is declared as a statement or written as an expression; only the
  former always has a name.
The parameters that a call has to give are counted twice, for the type of a
function (`requiredCount`) and for the function itself
(`Function.requiredCount`), since the two are built apart from each other.
-/

namespace TypedScript

/-! ## Operators -/

/-- Operators between two operands. -/
inductive BinaryOp where
  | add
  | subtract
  | multiply
  | divide
  | modulo
  | less
  | greater
  | lessEqual
  | greaterEqual
  | equal
  | notEqual
  | strictEqual
  | strictNotEqual
  | and
  | or
deriving DecidableEq, Repr

namespace BinaryOp

/-- The symbol of an operator. -/
def symbol : BinaryOp → Symbol
  | .add => .plus
  | .subtract => .minus
  | .multiply => .star
  | .divide => .slash
  | .modulo => .percent
  | .less => .less
  | .greater => .greater
  | .lessEqual => .lessEqual
  | .greaterEqual => .greaterEqual
  | .equal => .equal
  | .notEqual => .notEqual
  | .strictEqual => .strictEqual
  | .strictNotEqual => .strictNotEqual
  | .and => .andAnd
  | .or => .orOr

/-- How an operator is written. -/
def spelling (op : BinaryOp) : String :=
  op.symbol.spelling

/-- All operators. -/
def all : List BinaryOp :=
  [.add, .subtract, .multiply, .divide, .modulo, .less, .greater, .lessEqual,
   .greaterEqual, .equal, .notEqual, .strictEqual, .strictNotEqual, .and, .or]

theorem mem_all (op : BinaryOp) : op ∈ all := by
  cases op <;> decide

/-- The operator that a symbol denotes between two operands. -/
def ofSymbol? (s : Symbol) : Option BinaryOp :=
  all.find? (·.symbol = s)

/-- Whether the operator computes with numbers. -/
def isArithmetic : BinaryOp → Bool
  | .add | .subtract | .multiply | .divide | .modulo => true
  | _ => false

/-- Whether the operator compares by order. -/
def isRelational : BinaryOp → Bool
  | .less | .greater | .lessEqual | .greaterEqual => true
  | _ => false

/-- Whether the operator compares for equality. -/
def isEquality : BinaryOp → Bool
  | .equal | .notEqual | .strictEqual | .strictNotEqual => true
  | _ => false

end BinaryOp

/-- Operators in front of one operand. -/
inductive UnaryOp where
  | negate
  | not
deriving DecidableEq, Repr

/-- How an operator in front is written. -/
def UnaryOp.spelling : UnaryOp → String
  | .negate => "-"
  | .not => "!"

/-- Operators that change a variable or property by one. -/
inductive UpdateOp where
  | increment
  | decrement
deriving DecidableEq, Repr

/-- What an update adds. -/
def UpdateOp.delta : UpdateOp → Float
  | .increment => 1.0
  | .decrement => -1.0

/-! ## Type expressions -/

mutual

/-- A type as it is written in a program. -/
inductive TypeExpr where
  | named (name : String) (position : Position)
  | object (members : List Member) (position : Position)
  | function (params : List Parameter) (result : TypeExpr) (position : Position)
  | union (members : List TypeExpr) (position : Position)
  | intersection (members : List TypeExpr) (position : Position)

/-- A member of an interface or of an object type. -/
structure Member where
  name : String
  type : TypeExpr
  isOptional : Bool
  position : Position

/-- A parameter of a function or of a function type. -/
structure Parameter where
  name : String
  type? : Option TypeExpr
  isOptional : Bool
  position : Position

end

/-- Where a type expression is blamed. -/
def TypeExpr.position : TypeExpr → Position
  | .named _ position
  | .object _ position
  | .function _ _ position
  | .union _ position
  | .intersection _ position => position

/-- How many arguments a type of functions with such parameters requires: the
parameters up to the last one that is not optional. -/
def requiredCount : List Parameter → Nat
  | [] => 0
  | param :: rest =>
    match requiredCount rest with
    | 0 => if param.isOptional then 0 else 1
    | n + 1 => n + 2

/-! ## Expressions and statements -/

/-- The value that a literal denotes. -/
inductive Literal where
  | number (value : Float)
  | text (value : String)
  | boolean (value : Bool)
  | undefined

/-- The declaration of an interface. -/
structure Interface where
  name : String
  members : List Member
  position : Position

mutual

/-- An expression. -/
inductive Expr where
  | literal (value : Literal) (position : Position)
  /-- The mention of a variable. -/
  | reference (name : String) (position : Position)
  /-- The receiver of the call in progress. -/
  | receiver (position : Position)
  | unary (op : UnaryOp) (operand : Expr) (position : Position)
  | binary (left : Expr) (op : BinaryOp) (right : Expr) (position : Position)
  /-- An assignment, with the operator of a compound one. -/
  | assign (target : Expr) (op? : Option BinaryOp) (value : Expr) (position : Position)
  /-- A change by one; `isBefore` if the operator stands before its target. -/
  | update (target : Expr) (op : UpdateOp) (isBefore : Bool) (position : Position)
  | call (callee : Expr) (arguments : List Expr) (position : Position)
  | member (object : Expr) (property : String) (position : Position)
  | object (fields : List Field) (position : Position)
  | function (definition : Function)

/-- A property of an object literal. -/
structure Field where
  name : String
  value : Expr
  position : Position

/-- The definition of a function. -/
structure Function where
  name? : Option String
  params : List Parameter
  result? : Option TypeExpr
  body : Block
  position : Position

/-- Statements with a scope of their own. -/
structure Block where
  statements : List Stmt
  position : Position

/-- A statement. -/
inductive Stmt where
  | variable (name : String) (type? : Option TypeExpr) (value? : Option Expr)
      (position : Position)
  | function (definition : Function)
  | interface (declaration : Interface)
  | expression (expr : Expr) (position : Position)
  | giveBack (value? : Option Expr) (position : Position)
  | branch (condition : Expr) (body : Block) (otherwise? : Option Stmt)
      (position : Position)
  | block (block : Block)
  | loop (init? : Option Stmt) (condition? : Option Expr) (update? : Option Expr)
      (body : Block) (position : Position)
  | repeatWhile (condition : Expr) (body : Block) (position : Position)

end

/-- How many arguments a call of a function has to give: the parameters that are
left when those at the end that are optional are taken away. -/
def Function.requiredCount (f : Function) : Nat :=
  (f.params.reverse.dropWhile (·.isOptional)).length

/-- Where an expression is blamed. -/
def Expr.position : Expr → Position
  | .literal _ position
  | .reference _ position
  | .receiver position
  | .unary _ _ position
  | .binary _ _ _ position
  | .assign _ _ _ position
  | .update _ _ _ position
  | .call _ _ position
  | .member _ _ position
  | .object _ position => position
  | .function definition => definition.position

/-- Whether an expression can stand left of an assignment. -/
def Expr.isPlace : Expr → Bool
  | .reference _ _ => true
  | .member _ _ _ => true
  | _ => false

/-- A whole program. -/
structure Program where
  statements : List Stmt

end TypedScript
