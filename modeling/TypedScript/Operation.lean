import TypedScript.Printing

/-!
# Operators on values

Addition joins texts as soon as one operand is a text; the other arithmetic
operators take numbers only, and a zero divisor is a fault. Numbers are
ordered as numbers, texts by their characters; a NaN stands in no order to
anything. Equality never fails.
-/

namespace TypedScript.Operation

/-- The order of two numbers, none if one of them is a NaN. -/
def numberOrder (a b : Float) : Option Ordering :=
  if a < b then some .lt
  else if b < a then some .gt
  else if a == b then some .eq
  else none

/-- The order of two texts by their characters. -/
def textOrder (a b : String) : Ordering :=
  if a < b then .lt else if a = b then .eq else .gt

/-- The order of two values of one kind. -/
def order (left right : Value) (position : Position) :
    Except RuntimeFault (Option Ordering) :=
  match left, right with
  | .number a, .number b => .ok (numberOrder a b)
  | .text a, .text b => .ok (some (textOrder a b))
  | .text _, other => .error (other.mismatch "string" position)
  | .number _, other => .error (other.mismatch "number" position)
  | other, _ => .error (other.mismatch "number" position)

/-- Whether an order is what a relational operator asks for. -/
def holds (op : BinaryOp) (o : Ordering) : Bool :=
  match op with
  | .less => o.isLT
  | .greater => o.isGT
  | .lessEqual => o.isLE
  | _ => o.isGE

/-- A comparison. Operators that do not compare are refused. -/
def compare (op : BinaryOp) (left right : Value) (position : Position) :
    Except RuntimeFault Value :=
  match op with
  | .equal | .strictEqual => .ok (.boolean (left.equals right))
  | .notEqual | .strictNotEqual => .ok (.boolean !(left.equals right))
  | .less | .greater | .lessEqual | .greaterEqual => do
    match ← order left right position with
    | some o => return .boolean (holds op o)
    | none => return .boolean false
  | other => .error ⟨.typeMismatch "comparison operator" other.spelling, position⟩

/-- Both operands as numbers; the left one is blamed first. -/
def numbers (left right : Value) (position : Position) :
    Except RuntimeFault (Float × Float) := do
  let a ← left.asNumber position
  let b ← right.asNumber position
  return (a, b)

/-- An arithmetic operator on numbers. -/
def arithmetic (op : BinaryOp) (a b : Float) (position : Position) :
    Except RuntimeFault Value :=
  match op with
  | .add => .ok (.number (a + b))
  | .subtract => .ok (.number (a - b))
  | .multiply => .ok (.number (a * b))
  | .divide => if b == 0.0 then .error ⟨.divisionByZero, position⟩ else .ok (.number (a / b))
  | _ =>
    if b == 0.0 then .error ⟨.divisionByZero, position⟩
    else .ok (.number (Binary64.remainder a b))

/-- Addition: of texts if one operand is a text, of numbers otherwise. -/
def add (s : Store) (left right : Value) (position : Position) :
    Except RuntimeFault Value :=
  if left.isText || right.isText then .ok (.text (s.textOf left ++ s.textOf right))
  else do
    let (a, b) ← numbers left right position
    arithmetic .add a b position

/-- A binary operator on two values. -/
def apply (s : Store) (op : BinaryOp) (left right : Value) (position : Position) :
    Except RuntimeFault Value :=
  match op with
  | .add => add s left right position
  | .subtract | .multiply | .divide | .modulo => do
    let (a, b) ← numbers left right position
    arithmetic op a b position
  | .and => do
    if ← left.asBoolean position then return .boolean (← right.asBoolean position)
    else return .boolean false
  | .or => do
    if ← left.asBoolean position then return .boolean true
    else return .boolean (← right.asBoolean position)
  | other => compare other left right position

end TypedScript.Operation
