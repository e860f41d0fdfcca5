import TypedScript.Arity
import TypedScript.Position
import TypedScript.Tree

/-!
# Values of a running program

Numbers, texts, truth values and `undefined` are values by themselves. Objects
and functions are known by the place in the store where they were made, so two
of them are equal only if they were made by the same evaluation. Conversions
never change the kind of a value: what is not already a number is refused
where a number is needed.
-/

namespace TypedScript

/-- The name of an object in a store. -/
structure ObjectId where
  index : Nat
deriving DecidableEq, Repr

/-- The name of a function in a store. -/
structure ClosureId where
  index : Nat
deriving DecidableEq, Repr

/-- The name of a frame of variables in a store. -/
structure FrameId where
  index : Nat
deriving DecidableEq, Repr

/-- The functions that are there before a program starts. -/
inductive Native where
  /-- Prints its arguments on one line. -/
  | log
deriving DecidableEq, Repr

namespace Native

/-- All built-in functions. -/
def all : List Native := [.log]

/-- The global object that holds a built-in function. -/
def holder : Native → String
  | .log => "console"

/-- The property under which its object holds a built-in function. -/
def name : Native → String
  | .log => "log"

/-- A built-in function as a program writes it. -/
def path (f : Native) : String :=
  f.holder ++ "." ++ f.name

/-- How many arguments a built-in function takes. -/
def arity : Native → Arity
  | .log => .atLeast 0

end Native

/-- A value of a running program. -/
inductive Value where
  | number (value : Float)
  | text (value : String)
  | boolean (value : Bool)
  | undefined
  | object (id : ObjectId)
  | closure (id : ClosureId)
  | native (function : Native)

instance : Inhabited Value := ⟨.undefined⟩

/-- Why a run stops. -/
inductive RuntimeCause where
  | unknownVariable (name : String)
  | notCallable (found : String)
  | unknownProperty (property : String) (found : String)
  | typeMismatch (expected : String) (found : String)
  | divisionByZero
  | argumentCount (expected : Arity) (found : Nat)
  | stackOverflow (limit : Nat)
deriving DecidableEq

instance : Cause RuntimeCause where
  text
    | .unknownVariable name => name ++ " is not defined."
    | .notCallable found => "Value of type " ++ found ++ " is not a function."
    | .unknownProperty property found =>
      "Cannot access property '" ++ property ++ "' of " ++ found ++ "."
    | .typeMismatch expected found => "Expected " ++ expected ++ ", found " ++ found ++ "."
    | .divisionByZero => "Division by zero."
    | .argumentCount expected found =>
      "Expected " ++ expected.text ++ " arguments, but got " ++ toString found ++ "."
    | .stackOverflow limit => "Maximum call depth of " ++ toString limit ++ " exceeded."

/-- A fault of a running program. -/
abbrev RuntimeFault := Fault RuntimeCause

namespace Value

/-- The value that a literal denotes. -/
def ofLiteral : Literal → Value
  | .number value => .number value
  | .text value => .text value
  | .boolean value => .boolean value
  | .undefined => .undefined

/-- The kind of a value in the words of a message. -/
def kindName : Value → String
  | .number _ => "number"
  | .text _ => "string"
  | .boolean _ => "boolean"
  | .undefined => "undefined"
  | .object _ => "object"
  | .closure _ => "function"
  | .native _ => "function"

/-- Equality as the program sees it: numbers by value, so that a NaN differs
from itself, and objects and functions by identity. -/
def equals : Value → Value → Bool
  | .number a, .number b => a == b
  | .text a, .text b => a = b
  | .boolean a, .boolean b => a = b
  | .undefined, .undefined => true
  | .object a, .object b => a = b
  | .closure a, .closure b => a = b
  | .native a, .native b => a = b
  | _, _ => false

/-- The fault of meeting a value where another kind was expected. -/
def mismatch (expected : String) (found : Value) (position : Position) : RuntimeFault :=
  ⟨.typeMismatch expected found.kindName, position⟩

/-- The number that a value is. -/
def asNumber (v : Value) (position : Position) : Except RuntimeFault Float :=
  match v with
  | .number value => .ok value
  | other => .error (mismatch "number" other position)

/-- The truth value that a value is. -/
def asBoolean (v : Value) (position : Position) : Except RuntimeFault Bool :=
  match v with
  | .boolean value => .ok value
  | other => .error (mismatch "boolean" other position)

/-- Whether a value is a text. -/
def isText : Value → Bool
  | .text _ => true
  | _ => false

/-- The object that a value is. -/
def asObject? : Value → Option ObjectId
  | .object id => some id
  | _ => none

/-- The object whose property is accessed. -/
def expectObject (v : Value) (property : String) (position : Position) :
    Except RuntimeFault ObjectId :=
  match v.asObject? with
  | some id => .ok id
  | none => .error ⟨.unknownProperty property v.kindName, position⟩

end Value

end TypedScript
