import TypedScript.Position
import TypedScript.Types.Spelling

/-!
# Diagnostics

What can be wrong with the types of a program, and how it is said. Checking
does not stop at the first problem, so diagnostics come in lists.
-/

namespace TypedScript

/-- What is wrong with the types of a program. -/
inductive TypeCause where
  | unknownType (name : String)
  | mismatch (expected found : Ty)
  | notCallable (found : Ty)
  | unknownProperty (property : String) (on : Ty)
  | unknownName (name : String)
  | argumentCount (expected : Allowance) (found : Nat)
  | duplicateDeclaration (name : String)
  | returnOutsideFunction
deriving DecidableEq

instance : Cause TypeCause where
  text
    | .unknownType name => "Unknown type '" ++ name ++ "'."
    | .mismatch expected found =>
      "Type '" ++ found.spelling ++ "' is not assignable to type '" ++ expected.spelling ++ "'."
    | .notCallable found => "Type '" ++ found.spelling ++ "' is not callable."
    | .unknownProperty property on =>
      "Property '" ++ property ++ "' does not exist on type '" ++ on.spelling ++ "'."
    | .unknownName name => "Cannot find name '" ++ name ++ "'."
    | .argumentCount expected found =>
      "Expected " ++ expected.text ++ " arguments, but got " ++ toString found ++ "."
    | .duplicateDeclaration name => "Duplicate declaration '" ++ name ++ "'."
    | .returnOutsideFunction =>
      "A 'return' statement can only be used within a function body."

/-- Something that is wrong with the types of a program, and where. -/
abbrev Diagnostic := Fault TypeCause

end TypedScript
