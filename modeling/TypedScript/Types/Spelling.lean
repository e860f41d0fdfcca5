import TypedScript.Types.Basic

/-!
# How types are written

A type appears in a message the way a program would write it. A function among
the members of a union or of an intersection stands in parentheses, and so does
a union among the members of an intersection, as `&` binds tighter than `|`.
-/

namespace TypedScript

/-- A text, between parentheses if it has to be. -/
def parenthesized (isNeeded : Bool) (text : String) : String :=
  if isNeeded then "(" ++ text ++ ")" else text

/-- Whether a type needs parentheses among the members of a union. -/
def Ty.isLooserThanUnion : Ty → Bool
  | .function _ => true
  | _ => false

/-- Whether a type needs parentheses among the members of an intersection. -/
def Ty.isLooserThanIntersection : Ty → Bool
  | .function _ => true
  | .union _ => true
  | _ => false

/-- How a parameter is written, given the type of its argument: the last one of
a variadic function takes a list, and one that a call may leave out carries a
question mark. -/
def Signature.paramSpelling (s : Signature) (index : Nat) (type : String) : String :=
  if s.isVariadic && index + 1 = s.params.length then "..." ++ type ++ "[]"
  else if s.required ≤ index then type ++ "?"
  else type

mutual

/-- How a type is written. -/
def Ty.spelling : Ty → String
  | .primitive primitive => primitive.name
  | .named name => name
  | .object properties =>
    match propertySpellings properties with
    | [] => "\x7b\x7d"
    | parts => "\x7b " ++ String.intercalate "; " parts ++ " \x7d"
  | .function signature => signature.spelling
  | .union members =>
    String.intercalate " | " (memberSpellings Ty.isLooserThanUnion members)
  | .intersection members =>
    String.intercalate " & " (memberSpellings Ty.isLooserThanIntersection members)
  | .unknown => "unknown"

/-- How a property is written. -/
def Property.spelling : Property → String
  | ⟨name, type, isOptional⟩ =>
    name ++ (if isOptional then "?" else "") ++ ": " ++ type.spelling

/-- How the type of a function is written. -/
def Signature.spelling : Signature → String
  | ⟨params, required, isVariadic, result⟩ =>
    let parts := (typeSpellings params).mapIdx
      (Signature.paramSpelling ⟨params, required, isVariadic, result⟩)
    "(" ++ String.intercalate ", " parts ++ ") => " ++ result.spelling

/-- How each of some types is written. -/
def typeSpellings : List Ty → List String
  | [] => []
  | type :: rest => type.spelling :: typeSpellings rest

/-- How each member of a union or intersection is written, given which of them
need parentheses. -/
def memberSpellings (isLooser : Ty → Bool) : List Ty → List String
  | [] => []
  | type :: rest =>
    parenthesized (isLooser type) type.spelling :: memberSpellings isLooser rest

/-- How each of some properties is written. -/
def propertySpellings : List Property → List String
  | [] => []
  | property :: rest => property.spelling :: propertySpellings rest

end

end TypedScript
