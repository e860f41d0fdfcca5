/-!
# Static types

A `Ty` is what is known of a value before the program runs. Types are compared
as they are written down: two object types are equal if they list the same
properties in the same order, and a declared interface is known by its name
only; what the name stands for is the business of the table of interfaces.

`Ty.unionOf` and `Ty.intersectionOf` build the composed types, so that no union
has a union among its members and no intersection an intersection. The type
`unknown` is that of a value about which nothing is known, and it swallows a
union.

What one definition stands for here:
- A `Shape` is that of an object type, of a declared interface, of an object
  literal, and of what the members of an intersection have together.
- A `Signature` is that of a declared function, of a function type as written,
  and of a built-in function; only the last kind takes any number of arguments.
How many arguments a signature allows is a notion of its own here (`Allowance`).
The running program has another one (`Arity`), which is not used for types.
-/

namespace TypedScript

/-- The types that are not composed of others. -/
inductive Primitive where
  | text
  | number
  | boolean
  /-- The type of `undefined`. -/
  | void
deriving DecidableEq, Repr

/-- How a program writes a primitive type. -/
def Primitive.name : Primitive → String
  | .text => "string"
  | .number => "number"
  | .boolean => "boolean"
  | .void => "void"

mutual

/-- A static type. -/
inductive Ty where
  | primitive (primitive : Primitive)
  /-- A declared interface. -/
  | named (name : String)
  | object (properties : List Property)
  | function (signature : Signature)
  | union (members : List Ty)
  | intersection (members : List Ty)
  /-- The type of which nothing is known; it fits everywhere. -/
  | unknown

/-- A property of an object type. -/
structure Property where
  name : String
  type : Ty
  /-- Whether an object may lack the property. -/
  isOptional : Bool

/-- The type of a function. -/
structure Signature where
  params : List Ty
  /-- How many of the parameters a call has to give. -/
  required : Nat
  /-- Whether the last parameter stands for any number of arguments. -/
  isVariadic : Bool
  result : Ty

end

instance : Inhabited Ty := ⟨.unknown⟩

/-- The properties that an object has at least, in their order. -/
abbrev Shape := List Property

/-! ## Equality -/

mutual

/-- Whether two types are written the same. -/
def Ty.same : Ty → Ty → Bool
  | .primitive a, .primitive b => a = b
  | .named a, .named b => a = b
  | .object a, .object b => sameProperties a b
  | .function a, .function b => a.same b
  | .union a, .union b => sameTypes a b
  | .intersection a, .intersection b => sameTypes a b
  | .unknown, .unknown => true
  | _, _ => false

/-- Whether two properties are written the same. -/
def Property.same : Property → Property → Bool
  | ⟨name, type, isOptional⟩, ⟨name', type', isOptional'⟩ =>
    name = name' && type.same type' && isOptional = isOptional'

/-- Whether two types of functions are written the same. -/
def Signature.same : Signature → Signature → Bool
  | ⟨params, required, isVariadic, result⟩, ⟨params', required', isVariadic', result'⟩ =>
    sameTypes params params' && required = required' && isVariadic = isVariadic' &&
      result.same result'

/-- Whether two lists of types are written the same. -/
def sameTypes : List Ty → List Ty → Bool
  | [], [] => true
  | a :: as, b :: bs => a.same b && sameTypes as bs
  | _, _ => false

/-- Whether two lists of properties are written the same. -/
def sameProperties : List Property → List Property → Bool
  | [], [] => true
  | a :: as, b :: bs => a.same b && sameProperties as bs
  | _, _ => false

end

mutual

theorem Ty.same_iff (a b : Ty) : a.same b = true ↔ a = b := by
  cases a <;> cases b <;> simp [Ty.same]
  case object a b => exact sameProperties_iff a b
  case function a b => exact Signature.same_iff a b
  case union a b => exact sameTypes_iff a b
  case intersection a b => exact sameTypes_iff a b

theorem Property.same_iff (a b : Property) : a.same b = true ↔ a = b := by
  obtain ⟨name, type, isOptional⟩ := a
  obtain ⟨name', type', isOptional'⟩ := b
  simp [Property.same, Ty.same_iff type type', and_assoc]

theorem Signature.same_iff (a b : Signature) : a.same b = true ↔ a = b := by
  obtain ⟨params, required, isVariadic, result⟩ := a
  obtain ⟨params', required', isVariadic', result'⟩ := b
  simp [Signature.same, sameTypes_iff params params', Ty.same_iff result result', and_assoc]

theorem sameTypes_iff (as bs : List Ty) : sameTypes as bs = true ↔ as = bs := by
  match as, bs with
  | [], [] => simp [sameTypes]
  | [], _ :: _ => simp [sameTypes]
  | _ :: _, [] => simp [sameTypes]
  | a :: as, b :: bs => simp [sameTypes, Ty.same_iff a b, sameTypes_iff as bs]

theorem sameProperties_iff (as bs : List Property) : sameProperties as bs = true ↔ as = bs := by
  match as, bs with
  | [], [] => simp [sameProperties]
  | [], _ :: _ => simp [sameProperties]
  | _ :: _, [] => simp [sameProperties]
  | a :: as, b :: bs => simp [sameProperties, Property.same_iff a b, sameProperties_iff as bs]

end

instance : DecidableEq Ty := fun a b =>
  decidable_of_iff (a.same b = true) (Ty.same_iff a b)

/-! ## Building types -/

namespace Ty

/-- The type of texts. -/
abbrev text : Ty := .primitive .text

/-- The type of numbers. -/
abbrev number : Ty := .primitive .number

/-- The type of truth values. -/
abbrev boolean : Ty := .primitive .boolean

/-- The type of `undefined`. -/
abbrev void : Ty := .primitive .void

/-- The members that a type contributes to a union. -/
def unionMembers : Ty → List Ty
  | .union members => members
  | other => [other]

/-- The members that a type contributes to an intersection. -/
def intersectionMembers : Ty → List Ty
  | .intersection members => members
  | other => [other]

/-- The types of a list at their first places. -/
def distinct (types : List Ty) : List Ty :=
  types.foldl (fun seen type => if type ∈ seen then seen else seen ++ [type]) []

/-- The union of types: `unknown` if it is one of them, and otherwise their
members, each once. No types at all make `void`. -/
def unionOf (types : List Ty) : Ty :=
  if unknown ∈ types then unknown
  else
    match distinct (types.flatMap unionMembers) with
    | [] => void
    | [type] => type
    | members => .union members

/-- The intersection of types. -/
def intersectionOf (types : List Ty) : Ty :=
  match types.flatMap intersectionMembers with
  | [type] => type
  | members => .intersection members

end Ty

namespace Shape

/-- The first property with a name. -/
def find? (shape : Shape) (name : String) : Option Property :=
  List.find? (fun property => property.name = name) shape

/-- Whether there is a property with a name. -/
def has (shape : Shape) (name : String) : Bool :=
  (shape.find? name).isSome

/-- Changes the first property with a name. -/
def update (name : String) (f : Property → Property) : Shape → Shape
  | [] => []
  | property :: rest =>
    if property.name = name then f property :: rest else property :: update name f rest

end Shape

/-! ## Calling -/

mutual

/-- The function that a type can be called as: an intersection is called as its
first member that is a function. -/
def Ty.callable? : Ty → Option Signature
  | .function signature => some signature
  | .intersection members => firstCallable? members
  | _ => none

/-- The first function among some types. -/
def firstCallable? : List Ty → Option Signature
  | [] => none
  | type :: rest => type.callable? <|> firstCallable? rest

end

/-- How many arguments a type of functions allows. -/
structure Allowance where
  required : Nat
  /-- The number of parameters. -/
  total : Nat
  /-- Whether there may be more arguments than parameters. -/
  isVariadic : Bool
deriving DecidableEq, Repr

namespace Allowance

/-- Whether a call may give `count` arguments. -/
def accepts (a : Allowance) (count : Nat) : Bool :=
  a.required ≤ count && (a.isVariadic || count ≤ a.total)

/-- The numbers of arguments in the words of a message. -/
def text (a : Allowance) : String :=
  if a.isVariadic then "at least " ++ toString a.required
  else if a.required = a.total then toString a.required
  else toString a.required ++ "-" ++ toString a.total

end Allowance

namespace Signature

/-- How many arguments a function of the type takes. -/
def arity (s : Signature) : Allowance :=
  ⟨s.required, s.params.length, s.isVariadic⟩

/-- The type of the argument at a place, none if there is no such argument. -/
def param? (s : Signature) (index : Nat) : Option Ty :=
  match s.params[index]? with
  | some type => some type
  | none => if s.isVariadic then s.params.getLast? else none

end Signature

end TypedScript
