import TypedScript.Record
import TypedScript.Types.Basic

/-!
# Interfaces and what types fit where

A `Table` says what shape each declared interface has. All questions about
types that have to look behind the names of interfaces are asked of a table:
whether a type fits where another is expected, which shape a type has, which
type a property has, and whether the members of an intersection contradict each
other.

Fitting is structural. Interfaces may refer to themselves, so a question about
two of them comes up again inside itself; the pairs in question are assumed to
fit. As unfolding can still go on forever on some tables, a question is given a
bound on how deep it may descend, its `effort`, and its answer is none if that
was too little.
-/

namespace TypedScript

/-- The answer to a question about types, none if the effort was too small. -/
abbrev Answer (α : Type) := Option α

/-- The shapes of the declared interfaces. -/
structure Table where
  interfaces : Record Shape

namespace Table

/-- The table without interfaces. -/
def empty : Table := ⟨.empty⟩

instance : Inhabited Table := ⟨empty⟩

/-- The shape of a declared interface. -/
def interface? (table : Table) (name : String) : Option Shape :=
  table.interfaces.get? name

/-- Whether an interface is declared. -/
def declares (table : Table) (name : String) : Bool :=
  table.interfaces.has name

/-- What the name of an interface stands for. An undeclared one stands for
`unknown`. -/
def expand (table : Table) (name : String) : Ty :=
  match table.interface? name with
  | some shape => .object shape
  | none => .unknown

theorem expand_of_interface? {table : Table} {name : String} {shape : Shape}
    (h : table.interface? name = some shape) : table.expand name = .object shape := by
  unfold expand
  rw [h]

/-! ## Shapes -/

section Shapes

variable (fits : Ty → Ty → Answer Bool)

/-- Adds a property to a shape. If the name is there already, the property
keeps its place, takes the new type if that fits where the old one does, and
is optional only if it is so in both. -/
def mergeProperty (shape : Shape) (property : Property) : Answer Shape :=
  match shape.find? property.name with
  | none => return shape ++ [property]
  | some old => do
    let type := if ← fits property.type old.type then property.type else old.type
    return shape.update property.name fun slot =>
      ⟨slot.name, type, old.isOptional && property.isOptional⟩

/-- The properties of several shapes in one; no shapes have none. -/
def mergeShapes (shapes : List Shape) : Answer (Option Shape) :=
  if shapes.isEmpty then return none
  else return some (← shapes.flatten.foldlM (mergeProperty fits) [])

variable (table : Table)

mutual

/-- The shape of a type, if it has one, given what fits where. An intersection
has the properties of all its members that have a shape. -/
def shapeOf? : Ty → Answer (Option Shape)
  | .object shape => some (some shape)
  | .named name => some (table.interface? name)
  | .intersection members => do mergeShapes fits (← shapesOf members)
  | _ => some none

/-- The shapes of those types that have one. -/
def shapesOf : List Ty → Answer (List Shape)
  | [] => some []
  | type :: rest => do
    let shape? ← shapeOf? type
    let shapes ← shapesOf rest
    return shape?.toList ++ shapes

end

end Shapes

/-! ## What fits where -/

section Rules

variable (fits : Ty → Ty → Answer Bool)

/-- Whether an object of one shape fits where another is expected: it may have
more properties, and it must have those that are not optional. -/
def shapeFits (source target : Shape) : Answer Bool :=
  target.allM fun wanted =>
    match source.find? wanted.name with
    | some found =>
      if wanted.isOptional || !found.isOptional then fits found.type wanted.type
      else return false
    | none => return wanted.isOptional

/-- Whether a function fits where another is expected: what the other is given
fits where this one expects it, and what this one gives back fits where the
other's result is expected. -/
def signatureFits (source target : Signature) : Answer Bool := do
  let isAlike := source.params.length = target.params.length || source.isVariadic ||
    target.isVariadic
  if isAlike then
    let count := max source.params.length target.params.length
    let paramsFit ← (List.range count).allM fun index =>
      match source.param? index, target.param? index with
      | some s, some t => fits t s
      | _, _ => return true
    if paramsFit then fits source.result target.result else return false
  else return false

end Rules

variable (table : Table)

/-- The rule of fitting, given the pairs of interfaces assumed to fit and how
the question is answered further down. -/
def fitsRule (fits : List (String × String) → Ty → Ty → Answer Bool)
    (assumed : List (String × String)) (source target : Ty) : Answer Bool :=
  if source = target ∨ source = .unknown ∨ target = .unknown then return true
  else
    match source, target with
    | .named s, .named t =>
      if (s, t) ∈ assumed then return true
      else fits ((s, t) :: assumed) (table.expand s) (table.expand t)
    | .named s, _ => fits assumed (table.expand s) target
    | _, .named t => fits assumed source (table.expand t)
    | .union members, _ => members.allM (fits assumed · target)
    | _, .union members => members.anyM (fits assumed source ·)
    | _, .intersection members => members.allM (fits assumed source ·)
    | .intersection members, _ => do
      if ← members.anyM (fits assumed · target) then return true
      match ← table.shapeOf? (fits []) source with
      | some shape => fits assumed (.object shape) target
      | none => return false
    | .object s, .object t => shapeFits (fits assumed) s t
    | .function s, .function t => signatureFits (fits assumed) s t
    | _, _ => return false

/-- Whether a type fits where another is expected, on the assumption that some
pairs of interfaces fit. -/
def fitsAssuming : (effort : Nat) → List (String × String) → Ty → Ty → Answer Bool
  | 0, _, _, _ => none
  | effort + 1, assumed, source, target =>
    table.fitsRule (fitsAssuming effort) assumed source target

variable (effort : Nat)

/-- Whether a value of one type may stand where another is expected. -/
def fits? (source target : Ty) : Answer Bool :=
  table.fitsAssuming effort [] source target

/-- The shape of a type, if it has one. -/
def shape? (type : Ty) : Answer (Option Shape) :=
  table.shapeOf? (table.fits? effort) type

/-! ## Questions about one type -/

mutual

/-- The type of a property, if there is one. A union has a property if each of
its members has it. -/
def property? (name : String) : Ty → Answer (Option Ty)
  | .unknown => some (some .unknown)
  | .union members => do
    return (← propertyOfEach? name members).map Ty.unionOf
  | other => do
    return (← table.shape? effort other).bind fun shape => (shape.find? name).map (·.type)

/-- The types of a property in several types, none if one of them lacks it. -/
def propertyOfEach? (name : String) : List Ty → Answer (Option (List Ty))
  | [] => some (some [])
  | type :: rest => do
    match ← property? name type with
    | none => return none
    | some first => return (← propertyOfEach? name rest).map (first :: ·)

end

/-! ## Contradictions in an intersection -/

/-- The types that two shapes give to one property if neither fits where the
other is expected. -/
def clashOfShapes? (first second : Shape) : Answer (Option (Ty × Ty)) :=
  first.findSomeM? fun property =>
    match second.find? property.name with
    | none => return none
    | some other => do
      if ← table.fits? effort property.type other.type then return none
      if ← table.fits? effort other.type property.type then return none
      return some (other.type, property.type)

/-- Why two types cannot hold at once: two different primitive types, or a
property on which their shapes disagree. -/
def clash? (first second : Ty) : Answer (Option (Ty × Ty)) :=
  match first, second with
  | .primitive a, .primitive b => return if a = b then none else some (first, second)
  | _, _ => do
    match ← table.shape? effort first, ← table.shape? effort second with
    | some a, some b => table.clashOfShapes? effort a b
    | _, _ => return none

/-- The first contradiction among the members of an intersection: the type
that is expected and the one that is found. -/
def conflict? : List Ty → Answer (Option (Ty × Ty))
  | [] => return none
  | first :: rest => do
    match ← rest.findSomeM? (table.clash? effort first) with
    | some conflict => return some conflict
    | none => conflict? rest

end Table

end TypedScript
