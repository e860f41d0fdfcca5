import TypedScript.Store

/-!
# The text of a value

A text prints as itself, but with quotes inside an object. An object prints
its properties in their order. An object that is met again inside itself
prints as a mark instead, so printing ends on cycles; an object that is merely
met twice is printed twice.
-/

namespace TypedScript

/-- Text with its quotes escaped, between quotes. -/
def quoteText (s : String) : String :=
  "'" ++ String.ofList (s.toList.flatMap fun c => if c = '\'' then ['\\', c] else [c]) ++ "'"

/-- How a function is shown. -/
def functionText (name? : Option String) : String :=
  match name? with
  | some name => "[Function: " ++ name ++ "]"
  | none => "[Function (anonymous)]"

namespace Store

/-- The text of a value inside the given objects, the innermost first. As no
object is entered twice, there are at most as many levels as objects. -/
def nestedText (s : Store) : (levels : Nat) → (ancestors : List ObjectId) → Value → String
  | _, _, .number value => Number.text value
  | _, _, .text value => quoteText value
  | _, _, .boolean value => toString value
  | _, _, .undefined => "undefined"
  | _, _, .closure id => functionText ((s.closure? id).bind (·.name?))
  | _, _, .native function => functionText (some function.name)
  | 0, _, .object _ => "[Circular]"
  | levels + 1, ancestors, .object id =>
    if id ∈ ancestors then "[Circular]"
    else
      match (s.properties id).entries with
      | [] => "\x7b\x7d"
      | entries =>
        let parts := entries.map fun (name, value) =>
          name ++ ": " ++ s.nestedText levels (id :: ancestors) value
        "\x7b " ++ String.intercalate ", " parts ++ " \x7d"

/-- The text of a value, as a program prints it. -/
def textOf (s : Store) (v : Value) : String :=
  match v with
  | .text value => value
  | other => s.nestedText (s.objects.size + 1) [] other

end Store

end TypedScript
