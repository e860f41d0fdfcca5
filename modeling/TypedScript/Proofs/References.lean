import TypedScript.Tree

/-!
# The references of a program

Every mention of a variable in a program, in the order of the text. The references in a
declared function are counted where the row of statements is that declares it, since
that is where its body is checked.
-/

namespace TypedScript

mutual

/-- The references in an expression, each with its name and position. -/
def Expr.references : Expr → List (String × Position)
  | .literal _ _ | .receiver _ => []
  | .reference name position => [(name, position)]
  | .unary _ operand _ => operand.references
  | .binary left _ right _ => left.references ++ right.references
  | .assign target _ value _ => target.references ++ value.references
  | .update target _ _ _ => target.references
  | .call callee arguments _ => callee.references ++ referencesOfEach arguments
  | .member object _ _ => object.references
  | .object fields _ => referencesOfFields fields
  | .function definition => definition.references

/-- The references in some expressions. -/
def referencesOfEach : List Expr → List (String × Position)
  | [] => []
  | e :: rest => e.references ++ referencesOfEach rest

/-- The references in an expression that may be missing. -/
def referencesOfOption : Option Expr → List (String × Position)
  | none => []
  | some e => e.references

/-- The references in the value of a property. -/
def Field.references : Field → List (String × Position)
  | ⟨_, value, _⟩ => value.references

/-- The references in the values of properties. -/
def referencesOfFields : List Field → List (String × Position)
  | [] => []
  | field :: rest => field.references ++ referencesOfFields rest

/-- The references in the body of a function. -/
def Function.references : Function → List (String × Position)
  | ⟨_, _, _, body, _⟩ => body.references

/-- The references in a block. -/
def Block.references : Block → List (String × Position)
  | ⟨statements, _⟩ => referencesOfRow statements

/-- The references in a statement, other than those in a function that it declares. -/
def Stmt.references : Stmt → List (String × Position)
  | .variable _ _ value? _ => referencesOfOption value?
  | .function _ => []
  | .interface _ => []
  | .expression e _ => e.references
  | .giveBack value? _ => referencesOfOption value?
  | .branch condition body none _ => condition.references ++ body.references
  | .branch condition body (some otherwise) _ =>
    condition.references ++ (body.references ++ otherwise.references)
  | .block b => b.references
  | .loop none condition? update? body _ =>
    referencesOfOption condition? ++ (referencesOfOption update? ++ body.references)
  | .loop (some init) condition? update? body _ =>
    init.references ++
      (referencesOfOption condition? ++ (referencesOfOption update? ++ body.references))
  | .repeatWhile condition body _ => condition.references ++ body.references

/-- The references in statements one after the other, and in the functions that they
declare. -/
def referencesOfRow : List Stmt → List (String × Position)
  | [] => []
  | .function definition :: rest => definition.references ++ referencesOfRow rest
  | s :: rest => s.references ++ referencesOfRow rest

end

/-- All references of a program. -/
def Program.references (program : Program) : List (String × Position) :=
  referencesOfRow program.statements

theorem Block.references_eq (b : Block) : b.references = referencesOfRow b.statements := by
  obtain ⟨statements, position⟩ := b
  rw [Block.references]

theorem Function.references_eq (f : Function) :
    f.references = referencesOfRow f.body.statements := by
  obtain ⟨name?, params, result?, body, position⟩ := f
  rw [Function.references, Block.references_eq]

/-! ## Declared functions and methods -/

/-- The functions declared in a list of statements. -/
def hoistedFunctions : List Stmt → List Function
  | [] => []
  | .function f :: rest => f :: hoistedFunctions rest
  | _ :: rest => hoistedFunctions rest

theorem mem_hoistedFunctions {f : Function} {l : List Stmt} :
    f ∈ hoistedFunctions l ↔ Stmt.function f ∈ l := by
  induction l with
  | nil => simp [hoistedFunctions]
  | cons s rest ih => cases s <;> simp [hoistedFunctions, ih]

/-- The functions among the properties of an object literal. -/
def methodsOf : List Field → List Function
  | [] => []
  | ⟨_, .function f, _⟩ :: rest => f :: methodsOf rest
  | _ :: rest => methodsOf rest

theorem mem_methodsOf {f : Function} {fields : List Field} :
    f ∈ methodsOf fields ↔ ∃ field ∈ fields, field.value = .function f := by
  induction fields with
  | nil => simp [methodsOf]
  | cons field rest ih =>
    obtain ⟨name, value, position⟩ := field
    cases value <;> simp [methodsOf, ih, eq_comm]

/-- The references in the properties of an object literal, other than those in its
methods. -/
def referencesOfValues : List Field → List (String × Position)
  | [] => []
  | ⟨_, .function _, _⟩ :: rest => referencesOfValues rest
  | field :: rest => field.references ++ referencesOfValues rest

end TypedScript
