import TypedScript.Tree
import TypedScript.Types.Diagnostic
import TypedScript.Types.Table

/-!
# What the types in a program denote

A written type denotes a `Ty`; which names denote interfaces depends on the
declarations of the program. Every written type denotes something: a name that
is not declared denotes `unknown`, and a member whose name is taken is left
out. What is wrong with a written type is said apart, by `complaints` for its
names and by `conflicts?` for intersections that contradict themselves. The
latter has to know all shapes, so the table of interfaces is complete before
the first such question is asked.
-/

namespace TypedScript

/-- The types whose names are not declared but given. -/
def Ty.ofName? : String → Option Ty
  | "string" => some .text
  | "number" => some .number
  | "boolean" => some .boolean
  | "void" => some .void
  | "undefined" => some .void
  | "null" => some .void
  | "any" => some .unknown
  | "unknown" => some .unknown
  | _ => none

/-! ## Denotations -/

section Denotations

variable (isDeclared : String → Bool)

mutual

/-- The type that a written type denotes. -/
def TypeExpr.denote : TypeExpr → Ty
  | .named name _ =>
    match Ty.ofName? name with
    | some type => type
    | none => if isDeclared name then .named name else .unknown
  | .object members _ => .object (denoteMembers [] members)
  | .function params result _ =>
    .function ⟨denoteParams params, requiredCount params, false, result.denote⟩
  | .union members _ => .unionOf (denoteEach members)
  | .intersection members _ => .intersectionOf (denoteEach members)

/-- The type of a member. -/
def Member.denote : Member → Ty
  | ⟨_, type, _, _⟩ => type.denote

/-- The type of a parameter, `unknown` if none is written. -/
def Parameter.denote : Parameter → Ty
  | ⟨_, none, _, _⟩ => .unknown
  | ⟨_, some type, _, _⟩ => type.denote

/-- The types that some written types denote. -/
def denoteEach : List TypeExpr → List Ty
  | [] => []
  | type :: rest => type.denote :: denoteEach rest

/-- The types of some parameters. -/
def denoteParams : List Parameter → List Ty
  | [] => []
  | param :: rest => param.denote :: denoteParams rest

/-- The shape that some members make up, given the names already taken. -/
def denoteMembers (taken : List String) : List Member → Shape
  | [] => []
  | member :: rest =>
    if member.name ∈ taken then denoteMembers taken rest
    else
      ⟨member.name, member.denote, member.isOptional⟩ ::
        denoteMembers (member.name :: taken) rest

end

mutual

/-- What is wrong with the names in a written type. -/
def TypeExpr.complaints : TypeExpr → List Diagnostic
  | .named name position =>
    if (Ty.ofName? name).isSome || isDeclared name then []
    else [⟨.unknownType name, position⟩]
  | .object members _ => complaintsOfMembers [] members
  | .function params result _ => complaintsOfParams params ++ result.complaints
  | .union members _ => complaintsOfEach members
  | .intersection members _ => complaintsOfEach members

/-- What is wrong with the names in the type of a member. -/
def Member.complaints : Member → List Diagnostic
  | ⟨_, type, _, _⟩ => type.complaints

/-- What is wrong with the names in the type of a parameter. -/
def Parameter.complaints : Parameter → List Diagnostic
  | ⟨_, none, _, _⟩ => []
  | ⟨_, some type, _, _⟩ => type.complaints

/-- What is wrong with the names in some written types. -/
def complaintsOfEach : List TypeExpr → List Diagnostic
  | [] => []
  | type :: rest => type.complaints ++ complaintsOfEach rest

/-- What is wrong with the names in the types of some parameters. -/
def complaintsOfParams : List Parameter → List Diagnostic
  | [] => []
  | param :: rest => param.complaints ++ complaintsOfParams rest

/-- What is wrong with the names of some members and in their types, given the
names already taken. A member that is left out is not looked into. -/
def complaintsOfMembers (taken : List String) : List Member → List Diagnostic
  | [] => []
  | member :: rest =>
    if member.name ∈ taken then
      ⟨.duplicateDeclaration member.name, member.position⟩ :: complaintsOfMembers taken rest
    else member.complaints ++ complaintsOfMembers (member.name :: taken) rest

end

end Denotations

/-! ## Intersections that contradict themselves -/

namespace Table

/-- The type that a written type denotes. -/
def denote (table : Table) (type : TypeExpr) : Ty :=
  type.denote table.declares

section Conflicts

variable (table : Table) (effort : Nat)

mutual

/-- The intersections in a written type that contradict themselves, the inner
ones first. -/
def conflicts? : TypeExpr → Answer (List Diagnostic)
  | .named _ _ => some []
  | .object members _ => conflictsOfMembers? members
  | .function params result _ => do
    return (← conflictsOfParams? params) ++ (← conflicts? result)
  | .union members _ => conflictsOfEach? members
  | .intersection members position => do
    let inner ← conflictsOfEach? members
    match ← table.conflict? effort (denoteEach table.declares members) with
    | some (expected, found) => return inner ++ [⟨.mismatch expected found, position⟩]
    | none => return inner

/-- The contradictions in the type of a member. -/
def conflictsOfMember? : Member → Answer (List Diagnostic)
  | ⟨_, type, _, _⟩ => conflicts? type

/-- The contradictions in the type of a parameter. -/
def conflictsOfParam? : Parameter → Answer (List Diagnostic)
  | ⟨_, none, _, _⟩ => some []
  | ⟨_, some type, _, _⟩ => conflicts? type

/-- The contradictions in some written types. -/
def conflictsOfEach? : List TypeExpr → Answer (List Diagnostic)
  | [] => some []
  | type :: rest => do return (← conflicts? type) ++ (← conflictsOfEach? rest)

/-- The contradictions in the types of some parameters. -/
def conflictsOfParams? : List Parameter → Answer (List Diagnostic)
  | [] => some []
  | param :: rest => do return (← conflictsOfParam? param) ++ (← conflictsOfParams? rest)

/-- The contradictions in the types of some members. -/
def conflictsOfMembers? : List Member → Answer (List Diagnostic)
  | [] => some []
  | member :: rest => do return (← conflictsOfMember? member) ++ (← conflictsOfMembers? rest)

end

/-- All that is wrong with a written type. -/
def problems? (type : TypeExpr) : Answer (List Diagnostic) := do
  return type.complaints table.declares ++ (← table.conflicts? effort type)

end Conflicts

end Table

/-! ## The interfaces of a program -/

/-- The declarations of interfaces in a list of statements. -/
def interfacesOf : List Stmt → List Interface
  | [] => []
  | .interface declaration :: rest => declaration :: interfacesOf rest
  | _ :: rest => interfacesOf rest

/-- The declarations whose names are not taken by an earlier one. -/
def firstOfEachName (taken : List String) : List Interface → List Interface
  | [] => []
  | declaration :: rest =>
    if declaration.name ∈ taken then firstOfEachName taken rest
    else declaration :: firstOfEachName (declaration.name :: taken) rest

/-- The declarations whose names are taken by an earlier one. -/
def repeatedNames (taken : List String) : List Interface → List Diagnostic
  | [] => []
  | declaration :: rest =>
    if declaration.name ∈ taken then
      ⟨.duplicateDeclaration declaration.name, declaration.position⟩ ::
        repeatedNames taken rest
    else repeatedNames (declaration.name :: taken) rest

namespace Program

/-- The interfaces that a program declares: of several declarations of one
name the first one counts. -/
def interfaces (program : Program) : List Interface :=
  firstOfEachName [] (interfacesOf program.statements)

/-- The shapes of the interfaces that a program declares. They may refer to
each other in any order, as all names are known first. -/
def table (program : Program) : Table :=
  let names := program.interfaces.map (·.name)
  ⟨.ofList <| program.interfaces.map fun declaration =>
    (declaration.name, denoteMembers (fun name => name ∈ names) [] declaration.members)⟩

/-- What is wrong with the interfaces of a program: first the names declared
again, then the names in their members, then the contradictions. -/
def interfaceProblems? (effort : Nat) (program : Program) : Answer (List Diagnostic) := do
  let table := program.table
  let complaints := program.interfaces.flatMap fun declaration =>
    complaintsOfMembers table.declares [] declaration.members
  let conflicts ← program.interfaces.mapM fun declaration =>
    table.conflictsOfMembers? effort declaration.members
  return repeatedNames [] (interfacesOf program.statements) ++ complaints ++ conflicts.flatten

end Program

end TypedScript
