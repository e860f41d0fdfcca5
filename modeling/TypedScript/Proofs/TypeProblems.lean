import TypedScript.Types.Denotation

/-!
# Problems of written types

What is wrong with a written type or with the interfaces of a program is found by a few
questions. So whatever holds of a diagnostic about an unknown type or a declaration made
twice, and of one about an intersection that contradicts itself, holds of all that is said
about a type (`Table.Tells.problems`) and about the interfaces (`Program.interfaceProblems_told`).

The first use is that no such diagnostic is about the name of a variable (`OfTypes`).
-/

namespace TypedScript

/-- What holds of all that can be said about a written type. -/
structure Table.Tells (table : Table) (effort : Nat) (P : Diagnostic → Prop) : Prop where
  unknownType : ∀ name position, P ⟨.unknownType name, position⟩
  duplicateDeclaration : ∀ name position, P ⟨.duplicateDeclaration name, position⟩
  conflict : ∀ {types expected found} position,
    table.conflict? effort types = some (some (expected, found)) →
      P ⟨.mismatch expected found, position⟩

section Problems

variable {table : Table} {effort : Nat} {P : Diagnostic → Prop} (tells : table.Tells effort P)
include tells

/-! ## Names -/

variable {isDeclared : String → Bool}

set_option linter.unusedSectionVars false in
mutual

theorem TypeExpr.complaints_told :
    ∀ type : TypeExpr, ∀ d ∈ type.complaints isDeclared, P d
  | .named name position => by
    rw [TypeExpr.complaints]
    split
    · exact List.forall_mem_nil P
    · exact List.forall_mem_singleton.mpr (tells.unknownType name position)
  | .object members _ => complaintsOfMembers_told [] members
  | .function params result _ => List.forall_mem_append.mpr
      ⟨complaintsOfParams_told params, TypeExpr.complaints_told result⟩
  | .union members _ | .intersection members _ => complaintsOfEach_told members

theorem Member.complaints_told : ∀ member : Member, ∀ d ∈ member.complaints isDeclared, P d
  | ⟨_, type, _, _⟩ => TypeExpr.complaints_told type

theorem Parameter.complaints_told :
    ∀ param : Parameter, ∀ d ∈ param.complaints isDeclared, P d
  | ⟨_, none, _, _⟩ => List.forall_mem_nil P
  | ⟨_, some type, _, _⟩ => TypeExpr.complaints_told type

theorem complaintsOfEach_told :
    ∀ types : List TypeExpr, ∀ d ∈ complaintsOfEach isDeclared types, P d
  | [] => List.forall_mem_nil P
  | type :: rest => List.forall_mem_append.mpr
      ⟨TypeExpr.complaints_told type, complaintsOfEach_told rest⟩

theorem complaintsOfParams_told :
    ∀ params : List Parameter, ∀ d ∈ complaintsOfParams isDeclared params, P d
  | [] => List.forall_mem_nil P
  | param :: rest => List.forall_mem_append.mpr
      ⟨Parameter.complaints_told param, complaintsOfParams_told rest⟩

theorem complaintsOfMembers_told : ∀ (taken : List String) (members : List Member),
    ∀ d ∈ complaintsOfMembers isDeclared taken members, P d
  | _, [] => List.forall_mem_nil P
  | taken, member :: rest => by
    rw [complaintsOfMembers]
    split
    · exact List.forall_mem_cons.mpr
        ⟨tells.duplicateDeclaration _ _, complaintsOfMembers_told taken rest⟩
    · exact List.forall_mem_append.mpr
        ⟨Member.complaints_told member, complaintsOfMembers_told _ rest⟩

end

/-! ## Contradictions -/

omit tells in
/-- Two answers one after the other. -/
theorem Answer.forall_of_append {first second : Answer (List Diagnostic)}
    {found : List Diagnostic} (h : (do return (← first) ++ (← second)) = some found)
    (hfirst : ∀ found, first = some found → ∀ d ∈ found, P d)
    (hsecond : ∀ found, second = some found → ∀ d ∈ found, P d) : ∀ d ∈ found, P d := by
  obtain ⟨found₁, h₁, h⟩ := Option.bind_eq_some_iff.mp h
  obtain ⟨found₂, h₂, h⟩ := Option.bind_eq_some_iff.mp h
  cases h
  exact List.forall_mem_append.mpr ⟨hfirst _ h₁, hsecond _ h₂⟩

set_option linter.unusedSectionVars false in
mutual

theorem Table.conflicts?_told : ∀ (type : TypeExpr) {found : List Diagnostic},
    table.conflicts? effort type = some found → ∀ d ∈ found, P d
  | .named _ _, _, h => by cases h; exact List.forall_mem_nil P
  | .object members _, _, h => Table.conflictsOfMembers?_told members h
  | .function params result _, _, h => by
    rw [Table.conflicts?] at h
    exact Answer.forall_of_append h (fun _ => Table.conflictsOfParams?_told params)
      fun _ => Table.conflicts?_told result
  | .union members _, _, h => Table.conflictsOfEach?_told members h
  | .intersection members _, _, h => by
    rw [Table.conflicts?] at h
    obtain ⟨inner, hinner, h⟩ := Option.bind_eq_some_iff.mp h
    obtain ⟨conflict?, hconflict, h⟩ := Option.bind_eq_some_iff.mp h
    have hparts := Table.conflictsOfEach?_told members hinner
    cases conflict? with
    | none => cases h; exact hparts
    | some conflict =>
      cases h
      exact List.forall_mem_append.mpr
        ⟨hparts, List.forall_mem_singleton.mpr (tells.conflict _ hconflict)⟩

theorem Table.conflictsOfMember?_told : ∀ (member : Member) {found : List Diagnostic},
    table.conflictsOfMember? effort member = some found → ∀ d ∈ found, P d
  | ⟨_, type, _, _⟩, _, h => Table.conflicts?_told type h

theorem Table.conflictsOfParam?_told : ∀ (param : Parameter) {found : List Diagnostic},
    table.conflictsOfParam? effort param = some found → ∀ d ∈ found, P d
  | ⟨_, none, _, _⟩, _, h => by cases h; exact List.forall_mem_nil P
  | ⟨_, some type, _, _⟩, _, h => Table.conflicts?_told type h

theorem Table.conflictsOfEach?_told : ∀ (types : List TypeExpr) {found : List Diagnostic},
    table.conflictsOfEach? effort types = some found → ∀ d ∈ found, P d
  | [], _, h => by cases h; exact List.forall_mem_nil P
  | type :: rest, _, h => by
    rw [Table.conflictsOfEach?] at h
    exact Answer.forall_of_append h (fun _ => Table.conflicts?_told type)
      fun _ => Table.conflictsOfEach?_told rest

theorem Table.conflictsOfParams?_told :
    ∀ (params : List Parameter) {found : List Diagnostic},
      table.conflictsOfParams? effort params = some found → ∀ d ∈ found, P d
  | [], _, h => by cases h; exact List.forall_mem_nil P
  | param :: rest, _, h => by
    rw [Table.conflictsOfParams?] at h
    exact Answer.forall_of_append h (fun _ => Table.conflictsOfParam?_told param)
      fun _ => Table.conflictsOfParams?_told rest

theorem Table.conflictsOfMembers?_told :
    ∀ (members : List Member) {found : List Diagnostic},
      table.conflictsOfMembers? effort members = some found → ∀ d ∈ found, P d
  | [], _, h => by cases h; exact List.forall_mem_nil P
  | member :: rest, _, h => by
    rw [Table.conflictsOfMembers?] at h
    exact Answer.forall_of_append h (fun _ => Table.conflictsOfMember?_told member)
      fun _ => Table.conflictsOfMembers?_told rest

end

/-- What is wrong with a written type is as told. -/
theorem Table.Tells.problems {type : TypeExpr} {found : List Diagnostic}
    (h : table.problems? effort type = some found) : ∀ d ∈ found, P d := by
  obtain ⟨conflicts, hconflicts, h⟩ := Option.bind_eq_some_iff.mp h
  cases h
  exact List.forall_mem_append.mpr
    ⟨TypeExpr.complaints_told tells type, Table.conflicts?_told tells type hconflicts⟩

end Problems

/-! ## Interfaces -/

/-- What a row of answers gives comes from one of them. -/
theorem Answer.mem_of_mapM {α β : Type} {f : α → Answer β} {l : List α} {given : List β}
    (h : l.mapM f = some given) {b : β} (hb : b ∈ given) : ∃ a ∈ l, f a = some b := by
  induction l generalizing given with
  | nil =>
    cases h
    exact absurd hb List.not_mem_nil
  | cons a rest ih =>
    rw [List.mapM_cons] at h
    obtain ⟨first, hfirst, h⟩ := Option.bind_eq_some_iff.mp h
    obtain ⟨others, hothers, h⟩ := Option.bind_eq_some_iff.mp h
    cases h
    rcases List.mem_cons.mp hb with rfl | hb
    · exact ⟨a, List.mem_cons_self, hfirst⟩
    · obtain ⟨other, hother, hgives⟩ := ih hothers hb
      exact ⟨other, List.mem_cons_of_mem _ hother, hgives⟩

section Interfaces

variable {program : Program} {effort : Nat} {P : Diagnostic → Prop}
  (tells : program.table.Tells effort P)
include tells

theorem repeatedNames_told (taken : List String) (declarations : List Interface) :
    ∀ d ∈ repeatedNames taken declarations, P d := by
  induction declarations generalizing taken with
  | nil => exact List.forall_mem_nil P
  | cons declaration rest ih =>
    rw [repeatedNames]
    split
    · exact List.forall_mem_cons.mpr ⟨tells.duplicateDeclaration _ _, ih taken⟩
    · exact ih _

/-- What is wrong with the interfaces of a program is as told. -/
theorem Program.interfaceProblems_told {found : List Diagnostic}
    (h : program.interfaceProblems? effort = some found) : ∀ d ∈ found, P d := by
  obtain ⟨conflicts, hconflicts, h⟩ := Option.bind_eq_some_iff.mp h
  cases h
  refine List.forall_mem_append.mpr
    ⟨List.forall_mem_append.mpr ⟨repeatedNames_told tells _ _, ?_⟩, ?_⟩
  · intro d hd
    obtain ⟨declaration, -, hd⟩ := List.mem_flatMap.mp hd
    exact complaintsOfMembers_told tells [] declaration.members d hd
  · intro d hd
    obtain ⟨row, hrow, hd⟩ := List.mem_flatten.mp hd
    obtain ⟨declaration, -, hrow⟩ := Answer.mem_of_mapM hconflicts hrow
    exact Table.conflictsOfMembers?_told tells declaration.members hrow d hd

end Interfaces

/-! ## Names of variables -/

/-- Whether a name of a variable is not known. -/
def TypeCause.isUnknownName : TypeCause → Bool
  | .unknownName _ => true
  | _ => false

/-- No diagnostic is about the name of a variable. -/
def OfTypes (found : List Diagnostic) : Prop :=
  ∀ d ∈ found, d.cause.isUnknownName = false

namespace OfTypes

theorem nil : OfTypes [] := fun _ h => absurd h List.not_mem_nil

theorem cons {found : List Diagnostic} {d : Diagnostic} (hd : d.cause.isUnknownName = false)
    (h : OfTypes found) : OfTypes (d :: found) :=
  List.forall_mem_cons.mpr ⟨hd, h⟩

end OfTypes

/-- What is said about types concerns types and properties only. -/
theorem Table.tells_ofTypes (table : Table) (effort : Nat) :
    table.Tells effort fun d => d.cause.isUnknownName = false :=
  ⟨fun _ _ => rfl, fun _ _ => rfl, fun _ _ => rfl⟩

/-- What is wrong with a written type is about types. -/
theorem Table.problems?_ofTypes {table : Table} {effort : Nat} {type : TypeExpr}
    {found : List Diagnostic} (h : table.problems? effort type = some found) : OfTypes found :=
  (table.tells_ofTypes effort).problems h

/-- What is wrong with the interfaces of a program is about types. -/
theorem Program.interfaceProblems?_ofTypes {program : Program} {effort : Nat}
    {found : List Diagnostic} (h : program.interfaceProblems? effort = some found) :
    OfTypes found :=
  program.interfaceProblems_told (program.table.tells_ofTypes effort) h

end TypedScript
