import TypedScript.Proofs.SameShapes
import TypedScript.Execution

/-!
# Declarations of interfaces in another order

The names of all interfaces are known before the first shape is made, and all shapes
before the first question about types is asked. So if no name is declared twice, nothing
depends on where among the statements of a program its interfaces are declared, but for
the order in which their own problems are told (`Program.agree_of_rearranges`).

A table is told apart by its shapes only, so the rearranged programs ask the same
questions with the same answers; and neither a check nor a run does anything where an
interface is declared.
-/

namespace TypedScript

/-- Whether a statement declares an interface. -/
def Stmt.isInterface : Stmt → Bool
  | .interface _ => true
  | _ => false

/-- The statements of a row that do not declare an interface. -/
def otherStatements (l : List Stmt) : List Stmt :=
  l.filter fun s => !s.isInterface

/-- A program that comes from another one by moving declarations of interfaces to other
places among its statements. -/
structure Program.Rearranges (program moved : Program) : Prop where
  interfaces : (interfacesOf program.statements).Perm (interfacesOf moved.statements)
  others : otherStatements moved.statements = otherStatements program.statements

theorem length_eq_interfaces_add_others (l : List Stmt) :
    l.length = (interfacesOf l).length + (otherStatements l).length := by
  induction l with
  | nil => rfl
  | cons s rest ih =>
    cases s <;> simp [interfacesOf, otherStatements, Stmt.isInterface] at ih ⊢ <;> omega

theorem Program.Rearranges.length_eq {program moved : Program} (h : program.Rearranges moved) :
    moved.statements.length = program.statements.length := by
  rw [length_eq_interfaces_add_others, length_eq_interfaces_add_others program.statements,
    h.others, h.interfaces.length_eq]

/-! ## Names that are declared once -/

theorem firstOfEachName_eq {taken : List String} {declarations : List Interface}
    (hnames : (declarations.map (·.name)).Nodup)
    (htaken : ∀ declaration ∈ declarations, declaration.name ∉ taken) :
    firstOfEachName taken declarations = declarations ∧
      repeatedNames taken declarations = [] := by
  induction declarations generalizing taken with
  | nil => exact ⟨rfl, rfl⟩
  | cons declaration rest ih =>
    rw [List.map_cons, List.nodup_cons] at hnames
    rw [List.forall_mem_cons] at htaken
    have hrest : ∀ other ∈ rest, other.name ∉ declaration.name :: taken := by
      intro other hother hmem
      rcases List.mem_cons.mp hmem with heq | hmem
      · exact hnames.1 (heq ▸ List.mem_map_of_mem hother)
      · exact htaken.2 other hother hmem
    obtain ⟨hfirst, hrepeated⟩ := ih hnames.2 hrest
    rw [firstOfEachName, repeatedNames, if_neg htaken.1, if_neg htaken.1, hfirst, hrepeated]
    exact ⟨rfl, rfl⟩

/-- What is found in a record is what was written under the name, if each name was
written once. -/
theorem Record.get?_ofList_eq_some_iff {α : Type} {entries : List (String × α)}
    (hnames : (entries.map (·.1)).Nodup) {name : String} {value : α} :
    (ofList entries).get? name = some value ↔ (name, value) ∈ entries := by
  suffices hfold : ∀ r : Record α,
      (entries.foldl (fun r entry => r.set entry.1 entry.2) r).get? name = some value ↔
        (name, value) ∈ entries ∨ name ∉ entries.map (·.1) ∧ r.get? name = some value by
    rw [show ofList entries = entries.foldl (fun r entry => r.set entry.1 entry.2) .empty from rfl,
      hfold, get?_empty]
    simp
  induction entries with
  | nil => intro r; simp
  | cons entry rest ih =>
    intro r
    obtain ⟨key, old⟩ := entry
    rw [List.map_cons, List.nodup_cons] at hnames
    rw [List.foldl_cons, ih hnames.2, get?_set]
    -- A later entry of the same name would take the place of this one.
    by_cases hname : name = key
    · subst hname
      have hrest : (name, value) ∉ rest := fun h => hnames.1 (List.mem_map.mpr ⟨_, h, rfl⟩)
      simp [hrest, hnames.1, eq_comm]
    · simp [hname]

theorem Record.get?_ofList_perm {α : Type} {entries entries' : List (String × α)}
    (hperm : entries.Perm entries') (hnames : (entries.map (·.1)).Nodup) (name : String) :
    (ofList entries').get? name = (ofList entries).get? name := by
  have hnames' : (entries'.map (·.1)).Nodup := (hperm.map _).nodup_iff.mp hnames
  refine Option.ext fun value => ?_
  rw [get?_ofList_eq_some_iff hnames', get?_ofList_eq_some_iff hnames, hperm.mem_iff]

/-! ## The same in another order -/

namespace Answer

variable {α β : Type}

theorem Rel.trans {a b c : Answer (List β)} (hab : Option.Rel List.Perm a b)
    (hbc : Option.Rel List.Perm b c) : Option.Rel List.Perm a c := by
  cases hab with
  | none => exact hbc
  | some hab =>
    cases hbc with
    | some hbc => exact .some (hab.trans hbc)

/-- Answers to the same questions in another order. -/
theorem mapM_perm (f : α → Answer β) {l l' : List α} (h : l.Perm l') :
    Option.Rel List.Perm (l.mapM f) (l'.mapM f) := by
  induction h with
  | nil => exact .some .nil
  | cons a _ ih =>
    rw [List.mapM_cons, List.mapM_cons]
    cases f a with
    | none => exact .none
    | some b =>
      revert ih
      generalize List.mapM f _ = first
      generalize List.mapM f _ = second
      intro ih
      cases ih with
      | none => exact .none
      | some hperm => exact .some (hperm.cons b)
  | swap a b l =>
    rw [List.mapM_cons, List.mapM_cons, List.mapM_cons, List.mapM_cons]
    cases f a <;> cases f b <;> cases List.mapM f l
    case some.some.some first second others => exact .some (.swap first second others)
    all_goals exact .none
  | trans _ _ ih ih' => exact Rel.trans ih ih'

theorem rel_flatten {a b : Answer (List (List β))} (h : Option.Rel List.Perm a b)
    {l l' : List β} (hl : l.Perm l') :
    Option.Rel List.Perm (do return l ++ (← a).flatten : Answer (List β))
      (do return l' ++ (← b).flatten) := by
  cases h with
  | none => exact .none
  | some hperm => exact .some (hl.append hperm.flatten)

end Answer

namespace Program

variable {program moved : Program}

section Interfaces

variable (h : program.Rearranges moved)
  (hnames : ((interfacesOf program.statements).map (·.name)).Nodup)
include h hnames

theorem Rearranges.nodup_names : ((interfacesOf moved.statements).map (·.name)).Nodup :=
  (h.interfaces.map _).nodup_iff.mp hnames

theorem Rearranges.interfaces_perm : program.interfaces.Perm moved.interfaces := by
  unfold Program.interfaces
  rw [(firstOfEachName_eq hnames fun _ _ => List.not_mem_nil).1,
    (firstOfEachName_eq (h.nodup_names hnames) fun _ _ => List.not_mem_nil).1]
  exact h.interfaces

/-- The names are known before the first shape is made. -/
theorem Rearranges.sameShapes : program.table.SameShapes moved.table := by
  intro name
  have hperm := h.interfaces_perm hnames
  have hdeclared : (fun name => decide (name ∈ moved.interfaces.map (·.name))) =
      fun name => decide (name ∈ program.interfaces.map (·.name)) := by
    funext name
    exact decide_eq_decide.mpr (hperm.map _).mem_iff.symm
  unfold Table.interface? Program.table
  dsimp only
  rw [hdeclared]
  refine Record.get?_ofList_perm (hperm.map _) ?_ name
  rw [List.map_map]
  unfold Program.interfaces
  rw [(firstOfEachName_eq hnames fun _ _ => List.not_mem_nil).1]
  exact hnames

theorem Rearranges.interfaceProblems?_perm (effort : Nat) :
    Option.Rel List.Perm (program.interfaceProblems? effort)
      (moved.interfaceProblems? effort) := by
  have hshapes := h.sameShapes hnames
  have hperm := h.interfaces_perm hnames
  have hconflicts := Answer.mapM_perm (fun declaration : Interface =>
    program.table.conflictsOfMembers? effort declaration.members) hperm
  unfold interfaceProblems?
  dsimp only
  rw [(firstOfEachName_eq hnames fun _ _ => List.not_mem_nil).2,
    (firstOfEachName_eq (h.nodup_names hnames) fun _ _ => List.not_mem_nil).2]
  simp only [hshapes.declares, hshapes.conflictsOfMembers?]
  exact Answer.rel_flatten hconflicts (hperm.flatMap_right _)

end Interfaces

end Program

/-! ## Rows without the declarations of interfaces -/

/-- A declaration of an interface declares no function and is checked to no effect. -/
theorem hoist_others (go : Checker) (l : List Stmt) :
    go.hoist (otherStatements l) = go.hoist l := by
  induction l with
  | nil => rfl
  | cons s rest ih =>
    cases s with
    | interface declaration => exact ih
    | function f =>
      show go.hoist (.function f :: otherStatements rest) = _
      rw [Checker.hoist, Checker.hoist, ih]
    | _ => exact ih

theorem checkEach_others (table : Table) (effort fuel : Nat) (l : List Stmt) :
    (checker table effort (fuel + 1)).checkEach (otherStatements l) =
      (checker table effort (fuel + 1)).checkEach l := by
  induction l with
  | nil => rfl
  | cons s rest ih =>
    have hcons : (checker table effort (fuel + 1)).checkEach (s :: otherStatements rest) =
        (checker table effort (fuel + 1)).checkEach (s :: rest) := by
      rw [Checker.checkEach, Checker.checkEach, ih]
    cases s with
    | interface declaration => exact ih
    | _ => exact hcons

/-- Without fuel the check of a row ends at its first statement. -/
theorem checkEach_zero (table : Table) (effort : Nat) {l l' : List Stmt}
    (hlength : l'.length = l.length) :
    (checker table effort 0).checkEach l' = (checker table effort 0).checkEach l := by
  cases l with
  | nil => rw [List.length_eq_zero_iff.mp hlength]
  | cons s rest =>
    cases l' with
    | nil => cases hlength
    | cons s' rest' => rfl

/-- Rows of the same length with the same other statements are checked alike. -/
theorem Block.checkAll_eq_of_others {l l' : List Stmt} (hlength : l'.length = l.length)
    (hothers : otherStatements l' = otherStatements l) (table : Table) (effort fuel : Nat) :
    Block.checkAll table effort fuel l' = Block.checkAll table effort fuel l := by
  cases fuel with
  | zero => rfl
  | succ fuel =>
    show (checker table effort fuel).rowRule l' = (checker table effort fuel).rowRule l
    have heach : (checker table effort fuel).checkEach l' =
        (checker table effort fuel).checkEach l := by
      cases fuel with
      | zero => exact checkEach_zero table effort hlength
      | succ fuel => rw [← checkEach_others, hothers, checkEach_others]
    unfold Checker.rowRule
    rw [heach, ← hoist_others _ l', hothers, hoist_others]

/-- A run does nothing at a declaration of an interface. -/
theorem Evaluator.hoist_others (l : List Stmt) :
    Evaluator.hoist (otherStatements l) = Evaluator.hoist l := by
  induction l with
  | nil => rfl
  | cons s rest ih =>
    cases s with
    | interface declaration => exact ih
    | function f =>
      show Evaluator.hoist (.function f :: otherStatements rest) = _
      rw [Evaluator.hoist, Evaluator.hoist, ih]
    | _ => exact ih

theorem execEach_others (limit fuel : Nat) (l : List Stmt) :
    (evaluator limit (fuel + 1)).execEach (otherStatements l) =
      (evaluator limit (fuel + 1)).execEach l := by
  induction l with
  | nil => rfl
  | cons s rest ih =>
    have hcons : (evaluator limit (fuel + 1)).execEach (s :: otherStatements rest) =
        (evaluator limit (fuel + 1)).execEach (s :: rest) := by
      rw [Evaluator.execEach, Evaluator.execEach, ih]
    cases s with
    | interface declaration => exact ih
    | _ => exact hcons

theorem execEach_zero (limit : Nat) {l l' : List Stmt} (hlength : l'.length = l.length) :
    (evaluator limit 0).execEach l' = (evaluator limit 0).execEach l := by
  cases l with
  | nil => rw [List.length_eq_zero_iff.mp hlength]
  | cons s rest =>
    cases l' with
    | nil => cases hlength
    | cons s' rest' => rfl

namespace Program

variable {program moved : Program}

theorem Rearranges.run_eq (h : program.Rearranges moved) (limit fuel : Nat) :
    moved.run limit fuel = program.run limit fuel := by
  have heach : (evaluator limit fuel).execEach moved.statements =
      (evaluator limit fuel).execEach program.statements := by
    cases fuel with
    | zero => exact execEach_zero limit h.length_eq
    | succ fuel => rw [← execEach_others, h.others, execEach_others]
  unfold Program.run Program.exec Evaluator.execStatements
  rw [heach, ← Evaluator.hoist_others, h.others, Evaluator.hoist_others]

/-- What a check of a program adds to the problems of its interfaces. -/
theorem checkBy_of_interfaceProblems? {effort : Nat} {problems : List Diagnostic}
    (hproblems : program.interfaceProblems? effort = some problems) (statements : Check Unit) :
    program.checkBy effort statements =
      match Check.inScope statements Knowledge.initial with
      | .ok _ k => .ok (problems ++ k.diagnostics)
      | .error unfinished _ => .error unfinished := by
  cases hwhole : Check.inScope statements Knowledge.initial with
  | ok u k => simp only [checkBy, hproblems, hwhole]
  | error unfinished k => simp only [checkBy, hproblems, hwhole]

/-- Where the interfaces of a program are declared does not matter: the shapes are the
same, the problems of the interfaces are the same ones, a check adds the same to them or
stops in the same way, and a run does the same. -/
theorem agree_of_rearranges (h : program.Rearranges moved)
    (hnames : ((interfacesOf program.statements).map (·.name)).Nodup) :
    (∀ name, moved.table.interface? name = program.table.interface? name) ∧
      (∀ effort, Option.Rel List.Perm (program.interfaceProblems? effort)
        (moved.interfaceProblems? effort)) ∧
      (∀ effort fuel,
        (∃ unfinished, program.check effort fuel = .error unfinished ∧
          moved.check effort fuel = .error unfinished) ∨
        ∃ problems problems' added,
          program.interfaceProblems? effort = some problems ∧
          moved.interfaceProblems? effort = some problems' ∧
          program.check effort fuel = .ok (problems ++ added) ∧
          moved.check effort fuel = .ok (problems' ++ added)) ∧
      ∀ limit fuel, moved.run limit fuel = program.run limit fuel := by
  have hshapes := h.sameShapes hnames
  have hperm := h.interfaceProblems?_perm hnames
  refine ⟨hshapes, hperm, fun effort fuel => ?_, h.run_eq⟩
  have hsame : Block.checkAll moved.table effort fuel moved.statements =
      Block.checkAll program.table effort fuel program.statements :=
    (Block.checkAll_eq_of_others h.length_eq h.others _ _ _).trans
      (Block.checkAll_eq_of_sameShapes hshapes effort fuel program.statements)
  have hrel := hperm effort
  -- The problems of the interfaces are answered for both or for neither.
  rw [check_eq, check_eq, hsame]
  cases hproblems : program.interfaceProblems? effort <;>
    cases hmoved : moved.interfaceProblems? effort <;> rw [hproblems, hmoved] at hrel
  case none.some => cases hrel
  case some.none => cases hrel
  case none.none =>
    unfold checkBy
    rw [hproblems, hmoved]
    exact .inl ⟨.question, rfl, rfl⟩
  case some.some problems problems' =>
    rw [checkBy_of_interfaceProblems? hproblems, checkBy_of_interfaceProblems? hmoved]
    cases Check.inScope (Block.checkAll program.table effort fuel program.statements)
      Knowledge.initial with
    | error unfinished k => exact .inl ⟨unfinished, rfl, rfl⟩
    | ok u k => exact .inr ⟨problems, problems', k.diagnostics, rfl, rfl, rfl, rfl⟩

/-- Two interfaces that refer to each other and one that contradicts the second, the last
one declared behind a statement that needs it. -/
def linked : Program where
  statements :=
    [.interface ⟨"A", [⟨"next", .named "B" ⟨1, 15⟩, false, ⟨1, 15⟩⟩], ⟨1, 1⟩⟩,
      .variable "c" (some (.named "C" ⟨2, 8⟩)) (some (.literal (.boolean true) ⟨2, 12⟩)) ⟨2, 1⟩,
      .interface ⟨"B", [⟨"next", .named "A" ⟨3, 15⟩, false, ⟨3, 15⟩⟩,
        ⟨"size", .named "number" ⟨3, 24⟩, false, ⟨3, 24⟩⟩], ⟨3, 1⟩⟩,
      .interface ⟨"C", [⟨"both", .intersection [.named "B" ⟨4, 20⟩,
        .object [⟨"size", .named "string" ⟨4, 30⟩, false, ⟨4, 30⟩⟩] ⟨4, 25⟩] ⟨4, 20⟩,
        false, ⟨4, 15⟩⟩], ⟨4, 1⟩⟩]

/-- The same with its interfaces in the opposite order, in front of the statement. -/
def linkedAgain : Program where
  statements := [linked.statements[3], linked.statements[2], linked.statements[0],
    linked.statements[1]]

theorem agree_of_rearranges_linked : linked.Rearranges linkedAgain ∧
    ((interfacesOf linked.statements).map (·.name)).Nodup ∧
    (∀ name, linkedAgain.table.interface? name = linked.table.interface? name) ∧
    (∀ effort, Option.Rel List.Perm (linked.interfaceProblems? effort)
      (linkedAgain.interfaceProblems? effort)) ∧
    ∀ limit fuel, linkedAgain.run limit fuel = linked.run limit fuel := by
  have hmoves : linked.Rearranges linkedAgain := by
    refine ⟨?_, rfl⟩
    exact (List.reverse_perm (interfacesOf linked.statements)).symm
  have hnames : ((interfacesOf linked.statements).map (·.name)).Nodup := by decide
  obtain ⟨htable, hproblems, -, hrun⟩ := agree_of_rearranges hmoves hnames
  exact ⟨hmoves, hnames, htable, hproblems, hrun⟩

end Program

end TypedScript
