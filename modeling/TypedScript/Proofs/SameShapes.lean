import TypedScript.Proofs.SideBySide

/-!
# Tables with the same shapes

A table is asked for the shape under a name, and for nothing else: in which order its
interfaces are listed does not matter. So tables with the same shapes give the same
answers to all questions about types, and two checkers that differ in nothing but such
tables do the same.
-/

namespace TypedScript

/-- Two tables that have the same shape under each name. -/
def Table.SameShapes (table table' : Table) : Prop :=
  ∀ name, table'.interface? name = table.interface? name

namespace Table.SameShapes

variable {table table' : Table} (h : table.SameShapes table')
include h

theorem declares : table'.declares = table.declares := by
  funext name
  exact congrArg Option.isSome (h name)

theorem expand : table'.expand = table.expand := by
  funext name
  unfold Table.expand
  rw [h name]

/-! ## Questions -/

set_option linter.unusedSectionVars false in
mutual

theorem shapeOf? (fits : Ty → Ty → Answer Bool) :
    ∀ type : Ty, table'.shapeOf? fits type = table.shapeOf? fits type
  | .named name => congrArg some (h name)
  | .intersection members => by
    rw [Table.shapeOf?, Table.shapeOf?, shapesOf fits members]
  | .primitive _ | .object _ | .function _ | .union _ | .unknown => rfl

theorem shapesOf (fits : Ty → Ty → Answer Bool) :
    ∀ types : List Ty, table'.shapesOf fits types = table.shapesOf fits types
  | [] => rfl
  | type :: rest => by
    rw [Table.shapesOf, Table.shapesOf, shapeOf? fits type, shapesOf fits rest]

end

theorem fitsAssuming (effort : Nat) : table'.fitsAssuming effort = table.fitsAssuming effort := by
  induction effort with
  | zero => rfl
  | succ effort ih =>
    funext assumed source target
    show table'.fitsRule (table'.fitsAssuming effort) assumed source target =
      table.fitsRule (table.fitsAssuming effort) assumed source target
    unfold Table.fitsRule
    rw [ih, h.expand]
    simp only [shapeOf? h]

theorem fits? (effort : Nat) : table'.fits? effort = table.fits? effort := by
  funext source target
  exact congrFun (congrFun (congrFun (h.fitsAssuming effort) []) source) target

theorem shape? (effort : Nat) : table'.shape? effort = table.shape? effort := by
  funext type
  unfold Table.shape?
  rw [h.fits?, shapeOf? h]

set_option linter.unusedSectionVars false in
mutual

theorem property? (effort : Nat) (name : String) :
    ∀ type : Ty, table'.property? effort name type = table.property? effort name type
  | .unknown => rfl
  | .union members => by
    rw [Table.property?, Table.property?, propertyOfEach? effort name members]
  | .primitive _ | .named _ | .object _ | .function _ | .intersection _ => by
    simp only [Table.property?, h.shape?]

theorem propertyOfEach? (effort : Nat) (name : String) :
    ∀ types : List Ty,
      table'.propertyOfEach? effort name types = table.propertyOfEach? effort name types
  | [] => rfl
  | type :: rest => by
    rw [Table.propertyOfEach?, Table.propertyOfEach?, property? effort name type,
      propertyOfEach? effort name rest]

end

theorem clash? (effort : Nat) : table'.clash? effort = table.clash? effort := by
  funext first second
  unfold Table.clash? Table.clashOfShapes?
  rw [h.shape?, h.fits?]

theorem conflict? (effort : Nat) (types : List Ty) :
    table'.conflict? effort types = table.conflict? effort types := by
  induction types with
  | nil => rfl
  | cons first rest ih => rw [Table.conflict?, Table.conflict?, h.clash?, ih]

/-! ## Written types -/

theorem denote : table'.denote = table.denote := by
  funext type
  unfold Table.denote
  rw [h.declares]

set_option linter.unusedSectionVars false in
mutual

theorem conflicts? (effort : Nat) :
    ∀ type : TypeExpr, table'.conflicts? effort type = table.conflicts? effort type
  | .named _ _ => rfl
  | .object members _ => by
    rw [Table.conflicts?, Table.conflicts?, conflictsOfMembers? effort members]
  | .function params result _ => by
    rw [Table.conflicts?, Table.conflicts?, conflictsOfParams? effort params,
      conflicts? effort result]
  | .union members _ => by
    rw [Table.conflicts?, Table.conflicts?, conflictsOfEach? effort members]
  | .intersection members _ => by
    rw [Table.conflicts?, Table.conflicts?, conflictsOfEach? effort members, h.declares,
      h.conflict?]

theorem conflictsOfMember? (effort : Nat) : ∀ member : Member,
    table'.conflictsOfMember? effort member = table.conflictsOfMember? effort member
  | ⟨_, type, _, _⟩ => conflicts? effort type

theorem conflictsOfParam? (effort : Nat) : ∀ param : Parameter,
    table'.conflictsOfParam? effort param = table.conflictsOfParam? effort param
  | ⟨_, none, _, _⟩ => rfl
  | ⟨_, some type, _, _⟩ => conflicts? effort type

theorem conflictsOfEach? (effort : Nat) : ∀ types : List TypeExpr,
    table'.conflictsOfEach? effort types = table.conflictsOfEach? effort types
  | [] => rfl
  | type :: rest => by
    rw [Table.conflictsOfEach?, Table.conflictsOfEach?, conflicts? effort type,
      conflictsOfEach? effort rest]

theorem conflictsOfParams? (effort : Nat) : ∀ params : List Parameter,
    table'.conflictsOfParams? effort params = table.conflictsOfParams? effort params
  | [] => rfl
  | param :: rest => by
    rw [Table.conflictsOfParams?, Table.conflictsOfParams?, conflictsOfParam? effort param,
      conflictsOfParams? effort rest]

theorem conflictsOfMembers? (effort : Nat) : ∀ members : List Member,
    table'.conflictsOfMembers? effort members = table.conflictsOfMembers? effort members
  | [] => rfl
  | member :: rest => by
    rw [Table.conflictsOfMembers?, Table.conflictsOfMembers?, conflictsOfMember? effort member,
      conflictsOfMembers? effort rest]

end

theorem problems? (effort : Nat) : table'.problems? effort = table.problems? effort := by
  funext type
  unfold Table.problems?
  rw [h.declares, conflicts? h]

end Table.SameShapes

/-! ## Checks with the same shapes -/

/-- The comparison of checks that do exactly the same. -/
def Comparison.exact : Comparison :=
  .uncounted (fun _ => True) (fun _ => True) (fun _ => .nothing) trivial fun _ => trivial

theorem Comparison.exact.eq_of_like {α : Type} {x y : Check α}
    (h : ∀ c, ∃ n, exact.Like c n x y) : y = x := by
  funext k
  obtain ⟨n, hlike⟩ := h k.stage
  exact (hlike k ⟨rfl, fun _ _ _ _ _ => ⟨trivial, fun _ _ => trivial⟩⟩).1

/-- With the same shapes all checks do the same. -/
theorem Block.checkAll_eq_of_sameShapes {table table' : Table} (h : table.SameShapes table')
    (effort fuel : Nat) (l : List Stmt) :
    Block.checkAll table' effort fuel l = Block.checkAll table effort fuel l := by
  have hasks : ∀ fuel, (checker table effort fuel).AsksAlike (checker table' effort fuel) :=
    fun fuel => ⟨h.fits? effort, funext fun name => funext (h.property? effort name),
      h.problems? effort, h.denote⟩
  refine Comparison.exact.eq_of_like fun c => ?_
  have halike := checker_alike (T := .exact) hasks (fun _ => trivial)
    (fun _ f _ => rowPasses_nothing f.body.statements) fuel c (sizeOf l + 1)
  exact ⟨_, halike.checkAll l (Nat.lt_succ_self _) (rowPasses_nothing l)⟩

end TypedScript
