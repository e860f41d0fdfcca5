import Mathlib.Data.Option.Basic
import TypedScript.Proofs.Merging
import TypedScript.Proofs.Parts

/-!
# Normal types

A type is `Normal` if at every depth a union has two members or more, all different and
none of them unknown or a union, an intersection has two members or more and none of them
is an intersection, the names of the properties of an object are different, a function
has the parameters that a call has to give, and one that stands for any number of
arguments if it has such a one, and a name is that of a declared interface and not of a
type that is given.

Building a union or an intersection makes normal types of normal types, and so do the
questions of a table about normal types if its shapes are normal: for the shape of a type
(`Normal.shape?`), for the type of a property (`Normal.property?`), and for the function
that a type can be called as (`Normal.callable?`). What is written denotes a normal type
if each chain in it has two members or more (`TypeExpr.normal_denote`), as the grammar has
it.
-/

namespace TypedScript

/-- Whether a type is a union. -/
def Ty.isUnion : Ty → Bool
  | .union _ => true
  | _ => false

theorem Ty.unionMembers_of_not_isUnion {type : Ty} (h : type.isUnion = false) :
    type.unionMembers = [type] := by
  cases type <;> first | rfl | cases h

namespace Table

/-- What is asked of a part of a normal type, apart from what it is built from. -/
def NormalPart (table : Table) : Ty → Prop
  | .primitive _ | .unknown => True
  | .named name => table.declares name = true ∧ Ty.ofName? name = none
  | .object properties => (properties.map (·.name)).Nodup
  | .function signature => signature.required ≤ signature.params.length ∧
      (signature.isVariadic = true → signature.params ≠ [])
  | .union members => 2 ≤ members.length ∧ members.Nodup ∧
      ∀ m ∈ members, m ≠ .unknown ∧ m.isUnion = false
  | .intersection members => 2 ≤ members.length ∧ ∀ m ∈ members, m.isIntersection = false

/-- A type that is normal at every depth. -/
def Normal (table : Table) (type : Ty) : Prop :=
  type.Throughout table.NormalPart

/-- A table whose interfaces are normal. -/
def AllNormal (table : Table) : Prop :=
  ∀ name shape, table.interface? name = some shape → table.Normal (.object shape)

instance (table : Table) : DecidablePred table.NormalPart
  | .primitive _ | .unknown => inferInstanceAs (Decidable True)
  | .named name => inferInstanceAs (Decidable (table.declares name = true ∧ Ty.ofName? name = none))
  | .object properties => inferInstanceAs (Decidable (properties.map (·.name)).Nodup)
  | .function signature =>
    inferInstanceAs (Decidable (signature.required ≤ signature.params.length ∧
      (signature.isVariadic = true → signature.params ≠ [])))
  | .union members => inferInstanceAs (Decidable (2 ≤ members.length ∧ members.Nodup ∧
      ∀ m ∈ members, m ≠ .unknown ∧ m.isUnion = false))
  | .intersection members =>
    inferInstanceAs (Decidable (2 ≤ members.length ∧ ∀ m ∈ members, m.isIntersection = false))

instance (table : Table) (type : Ty) : Decidable (table.Normal type) :=
  inferInstanceAs (Decidable (∀ part ∈ type.parts, table.NormalPart part))

variable {table : Table}

theorem normal_primitive (primitive : Primitive) : table.Normal (.primitive primitive) :=
  Ty.Throughout.leaf rfl trivial

theorem normal_unknown : table.Normal .unknown :=
  Ty.Throughout.leaf rfl trivial

theorem normal_named {name : String} (hdeclared : table.declares name = true)
    (hgiven : Ty.ofName? name = none) : table.Normal (.named name) :=
  Ty.Throughout.leaf rfl ⟨hdeclared, hgiven⟩

/-- The name of a given type stands for a type that is not composed. -/
theorem normal_ofName? {name : String} {type : Ty} (h : Ty.ofName? name = some type) :
    table.Normal type := by
  unfold Ty.ofName? at h
  split at h <;> cases h <;> first | exact normal_primitive _ | exact normal_unknown

/-! ## Unions and intersections -/

theorem nodup_distinct (types : List Ty) : (Ty.distinct types).Nodup := by
  suffices h : ∀ seen : List Ty, seen.Nodup → (types.foldl
      (fun seen type => if type ∈ seen then seen else seen ++ [type]) seen).Nodup from
    h [] List.nodup_nil
  induction types with
  | nil => exact fun _ hseen => hseen
  | cons type rest ih =>
    intro seen hseen
    rw [List.foldl_cons]
    refine ih _ ?_
    split
    · exact hseen
    · next hnew =>
      refine List.nodup_append.mpr ⟨hseen, by simp, fun a ha b hb => ?_⟩
      rw [List.mem_singleton.mp hb]
      exact fun heq => hnew (heq ▸ ha)

/-- The members that a normal type contributes to a union, if it is known. -/
theorem Normal.unionMembers {type m : Ty} (h : table.Normal type) (hknown : type ≠ .unknown)
    (hm : m ∈ type.unionMembers) : table.Normal m ∧ m ≠ .unknown ∧ m.isUnion = false := by
  cases type with
  | union members =>
    obtain ⟨⟨-, -, hmembers⟩, hnormal⟩ := Ty.Throughout.union_iff.mp h
    exact ⟨hnormal m hm, hmembers m hm⟩
  | _ =>
    rw [List.mem_singleton.mp hm]
    exact ⟨h, hknown, rfl⟩

/-- The union that is built from normal types is normal. -/
theorem normal_unionOf {types : List Ty} (h : ∀ type ∈ types, table.Normal type) :
    table.Normal (.unionOf types) := by
  unfold Ty.unionOf
  split
  · exact normal_unknown
  · next hunknown =>
    have hmembers : ∀ m ∈ Ty.distinct (types.flatMap Ty.unionMembers),
        table.Normal m ∧ m ≠ .unknown ∧ m.isUnion = false := by
      intro m hm
      obtain ⟨type, htype, hm⟩ := List.mem_flatMap.mp (Ty.mem_distinct.mp hm)
      -- what is unknown would have swallowed the union
      exact (h type htype).unionMembers (fun heq => hunknown (heq ▸ htype)) hm
    have hnodup := nodup_distinct (types.flatMap Ty.unionMembers)
    split
    · exact normal_primitive .void
    · next type heq => exact (hmembers type (heq ▸ List.mem_singleton_self type)).1
    · next hnil hsingle =>
      generalize Ty.distinct (types.flatMap Ty.unionMembers) = members at *
      refine Ty.Throughout.union_iff.mpr ⟨⟨?_, hnodup, fun m hm => (hmembers m hm).2⟩,
        fun m hm => (hmembers m hm).1⟩
      match members with
      | [] => exact absurd rfl hnil
      | [type] => exact absurd rfl (hsingle type)
      | _ :: _ :: _ => simp

/-- What a normal type contributes to an intersection: at least one type, and no
intersection. -/
theorem Normal.intersectionMembers {type : Ty} (h : table.Normal type) :
    type.intersectionMembers ≠ [] ∧
      ∀ m ∈ type.intersectionMembers, table.Normal m ∧ m.isIntersection = false := by
  cases type with
  | intersection members =>
    obtain ⟨⟨hlength, hmembers⟩, hnormal⟩ := Ty.Throughout.intersection_iff.mp h
    refine ⟨?_, fun m hm => ⟨hnormal m hm, hmembers m hm⟩⟩
    rintro rfl
    simp at hlength
  | _ =>
    refine ⟨by simp [Ty.intersectionMembers], fun m hm => ?_⟩
    rw [List.mem_singleton.mp hm]
    exact ⟨h, rfl⟩

/-- The intersection that is built from normal types is normal, unless there are none. -/
theorem normal_intersectionOf {types : List Ty} (hne : types ≠ [])
    (h : ∀ type ∈ types, table.Normal type) : table.Normal (.intersectionOf types) := by
  have hmembers : ∀ m ∈ types.flatMap Ty.intersectionMembers,
      table.Normal m ∧ m.isIntersection = false := by
    intro m hm
    obtain ⟨type, htype, hm⟩ := List.mem_flatMap.mp hm
    exact (h type htype).intersectionMembers.2 m hm
  have hflat : types.flatMap Ty.intersectionMembers ≠ [] := by
    obtain ⟨type, htype⟩ := List.exists_mem_of_ne_nil _ hne
    obtain ⟨m, hm⟩ := List.exists_mem_of_ne_nil _ (h type htype).intersectionMembers.1
    exact List.ne_nil_of_mem (List.mem_flatMap.mpr ⟨type, htype, hm⟩)
  unfold Ty.intersectionOf
  split
  · next type heq => exact (hmembers type (heq ▸ List.mem_singleton_self type)).1
  · next hsingle =>
    generalize types.flatMap Ty.intersectionMembers = members at *
    refine Ty.Throughout.intersection_iff.mpr ⟨⟨?_, fun m hm => (hmembers m hm).2⟩,
      fun m hm => (hmembers m hm).1⟩
    match members with
    | [] => exact absurd rfl hflat
    | [type] => exact absurd rfl (hsingle type)
    | _ :: _ :: _ => simp

/-! ## Objects and functions -/

/-- A property of a name that is not there yet may be added. -/
theorem Normal.append {shape : Shape} (h : table.Normal (.object shape)) {p : Property}
    (hp : table.Normal p.type) (hname : shape.has p.name = false) :
    table.Normal (.object (shape ++ [p])) := by
  obtain ⟨hnodup, hnormal⟩ := Ty.Throughout.object_iff.mp h
  refine Ty.Throughout.object_iff.mpr ⟨?_, List.forall_mem_append.mpr
    ⟨hnormal, List.forall_mem_singleton.mpr hp⟩⟩
  have hnew : p.name ∉ shape.map (·.name) :=
    Shape.find?_eq_none.mp (by simpa [Shape.has] using hname)
  show ((shape ++ [p]).map (·.name)).Nodup
  rw [List.map_append]
  exact List.nodup_append.mpr ⟨hnodup, by simp, by simpa using hnew⟩

/-- A property may change its type. -/
theorem Normal.update {shape : Shape} (h : table.Normal (.object shape)) {type : Ty}
    (htype : table.Normal type) (name : String) :
    table.Normal (.object (shape.update name fun slot => { slot with type })) := by
  obtain ⟨hnodup, hnormal⟩ := Ty.Throughout.object_iff.mp h
  refine Ty.Throughout.object_iff.mpr ⟨?_, ?_⟩
  · show ((shape.update name fun slot => { slot with type }).map (·.name)).Nodup
    rw [Shape.map_name_update]
    · exact hnodup
    · exact fun _ => rfl
  · clear h hnodup
    induction shape with
    | nil => exact hnormal
    | cons p rest ih =>
      rw [List.forall_mem_cons] at hnormal
      unfold Shape.update
      split
      · exact List.forall_mem_cons.mpr ⟨htype, hnormal.2⟩
      · exact List.forall_mem_cons.mpr ⟨hnormal.1, ih hnormal.2⟩

/-- The result of a function may change. -/
theorem Normal.withResult {signature : Signature} (h : table.Normal (.function signature))
    {result : Ty} (hresult : table.Normal result) :
    table.Normal (.function { signature with result }) := by
  obtain ⟨hself, hparams, -⟩ := Ty.Throughout.function_iff.mp h
  exact Ty.Throughout.function_iff.mpr ⟨hself, hparams, hresult⟩

theorem requiredCount_le_length (params : List Parameter) :
    requiredCount params ≤ params.length := by
  induction params with
  | nil => exact Nat.le_refl 0
  | cons param rest ih =>
    unfold requiredCount
    rw [List.length_cons]
    split
    · split <;> omega
    · omega

/-- The function that parameters and a result make up, each parameter with its type. -/
theorem normal_function {params : List Parameter} {types : List Ty} {result : Ty}
    (hlength : types.length = params.length) (htypes : ∀ type ∈ types, table.Normal type)
    (hresult : table.Normal result) :
    table.Normal (.function ⟨types, requiredCount params, false, result⟩) :=
  Ty.Throughout.function_iff.mpr
    ⟨⟨hlength ▸ requiredCount_le_length params, fun h => nomatch h⟩, htypes, hresult⟩

/-! ## Questions about normal types -/

/-- Behind the name of an interface there is a normal shape. -/
theorem Normal.interface (htable : table.AllNormal) {name : String}
    (h : table.Normal (.named name)) :
    ∃ shape, table.expand name = .object shape ∧ table.Normal (.object shape) := by
  obtain ⟨shape, hshape⟩ := Option.isSome_iff_exists.mp h.self.1
  exact ⟨shape, expand_of_interface? hshape, htable name shape hshape⟩

/-- A merged property has one of the types that it had. -/
theorem keptByMerging_normal : KeptByMerging fun p => table.Normal p.type := by
  intro p old _ hp hold type htype
  rcases htype with rfl | rfl
  · exact hp
  · exact hold

/-- The shape of a normal type is normal. -/
theorem Normal.shape? (htable : table.AllNormal) {effort : Nat} {type : Ty} {shape : Shape}
    (h : table.Normal type) (hshape : table.shape? effort type = some (some shape)) :
    table.Normal (.object shape) := by
  refine Ty.Throughout.object_iff.mpr ⟨?_, ?_⟩
  -- The members of an intersection may declare one name each, but merging keeps one of them.
  · cases type with
    | object properties =>
      cases hshape
      exact h.self
    | named name => exact (htable name shape (Option.some.inj hshape)).self
    | intersection members =>
      unfold Table.shape? shapeOf? at hshape
      obtain ⟨shapes, -, hmerged⟩ := Option.bind_eq_some_iff.mp hshape
      unfold mergeShapes at hmerged
      split at hmerged
      · cases hmerged
      · obtain ⟨merged, hmerged, heq⟩ := Option.bind_eq_some_iff.mp hmerged
        cases heq
        exact nodup_of_foldlM [] List.nodup_nil hmerged
    | _ => cases hshape
  · exact forall_of_shapeOf? keptByMerging_normal (C := table.Normal)
      (fun _ h => (Ty.Throughout.object_iff.mp h).2)
      (fun name shape _ h => (Ty.Throughout.object_iff.mp (htable name shape h)).2)
      (fun _ h => (Ty.Throughout.intersection_iff.mp h).2) type h hshape

/-- The type of a property of a normal type is normal. -/
theorem Normal.property? (htable : table.AllNormal) {effort : Nat} {name : String} (type : Ty)
    (h : table.Normal type) {found : Ty}
    (hfound : table.property? effort name type = some (some found)) : table.Normal found := by
  cases type with
  | unknown =>
    cases hfound
    exact normal_unknown
  | union members =>
    obtain ⟨types, htypes, rfl⟩ := property?_union.mp hfound
    refine normal_unionOf fun t ht => ?_
    obtain ⟨m, hm, hproperty⟩ := (exists_of_propertyOfEach? htypes).2 t ht
    have hlt := Ty.sizeOf_lt_union hm
    exact Normal.property? htable m ((Ty.Throughout.union_iff.mp h).2 m hm) hproperty
  | _ =>
    obtain ⟨shape, p, hshape, hfind, rfl⟩ := exists_of_property? hfound (by simp) (by simp)
    exact (Ty.Throughout.object_iff.mp (h.shape? htable hshape)).2 p (Shape.mem_of_find? hfind)
termination_by sizeOf type

end Table

/-- The function that a type can be called as is a part of it. -/
theorem Ty.mem_parts_of_callable? (type : Ty) {signature : Signature}
    (h : type.callable? = some signature) : function signature ∈ type.parts := by
  cases type with
  | function other =>
    unfold callable? at h
    cases h
    exact mem_parts_self _
  | intersection members =>
    unfold callable? at h
    -- an intersection is called as the first of its members that can be
    suffices hmembers : ∃ m ∈ members, m.callable? = some signature by
      obtain ⟨m, hm, hcallable⟩ := hmembers
      have hlt := sizeOf_lt_intersection hm
      exact mem_parts_intersection.mpr (Or.inr ⟨m, hm, mem_parts_of_callable? m hcallable⟩)
    induction members with
    | nil => cases h
    | cons m rest ih =>
      unfold firstCallable? at h
      rcases (Option.orElse_eq_some _ _ _).mp h with h | ⟨-, h⟩
      · exact ⟨m, List.mem_cons_self, h⟩
      · obtain ⟨m', hm', hcallable⟩ := ih h
        exact ⟨m', List.mem_cons_of_mem _ hm', hcallable⟩
  | _ => unfold callable? at h; cases h
termination_by sizeOf type

namespace Table

variable {table : Table}

theorem Normal.callable? {type : Ty} (h : table.Normal type) {signature : Signature}
    (hcallable : type.callable? = some signature) : table.Normal (.function signature) :=
  h.part (type.mem_parts_of_callable? hcallable)

end Table

/-! ## Written types -/

/-- Whether a union or an intersection is written with two members or more. -/
def TypeExpr.isChain : TypeExpr → Bool
  | .union members _ | .intersection members _ => decide (2 ≤ members.length)
  | _ => true

/-- Whether all unions and intersections in a written type have two members or more. -/
def TypeExpr.isBuilt (type : TypeExpr) : Bool :=
  type.parts.all TypeExpr.isChain

section Denotation

variable {isDeclared : String → Bool}

theorem name_of_mem_denoteMembers {members : List Member} {taken : List String} {p : Property}
    (hp : p ∈ denoteMembers isDeclared taken members) : p.name ∉ taken := by
  induction members generalizing taken with
  | nil => exact absurd hp List.not_mem_nil
  | cons first rest ih =>
    unfold denoteMembers at hp
    split at hp
    · exact ih hp
    · next hnew =>
      rcases List.mem_cons.mp hp with rfl | hp
      · exact hnew
      · exact fun hmem => ih hp (List.mem_cons_of_mem _ hmem)

/-- No two properties of a denoted shape have one name. -/
theorem nodup_denoteMembers (taken : List String) (members : List Member) :
    ((denoteMembers isDeclared taken members).map (·.name)).Nodup := by
  induction members generalizing taken with
  | nil => exact List.nodup_nil
  | cons first rest ih =>
    unfold denoteMembers
    split
    · exact ih taken
    · refine List.nodup_cons.mpr ⟨fun hmem => ?_, ih _⟩
      obtain ⟨p, hp, hname⟩ := List.mem_map.mp hmem
      exact name_of_mem_denoteMembers hp (hname ▸ List.mem_cons_self)

theorem length_denoteParams (params : List Parameter) :
    (denoteParams isDeclared params).length = params.length := by
  induction params with
  | nil => rfl
  | cons param rest ih => rw [denoteParams, List.length_cons, List.length_cons, ih]

theorem length_denoteEach (types : List TypeExpr) :
    (denoteEach isDeclared types).length = types.length := by
  induction types with
  | nil => rfl
  | cons type rest ih => rw [denoteEach, List.length_cons, List.length_cons, ih]

variable {table : Table} (hdeclared : ∀ name, isDeclared name = true → table.declares name = true)
include hdeclared

set_option linter.unusedSectionVars false in
mutual

/-- A written type whose chains have two members or more denotes a normal type. -/
theorem TypeExpr.normal_denote : ∀ {type : TypeExpr}, (∀ e ∈ type.parts, e.isChain = true) →
    table.Normal (type.denote isDeclared)
  | .named name position, h => by
    unfold TypeExpr.denote
    cases hname : Ty.ofName? name with
    | some type => exact Table.normal_ofName? hname
    | none =>
      dsimp only
      split
      · next hd => exact Table.normal_named (hdeclared name hd) hname
      · exact Table.normal_unknown
  | .object members position, h => by
    unfold TypeExpr.denote
    exact Ty.Throughout.object_iff.mpr ⟨nodup_denoteMembers [] members,
      normal_denoteMembers (List.forall_mem_cons.mp h).2⟩
  | .function params result position, h => by
    obtain ⟨hparams, hresult⟩ := List.forall_mem_append.mp (List.forall_mem_cons.mp h).2
    unfold TypeExpr.denote
    exact Table.normal_function (length_denoteParams params) (normal_denoteParams hparams)
      (TypeExpr.normal_denote hresult)
  | .union members position, h => by
    unfold TypeExpr.denote
    exact Table.normal_unionOf (normal_denoteEach (List.forall_mem_cons.mp h).2)
  | .intersection members position, h => by
    obtain ⟨hself, hmembers⟩ := List.forall_mem_cons.mp h
    unfold TypeExpr.denote
    refine Table.normal_intersectionOf (List.ne_nil_of_length_pos ?_)
      (normal_denoteEach hmembers)
    rw [length_denoteEach]
    exact Nat.lt_of_lt_of_le Nat.zero_lt_two (of_decide_eq_true hself)

theorem normal_denoteEach : ∀ {types : List TypeExpr}, (∀ e ∈ partsOfEach types, e.isChain = true) →
    ∀ type ∈ denoteEach isDeclared types, table.Normal type
  | [], _ => fun _ h => absurd h List.not_mem_nil
  | first :: rest, h => by
    obtain ⟨hfirst, hrest⟩ := List.forall_mem_append.mp h
    rw [denoteEach]
    exact List.forall_mem_cons.mpr ⟨TypeExpr.normal_denote hfirst, normal_denoteEach hrest⟩

theorem normal_denoteParams : ∀ {params : List Parameter},
    (∀ e ∈ partsOfParams params, e.isChain = true) →
    ∀ type ∈ denoteParams isDeclared params, table.Normal type
  | [], _ => fun _ h => absurd h List.not_mem_nil
  | ⟨_, none, _, _⟩ :: rest, h => by
    rw [denoteParams]
    exact List.forall_mem_cons.mpr ⟨Table.normal_unknown,
      normal_denoteParams (List.forall_mem_append.mp h).2⟩
  | ⟨_, some type, _, _⟩ :: rest, h => by
    obtain ⟨hfirst, hrest⟩ := List.forall_mem_append.mp h
    rw [denoteParams]
    exact List.forall_mem_cons.mpr ⟨TypeExpr.normal_denote hfirst, normal_denoteParams hrest⟩

theorem normal_denoteMembers : ∀ {members : List Member} {taken : List String},
    (∀ e ∈ partsOfMembers members, e.isChain = true) →
    ∀ p ∈ denoteMembers isDeclared taken members, table.Normal p.type
  | [], _, _ => fun _ h => absurd h List.not_mem_nil
  | ⟨_, type, _, _⟩ :: rest, taken, h => by
    obtain ⟨hfirst, hrest⟩ := List.forall_mem_append.mp h
    rw [denoteMembers]
    split
    · exact normal_denoteMembers hrest
    · exact List.forall_mem_cons.mpr ⟨TypeExpr.normal_denote hfirst, normal_denoteMembers hrest⟩

end

end Denotation

end TypedScript
