import TypedScript.Proofs.Compatibility
import TypedScript.Proofs.Parts
import TypedScript.Store

/-!
# Values that conform to types

A value conforms to a primitive type by its kind, to an object type by its
properties, to a union by one member and to an intersection by all of them. As
interfaces may refer to themselves, this is said up to a depth (`conformsUpto`),
and a value conforms if it does so at every depth (`Conforms`).

Conformance is what types are for, so the questions about types have to respect
it. This holds of `Plain` types, which leave nothing unknown, have no optional
properties and no functions inside, even if only some of the interfaces are plain
(`IsPlainPartOf`):

* what conforms to a type conforms to each type where that one fits
  (`conforms_of_fits`);
* what conforms to a type has each of its properties, with a value that conforms
  to the type of the property (`exists_property_of_conforms`).

Objects only ever gain properties while they are made, and conformance is kept
(`Conforms.mono`).
-/

namespace TypedScript

variable {table part : Table} {s : Store}

/-! ## Conformance -/

/-- Whether an object has a property, up to a way to conform: if it lacks the
property, the property has to be optional. -/
def Property.HoldsIn (p : Property) (s : Store) (o : ObjectId) (conforms : Ty → Value → Prop) :
    Prop :=
  match (s.properties o).get? p.name with
  | some value => conforms p.type value
  | none => p.isOptional = true

/-- Whether a value conforms to a type as far as can be seen at a depth. -/
def conformsUpto (table : Table) (s : Store) : (depth : Nat) → Ty → Value → Prop
  | 0, _, _ => True
  | depth + 1, type, value =>
    match type with
    | .unknown => True
    | .primitive .text => ∃ x, value = .text x
    | .primitive .number => ∃ x, value = .number x
    | .primitive .boolean => ∃ x, value = .boolean x
    | .primitive .void => value = .undefined
    | .named name => conformsUpto table s depth (table.expand name) value
    | .object properties =>
      ∃ o, value = .object o ∧ ∀ p ∈ properties, p.HoldsIn s o (conformsUpto table s depth)
    | .function _ => (∃ f, value = .native f) ∨ ∃ c, value = .closure c
    | .union members => ∃ m ∈ members, conformsUpto table s depth m value
    | .intersection members => ∀ m ∈ members, conformsUpto table s depth m value

/-- Whether a value conforms to a type. -/
def Conforms (table : Table) (s : Store) (type : Ty) (value : Value) : Prop :=
  ∀ depth, conformsUpto table s depth type value

theorem Property.HoldsIn.imp {p : Property} {s : Store} {o : ObjectId}
    {conforms conforms' : Ty → Value → Prop} (h : p.HoldsIn s o conforms)
    (himp : ∀ value, conforms p.type value → conforms' p.type value) :
    p.HoldsIn s o conforms' := by
  unfold HoldsIn at h ⊢
  split
  · next value heq => rw [heq] at h; exact himp value h
  · next heq => rw [heq] at h; exact h

/-- Looking less deep, less can be found wrong. -/
theorem conformsUpto_of_succ (depth : Nat) : ∀ type value,
    conformsUpto table s (depth + 1) type value → conformsUpto table s depth type value := by
  induction depth with
  | zero => intro _ _ _; exact trivial
  | succ depth ih =>
    intro type value h
    cases type with
    | unknown => exact trivial
    | primitive p => cases p <;> exact h
    | named name => exact ih _ _ h
    | function signature => exact h
    | object properties =>
      obtain ⟨o, heq, hall⟩ := h
      exact ⟨o, heq, fun p hp => (hall p hp).imp fun _ => ih _ _⟩
    | union members =>
      obtain ⟨m, hm, h⟩ := h
      exact ⟨m, hm, ih _ _ h⟩
    | intersection members => exact fun m hm => ih _ _ (h m hm)

theorem conformsUpto_of_le {depth deeper : Nat} (hle : depth ≤ deeper) {type : Ty} {value : Value}
    (h : conformsUpto table s deeper type value) : conformsUpto table s depth type value := by
  induction hle with
  | refl => exact h
  | step _ ih => exact ih (conformsUpto_of_succ _ _ _ h)

namespace Conforms

theorem unknown (value : Value) : Conforms table s .unknown value := by
  intro depth
  cases depth <;> exact trivial

theorem text_iff {value : Value} : Conforms table s .text value ↔ ∃ x, value = .text x :=
  ⟨fun h => h 1, fun h depth => by cases depth with | zero => trivial | succ _ => exact h⟩

theorem number_iff {value : Value} : Conforms table s .number value ↔ ∃ x, value = .number x :=
  ⟨fun h => h 1, fun h depth => by cases depth with | zero => trivial | succ _ => exact h⟩

theorem boolean_iff {value : Value} : Conforms table s .boolean value ↔ ∃ x, value = .boolean x :=
  ⟨fun h => h 1, fun h depth => by cases depth with | zero => trivial | succ _ => exact h⟩

theorem void_iff {value : Value} : Conforms table s .void value ↔ value = .undefined :=
  ⟨fun h => h 1, fun h depth => by cases depth with | zero => trivial | succ _ => exact h⟩

theorem named_iff {name : String} {value : Value} :
    Conforms table s (.named name) value ↔ Conforms table s (table.expand name) value :=
  ⟨fun h depth => h (depth + 1),
    fun h depth => by cases depth with | zero => trivial | succ depth => exact h depth⟩

theorem intersection_iff {members : List Ty} {value : Value} :
    Conforms table s (.intersection members) value ↔ ∀ m ∈ members, Conforms table s m value :=
  ⟨fun h m hm depth => h (depth + 1) m hm, fun h depth => by
    cases depth with
    | zero => trivial
    | succ depth => exact fun m hm => h m hm depth⟩

/-- Types do not tell numbers apart. -/
theorem of_number {type : Ty} {x : Float} (h : Conforms table s type (.number x)) (y : Float) :
    Conforms table s type (.number y) := by
  intro depth
  replace h := h depth
  induction depth generalizing type with
  | zero => trivial
  | succ depth ih =>
    cases type with
    | unknown => trivial
    | primitive p =>
      cases p with
      | number => exact ⟨y, rfl⟩
      | text | boolean => obtain ⟨_, heq⟩ := h; cases heq
      | void => cases h
    | named name => exact ih h
    | function signature =>
      rcases h with ⟨_, heq⟩ | ⟨_, heq⟩ <;> cases heq
    | object properties =>
      obtain ⟨_, heq, _⟩ := h
      cases heq
    | union members =>
      obtain ⟨m, hm, h⟩ := h
      exact ⟨m, hm, ih h⟩
    | intersection members => exact fun m hm => ih (h m hm)

theorem object_iff {properties : List Property} {value : Value} :
    Conforms table s (.object properties) value ↔
      ∃ o, value = .object o ∧ ∀ p ∈ properties, p.HoldsIn s o (Conforms table s) := by
  constructor
  · intro h
    obtain ⟨o, rfl, _⟩ := h 1
    refine ⟨o, rfl, fun p hp => ?_⟩
    have hdepth : ∀ depth, p.HoldsIn s o (conformsUpto table s depth) := by
      intro depth
      obtain ⟨o', heq, hall⟩ := h (depth + 1)
      cases heq
      exact hall p hp
    unfold Property.HoldsIn at hdepth ⊢
    split
    · next value heq =>
      intro depth
      have := hdepth depth
      rw [heq] at this
      exact this
    · next heq =>
      have := hdepth 0
      rw [heq] at this
      exact this
  · rintro ⟨o, rfl, hall⟩ depth
    cases depth with
    | zero => trivial
    | succ depth => exact ⟨o, rfl, fun p hp => (hall p hp).imp fun _ h => h depth⟩

/-- A value of a union conforms to one member at every depth. -/
theorem union_iff {members : List Ty} {value : Value} :
    Conforms table s (.union members) value ↔ ∃ m ∈ members, Conforms table s m value := by
  constructor
  · intro h
    have hdepth : ∀ depth, ∃ m ∈ members, conformsUpto table s depth m value :=
      fun depth => h (depth + 1)
    clear h
    -- a member that fails at some depth fails at all greater depths
    induction members with
    | nil =>
      obtain ⟨_, hm, _⟩ := hdepth 0
      exact absurd hm List.not_mem_nil
    | cons first rest ih =>
      by_cases hfirst : Conforms table s first value
      · exact ⟨first, List.mem_cons_self .., hfirst⟩
      · obtain ⟨bound, hbound⟩ := Classical.not_forall.mp hfirst
        obtain ⟨m, hm, h⟩ := ih fun depth => by
          obtain ⟨m, hm, h⟩ := hdepth (max depth bound)
          rcases List.mem_cons.mp hm with rfl | hm
          · exact absurd (conformsUpto_of_le (Nat.le_max_right ..) h) hbound
          · exact ⟨m, hm, conformsUpto_of_le (Nat.le_max_left ..) h⟩
        exact ⟨m, List.mem_cons_of_mem _ hm, h⟩
  · rintro ⟨m, hm, h⟩ depth
    cases depth with
    | zero => trivial
    | succ depth => exact ⟨m, hm, h depth⟩

/-- What conforms to a type conforms to a union with it. -/
theorem unionOf {types : List Ty} {type : Ty} (hmem : type ∈ types) {value : Value}
    (h : Conforms table s type value) : Conforms table s (.unionOf types) value := by
  have hmember : ∃ m ∈ Ty.distinct (types.flatMap Ty.unionMembers), Conforms table s m value := by
    cases type with
    | union members =>
      obtain ⟨m, hm, h⟩ := union_iff.mp h
      exact ⟨m, Ty.mem_distinct.mpr (List.mem_flatMap.mpr ⟨_, hmem, hm⟩), h⟩
    | _ => exact ⟨_, Ty.mem_distinct.mpr (List.mem_flatMap.mpr
        ⟨_, hmem, List.mem_singleton_self _⟩), h⟩
  obtain ⟨m, hm, h⟩ := hmember
  unfold Ty.unionOf
  split
  · exact unknown value
  · split
    · next heq => rw [heq] at hm; exact absurd hm List.not_mem_nil
    · next only heq => rw [heq] at hm; rw [← List.mem_singleton.mp hm]; exact h
    · exact union_iff.mpr ⟨m, hm, h⟩

end Conforms

/-! ## Shapes -/

namespace Table

theorem mem_update {name : String} {f : Property → Property} {shape : Shape} {q : Property}
    (h : q ∈ shape.update name f) :
    q ∈ shape ∨ ∃ old, shape.find? name = some old ∧ q = f old := by
  induction shape with
  | nil => exact absurd h List.not_mem_nil
  | cons p rest ih =>
    unfold Shape.update at h
    unfold Shape.find? at ih ⊢
    split at h
    · next heq =>
      rcases List.mem_cons.mp h with rfl | h
      · exact Or.inr ⟨p, by rw [List.find?_cons_of_pos (by simp [heq])], rfl⟩
      · exact Or.inl (List.mem_cons_of_mem _ h)
    · next hne =>
      rw [List.find?_cons_of_neg (by simp [hne])]
      rcases List.mem_cons.mp h with rfl | h
      · exact Or.inl (List.mem_cons_self ..)
      · exact (ih h).imp_left (List.mem_cons_of_mem _)

/-- A property of properties that stays if two properties are merged. -/
def KeptByMerging (P : Property → Prop) : Prop :=
  ∀ p old : Property, p.name = old.name → P p → P old → ∀ type, type = p.type ∨ type = old.type →
    P ⟨old.name, type, old.isOptional && p.isOptional⟩

variable {P : Property → Prop} (hP : KeptByMerging P) {fits : Ty → Ty → Answer Bool}
include hP

theorem forall_of_mergeProperty {shape merged : Shape} {p : Property}
    (h : mergeProperty fits shape p = some merged) (hshape : ∀ q ∈ shape, P q) (hp : P p) :
    ∀ q ∈ merged, P q := by
  unfold mergeProperty at h
  split at h
  · cases h
    intro q hq
    rcases List.mem_append.mp hq with hq | hq
    · exact hshape q hq
    · rw [List.mem_singleton.mp hq]
      exact hp
  · next old hold =>
    cases hfits : fits p.type old.type with
    | none => rw [hfits] at h; cases h
    | some isNarrower =>
      rw [hfits] at h
      cases h
      intro q hq
      rcases mem_update hq with hq | ⟨slot, hslot, rfl⟩
      · exact hshape q hq
      · rw [hold] at hslot
        cases hslot
        have hname : old.name = p.name := by simpa using List.find?_some hold
        refine hP p old hname.symm hp (hshape old (List.mem_of_find?_eq_some hold)) _ ?_
        cases isNarrower with
        | true => exact Or.inl rfl
        | false => exact Or.inr rfl

theorem forall_of_foldlM {properties : List Property} :
    ∀ {shape merged : Shape}, properties.foldlM (mergeProperty fits) shape = some merged →
      (∀ q ∈ shape, P q) → (∀ q ∈ properties, P q) → ∀ q ∈ merged, P q := by
  induction properties with
  | nil => intro shape merged h hshape _; cases h; exact hshape
  | cons p rest ih =>
    intro shape merged h hshape hall
    rw [List.foldlM_cons] at h
    cases hfirst : mergeProperty fits shape p with
    | none => rw [hfirst] at h; cases h
    | some next =>
      rw [hfirst] at h
      exact ih h (forall_of_mergeProperty hP hfirst hshape (hall p (List.mem_cons_self ..)))
        fun q hq => hall q (List.mem_cons_of_mem _ hq)

theorem forall_of_mergeShapes {shapes : List Shape} {merged : Shape}
    (h : mergeShapes fits shapes = some (some merged)) (hall : ∀ shape ∈ shapes, ∀ q ∈ shape, P q) :
    ∀ q ∈ merged, P q := by
  unfold mergeShapes at h
  split at h
  · cases h
  · cases hfold : shapes.flatten.foldlM (mergeProperty fits) [] with
    | none => rw [hfold] at h; cases h
    | some result =>
      rw [hfold] at h
      cases h
      refine forall_of_foldlM hP hfold (fun q hq => absurd hq List.not_mem_nil) fun q hq => ?_
      obtain ⟨shape, hshape, hq⟩ := List.mem_flatten.mp hq
      exact hall shape hshape q hq

omit hP in
/-- The shapes of some types are shapes of single ones. -/
theorem exists_of_mem_shapesOf {types : List Ty} {shapes : List Shape}
    (h : table.shapesOf fits types = some shapes) {shape : Shape} (hs : shape ∈ shapes) :
    ∃ type ∈ types, table.shapeOf? fits type = some (some shape) := by
  induction types generalizing shapes with
  | nil => unfold shapesOf at h; cases h; exact absurd hs List.not_mem_nil
  | cons type rest ih =>
    unfold shapesOf at h
    cases hfirst : table.shapeOf? fits type with
    | none => rw [hfirst] at h; cases h
    | some first? =>
      rw [hfirst] at h
      cases hrest : table.shapesOf fits rest with
      | none => rw [hrest] at h; cases h
      | some others =>
        rw [hrest] at h
        cases h
        rcases List.mem_append.mp hs with hs | hs
        · have heq : first? = some shape := by simpa using hs
          exact ⟨type, List.mem_cons_self .., by rw [hfirst, heq]⟩
        · obtain ⟨other, hmem, hother⟩ := ih hrest hs
          exact ⟨other, List.mem_cons_of_mem _ hmem, hother⟩

/-- What holds of the properties of the object types and interfaces in an
intersection holds of the properties of its shape. -/
theorem forall_of_shapeOf? {C : Ty → Prop} (hobject : ∀ shape, C (.object shape) → ∀ q ∈ shape, P q)
    (hnamed : ∀ name shape, C (.named name) → table.interface? name = some shape →
      ∀ q ∈ shape, P q)
    (hmember : ∀ members, C (.intersection members) → ∀ m ∈ members, C m)
    (type : Ty) (hC : C type) {shape : Shape}
    (h : table.shapeOf? fits type = some (some shape)) : ∀ q ∈ shape, P q := by
  cases type with
  | object properties => unfold shapeOf? at h; cases h; exact hobject _ hC
  | named name => unfold shapeOf? at h; exact hnamed name shape hC (Option.some.inj h)
  | intersection members =>
    unfold shapeOf? at h
    cases hshapes : table.shapesOf fits members with
    | none => rw [hshapes] at h; cases h
    | some shapes =>
      rw [hshapes] at h
      refine forall_of_mergeShapes hP h fun inner hinner => ?_
      obtain ⟨m, hm, hshape⟩ := exists_of_mem_shapesOf hshapes hinner
      have hlt := Ty.sizeOf_lt_intersection hm
      exact forall_of_shapeOf? hobject hnamed hmember m (hmember members hC m hm) hshape
  | _ => unfold shapeOf? at h; cases h
termination_by sizeOf type

omit hP in
/-- What has a shape has an object type or an interface among its members. -/
theorem exists_of_shapeOf? {C : Ty → Prop} {D : Prop} (hobject : ∀ shape, C (.object shape) → D)
    (hnamed : ∀ name shape, C (.named name) → table.interface? name = some shape → D)
    (hmember : ∀ members, C (.intersection members) → ∀ m ∈ members, C m)
    (type : Ty) (hC : C type) {shape : Shape}
    (h : table.shapeOf? fits type = some (some shape)) : D := by
  cases type with
  | object properties => exact hobject _ hC
  | named name => unfold shapeOf? at h; exact hnamed name shape hC (Option.some.inj h)
  | intersection members =>
    unfold shapeOf? at h
    cases hshapes : table.shapesOf fits members with
    | none => rw [hshapes] at h; cases h
    | some shapes =>
      rw [hshapes] at h
      cases shapes with
      | nil => cases h
      | cons inner others =>
        obtain ⟨m, hm, hshape⟩ := exists_of_mem_shapesOf hshapes (List.mem_cons_self ..)
        have hlt := Ty.sizeOf_lt_intersection hm
        exact exists_of_shapeOf? hobject hnamed hmember m (hmember members hC m hm) hshape
  | _ => unfold shapeOf? at h; cases h
termination_by sizeOf type

end Table

theorem Conforms.expand {name : String} {shape : Shape} {value : Value}
    (h : Conforms table s (.named name) value) (hname : table.interface? name = some shape) :
    Conforms table s (.object shape) value := by
  rw [← Table.expand_of_interface? hname]
  exact named_iff.mp h

theorem keptByMerging_holdsIn (o : ObjectId) :
    Table.KeptByMerging fun p => p.HoldsIn s o (Conforms table s) := by
  intro p old hname hp hold type htype
  unfold Property.HoldsIn at hp hold ⊢
  rw [hname] at hp
  dsimp only
  cases hget : (s.properties o).get? old.name with
  | none =>
    rw [hget] at hp hold
    exact Bool.and_eq_true_iff.mpr ⟨hold, hp⟩
  | some value =>
    rw [hget] at hp hold
    rcases htype with rfl | rfl
    · exact hp
    · exact hold

/-- A value that conforms to a type conforms to the shape of the type. -/
theorem Conforms.shape {fits : Ty → Ty → Answer Bool} {type : Ty} {shape : Shape} {value : Value}
    (h : Conforms table s type value) (hshape : table.shapeOf? fits type = some (some shape)) :
    Conforms table s (.object shape) value := by
  have hmember : ∀ members, Conforms table s (.intersection members) value →
      ∀ m ∈ members, Conforms table s m value := fun _ => intersection_iff.mp
  obtain ⟨o, rfl⟩ : ∃ o, value = .object o := by
    refine Table.exists_of_shapeOf? (C := fun t => Conforms table s t value) (fun _ h => ?_)
      (fun _ _ h hname => ?_) hmember type h hshape
    · obtain ⟨o, heq, _⟩ := object_iff.mp h
      exact ⟨o, heq⟩
    · obtain ⟨o, heq, _⟩ := object_iff.mp (h.expand hname)
      exact ⟨o, heq⟩
  have hall : ∀ shape, Conforms table s (.object shape) (.object o) →
      ∀ q ∈ shape, q.HoldsIn s o (Conforms table s) := by
    intro shape h
    obtain ⟨o', heq, hall⟩ := object_iff.mp h
    cases heq
    exact hall
  refine object_iff.mpr ⟨o, rfl, Table.forall_of_shapeOf? (keptByMerging_holdsIn o)
    (C := fun t => Conforms table s t (.object o)) hall (fun _ _ h hname => ?_) hmember type h
    hshape⟩
  exact hall _ (h.expand hname)

/-! ## Plain types -/

namespace Table

/-- A part of a type of which everything is known: no function, no optional
property and no name without a declaration. -/
def PlainPart (table : Table) : Ty → Prop
  | .unknown => False
  | .function _ => False
  | .named name => table.declares name = true
  | .object properties => ∀ p ∈ properties, p.isOptional = false
  | _ => True

/-- A type of which everything is known at each depth. -/
def Plain (table : Table) (type : Ty) : Prop :=
  ∀ part ∈ type.parts, table.PlainPart part

/-- A table whose interfaces are plain. -/
def AllPlain (table : Table) : Prop :=
  ∀ name shape, table.interface? name = some shape → table.Plain (.object shape)

/-- A table of plain interfaces all of which are also in another one, which may have
interfaces of any kind besides. -/
structure IsPlainPartOf (part table : Table) : Prop where
  plain : part.AllPlain
  interface? : ∀ {name shape}, part.interface? name = some shape →
    table.interface? name = some shape

theorem AllPlain.isPlainPart (h : table.AllPlain) : table.IsPlainPartOf table :=
  ⟨h, fun hname => hname⟩

theorem Plain.self {type : Ty} (h : table.Plain type) : table.PlainPart type :=
  Ty.Throughout.self h

theorem Plain.union {members : List Ty} (h : table.Plain (.union members)) :
    ∀ m ∈ members, table.Plain m :=
  (Ty.Throughout.union_iff.mp h).2

theorem Plain.intersection {members : List Ty} (h : table.Plain (.intersection members)) :
    ∀ m ∈ members, table.Plain m :=
  (Ty.Throughout.intersection_iff.mp h).2

theorem Plain.property {properties : List Property} (h : table.Plain (.object properties)) :
    ∀ p ∈ properties, table.Plain p.type ∧ p.isOptional = false :=
  fun p hp => ⟨(Ty.Throughout.object_iff.mp h).2 p hp, h.self p hp⟩

theorem plain_object {properties : List Property}
    (h : ∀ p ∈ properties, table.Plain p.type ∧ p.isOptional = false) :
    table.Plain (.object properties) :=
  Ty.Throughout.object_iff.mpr ⟨fun p hp => (h p hp).2, fun p hp => (h p hp).1⟩

theorem plain_primitive (p : Primitive) : table.Plain (.primitive p) :=
  Ty.Throughout.leaf rfl trivial

theorem plain_unionOf {types : List Ty} (h : ∀ type ∈ types, table.Plain type) :
    table.Plain (.unionOf types) := by
  intro part hpart
  rcases Ty.mem_parts_unionOf hpart with ⟨type, ht, hpart⟩ | ⟨members, rfl⟩ | rfl
  · exact h type ht part hpart
  · trivial
  · trivial

theorem Plain.interface {name : String} (hname : table.Plain (.named name)) :
    ∃ shape, table.interface? name = some shape :=
  Option.isSome_iff_exists.mp hname.self

theorem Plain.expand (hpart : part.IsPlainPartOf table) {name : String}
    (hname : part.Plain (.named name)) :
    ∃ shape, table.expand name = .object shape ∧ part.Plain (.object shape) := by
  obtain ⟨shape, hshape⟩ := hname.interface
  exact ⟨shape, Table.expand_of_interface? (hpart.interface? hshape), hpart.plain name shape hshape⟩

/-- The shape of a plain type is plain. -/
theorem Plain.shape (hpart : part.IsPlainPartOf table) {fits : Ty → Ty → Answer Bool} {type : Ty}
    {shape : Shape} (h : part.Plain type)
    (hshape : table.shapeOf? fits type = some (some shape)) : part.Plain (.object shape) := by
  refine plain_object (forall_of_shapeOf? (P := fun p => part.Plain p.type ∧ p.isOptional = false)
    ?_ (C := part.Plain) (fun _ => Plain.property) (fun name shape hplain hname => ?_)
    (fun _ => Plain.intersection) type h hshape)
  case refine_2 =>
    obtain ⟨shape', hname'⟩ := hplain.interface
    have heq := (hpart.interface? hname').symm.trans hname
    cases heq
    exact (hpart.plain name shape hname').property
  rintro p old _ ⟨hp, _⟩ ⟨hold, hrequired⟩ type htype
  refine ⟨?_, by rw [hrequired, Bool.false_and]⟩
  rcases htype with rfl | rfl
  · exact hp
  · exact hold

end Table

/-- What conforms to a plain object type has each of its properties. -/
theorem Conforms.property {shape : Shape} {value : Value} (hplain : part.Plain (.object shape))
    (h : Conforms table s (.object shape) value) :
    ∃ o, value = .object o ∧ ∀ p ∈ shape, ∃ w, (s.properties o).get? p.name = some w ∧
      Conforms table s p.type w := by
  obtain ⟨o, rfl, hall⟩ := object_iff.mp h
  refine ⟨o, rfl, fun p hp => ?_⟩
  have hholds := hall p hp
  unfold Property.HoldsIn at hholds
  split at hholds
  · next w heq => exact ⟨w, heq, hholds⟩
  · rw [(hplain.property p hp).2] at hholds
    exact absurd hholds (by simp)

/-! ## Objects that gain properties -/

/-- The properties of each object stay, and others may be added. -/
def Store.ObjectsGrow (s s' : Store) : Prop :=
  ∀ o name value, (s.properties o).get? name = some value →
    (s'.properties o).get? name = some value

/-- What conforms to a plain type is for the part of the table to say that the type is
plain in. -/
theorem Table.IsPlainPartOf.conforms_iff (hpart : part.IsPlainPartOf table) {type : Ty}
    (hplain : part.Plain type) {value : Value} :
    Conforms part s type value ↔ Conforms table s type value := by
  refine forall_congr' fun depth => ?_
  induction depth generalizing type value with
  | zero => exact Iff.rfl
  | succ depth ih =>
    cases type with
    | unknown => exact Iff.rfl
    | primitive p => cases p <;> exact Iff.rfl
    | named name =>
      obtain ⟨shape, hexpand, hshape⟩ := hplain.expand hpart
      -- a name that is plain in the part is declared there, and in the table in the same way
      have heq : part.expand name = table.expand name := by
        obtain ⟨shape, hname⟩ := hplain.interface
        rw [Table.expand_of_interface? hname, Table.expand_of_interface? (hpart.interface? hname)]
      show conformsUpto part s depth (part.expand name) value ↔
        conformsUpto table s depth (table.expand name) value
      rw [heq, hexpand]
      exact ih hshape
    | function signature => exact Iff.rfl
    | object properties =>
      refine exists_congr fun o => and_congr_right fun _ => forall₂_congr fun p hp => ?_
      have hproperty : ∀ value, conformsUpto part s depth p.type value ↔
          conformsUpto table s depth p.type value :=
        fun _ => ih (hplain.property p hp).1
      exact ⟨fun h => h.imp fun value => (hproperty value).mp,
        fun h => h.imp fun value => (hproperty value).mpr⟩
    | union members =>
      exact exists_congr fun m => and_congr_right fun hm => ih (hplain.union m hm)
    | intersection members => exact forall₂_congr fun m hm => ih (hplain.intersection m hm)

/-- What conforms to a plain type goes on to do so as objects gain properties. -/
theorem Conforms.mono (htable : table.AllPlain) {s s' : Store} (hgrow : s.ObjectsGrow s')
    {type : Ty} (hplain : table.Plain type) {value : Value} (h : Conforms table s type value) :
    Conforms table s' type value := by
  have hupto : ∀ depth type value, table.Plain type → conformsUpto table s depth type value →
      conformsUpto table s' depth type value := by
    intro depth
    induction depth with
    | zero => intro _ _ _ _; exact trivial
    | succ depth ih =>
      intro type value hplain h
      cases type with
      | unknown => exact trivial
      | primitive p => cases p <;> exact h
      | named name =>
        obtain ⟨shape, hexpand, hshape⟩ := hplain.expand htable.isPlainPart
        have h : conformsUpto table s depth (table.expand name) value := h
        rw [hexpand] at h
        show conformsUpto table s' depth (table.expand name) value
        rw [hexpand]
        exact ih _ _ hshape h
      | function signature => exact h
      | object properties =>
        obtain ⟨o, rfl, hall⟩ := h
        refine ⟨o, rfl, fun p hp => ?_⟩
        obtain ⟨htype, hrequired⟩ := hplain.property p hp
        have hholds := hall p hp
        unfold Property.HoldsIn at hholds ⊢
        split at hholds
        · -- a property keeps its value, which conforms as far as the depth that is left goes
          next w heq => rw [hgrow o p.name w heq]; exact ih _ _ htype hholds
        · -- plain types have no optional properties, so none may be missing
          rw [hrequired] at hholds; exact absurd hholds (by simp)
      | union members =>
        obtain ⟨m, hm, h⟩ := h
        exact ⟨m, hm, ih _ _ (hplain.union m hm) h⟩
      | intersection members => exact fun m hm => ih _ _ (hplain.intersection m hm) (h m hm)
  exact fun depth => hupto depth type value hplain (h depth)

/-! ## What fits conforms -/

section Fits

variable {R : Ty → Ty → Prop} (hR : table.Consistent R) (hpart : part.IsPlainPartOf table)
  {depth : Nat}
  (ih : ∀ source target, R source target → part.Plain source → part.Plain target →
    ∀ value, Conforms table s source value → conformsUpto table s depth target value)
include hR hpart ih

/-- One step of a consistent relation that opens the target: the depth that is
left is enough for what is inside. -/
theorem conformsUpto_of_open {source target : Ty} (hst : R source target)
    (hs : part.Plain source) (ht : part.Plain target)
    (hname : ∀ name, source ≠ .named name)
    (hopen : (∃ name, target = .named name) ∨ (∀ members, source ≠ .union members) ∧
      ((∃ members, target = .union members) ∨ ∃ members, target = .intersection members))
    {value : Value}
    (h : Conforms table s source value) : conformsUpto table s (depth + 1) target value := by
  have hjust := hR source target hst
  unfold Table.Justifies at hjust
  rcases hjust with rfl | rfl | rfl | hjust
  · exact h (depth + 1)
  · exact absurd hs.self id
  · exact absurd ht.self id
  · rcases hopen with ⟨name, rfl⟩ | ⟨hunion, ⟨members, rfl⟩ | ⟨members, rfl⟩⟩
    · obtain ⟨shape, hexpand, hshape⟩ := ht.expand hpart
      -- only two names would be opened together, and the source is none
      have hR' : R source (table.expand name) := by
        cases source with
        | named a => exact absurd rfl (hname a)
        | _ => exact hjust
      show conformsUpto table s depth (table.expand name) value
      rw [hexpand] at hR' ⊢
      exact ih _ _ hR' hs hshape value h
    · have hR' : ∃ m ∈ members, R source m := by
        cases source with
        | named a => exact absurd rfl (hname a)
        | union inner => exact absurd rfl (hunion inner)
        | _ => exact hjust
      obtain ⟨m, hm, hR'⟩ := hR'
      exact ⟨m, hm, ih _ _ hR' hs (ht.union m hm) value h⟩
    · have hR' : ∀ m ∈ members, R source m := by
        cases source with
        | named a => exact absurd rfl (hname a)
        | union inner => exact absurd rfl (hunion inner)
        | _ => exact hjust
      exact fun m hm => ih _ _ (hR' m hm) hs (ht.intersection m hm) value h

/-- An object type in a consistent relation: what is not opened in the target is
an object type as well. -/
theorem conformsUpto_of_object {shape : Shape} {target : Ty} (hst : R (.object shape) target)
    (hs : part.Plain (.object shape)) (ht : part.Plain target) {value : Value}
    (h : Conforms table s (.object shape) value) :
    conformsUpto table s (depth + 1) target value := by
  have hopen := conformsUpto_of_open hR hpart ih hst hs ht (fun _ h => nomatch h)
  have hunion : ∀ members, Ty.object shape ≠ .union members := fun _ h => nomatch h
  have hjust := hR _ _ hst
  unfold Table.Justifies at hjust
  rcases hjust with rfl | hjust | rfl | hjust
  · exact h (depth + 1)
  · cases hjust
  · exact trivial
  · cases target with
    | named name => exact hopen (Or.inl ⟨name, rfl⟩) h
    | union members => exact hopen (Or.inr ⟨hunion, Or.inl ⟨members, rfl⟩⟩) h
    | intersection members => exact hopen (Or.inr ⟨hunion, Or.inr ⟨members, rfl⟩⟩) h
    | object wanted =>
      obtain ⟨o, rfl, hall⟩ := h.property hs
      refine ⟨o, rfl, fun p hp => ?_⟩
      have hp' := hjust p hp
      split at hp'
      · next found hfound =>
        have hmem := List.mem_of_find?_eq_some hfound
        have hname : found.name = p.name := by simpa using List.find?_some hfound
        obtain ⟨w, hw, hconf⟩ := hall found hmem
        unfold Property.HoldsIn
        rw [← hname, hw]
        exact ih _ _ hp'.2 (hs.property found hmem).1 (ht.property p hp).1 w hconf
      · -- a property that the source lacks would have to be optional
        rw [(ht.property p hp).2] at hp'
        exact absurd hp' (by simp)
    | primitive p => exact absurd hjust id
    | function signature => exact absurd hjust id
    | unknown => exact trivial

/-- A primitive type in a consistent relation: what is not opened in the target is
the same primitive type. -/
theorem conformsUpto_of_primitive {p : Primitive} {target : Ty} (hst : R (.primitive p) target)
    (hs : part.Plain (.primitive p)) (ht : part.Plain target) {value : Value}
    (h : Conforms table s (.primitive p) value) :
    conformsUpto table s (depth + 1) target value := by
  have hopen := conformsUpto_of_open hR hpart ih hst hs ht (fun _ h => nomatch h)
  have hunion : ∀ members, Ty.primitive p ≠ .union members := fun _ h => nomatch h
  have hjust := hR _ _ hst
  unfold Table.Justifies at hjust
  rcases hjust with rfl | hjust | rfl | hjust
  · exact h (depth + 1)
  · cases hjust
  · exact trivial
  · cases target with
    | named name => exact hopen (Or.inl ⟨name, rfl⟩) h
    | union members => exact hopen (Or.inr ⟨hunion, Or.inl ⟨members, rfl⟩⟩) h
    | intersection members => exact hopen (Or.inr ⟨hunion, Or.inr ⟨members, rfl⟩⟩) h
    | primitive q =>
      have heq : p = q := hjust
      subst heq
      exact h (depth + 1)
    | _ => exact absurd hjust id

/-- The name of an interface in a consistent relation: it stands for the object
type of its members, against a name as against any other type. -/
theorem conformsUpto_of_named {a : String} {target : Ty} (hst : R (.named a) target)
    (hs : part.Plain (.named a)) (ht : part.Plain target) {value : Value}
    (h : Conforms table s (.named a) value) :
    conformsUpto table s (depth + 1) target value := by
  have hjust := hR _ _ hst
  unfold Table.Justifies at hjust
  obtain ⟨shape, hexpand, hshape⟩ := hs.expand hpart
  have hobject := Conforms.named_iff.mp h
  rw [hexpand] at hobject
  rcases hjust with rfl | hjust | rfl | hjust
  · exact h (depth + 1)
  · cases hjust
  · exact trivial
  · have hrest : R (table.expand a) target → conformsUpto table s (depth + 1) target value := by
      intro hst
      rw [hexpand] at hst
      exact conformsUpto_of_object hR hpart ih hst hshape ht hobject
    cases target with
    | named b =>
      -- both sides are opened at once, which takes one step of the depth
      obtain ⟨shape', hexpand', hshape'⟩ := ht.expand hpart
      have hjust : R (table.expand a) (table.expand b) := hjust
      rw [hexpand, hexpand'] at hjust
      show conformsUpto table s depth (table.expand b) value
      rw [hexpand']
      exact ih _ _ hjust hshape hshape' value hobject
    | _ => exact hrest hjust

/-- Any types in a consistent relation: the source is opened down to an object
or a primitive type, and then the target is. -/
theorem conformsUpto_of_related (source : Ty) {target : Ty} (hst : R source target)
    (hs : part.Plain source) (ht : part.Plain target) {value : Value}
    (h : Conforms table s source value) : conformsUpto table s (depth + 1) target value := by
  have hopen := conformsUpto_of_open hR hpart ih hst hs ht
  have hjust := hR source target hst
  unfold Table.Justifies at hjust
  rcases hjust with rfl | rfl | rfl | hjust
  · exact h (depth + 1)
  · exact absurd hs.self id
  · exact trivial
  · cases source with
    | object shape => exact conformsUpto_of_object hR hpart ih hst hs ht h
    | function signature => exact absurd hs.self id
    | unknown => exact absurd hs.self id
    | named a => exact conformsUpto_of_named hR hpart ih hst hs ht h
    | primitive p => exact conformsUpto_of_primitive hR hpart ih hst hs ht h
    | union members =>
      have hrest : (∀ m ∈ members, R m target) →
          conformsUpto table s (depth + 1) target value := by
        intro hmembers
        obtain ⟨m, hm, hconf⟩ := Conforms.union_iff.mp h
        have hlt := Ty.sizeOf_lt_union hm
        exact conformsUpto_of_related m (hmembers m hm) (hs.union m hm) ht hconf
      cases target with
      | named name => exact hopen (fun _ h => nomatch h) (Or.inl ⟨name, rfl⟩) h
      | _ => exact hrest hjust
    | intersection members =>
      -- one member is related by itself, or all of them are merged into one shape
      have hrest : ((∃ m ∈ members, R m target) ∨ ∃ shape,
          table.HasShape (.intersection members) shape ∧ R (.object shape) target) →
          conformsUpto table s (depth + 1) target value := by
        rintro (⟨m, hm, hmember⟩ | ⟨shape, ⟨effort, hshape⟩, hst⟩)
        · have hlt := Ty.sizeOf_lt_intersection hm
          exact conformsUpto_of_related m hmember (hs.intersection m hm) ht
            (Conforms.intersection_iff.mp h m hm)
        · exact conformsUpto_of_object hR hpart ih hst (hs.shape hpart hshape) ht
            (h.shape hshape)
      cases target with
      | named name => exact hopen (fun _ h => nomatch h) (Or.inl ⟨name, rfl⟩) h
      | union members =>
        exact hopen (fun _ h => nomatch h)
          (Or.inr (And.intro (fun _ h => nomatch h) (Or.inl ⟨members, rfl⟩))) h
      | intersection members =>
        exact hopen (fun _ h => nomatch h)
          (Or.inr (And.intro (fun _ h => nomatch h) (Or.inr ⟨members, rfl⟩))) h
      | _ => exact hrest hjust
termination_by sizeOf source

end Fits

/-- What conforms to a plain type conforms to every plain type where that one
fits. -/
theorem conforms_of_fits (hpart : part.IsPlainPartOf table) {effort : Nat} {source target : Ty}
    (hfits : table.fits? effort source target = some true) (hs : part.Plain source)
    (ht : part.Plain target) {value : Value} (h : Conforms table s source value) :
    Conforms table s target value := by
  obtain ⟨R, hR, hst⟩ := Table.Compatible.of_fits hfits
  suffices hdepth : ∀ depth source target, R source target → part.Plain source →
      part.Plain target → ∀ value, Conforms table s source value →
        conformsUpto table s depth target value from
    fun depth => hdepth depth source target hst hs ht value h
  intro depth
  induction depth with
  | zero => intro _ _ _ _ _ _ _; exact trivial
  | succ depth ih =>
    intro source target hst hs ht value h
    exact conformsUpto_of_related hR hpart ih source hst hs ht h

/-! ## Properties -/

namespace Table

variable {effort : Nat} {name : String}

/-- The property of a type that is neither unknown nor a union is that of its shape. -/
theorem exists_of_property? {type found : Ty}
    (h : table.property? effort name type = some (some found)) (hunknown : type ≠ .unknown)
    (hunion : ∀ members, type ≠ .union members) :
    ∃ shape p, table.shape? effort type = some (some shape) ∧ shape.find? name = some p ∧
      p.type = found := by
  have hshape : (table.shape? effort type).bind
      (fun shape? => some (shape?.bind fun shape => (shape.find? name).map (·.type))) =
        some (some found) → ∃ shape p, table.shape? effort type = some (some shape) ∧
          shape.find? name = some p ∧ p.type = found := by
    intro h
    obtain ⟨shape?, hshape, hfound⟩ := Option.bind_eq_some_iff.mp h
    obtain ⟨shape, rfl, hfind⟩ := Option.bind_eq_some_iff.mp (Option.some.inj hfound)
    obtain ⟨p, hp, htype⟩ := Option.map_eq_some_iff.mp hfind
    exact ⟨shape, p, hshape, hp, htype⟩
  cases type with
  | unknown => exact absurd rfl hunknown
  | union members => exact absurd rfl (hunion members)
  | _ => unfold property? at h; exact hshape h

/-- The property of a union is the union of what its members give it. -/
theorem property?_union {members : List Ty} {found : Ty} :
    table.property? effort name (.union members) = some (some found) ↔
      ∃ types, table.propertyOfEach? effort name members = some (some types) ∧
        .unionOf types = found := by
  unfold property?
  constructor
  · intro h
    obtain ⟨types?, htypes, h⟩ := Option.bind_eq_some_iff.mp h
    obtain ⟨types, rfl, heq⟩ := Option.map_eq_some_iff.mp (Option.some.inj h)
    exact ⟨types, htypes, heq⟩
  · rintro ⟨types, htypes, rfl⟩
    rw [htypes]
    rfl

/-- Of some types that all have a property, each gives it one of the types found, and no other
types are found. -/
theorem exists_of_propertyOfEach? {types found : List Ty}
    (h : table.propertyOfEach? effort name types = some (some found)) :
    (∀ m ∈ types, ∃ f ∈ found, table.property? effort name m = some (some f)) ∧
      ∀ f ∈ found, ∃ m ∈ types, table.property? effort name m = some (some f) := by
  induction types generalizing found with
  | nil =>
    unfold propertyOfEach? at h
    cases h
    exact ⟨fun _ hm => absurd hm List.not_mem_nil, fun _ hf => absurd hf List.not_mem_nil⟩
  | cons type rest ih =>
    unfold propertyOfEach? at h
    obtain ⟨first?, hfirst, h⟩ := Option.bind_eq_some_iff.mp h
    cases first? with
    | none => cases h
    | some first =>
      obtain ⟨others?, hothers, h⟩ := Option.bind_eq_some_iff.mp h
      obtain ⟨others, rfl, rfl⟩ := Option.map_eq_some_iff.mp (Option.some.inj h)
      obtain ⟨hgive, hgiven⟩ := ih hothers
      constructor
      · intro m hm
        rcases List.mem_cons.mp hm with rfl | hm
        · exact ⟨first, List.mem_cons_self .., hfirst⟩
        · obtain ⟨f, hf, hfound⟩ := hgive m hm
          exact ⟨f, List.mem_cons_of_mem _ hf, hfound⟩
      · intro f hf
        rcases List.mem_cons.mp hf with rfl | hf
        · exact ⟨type, List.mem_cons_self .., hfirst⟩
        · obtain ⟨m, hm, hfound⟩ := hgiven f hf
          exact ⟨m, List.mem_cons_of_mem _ hm, hfound⟩

end Table

/-- A value that conforms to a plain type has each property of the type, and the
value of the property conforms to its type, which is plain. -/
theorem exists_property_of_conforms (hpart : part.IsPlainPartOf table) {effort : Nat}
    {name : String} (type : Ty) (hplain : part.Plain type) {found : Ty}
    (hfound : table.property? effort name type = some (some found)) :
    part.Plain found ∧ ∀ value, Conforms table s type value →
      ∃ o w, value = .object o ∧ (s.properties o).get? name = some w ∧
        Conforms table s found w := by
  cases type with
  | unknown => exact absurd hplain.self id
  | union members =>
    obtain ⟨types, htypes, rfl⟩ := Table.property?_union.mp hfound
    -- each member has the property, and the union is of what the members give
    obtain ⟨hgive, hgiven⟩ := Table.exists_of_propertyOfEach? htypes
    have hmember : ∀ m ∈ members, ∀ f, table.property? effort name m = some (some f) →
        part.Plain f ∧ ∀ value, Conforms table s m value →
          ∃ o w, value = .object o ∧ (s.properties o).get? name = some w ∧
            Conforms table s f w := by
      intro m hm f hf
      have hlt := Ty.sizeOf_lt_union hm
      exact exists_property_of_conforms hpart m (hplain.union m hm) hf
    refine ⟨Table.plain_unionOf fun f hf => ?_, fun value h => ?_⟩
    · obtain ⟨m, hm, hproperty⟩ := hgiven f hf
      exact (hmember m hm f hproperty).1
    · obtain ⟨m, hm, h⟩ := Conforms.union_iff.mp h
      obtain ⟨f, hf, hproperty⟩ := hgive m hm
      obtain ⟨o, w, heq, hw, hconf⟩ := (hmember m hm f hproperty).2 value h
      exact ⟨o, w, heq, hw, hconf.unionOf hf⟩
  | _ =>
    obtain ⟨shape, p, hshape, hp, rfl⟩ := Table.exists_of_property? hfound (by simp) (by simp)
    have hmem := List.mem_of_find?_eq_some hp
    have hname : p.name = name := by simpa using List.find?_some hp
    have hpshape := hplain.shape hpart hshape
    refine ⟨(hpshape.property p hmem).1, fun value h => ?_⟩
    obtain ⟨o, rfl, hall⟩ := (h.shape hshape).property hpshape
    obtain ⟨w, hw, hconf⟩ := hall p hmem
    exact ⟨o, w, rfl, by rw [← hname]; exact hw, hconf⟩
termination_by sizeOf type

end TypedScript
