import TypedScript.Proofs.Bounds
import TypedScript.Proofs.Conformance

/-!
# Reading properties

The type of a property is asked of a type, and the property itself is read from a value. A
type that is no union has a property if its shape has it; a union has it if all its members
do, and the type of the property is the union of what they give it.

What is read is what the type promises (`Conforms.exists_getProperty`): if a value conforms to
one of the `Ty.alternatives` of a type, then it has the property with a value that conforms to
the type found for it, or it lacks a property that is optional there, and `undefined` is read,
which need not conform (`Conforms.getProperty_may_miss`). A value of a type with an alternative
that is unknown may be anything, so it has to be said that it is an object.

A type that fits where another is expected has all properties of that one, and their types
fit (`Table.exists_property_of_fits`). Both sides may be unions, so this rests on what unions
are bounds of. It takes types that are `Definite`: a property that may be missing need not be
there at all.
-/

namespace TypedScript

/-! ## The alternatives of a type -/

mutual

/-- What a value of a type may be: of one of the members of a union, taken apart if they are
unions themselves, and otherwise of the type. -/
def Ty.alternatives : Ty → List Ty
  | .union members => alternativesOfTypes members
  | other => [other]

/-- The alternatives of some types. -/
def alternativesOfTypes : List Ty → List Ty
  | [] => []
  | type :: rest => type.alternatives ++ alternativesOfTypes rest

end

theorem mem_alternativesOfTypes {x : Ty} {types : List Ty} :
    x ∈ alternativesOfTypes types ↔ ∃ type ∈ types, x ∈ type.alternatives := by
  induction types with
  | nil => simp [alternativesOfTypes]
  | cons type rest ih => simp [alternativesOfTypes, ih]

theorem Ty.mem_alternatives_union {x : Ty} {members : List Ty} :
    x ∈ (union members).alternatives ↔ ∃ m ∈ members, x ∈ m.alternatives := by
  rw [alternatives, mem_alternativesOfTypes]

theorem Ty.ne_union_of_mem_alternatives {x : Ty} (type : Ty) (hx : x ∈ type.alternatives)
    (members : List Ty) : x ≠ .union members := by
  cases type with
  | union types =>
    obtain ⟨m, hm, hx⟩ := mem_alternatives_union.mp hx
    have hlt := Ty.sizeOf_lt_union hm
    exact ne_union_of_mem_alternatives m hx members
  | _ => rw [List.mem_singleton.mp hx]; simp
termination_by sizeOf type

variable {table : Table} {s : Store} {effort : Nat} {name : String}

/-- A value of a type is of one of its alternatives. -/
theorem Conforms.exists_alternative {value : Value} (type : Ty)
    (h : Conforms table s type value) : ∃ a ∈ type.alternatives, Conforms table s a value := by
  cases type with
  | union members =>
    obtain ⟨m, hm, h⟩ := union_iff.mp h
    have hlt := Ty.sizeOf_lt_union hm
    obtain ⟨a, ha, h⟩ := exists_alternative m h
    exact ⟨a, Ty.mem_alternatives_union.mpr ⟨m, hm, ha⟩, h⟩
  | _ => exact ⟨_, List.mem_singleton_self _, h⟩
termination_by sizeOf type

/-! ## What is read from a value -/

/-- What an alternative of a type gives a property is good enough for the type. -/
theorem exists_property_of_mem_alternatives {a : Ty} (type : Ty) (ha : a ∈ type.alternatives)
    {found : Ty} (h : table.property? effort name type = some (some found)) :
    ∃ f, table.property? effort name a = some (some f) ∧
      ∀ value, Conforms table s f value → Conforms table s found value := by
  cases type with
  | union members =>
    obtain ⟨m, hm, ha⟩ := Ty.mem_alternatives_union.mp ha
    obtain ⟨types, htypes, rfl⟩ := Table.property?_union.mp h
    obtain ⟨f, hf, h⟩ := (Table.exists_of_propertyOfEach? htypes).1 m hm
    have hlt := Ty.sizeOf_lt_union hm
    obtain ⟨g, hg, hconf⟩ := exists_property_of_mem_alternatives m ha h
    exact ⟨g, hg, fun value hvalue => (hconf value hvalue).unionOf hf⟩
  | _ =>
    rw [List.mem_singleton.mp ha]
    exact ⟨found, h, fun _ hvalue => hvalue⟩
termination_by sizeOf type

/-- Whether a type has a property that is optional. -/
def Table.LetsMiss (table : Table) (effort : Nat) (name : String) (type : Ty) : Prop :=
  ∃ shape p, table.shape? effort type = some (some shape) ∧ shape.find? name = some p ∧
    p.isOptional = true

/-- Reading a property of a type that is neither unknown nor a union, from a value of the type,
gives a value that conforms to the type of the property, or nothing if that is optional. -/
theorem Conforms.getProperty_of_shape {type found : Ty} {value : Value}
    (hunknown : type ≠ .unknown) (hunion : ∀ members, type ≠ .union members)
    (h : Conforms table s type value)
    (hfound : table.property? effort name type = some (some found)) (position : Position) :
    ∃ result, s.getProperty value name position = .ok result ∧
      (Conforms table s found result ∨
        result = .undefined ∧ (∃ o, value = .object o ∧ (s.properties o).get? name = none) ∧
          table.LetsMiss effort name type) := by
  obtain ⟨shape, p, hshape, hp, rfl⟩ := Table.exists_of_property? hfound hunknown hunion
  have hname : p.name = name := by simpa using List.find?_some hp
  obtain ⟨o, rfl, hall⟩ := object_iff.mp (h.shape hshape)
  have hholds := hall p (List.mem_of_find?_eq_some hp)
  refine ⟨_, rfl, ?_⟩
  unfold Property.HoldsIn at hholds
  rw [hname] at hholds
  cases hget : (s.properties o).get? name with
  | some w =>
    rw [hget] at hholds
    exact Or.inl hholds
  | none =>
    rw [hget] at hholds
    exact Or.inr ⟨rfl, ⟨o, rfl, hget⟩, shape, p, hshape, hp, hholds⟩

/-- A value of a type has each property of the type: reading it gives a value that conforms to
the type found for the property. Only if the value is of an alternative of the type in which
the property is optional, it may lack it, and `undefined` is read; and of a type that leaves
something unknown it has to be an object. -/
theorem Conforms.exists_getProperty {type found : Ty} {value : Value}
    (hobject : .unknown ∈ type.alternatives → ∃ o, value = .object o)
    (h : Conforms table s type value)
    (hfound : table.property? effort name type = some (some found)) (position : Position) :
    ∃ result, s.getProperty value name position = .ok result ∧
      (Conforms table s found result ∨
        result = .undefined ∧ (∃ o, value = .object o ∧ (s.properties o).get? name = none) ∧
          ∃ a ∈ type.alternatives, Conforms table s a value ∧ table.LetsMiss effort name a) := by
  by_cases hunknown : .unknown ∈ type.alternatives
  · -- what is found for the property is unknown as well
    obtain ⟨o, rfl⟩ := hobject hunknown
    obtain ⟨f, hf, hconf⟩ := exists_property_of_mem_alternatives type hunknown hfound
    unfold Table.property? at hf
    cases hf
    exact ⟨_, rfl, Or.inl (hconf _ (.unknown _))⟩
  · obtain ⟨a, ha, h⟩ := h.exists_alternative
    obtain ⟨f, hf, hconf⟩ := exists_property_of_mem_alternatives type ha hfound
    have hne : a ≠ .unknown := fun heq => hunknown (heq ▸ ha)
    obtain ⟨result, hresult, hread⟩ :=
      h.getProperty_of_shape hne (Ty.ne_union_of_mem_alternatives type ha) hf position
    exact ⟨result, hresult, hread.imp (hconf result) fun ⟨hundefined, hlacks, hmiss⟩ =>
      ⟨hundefined, hlacks, a, ha, h, hmiss⟩⟩

/-- What is named, with or without a label, or is a sign: the name that is read is a text or
tells whether there is a sign. -/
theorem Conforms.exists_getProperty_of_named :
    let table : Table := ⟨.ofList [("Named", [⟨"name", .text, false⟩])]⟩
    let type : Ty := .union [.intersection [.named "Named", .object [⟨"label", .text, true⟩]],
      .object [⟨"name", .boolean, false⟩, ⟨"label", .number, false⟩]]
    let s : Store := ⟨#[], #[.ofList [("name", .text "n")]], #[]⟩
    Conforms table s type (.object ⟨0⟩) ∧
      table.property? 12 "name" type = some (some (.union [.text, .boolean])) ∧
      ∃ result, s.getProperty (.object ⟨0⟩) "name" .start = .ok result ∧
        Conforms table s (.union [.text, .boolean]) result := by
  intro table type s
  have hname : (s.properties ⟨0⟩).get? "name" = some (.text "n") := rfl
  have hlabel : (s.properties ⟨0⟩).get? "label" = none := rfl
  have hconforms : Conforms table s type (.object ⟨0⟩) := by
    refine Conforms.union_iff.mpr ⟨_, List.mem_cons_self .., intersection_iff.mpr ?_⟩
    have hexpand : table.expand "Named" = .object [⟨"name", .text, false⟩] := by decide +kernel
    simp [named_iff, hexpand, object_iff, Property.HoldsIn, hname, hlabel, text_iff]
  have hfound : table.property? 12 "name" type = some (some (.union [.text, .boolean])) := by
    decide +kernel
  obtain ⟨result, hresult, hread⟩ :=
    exists_getProperty (fun _ => ⟨⟨0⟩, rfl⟩) hconforms hfound .start
  refine ⟨hconforms, hfound, result, hresult, hread.resolve_right ?_⟩
  rintro ⟨-, ⟨o, heq, hmissing⟩, -⟩
  cases heq
  exact absurd (hname.symm.trans hmissing) (by simp)

/-- An object that lacks an optional number conforms to its type and gives `undefined`, which
is no number; and `undefined` is of a union with `unknown`, but has no properties. -/
theorem Conforms.getProperty_may_miss :
    let s : Store := ⟨#[], #[.empty], #[]⟩
    let optional : Ty := .object [⟨"a", .number, true⟩]
    let wide : Ty := .union [.unknown, .object [⟨"a", .number, false⟩]]
    (Conforms .empty s optional (.object ⟨0⟩) ∧
      Table.empty.property? 1 "a" optional = some (some .number) ∧
      s.getProperty (.object ⟨0⟩) "a" .start = .ok .undefined ∧
      ¬Conforms .empty s .number .undefined) ∧
    (wide ≠ .unknown ∧ Conforms .empty s wide .undefined ∧
      Table.empty.property? 1 "a" wide = some (some .unknown) ∧
      s.getProperty .undefined "a" .start =
        .error ⟨.unknownProperty "a" "undefined", .start⟩) := by
  intro s optional wide
  refine ⟨⟨?_, by decide +kernel, rfl, by simp [Conforms.number_iff]⟩, by simp [wide], ?_,
    by decide +kernel, rfl⟩
  · refine Conforms.object_iff.mpr ⟨⟨0⟩, rfl, fun p hp => ?_⟩
    cases List.mem_singleton.mp hp
    exact rfl
  · exact Conforms.union_iff.mpr ⟨.unknown, List.mem_cons_self .., .unknown _⟩

/-! ## Types that say what there is -/

namespace Table

/-- A part of a type of which nothing is left open: it is no intersection and not unknown, and
neither an object with an optional property, nor a union of no types, nor a name without a
declaration. -/
def DefinitePart (table : Table) : Ty → Prop
  | .unknown => False
  | .intersection _ => False
  | .named name => table.declares name = true
  | .object properties => ∀ p ∈ properties, p.isOptional = false
  | .union members => members ≠ []
  | _ => True

/-- A type that is definite at each depth. -/
def Definite (table : Table) (type : Ty) : Prop :=
  ∀ part ∈ type.parts, table.DefinitePart part

/-- A table whose interfaces are definite. -/
def AllDefinite (table : Table) : Prop :=
  ∀ name shape, table.interface? name = some shape → table.Definite (.object shape)

instance (table : Table) : DecidablePred table.DefinitePart
  | .unknown | .intersection _ => inferInstanceAs (Decidable False)
  | .named _ => inferInstanceAs (Decidable (_ = _))
  | .object properties => inferInstanceAs (Decidable (∀ p ∈ properties, p.isOptional = false))
  | .union members => inferInstanceAs (Decidable (members ≠ []))
  | .primitive _ | .function _ => inferInstanceAs (Decidable True)

instance (table : Table) (type : Ty) : Decidable (table.Definite type) :=
  inferInstanceAs (Decidable (∀ part ∈ type.parts, table.DefinitePart part))

theorem allDefinite_of_entries
    (h : ∀ entry ∈ table.interfaces.entries, table.Definite (.object entry.2)) :
    table.AllDefinite :=
  fun _ _ hname => h _ (Record.mem_entries_of_get? hname)

theorem Definite.self {type : Ty} (h : table.Definite type) : table.DefinitePart type :=
  Ty.Throughout.self h

theorem Definite.member {members : List Ty} (h : table.Definite (.union members)) {m : Ty}
    (hm : m ∈ members) : table.Definite m :=
  (Ty.Throughout.union_iff.mp h).2 m hm

theorem Definite.property {properties : List Property} (h : table.Definite (.object properties))
    {p : Property} (hp : p ∈ properties) : table.Definite p.type ∧ p.isOptional = false :=
  ⟨(Ty.Throughout.object_iff.mp h).2 p hp, h.self p hp⟩

theorem Definite.interface (htable : table.AllDefinite) {name : String}
    (h : table.Definite (.named name)) :
    ∃ shape, table.interface? name = some shape ∧ table.Definite (.object shape) := by
  obtain ⟨shape, hshape⟩ := Option.isSome_iff_exists.mp h.self
  exact ⟨shape, hshape, htable name shape hshape⟩

/-- A definite type contributes something to a union. -/
theorem Definite.unionMembers_ne_nil {type : Ty} (h : table.Definite type) :
    type.unionMembers ≠ [] := by
  cases type with
  | union members => exact h.self
  | _ => simp [Ty.unionMembers]

theorem flatMap_unionMembers_ne_nil {types : List Ty} (hne : types ≠ [])
    (h : ∀ type ∈ types, table.Definite type) : types.flatMap Ty.unionMembers ≠ [] := by
  obtain ⟨type, htype⟩ := List.exists_mem_of_ne_nil _ hne
  obtain ⟨m, hm⟩ := List.exists_mem_of_ne_nil _ (h type htype).unionMembers_ne_nil
  exact List.ne_nil_of_mem (List.mem_flatMap.mpr ⟨type, htype, hm⟩)

/-- The union that is built from definite types is definite. -/
theorem definite_unionOf {types : List Ty} (hne : types ≠ [])
    (h : ∀ type ∈ types, table.Definite type) : table.Definite (.unionOf types) := by
  have hflat : ∀ m ∈ types.flatMap Ty.unionMembers, table.Definite m := by
    intro m hm part hpart
    obtain ⟨type, htype, hm⟩ := List.mem_flatMap.mp hm
    exact h type htype part (Ty.mem_unionMembers_parts hm hpart)
  rcases unionOf_eq types with heq | ⟨members, heq, hmembers, hmem⟩ | hall
  · -- what is unknown would be a part of one of the types
    have hself : Ty.unknown ∈ (Ty.unionOf types).parts := heq ▸ Ty.mem_parts_self _
    rcases Ty.mem_parts_unionOf hself with ⟨type, htype, hpart⟩ | ⟨_, heq⟩ | heq
    · exact (h type htype _ hpart).elim
    · cases heq
    · cases heq
  · rw [heq]
    exact Ty.Throughout.union_iff.mpr ⟨hmembers, fun m hm => hflat m ((hmem m).mp hm)⟩
  · obtain ⟨m, hm⟩ := List.exists_mem_of_ne_nil _ (flatMap_unionMembers_ne_nil hne h)
    exact hall m hm ▸ hflat m hm

/-! ## Properties of types that fit -/

theorem property?_object {shape : Shape} {p : Property} (h : shape.find? name = some p)
    (effort : Nat) : table.property? effort name (.object shape) = some (some p.type) := by
  unfold property? shape? shapeOf?
  simp [h]

theorem property?_named {declared : String} {shape : Shape} {p : Property}
    (hinterface : table.interface? declared = some shape) (h : shape.find? name = some p)
    (effort : Nat) : table.property? effort name (.named declared) = some (some p.type) := by
  unfold property? shape? shapeOf?
  simp [hinterface, h]

/-- Types that each have a property, whatever effort it takes to tell it, have it together. -/
theorem exists_propertyOfEach? {P : Ty → Prop} {types : List Ty}
    (h : ∀ type ∈ types, ∃ found, P found ∧
      ∀ effort, table.property? effort name type = some (some found)) :
    ∃ founds, founds.length = types.length ∧ (∀ found ∈ founds, P found) ∧
      ∀ effort, table.propertyOfEach? effort name types = some (some founds) := by
  induction types with
  | nil => exact ⟨[], rfl, fun _ hf => absurd hf List.not_mem_nil, fun _ => rfl⟩
  | cons type rest ih =>
    obtain ⟨found, hfound, hproperty⟩ := h type (List.mem_cons_self ..)
    obtain ⟨founds, hlength, hfounds, hrest⟩ := ih fun t ht => h t (List.mem_cons_of_mem _ ht)
    refine ⟨found :: founds, by simp [hlength], ?_, fun effort => ?_⟩
    · intro f hf
      rcases List.mem_cons.mp hf with rfl | hf
      · exact hfound
      · exact hfounds f hf
    · unfold propertyOfEach?
      simp [hproperty effort, hrest effort]

/-- What is neither a union nor a name and fits where an object type is expected is an object
type with the same properties. -/
theorem exists_property_of_object {source : Ty} {wanted : Shape} {p : Property}
    (hs : table.Definite source) (hunion : ∀ members, source ≠ .union members)
    (hnamed : ∀ name, source ≠ .named name) (hwanted : table.Definite (.object wanted))
    (hst : table.Compatible source (.object wanted)) (hp : wanted.find? name = some p) :
    ∃ (shape : Shape) (q : Property), source = .object shape ∧ shape.find? name = some q ∧
      table.Compatible q.type p.type := by
  have hname : p.name = name := by simpa using List.find?_some hp
  have hmem : p ∈ wanted := List.mem_of_find?_eq_some hp
  have hj := consistent_compatible _ _ hst
  unfold Justifies at hj
  rcases hj with rfl | rfl | hj | hj
  · exact ⟨wanted, p, rfl, hp, .refl _⟩
  · exact hs.self.elim
  · cases hj
  · cases source with
    | object shape =>
      have hfit := hj p hmem
      rw [hname] at hfit
      cases hq : Shape.find? shape name with
      | none => rw [hq, (hwanted.property hmem).2] at hfit; exact absurd hfit (by simp)
      | some q => rw [hq] at hfit; exact ⟨shape, q, rfl, hq, hfit.2⟩
    | union members => exact absurd rfl (hunion members)
    | named declared => exact absurd rfl (hnamed declared)
    | intersection members => exact hs.self.elim
    | _ => exact hj.elim

section Subsumption

variable (htable : table.AllDefinite)
include htable

/-- What is neither a union nor a name and fits where a type with a property is expected is an
object type with that property. -/
theorem exists_property_of_compatible {source : Ty} (target : Ty) {found : Ty}
    (hs : table.Definite source) (hunion : ∀ members, source ≠ .union members)
    (hnamed : ∀ name, source ≠ .named name) (ht : table.Definite target)
    (hst : table.Compatible source target)
    (hfound : table.property? effort name target = some (some found)) :
    ∃ (shape : Shape) (p : Property), source = .object shape ∧ shape.find? name = some p ∧
      table.Compatible p.type found := by
  cases target with
  | unknown => exact ht.self.elim
  | intersection members => exact ht.self.elim
  | union members =>
    obtain ⟨types, htypes, rfl⟩ := property?_union.mp hfound
    -- the source fits one member, and what that gives the property is among what is found
    rcases hst.exists_member hunion hnamed with rfl | ⟨m, hm, hsm⟩
    · exact hs.self.elim
    · obtain ⟨f, hf, hfound⟩ := (exists_of_propertyOfEach? htypes).1 m hm
      have hlt := Ty.sizeOf_lt_union hm
      obtain ⟨shape, p, hshape, hp, hfits⟩ :=
        exists_property_of_compatible m hs hunion hnamed (ht.member hm) hsm hfound
      exact ⟨shape, p, hshape, hp, hfits.unionOf_right hf⟩
  | named declared =>
    obtain ⟨wanted, hinterface, hwanted⟩ := ht.interface htable
    obtain ⟨_, p, hshape, hp, rfl⟩ := exists_of_property? hfound (by simp) (by simp)
    cases hshape.symm.trans (congrArg some hinterface)
    refine exists_property_of_object hs hunion hnamed hwanted ?_ hp
    rw [← expand_of_interface? hinterface]
    exact compatible_opened_right.mpr hst
  | object wanted =>
    obtain ⟨_, p, hshape, hp, rfl⟩ := exists_of_property? hfound (by simp) (by simp)
    cases hshape
    exact exists_property_of_object hs hunion hnamed ht hst hp
  | _ =>
    obtain ⟨_, _, hshape, -⟩ := exists_of_property? hfound (by simp) (by simp)
    cases hshape
termination_by sizeOf target

/-- A definite type that fits where a type with a property is expected has the property, and
its type fits where that of the other is expected. -/
theorem exists_definite_property (source : Ty) {target found : Ty} (hs : table.Definite source)
    (ht : table.Definite target) (hst : table.Compatible source target)
    (hfound : table.property? effort name target = some (some found)) :
    ∃ type, (table.Definite type ∧ table.Compatible type found) ∧
      ∀ effort, table.property? effort name source = some (some type) := by
  cases source with
  | union members =>
    obtain ⟨types, hlength, htypes, hproperty⟩ := exists_propertyOfEach? fun m hm => by
      have hlt := Ty.sizeOf_lt_union hm
      exact exists_definite_property m (hs.member hm) ht (compatible_union_left.mp hst m hm) hfound
    -- no types at all would make `void`, which fits hardly anywhere
    have hne : types ≠ [] := by
      rintro rfl
      exact hs.self (List.length_eq_zero_iff.mp hlength.symm)
    have hdefinite : ∀ type ∈ types, table.Definite type := fun type htype => (htypes type htype).1
    exact ⟨.unionOf types, ⟨definite_unionOf hne hdefinite,
        .unionOf_left (flatMap_unionMembers_ne_nil hne hdefinite)
          fun type htype => (htypes type htype).2⟩,
      fun effort => property?_union.mpr ⟨types, hproperty effort, rfl⟩⟩
  | named declared =>
    obtain ⟨shape, hinterface, hshape⟩ := hs.interface htable
    have hopened : table.Compatible (.object shape) target := by
      rw [← expand_of_interface? hinterface]
      exact compatible_opened_left.mpr hst
    obtain ⟨_, p, heq, hp, hfits⟩ :=
      exists_property_of_compatible htable target hshape (by simp) (by simp) ht hopened hfound
    cases heq
    exact ⟨p.type, ⟨(hshape.property (List.mem_of_find?_eq_some hp)).1, hfits⟩,
      property?_named hinterface hp⟩
  | object shape =>
    obtain ⟨_, p, heq, hp, hfits⟩ :=
      exists_property_of_compatible htable target hs (by simp) (by simp) ht hst hfound
    cases heq
    exact ⟨p.type, ⟨(hs.property (List.mem_of_find?_eq_some hp)).1, hfits⟩, property?_object hp⟩
  | _ =>
    obtain ⟨_, _, heq, -⟩ :=
      exists_property_of_compatible htable target hs (by simp) (by simp) ht hst hfound
    cases heq
termination_by sizeOf source

/-- Of two definite types, in a table of definite interfaces, if the first fits where the
second is expected and the second has a property, then the first has the property as well, and
the answer to the question whether its type fits where the other's is expected is yes, if there
is one. -/
theorem exists_property_of_fits {source target found : Ty} (hs : table.Definite source)
    (ht : table.Definite target) {effort' : Nat}
    (hst : table.fits? effort source target = some true)
    (hfound : table.property? effort' name target = some (some found)) :
    ∃ type, (∀ more, table.property? more name source = some (some type)) ∧
      ∀ more answer, table.fits? more type found = some answer → answer = true := by
  obtain ⟨type, ⟨-, hfits⟩, hproperty⟩ :=
    exists_definite_property htable source hs ht (.of_fits hst) hfound
  exact ⟨type, hproperty, fun _ _ => hfits.eq_true⟩

end Subsumption

/-- A cell of a list, or a note that is followed by a text or by a link, where a link or a note
that is followed by a text is expected: each union has members that the other lacks, and the
lists refer to themselves. -/
theorem exists_property_of_fits_of_lists :
    let table : Table := ⟨.ofList
      [("Cell", [⟨"next", .named "Cell", false⟩, ⟨"size", .number, false⟩]),
        ("Link", [⟨"next", .named "Link", false⟩])]⟩
    let note : Ty := .object [⟨"next", .text, false⟩]
    let source : Ty := .union [.named "Cell",
      .union [.object [⟨"size", .number, false⟩, ⟨"next", .text, false⟩], .named "Link"]]
    let target : Ty := .union [note, .named "Link"]
    let type : Ty := .union [.named "Cell", .text, .named "Link"]
    let found : Ty := .union [.text, .named "Link"]
    table.AllDefinite ∧ table.Definite source ∧ table.Definite target ∧
      table.fits? 12 source target = some true ∧
      table.property? 12 "next" target = some (some found) ∧
      table.property? 12 "next" source = some (some type) ∧
      table.fits? 12 type found = some true := by
  intro table note source target type found
  have htable : table.AllDefinite := allDefinite_of_entries (by decide +kernel)
  have hs : table.Definite source := by decide +kernel
  have ht : table.Definite target := by decide +kernel
  have hst : table.fits? 12 source target = some true := by decide +kernel
  have hfound : table.property? 12 "next" target = some (some found) := by decide +kernel
  have htype : table.property? 12 "next" source = some (some type) := by decide +kernel
  have hended : (table.fits? 12 type found).isSome = true := by decide +kernel
  obtain ⟨answer, hanswer⟩ := Option.isSome_iff_exists.mp hended
  obtain ⟨other, hother, hfits⟩ := exists_property_of_fits htable hs ht hst hfound
  cases htype.symm.trans (hother 12)
  exact ⟨htable, hs, ht, hst, hfound, htype, hfits 12 answer hanswer ▸ hanswer⟩

end Table

end TypedScript
