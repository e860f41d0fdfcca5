import TypedScript.Types.Denotation

/-!
# The parts of a type

`Ty.parts` lists a type and all that it is built from, and `TypeExpr.parts` does
so for a written type. Statements about every depth of a type are statements
about its parts: a part of a part is a part (`Ty.parts_trans`), and the parts of
what a written type denotes come from parts of what is written
(`TypeExpr.yields_of_mem_parts`), as building unions and intersections makes up
no other types.
-/

namespace TypedScript

mutual

/-- A type and all types that it is built from. -/
def Ty.parts : Ty → List Ty
  | .object properties => .object properties :: partsOfProperties properties
  | .function signature => .function signature :: signature.parts
  | .union members => .union members :: partsOfTypes members
  | .intersection members => .intersection members :: partsOfTypes members
  | other => [other]

/-- The parts of the type of a property. -/
def Property.parts : Property → List Ty
  | ⟨_, type, _⟩ => type.parts

/-- The parts of the types of the parameters and of the result. -/
def Signature.parts : Signature → List Ty
  | ⟨params, _, _, result⟩ => partsOfTypes params ++ result.parts

/-- The parts of some types. -/
def partsOfTypes : List Ty → List Ty
  | [] => []
  | type :: rest => type.parts ++ partsOfTypes rest

/-- The parts of the types of some properties. -/
def partsOfProperties : List Property → List Ty
  | [] => []
  | property :: rest => property.parts ++ partsOfProperties rest

end

theorem Property.parts_eq (property : Property) : property.parts = property.type.parts := by
  obtain ⟨_, _, _⟩ := property
  rw [Property.parts]

theorem Signature.parts_eq (signature : Signature) :
    signature.parts = partsOfTypes signature.params ++ signature.result.parts := by
  obtain ⟨_, _, _, _⟩ := signature
  rw [Signature.parts]

theorem mem_partsOfTypes {x : Ty} {types : List Ty} :
    x ∈ partsOfTypes types ↔ ∃ type ∈ types, x ∈ type.parts := by
  induction types with
  | nil => simp [partsOfTypes]
  | cons type rest ih => simp [partsOfTypes, ih]

theorem mem_partsOfProperties {x : Ty} {properties : List Property} :
    x ∈ partsOfProperties properties ↔ ∃ p ∈ properties, x ∈ p.type.parts := by
  induction properties with
  | nil => simp [partsOfProperties]
  | cons p rest ih => simp [partsOfProperties, Property.parts_eq, ih]

theorem mem_partsOfSignature {x : Ty} {signature : Signature} :
    x ∈ signature.parts ↔
      (∃ p ∈ signature.params, x ∈ p.parts) ∨ x ∈ signature.result.parts := by
  rw [Signature.parts_eq, List.mem_append, mem_partsOfTypes]

namespace Ty

theorem mem_parts_self (type : Ty) : type ∈ type.parts := by
  cases type <;> simp [parts]

theorem mem_parts_object {x : Ty} {properties : List Property} :
    x ∈ (object properties).parts ↔ x = object properties ∨ ∃ p ∈ properties, x ∈ p.type.parts := by
  rw [parts, List.mem_cons, mem_partsOfProperties]

theorem mem_parts_function {x : Ty} {signature : Signature} :
    x ∈ (function signature).parts ↔ x = function signature ∨
      (∃ p ∈ signature.params, x ∈ p.parts) ∨ x ∈ signature.result.parts := by
  rw [parts, List.mem_cons, mem_partsOfSignature]

theorem mem_parts_union {x : Ty} {members : List Ty} :
    x ∈ (union members).parts ↔ x = union members ∨ ∃ m ∈ members, x ∈ m.parts := by
  rw [parts, List.mem_cons, mem_partsOfTypes]

theorem mem_parts_intersection {x : Ty} {members : List Ty} :
    x ∈ (intersection members).parts ↔ x = intersection members ∨ ∃ m ∈ members, x ∈ m.parts := by
  rw [parts, List.mem_cons, mem_partsOfTypes]

theorem sizeOf_lt_union {m : Ty} {members : List Ty} (hm : m ∈ members) :
    sizeOf m < sizeOf (union members) := by
  have hlt := List.sizeOf_lt_of_mem hm
  rw [union.sizeOf_spec]
  omega

theorem sizeOf_lt_intersection {m : Ty} {members : List Ty} (hm : m ∈ members) :
    sizeOf m < sizeOf (intersection members) := by
  have hlt := List.sizeOf_lt_of_mem hm
  rw [intersection.sizeOf_spec]
  omega

theorem sizeOf_lt_object {p : Property} {properties : List Property} (hp : p ∈ properties) :
    sizeOf p.type < sizeOf (object properties) := by
  have hlt := List.sizeOf_lt_of_mem hp
  obtain ⟨name, type, isOptional⟩ := p
  rw [Property.mk.sizeOf_spec] at hlt
  rw [object.sizeOf_spec]
  dsimp only
  omega

theorem sizeOf_lt_param {p : Ty} {signature : Signature} (hp : p ∈ signature.params) :
    sizeOf p < sizeOf (function signature) := by
  have hlt := List.sizeOf_lt_of_mem hp
  obtain ⟨params, required, isVariadic, result⟩ := signature
  dsimp only at hlt
  rw [function.sizeOf_spec, Signature.mk.sizeOf_spec]
  omega

theorem sizeOf_lt_result (signature : Signature) :
    sizeOf signature.result < sizeOf (function signature) := by
  obtain ⟨params, required, isVariadic, result⟩ := signature
  rw [function.sizeOf_spec, Signature.mk.sizeOf_spec]
  dsimp only
  omega

end Ty

mutual

/-- A part of a part is a part. -/
theorem Ty.parts_trans {x y : Ty} (type : Ty) (hx : x ∈ type.parts) (hy : y ∈ x.parts) :
    y ∈ type.parts := by
  cases type with
  | object properties =>
    rcases List.mem_cons.mp hx with rfl | hx
    · exact hy
    · exact List.mem_cons_of_mem _ (partsOfProperties_trans properties hx hy)
  | function signature =>
    rcases List.mem_cons.mp hx with rfl | hx
    · exact hy
    · exact List.mem_cons_of_mem _ (Signature.parts_trans signature hx hy)
  | union members =>
    rcases List.mem_cons.mp hx with rfl | hx
    · exact hy
    · exact List.mem_cons_of_mem _ (partsOfTypes_trans members hx hy)
  | intersection members =>
    rcases List.mem_cons.mp hx with rfl | hx
    · exact hy
    · exact List.mem_cons_of_mem _ (partsOfTypes_trans members hx hy)
  | primitive _ => rw [List.mem_singleton.mp hx] at hy; exact hy
  | named _ => rw [List.mem_singleton.mp hx] at hy; exact hy
  | unknown => rw [List.mem_singleton.mp hx] at hy; exact hy

theorem Property.parts_trans {x y : Ty} (property : Property) (hx : x ∈ property.parts)
    (hy : y ∈ x.parts) : y ∈ property.parts := by
  obtain ⟨_, type, _⟩ := property
  exact Ty.parts_trans type hx hy

theorem Signature.parts_trans {x y : Ty} (signature : Signature) (hx : x ∈ signature.parts)
    (hy : y ∈ x.parts) : y ∈ signature.parts := by
  obtain ⟨params, _, _, result⟩ := signature
  rcases List.mem_append.mp hx with hx | hx
  · exact List.mem_append_left _ (partsOfTypes_trans params hx hy)
  · exact List.mem_append_right _ (Ty.parts_trans result hx hy)

theorem partsOfTypes_trans {x y : Ty} (types : List Ty) (hx : x ∈ partsOfTypes types)
    (hy : y ∈ x.parts) : y ∈ partsOfTypes types := by
  cases types with
  | nil => exact absurd hx List.not_mem_nil
  | cons type rest =>
    rcases List.mem_append.mp hx with hx | hx
    · exact List.mem_append_left _ (Ty.parts_trans type hx hy)
    · exact List.mem_append_right _ (partsOfTypes_trans rest hx hy)

theorem partsOfProperties_trans {x y : Ty} (properties : List Property)
    (hx : x ∈ partsOfProperties properties) (hy : y ∈ x.parts) :
    y ∈ partsOfProperties properties := by
  cases properties with
  | nil => exact absurd hx List.not_mem_nil
  | cons property rest =>
    rcases List.mem_append.mp hx with hx | hx
    · exact List.mem_append_left _ (Property.parts_trans property hx hy)
    · exact List.mem_append_right _ (partsOfProperties_trans rest hx hy)

end

/-! ## Conditions at every depth -/

/-- A condition holds of a type and of all types that it is built from. -/
def Ty.Throughout (P : Ty → Prop) (type : Ty) : Prop :=
  ∀ part ∈ type.parts, P part

namespace Ty.Throughout

variable {P : Ty → Prop} {type : Ty}

theorem self (h : type.Throughout P) : P type :=
  h type type.mem_parts_self

theorem part (h : type.Throughout P) {x : Ty} (hx : x ∈ type.parts) : x.Throughout P :=
  fun y hy => h y (parts_trans type hx hy)

/-- A type that is built from no others. -/
theorem leaf (htype : type.parts = [type]) (h : P type) : type.Throughout P := by
  intro part hpart
  rw [htype] at hpart
  rw [List.mem_singleton.mp hpart]
  exact h

theorem object_iff {properties : List Property} : (object properties).Throughout P ↔
    P (object properties) ∧ ∀ p ∈ properties, p.type.Throughout P := by
  constructor
  · exact fun h => ⟨h.self, fun p hp => h.part (mem_parts_object.mpr
      (Or.inr ⟨p, hp, p.type.mem_parts_self⟩))⟩
  · intro h part hpart
    rcases mem_parts_object.mp hpart with rfl | ⟨p, hp, hpart⟩
    · exact h.1
    · exact h.2 p hp part hpart

theorem function_iff {signature : Signature} : (function signature).Throughout P ↔
    P (function signature) ∧ (∀ p ∈ signature.params, p.Throughout P) ∧
      signature.result.Throughout P := by
  constructor
  · exact fun h => ⟨h.self, fun p hp => h.part (mem_parts_function.mpr
      (Or.inr (Or.inl ⟨p, hp, p.mem_parts_self⟩))), h.part (mem_parts_function.mpr
      (Or.inr (Or.inr signature.result.mem_parts_self)))⟩
  · intro h part hpart
    rcases mem_parts_function.mp hpart with rfl | ⟨p, hp, hpart⟩ | hpart
    · exact h.1
    · exact h.2.1 p hp part hpart
    · exact h.2.2 part hpart

theorem union_iff {members : List Ty} : (union members).Throughout P ↔
    P (union members) ∧ ∀ m ∈ members, m.Throughout P := by
  constructor
  · exact fun h => ⟨h.self, fun m hm => h.part (mem_parts_union.mpr
      (Or.inr ⟨m, hm, m.mem_parts_self⟩))⟩
  · intro h part hpart
    rcases mem_parts_union.mp hpart with rfl | ⟨m, hm, hpart⟩
    · exact h.1
    · exact h.2 m hm part hpart

theorem intersection_iff {members : List Ty} : (intersection members).Throughout P ↔
    P (intersection members) ∧ ∀ m ∈ members, m.Throughout P := by
  constructor
  · exact fun h => ⟨h.self, fun m hm => h.part (mem_parts_intersection.mpr
      (Or.inr ⟨m, hm, m.mem_parts_self⟩))⟩
  · intro h part hpart
    rcases mem_parts_intersection.mp hpart with rfl | ⟨m, hm, hpart⟩
    · exact h.1
    · exact h.2 m hm part hpart

end Ty.Throughout

/-- Whether a type is an intersection. -/
def Ty.isIntersection : Ty → Bool
  | .intersection _ => true
  | _ => false

/-! ## Building unions and intersections -/

namespace Ty

theorem mem_distinct {x : Ty} {types : List Ty} : x ∈ distinct types ↔ x ∈ types := by
  suffices h : ∀ seen : List Ty, x ∈ types.foldl
      (fun seen type => if type ∈ seen then seen else seen ++ [type]) seen ↔
        x ∈ seen ∨ x ∈ types by
    simpa [distinct] using h []
  induction types with
  | nil => simp
  | cons type rest ih =>
    intro seen
    rw [List.foldl_cons, ih, List.mem_cons]
    by_cases hmem : type ∈ seen
    · rw [if_pos hmem]
      constructor
      · rintro (h | h)
        · exact Or.inl h
        · exact Or.inr (Or.inr h)
      · rintro (h | rfl | h)
        · exact Or.inl h
        · exact Or.inl hmem
        · exact Or.inr h
    · rw [if_neg hmem, List.mem_append, List.mem_singleton, or_assoc]

theorem mem_unionMembers_parts {x member type : Ty} (hm : member ∈ type.unionMembers)
    (hx : x ∈ member.parts) : x ∈ type.parts := by
  cases type with
  | union members => exact mem_parts_union.mpr (Or.inr ⟨member, hm, hx⟩)
  | _ => rw [List.mem_singleton.mp hm] at hx; exact hx

theorem mem_intersectionMembers_parts {x member type : Ty}
    (hm : member ∈ type.intersectionMembers) (hx : x ∈ member.parts) : x ∈ type.parts := by
  cases type with
  | intersection members => exact mem_parts_intersection.mpr (Or.inr ⟨member, hm, hx⟩)
  | _ => rw [List.mem_singleton.mp hm] at hx; exact hx

/-- Building a union adds the union itself at most. -/
theorem mem_parts_unionOf {x : Ty} {types : List Ty} (hx : x ∈ (unionOf types).parts) :
    (∃ type ∈ types, x ∈ type.parts) ∨ (∃ members, x = union members) ∨ x = void := by
  have hmember : ∀ m ∈ distinct (types.flatMap unionMembers), x ∈ m.parts →
      ∃ type ∈ types, x ∈ type.parts := by
    intro m hm hx
    obtain ⟨type, ht, hm⟩ := List.mem_flatMap.mp (mem_distinct.mp hm)
    exact ⟨type, ht, mem_unionMembers_parts hm hx⟩
  unfold unionOf at hx
  split at hx
  · next hunknown => exact Or.inl ⟨unknown, hunknown, hx⟩
  · split at hx
    · exact Or.inr (Or.inr (List.mem_singleton.mp hx))
    · next type heq => exact Or.inl (hmember type (by rw [heq]; exact List.mem_singleton_self _) hx)
    · rcases mem_parts_union.mp hx with rfl | ⟨m, hm, hx⟩
      · exact Or.inr (Or.inl ⟨_, rfl⟩)
      · exact Or.inl (hmember m hm hx)

/-- Building an intersection adds the intersection itself at most. -/
theorem mem_parts_intersectionOf {x : Ty} {types : List Ty}
    (hx : x ∈ (intersectionOf types).parts) :
    (∃ type ∈ types, x ∈ type.parts) ∨ ∃ members, x = intersection members := by
  have hmember : ∀ m ∈ types.flatMap intersectionMembers, x ∈ m.parts →
      ∃ type ∈ types, x ∈ type.parts := by
    intro m hm hx
    obtain ⟨type, ht, hm⟩ := List.mem_flatMap.mp hm
    exact ⟨type, ht, mem_intersectionMembers_parts hm hx⟩
  unfold intersectionOf at hx
  split at hx
  · next type heq => exact Or.inl (hmember type (by rw [heq]; exact List.mem_singleton_self _) hx)
  · rcases mem_parts_intersection.mp hx with rfl | ⟨m, hm, hx⟩
    · exact Or.inr ⟨_, rfl⟩
    · exact Or.inl (hmember m hm hx)

end Ty

/-! ## Written types -/

mutual

/-- A written type and all written types inside it. -/
def TypeExpr.parts : TypeExpr → List TypeExpr
  | .object members position => .object members position :: partsOfMembers members
  | .function params result position =>
    .function params result position :: (partsOfParams params ++ result.parts)
  | .union members position => .union members position :: partsOfEach members
  | .intersection members position => .intersection members position :: partsOfEach members
  | other => [other]

/-- The parts of the type of a member. -/
def Member.parts : Member → List TypeExpr
  | ⟨_, type, _, _⟩ => type.parts

/-- The parts of the type of a parameter. -/
def Parameter.parts : Parameter → List TypeExpr
  | ⟨_, none, _, _⟩ => []
  | ⟨_, some type, _, _⟩ => type.parts

/-- The parts of some written types. -/
def partsOfEach : List TypeExpr → List TypeExpr
  | [] => []
  | type :: rest => type.parts ++ partsOfEach rest

/-- The parts of the types of some parameters. -/
def partsOfParams : List Parameter → List TypeExpr
  | [] => []
  | param :: rest => param.parts ++ partsOfParams rest

/-- The parts of the types of some members. -/
def partsOfMembers : List Member → List TypeExpr
  | [] => []
  | member :: rest => member.parts ++ partsOfMembers rest

end

/-- Whether a written type is an intersection. -/
def TypeExpr.isIntersection : TypeExpr → Bool
  | .intersection _ _ => true
  | _ => false

/-- What a written type adds to the parts of the type that it denotes, beyond
what the written types inside it add. -/
def TypeExpr.Yields (isDeclared : String → Bool) : TypeExpr → Ty → Prop
  | .named name position, x => x = (TypeExpr.named name position).denote isDeclared
  | .object members _, x => x = .object (denoteMembers isDeclared [] members)
  | .function params result _, x =>
    x = .unknown ∨ x = .function ⟨denoteParams isDeclared params, requiredCount params, false,
      result.denote isDeclared⟩
  | .union _ _, x => (∃ members, x = .union members) ∨ x = .void
  | .intersection _ _, x => ∃ members, x = .intersection members

theorem Ty.parts_ofName? {name : String} {given : Ty} (h : Ty.ofName? name = some given) :
    given.parts = [given] := by
  unfold Ty.ofName? at h
  split at h <;> cases h <;> simp [Ty.parts]

section Yields

variable {isDeclared : String → Bool}

/-- Only what is written as an intersection adds one. -/
theorem TypeExpr.Yields.isIntersection {type : TypeExpr} {x : Ty}
    (h : type.Yields isDeclared x) (hx : x.isIntersection = true) :
    type.isIntersection = true := by
  cases type with
  | intersection inner position => rfl
  | named name position =>
    rw [TypeExpr.Yields] at h
    unfold TypeExpr.denote at h
    cases hn : Ty.ofName? name with
    | none =>
      rw [hn] at h
      dsimp only at h
      split at h <;> subst h <;> cases hx
    | some given =>
      rw [hn] at h
      unfold Ty.ofName? at hn
      split at hn <;> cases hn <;> subst h <;> cases hx
  | object _ _ => rw [TypeExpr.Yields] at h; subst h; cases hx
  | function _ _ _ => rcases h with h | h <;> subst h <;> cases hx
  | union _ _ => rcases h with ⟨_, h⟩ | h <;> subst h <;> cases hx

mutual

/-- Each part of what a written type denotes comes from one of its parts. -/
theorem TypeExpr.yields_of_mem_parts (type : TypeExpr) {x : Ty}
    (hx : x ∈ (type.denote isDeclared).parts) : ∃ e ∈ type.parts, e.Yields isDeclared x := by
  cases type with
  | named name position =>
    refine ⟨_, List.mem_singleton_self _, ?_⟩
    rw [TypeExpr.Yields]
    unfold TypeExpr.denote at hx ⊢
    cases hn : Ty.ofName? name with
    | none =>
      rw [hn] at hx
      dsimp only at hx ⊢
      split at hx
      · next hd => rw [if_pos hd]; exact List.mem_singleton.mp hx
      · next hd => rw [if_neg hd]; exact List.mem_singleton.mp hx
    | some given =>
      rw [hn] at hx
      dsimp only at hx ⊢
      rw [Ty.parts_ofName? hn] at hx
      exact List.mem_singleton.mp hx
  | object members position =>
    unfold TypeExpr.denote at hx
    rcases Ty.mem_parts_object.mp hx with rfl | ⟨p, hp, hx⟩
    · exact ⟨_, List.mem_cons_self .., rfl⟩
    · obtain ⟨e, he, hy⟩ := yields_of_mem_members [] members hp hx
      exact ⟨e, List.mem_cons_of_mem _ he, hy⟩
  | function params result position =>
    unfold TypeExpr.denote at hx
    rcases Ty.mem_parts_function.mp hx with rfl | ⟨p, hp, hx⟩ | hx
    · exact ⟨_, List.mem_cons_self .., Or.inr rfl⟩
    · rcases yields_of_mem_params params hp hx with rfl | ⟨e, he, hy⟩
      · exact ⟨_, List.mem_cons_self .., Or.inl rfl⟩
      · exact ⟨e, List.mem_cons_of_mem _ (List.mem_append_left _ he), hy⟩
    · obtain ⟨e, he, hy⟩ := TypeExpr.yields_of_mem_parts result hx
      exact ⟨e, List.mem_cons_of_mem _ (List.mem_append_right _ he), hy⟩
  | union members position =>
    unfold TypeExpr.denote at hx
    -- a part of the union is one of a member, or the union itself
    rcases Ty.mem_parts_unionOf hx with ⟨type, ht, hx⟩ | hx
    · obtain ⟨e, he, hy⟩ := yields_of_mem_each members ht hx
      exact ⟨e, List.mem_cons_of_mem _ he, hy⟩
    · exact ⟨_, List.mem_cons_self .., hx⟩
  | intersection members position =>
    unfold TypeExpr.denote at hx
    rcases Ty.mem_parts_intersectionOf hx with ⟨type, ht, hx⟩ | hx
    · obtain ⟨e, he, hy⟩ := yields_of_mem_each members ht hx
      exact ⟨e, List.mem_cons_of_mem _ he, hy⟩
    · exact ⟨_, List.mem_cons_self .., hx⟩

theorem yields_of_mem_each (types : List TypeExpr) {type x : Ty}
    (ht : type ∈ denoteEach isDeclared types) (hx : x ∈ type.parts) :
    ∃ e ∈ partsOfEach types, e.Yields isDeclared x := by
  cases types with
  | nil => exact absurd ht List.not_mem_nil
  | cons first rest =>
    unfold denoteEach at ht
    rcases List.mem_cons.mp ht with rfl | ht
    · obtain ⟨e, he, hy⟩ := TypeExpr.yields_of_mem_parts first hx
      exact ⟨e, List.mem_append_left _ he, hy⟩
    · obtain ⟨e, he, hy⟩ := yields_of_mem_each rest ht hx
      exact ⟨e, List.mem_append_right _ he, hy⟩

theorem yields_of_mem_params (params : List Parameter) {type x : Ty}
    (ht : type ∈ denoteParams isDeclared params) (hx : x ∈ type.parts) :
    x = .unknown ∨ ∃ e ∈ partsOfParams params, e.Yields isDeclared x := by
  cases params with
  | nil => exact absurd ht List.not_mem_nil
  | cons first rest =>
    unfold denoteParams at ht
    rcases List.mem_cons.mp ht with rfl | ht
    · match first with
      | ⟨_, none, _, _⟩ => exact Or.inl (List.mem_singleton.mp hx)
      | ⟨_, some written, _, _⟩ =>
        obtain ⟨e, he, hy⟩ := TypeExpr.yields_of_mem_parts written hx
        exact Or.inr ⟨e, List.mem_append_left _ he, hy⟩
    · rcases yields_of_mem_params rest ht hx with hx | ⟨e, he, hy⟩
      · exact Or.inl hx
      · exact Or.inr ⟨e, List.mem_append_right _ he, hy⟩

/-- Each part of the type of a denoted member comes from a written one. -/
theorem yields_of_mem_members (taken : List String) (members : List Member) {p : Property}
    {x : Ty} (hp : p ∈ denoteMembers isDeclared taken members) (hx : x ∈ p.type.parts) :
    ∃ e ∈ partsOfMembers members, e.Yields isDeclared x := by
  cases members with
  | nil => exact absurd hp List.not_mem_nil
  | cons first rest =>
    unfold denoteMembers at hp
    split at hp
    · obtain ⟨e, he, hy⟩ := yields_of_mem_members taken rest hp hx
      exact ⟨e, List.mem_append_right _ he, hy⟩
    · rcases List.mem_cons.mp hp with rfl | hp
      · obtain ⟨_, written, _, _⟩ := first
        obtain ⟨e, he, hy⟩ := TypeExpr.yields_of_mem_parts written hx
        exact ⟨e, List.mem_append_left _ he, hy⟩
      · obtain ⟨e, he, hy⟩ := yields_of_mem_members _ rest hp hx
        exact ⟨e, List.mem_append_right _ he, hy⟩

end

end Yields

end TypedScript
