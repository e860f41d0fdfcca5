import TypedScript.Proofs.Compatibility
import TypedScript.Proofs.Parts

/-!
# Unions and intersections as bounds

A union is to be the least type where all of its members fit, and an intersection the
greatest one that fits where each of its members is expected. The rules of fitting try one
way to take two types apart and stay with it, so how far this is true depends on the order in
which they are tried.

For unions it is true: what fits is exactly that of which each member fits
(`compatible_union_left`), and what fits where a member is expected fits where the union is
(`Compatible.union_right`); the same holds of the unions that are built from types that may
be unions themselves (`Compatible.unionOf_left`, `Compatible.unionOf_right`).

For intersections it is not. Where a union is expected its members are tried first, each
against the intersection as a whole, so an intersection need not fit where one of its own
members is expected if that is a union (`not_fits?_intersectionOf`). An intersection fits
where a type is expected that it is made of exactly if each union among the `Ty.bounds` of
that type has a member where the intersection fits (`fits?_intersectionOf_iff`).
-/

namespace TypedScript

/-! ## What an intersection consists of -/

mutual

/-- What a type asks for all at once: the members of an intersection, taken apart if they are
intersections themselves, and otherwise the type alone. -/
def Ty.bounds : Ty → List Ty
  | .intersection members => boundsOfTypes members
  | other => [other]

/-- The bounds of some types. -/
def boundsOfTypes : List Ty → List Ty
  | [] => []
  | type :: rest => type.bounds ++ boundsOfTypes rest

end

theorem mem_boundsOfTypes {x : Ty} {types : List Ty} :
    x ∈ boundsOfTypes types ↔ ∃ type ∈ types, x ∈ type.bounds := by
  induction types with
  | nil => simp [boundsOfTypes]
  | cons type rest ih => simp [boundsOfTypes, ih]

namespace Ty

theorem mem_bounds_intersection {x : Ty} {members : List Ty} :
    x ∈ (intersection members).bounds ↔ ∃ m ∈ members, x ∈ m.bounds := by
  rw [bounds, mem_boundsOfTypes]

/-- Taking an intersection apart first does not change what it asks for. -/
theorem exists_mem_intersectionMembers {x type : Ty} (hx : x ∈ type.bounds) :
    ∃ m ∈ type.intersectionMembers, x ∈ m.bounds := by
  cases type with
  | intersection members => exact mem_bounds_intersection.mp hx
  | _ => exact ⟨_, List.mem_singleton_self _, hx⟩

/-- An intersection of types is the only one of their members, or all of them. -/
theorem intersectionOf_eq (types : List Ty) :
    types.flatMap intersectionMembers = [intersectionOf types] ∨
      (types.flatMap intersectionMembers).length ≠ 1 ∧
        intersectionOf types = .intersection (types.flatMap intersectionMembers) := by
  unfold intersectionOf
  split
  · next type heq => exact Or.inl heq
  · next members hne =>
    refine Or.inr ⟨fun hlength => ?_, rfl⟩
    obtain ⟨type, heq⟩ := List.length_eq_one_iff.mp hlength
    exact hne type heq

/-- An intersection asks for what the types ask for that it is built from. -/
theorem mem_bounds_intersectionOf {x type : Ty} {types : List Ty} (hmem : type ∈ types)
    (hx : x ∈ type.bounds) : x ∈ (intersectionOf types).bounds := by
  obtain ⟨m, hm, hx⟩ := exists_mem_intersectionMembers hx
  have hmember : m ∈ types.flatMap intersectionMembers := List.mem_flatMap.mpr ⟨type, hmem, hm⟩
  rcases intersectionOf_eq types with heq | ⟨-, heq⟩
  · rw [heq] at hmember
    rw [← List.mem_singleton.mp hmember]
    exact hx
  · rw [heq]
    exact mem_bounds_intersection.mpr ⟨m, hmember, hx⟩

end Ty

namespace Table

variable {table : Table} {source target m : Ty} {members types : List Ty}

/-! ## What is unknown -/

theorem Compatible.unknown_left (target : Ty) : table.Compatible .unknown target :=
  .of_justifies (Or.inr (Or.inl rfl))

theorem Compatible.unknown_right (source : Ty) : table.Compatible source .unknown :=
  .of_justifies (Or.inr (Or.inr (Or.inl rfl)))

/-! ## Unions -/

/-- Unless a union is compared with itself, its members are compared one by one. -/
theorem Compatible.of_union (h : table.Compatible (.union members) target) :
    table.opened target = .union members ∨ ∀ m ∈ members, table.Compatible m target := by
  rw [← compatible_opened_right] at h
  have hj := consistent_compatible _ _ h
  unfold Justifies at hj
  rcases hj with heq | hj | heq | hj
  · exact Or.inl heq.symm
  · cases hj
  · refine Or.inr fun m _ => ?_
    rw [← compatible_opened_right, heq]
    exact .unknown_right m
  · refine Or.inr fun m hm => ?_
    rw [← compatible_opened_right]
    cases hopened : table.opened target with
    | named name => exact absurd hopened (opened_ne_named target name)
    | _ => rw [hopened] at hj; exact hj m hm

/-- What fits where a member of a union is expected fits where the union is. -/
theorem Compatible.union_right {source m : Ty} {members : List Ty} (hm : m ∈ members)
    (h : table.Compatible source m) : table.Compatible source (.union members) := by
  cases source with
  | unknown => exact .unknown_left _
  | named name =>
    rw [← compatible_opened_left] at h ⊢
    show table.Compatible (table.expand name) _
    rcases table.expand_eq name with ⟨shape, heq⟩ | heq
    · have hshape : table.Compatible (.object shape) m := heq ▸ h
      exact heq ▸ .of_justifies (Or.inr (Or.inr (Or.inr ⟨m, hm, hshape⟩)))
    · exact heq ▸ .unknown_left _
  | union inner =>
    -- the union as a whole may fit `m` only because `m` stands for this very union
    have hinner : ∀ s ∈ inner, table.Compatible s m := by
      rcases h.of_union with heq | hall
      · intro s hs
        have hlt := Ty.sizeOf_lt_union hs
        have hself : table.Compatible s (.union inner) := .union_right hs (.refl s)
        rwa [← heq, compatible_opened_right] at hself
      · exact hall
    refine .of_justifies (Or.inr (Or.inr (Or.inr fun s hs => ?_)))
    have hlt := Ty.sizeOf_lt_union hs
    exact .union_right hm (hinner s hs)
  | _ => exact .of_justifies (Or.inr (Or.inr (Or.inr ⟨m, hm, h⟩)))
termination_by sizeOf source

/-- What a union fits is what each of its members fits. -/
theorem compatible_union_left :
    table.Compatible (.union members) target ↔ ∀ m ∈ members, table.Compatible m target := by
  constructor
  · intro h
    rcases h.of_union with heq | hall
    · intro m hm
      rw [← compatible_opened_right, heq]
      exact .union_right hm (.refl m)
    · exact hall
  · intro hall
    rw [← compatible_opened_right]
    have hopened : ∀ m ∈ members, table.Compatible m (table.opened target) :=
      fun m hm => compatible_opened_right.mpr (hall m hm)
    cases heq : table.opened target with
    | named name => exact absurd heq (opened_ne_named target name)
    | unknown => exact .unknown_right _
    | _ => rw [heq] at hopened; exact .of_justifies (Or.inr (Or.inr (Or.inr hopened)))

/-- Unions and names on the left are taken apart first, so it is enough to know of the types
that are neither where they fit. -/
theorem Compatible.of_each (targets : List Ty)
    (hother : ∀ s, (∀ members, s ≠ .union members) → (∀ name, s ≠ .named name) →
      (∀ t ∈ targets, table.Compatible s t) → table.Compatible s target)
    {source : Ty} (h : ∀ t ∈ targets, table.Compatible source t) :
    table.Compatible source target := by
  cases source with
  | union members =>
    refine compatible_union_left.mpr fun m hm => ?_
    have hlt := Ty.sizeOf_lt_union hm
    exact .of_each targets hother fun t ht => compatible_union_left.mp (h t ht) m hm
  | named name =>
    rw [← compatible_opened_left]
    refine hother _ (fun members heq => ?_) (opened_ne_named _)
      fun t ht => compatible_opened_left.mpr (h t ht)
    rcases table.expand_eq name with ⟨shape, hexpand⟩ | hexpand <;>
      exact absurd (hexpand.symm.trans heq) (by simp)
  | _ => exact hother _ (by simp) (by simp) h
termination_by sizeOf source

/-- What is neither a union nor a name fits a union if it fits one of its members. -/
theorem Compatible.exists_member (h : table.Compatible source (.union members))
    (hunion : ∀ members, source ≠ .union members) (hname : ∀ name, source ≠ .named name) :
    source = .unknown ∨ ∃ m ∈ members, table.Compatible source m := by
  have hj := consistent_compatible _ _ h
  unfold Justifies at hj
  rcases hj with heq | hj | hj | hj
  · exact absurd heq (hunion members)
  · exact Or.inl hj
  · cases hj
  · cases source with
    | union inner => exact absurd rfl (hunion inner)
    | named name => exact absurd rfl (hname name)
    | _ => exact Or.inr hj

/-- Where a union is expected, another one with the same members and more will do. -/
theorem Compatible.union_subset (h : table.Compatible source (.union members))
    (hsubset : members ⊆ types) : table.Compatible source (.union types) := by
  refine .of_each [.union members] (fun s hunion hname hs => ?_) (by simpa using h)
  rcases (hs _ (List.mem_singleton_self _)).exists_member hunion hname with rfl | ⟨m, hm, hsm⟩
  · exact .unknown_left _
  · exact .union_right (hsubset hm) hsm

/-- A union of nothing but one type is that type. -/
theorem Compatible.of_union_single (h : table.Compatible source (.union members))
    (hall : ∀ m ∈ members, m = target) : table.Compatible source target := by
  refine .of_each [.union members] (fun s hunion hname hs => ?_) (by simpa using h)
  rcases (hs _ (List.mem_singleton_self _)).exists_member hunion hname with rfl | ⟨m, hm, hsm⟩
  · exact .unknown_left _
  · exact hall m hm ▸ hsm

/-! ## Unions that are built from types -/

/-- A union that is built from types is unknown, the union of their members, or all that their
members are. -/
theorem unionOf_eq (types : List Ty) :
    Ty.unionOf types = .unknown ∨
      (∃ members, Ty.unionOf types = .union members ∧ members ≠ [] ∧
        ∀ m, m ∈ members ↔ m ∈ types.flatMap Ty.unionMembers) ∨
      ∀ m ∈ types.flatMap Ty.unionMembers, m = Ty.unionOf types := by
  have hmem : ∀ m, m ∈ Ty.distinct (types.flatMap Ty.unionMembers) ↔
      m ∈ types.flatMap Ty.unionMembers := fun _ => Ty.mem_distinct
  unfold Ty.unionOf
  split
  · exact Or.inl rfl
  · refine Or.inr ?_
    split
    · next heq => exact Or.inr fun m hm => absurd ((hmem m).mpr hm) (by simp [heq])
    · next type heq => exact Or.inr fun m hm => by simpa [heq] using (hmem m).mpr hm
    · next members hne _ => exact Or.inl ⟨_, rfl, hne, hmem⟩

/-- What fits one of the types fits the union that is built from them. -/
theorem Compatible.unionOf_right (hm : m ∈ types) (h : table.Compatible source m) :
    table.Compatible source (.unionOf types) := by
  have hflat : m.unionMembers ⊆ types.flatMap Ty.unionMembers :=
    fun type htype => List.mem_flatMap.mpr ⟨m, hm, htype⟩
  -- a member that is no union is one of the members itself
  have hself : (∀ members, m ≠ .union members) → m ∈ types.flatMap Ty.unionMembers := by
    intro hunion
    cases m with
    | union members => exact absurd rfl (hunion members)
    | _ => exact hflat (List.mem_singleton_self _)
  rcases unionOf_eq types with heq | ⟨members, heq, -, hmembers⟩ | hall
  · exact heq ▸ .unknown_right source
  · rw [heq]
    cases m with
    | union inner => exact h.union_subset fun type htype => (hmembers type).mpr (hflat htype)
    | _ => exact .union_right ((hmembers _).mpr (hself (by simp))) h
  · cases m with
    | union inner => exact h.of_union_single fun type htype => hall type (hflat htype)
    | _ => exact hall _ (hself (by simp)) ▸ h

/-- The union that is built from types fits where each of them does, unless they have no
members at all. -/
theorem Compatible.unionOf_left (hne : types.flatMap Ty.unionMembers ≠ [])
    (h : ∀ m ∈ types, table.Compatible m target) : table.Compatible (.unionOf types) target := by
  have hflat : ∀ type ∈ types.flatMap Ty.unionMembers, table.Compatible type target := by
    intro type htype
    obtain ⟨m, hm, htype⟩ := List.mem_flatMap.mp htype
    cases m with
    | union members => exact compatible_union_left.mp (h _ hm) type htype
    | _ => exact List.mem_singleton.mp htype ▸ h _ hm
  rcases unionOf_eq types with heq | ⟨members, heq, -, hmembers⟩ | hall
  · exact heq ▸ .unknown_left target
  · rw [heq]
    exact compatible_union_left.mpr fun type htype => hflat type ((hmembers type).mp htype)
  · obtain ⟨type, htype⟩ := List.exists_mem_of_ne_nil _ hne
    exact hall type htype ▸ hflat type htype

/-! ## Intersections -/

/-- Where all members of an intersection are expected, the intersection may be expected. -/
theorem Compatible.intersection_right (h : ∀ m ∈ members, table.Compatible source m) :
    table.Compatible source (.intersection members) := by
  refine .of_each members (fun s hunion hname hs => .of_justifies ?_) h
  cases s with
  | union inner => exact absurd rfl (hunion inner)
  | named name => exact absurd rfl (hname name)
  | _ => exact Or.inr (Or.inr (Or.inr hs))

/-- An intersection fits where one of its members does, unless a union or another intersection
is expected, which is taken apart first. -/
theorem Compatible.intersection_left (hm : m ∈ members) (h : table.Compatible m target)
    (hunion : ∀ inner, target ≠ .union inner) (hinter : ∀ inner, target ≠ .intersection inner) :
    table.Compatible (.intersection members) target := by
  cases target with
  | union inner => exact absurd rfl (hunion inner)
  | intersection inner => exact absurd rfl (hinter inner)
  | unknown => exact .unknown_right _
  | named name =>
    rw [← compatible_opened_right] at h ⊢
    have hmember : table.Compatible m (table.expand name) := h
    show table.Compatible _ (table.expand name)
    rcases table.expand_eq name with ⟨shape, heq⟩ | heq
    · rw [heq] at hmember ⊢
      exact .of_justifies (Or.inr (Or.inr (Or.inr (Or.inl ⟨m, hm, hmember⟩))))
    · exact heq ▸ .unknown_right _
  | _ => exact .of_justifies (Or.inr (Or.inr (Or.inr (Or.inl ⟨m, hm, h⟩))))

theorem ne_intersection_of_mem_bounds {bound : Ty} (type : Ty) (hbound : bound ∈ type.bounds)
    (inner : List Ty) : bound ≠ .intersection inner := by
  cases type with
  | intersection members =>
    obtain ⟨m, hm, hbound⟩ := Ty.mem_bounds_intersection.mp hbound
    have hlt := Ty.sizeOf_lt_intersection hm
    exact ne_intersection_of_mem_bounds m hbound inner
  | _ => rw [List.mem_singleton.mp hbound]; simp
termination_by sizeOf type

/-- A type fits where one of its bounds is expected, if that is no union. -/
theorem Compatible.of_mem_bounds {bound : Ty} (type : Ty) (hbound : bound ∈ type.bounds)
    (hunion : ∀ inner, bound ≠ .union inner) : table.Compatible type bound := by
  cases type with
  | intersection members =>
    obtain ⟨m, hm, hmember⟩ := Ty.mem_bounds_intersection.mp hbound
    have hlt := Ty.sizeOf_lt_intersection hm
    have hfits : table.Compatible m bound := .of_mem_bounds m hmember hunion
    exact hfits.intersection_left hm hunion (ne_intersection_of_mem_bounds m hmember)
  | _ => rw [List.mem_singleton.mp hbound]; exact .refl _
termination_by sizeOf type

/-- Where all bounds of a type are expected, the type may be expected. -/
theorem Compatible.of_bounds (target : Ty)
    (h : ∀ bound ∈ target.bounds, table.Compatible source bound) :
    table.Compatible source target := by
  cases target with
  | intersection members =>
    refine .intersection_right fun m hm => ?_
    have hlt := Ty.sizeOf_lt_intersection hm
    exact .of_bounds m fun bound hbound =>
      h bound (Ty.mem_bounds_intersection.mpr ⟨m, hm, hbound⟩)
  | _ => exact h _ (List.mem_singleton_self _)
termination_by sizeOf target

/-! ## Where an intersection fits -/

theorem Fits.compatible (h : table.Fits source target) : table.Compatible source target := by
  obtain ⟨effort, h⟩ := h
  exact .of_fits h

/-- A question about an intersection is answered with yes because of other such questions. -/
theorem Fits.justifies (h : table.Fits (.intersection members) target) :
    table.Justifies table.Fits (.intersection members) target := by
  obtain ⟨effort, h⟩ := h
  cases effort with
  | zero => exact absurd h (by simp [fits?, fitsAssuming])
  | succ effort =>
    -- the source is no name, so no pair of interfaces is opened, and nothing is assumed
    rcases justifies_of_fitsRule h fun _ _ hshape => ⟨effort, hshape⟩ with
      ⟨_, _, hnamed, -⟩ | ⟨_, _, hmem, -⟩ | hj
    · cases hnamed
    · cases hmem
    · exact hj.mono fun _ _ h => ⟨effort, h⟩

/-- An intersection that fits where a smaller type is expected fits a member of each union
among the bounds of that type. -/
theorem Fits.exists_of_union_mem_bounds {inner : List Ty} (target : Ty)
    (h : table.Fits (.intersection members) target)
    (hsize : sizeOf target < sizeOf (Ty.intersection members))
    (hbound : .union inner ∈ target.bounds) :
    ∃ m ∈ inner, table.Fits (.intersection members) m := by
  have hne : Ty.intersection members ≠ target := by
    rintro rfl
    omega
  have hj := ((h.justifies.resolve_left hne).resolve_left (by simp))
  cases target with
  | intersection types =>
    obtain ⟨t, ht, hbound⟩ := Ty.mem_bounds_intersection.mp hbound
    have hlt := Ty.sizeOf_lt_intersection ht
    exact Fits.exists_of_union_mem_bounds t (hj.resolve_left (by simp) t ht) (by omega) hbound
  | union types =>
    cases List.mem_singleton.mp hbound
    exact hj.resolve_left (by simp)
  | _ => cases List.mem_singleton.mp hbound
termination_by sizeOf target

/-- An intersection that fits where one of the types is expected that it is built from, and is
neither that type nor a single type, fits a member of each union among its bounds. -/
theorem Fits.exists_of_intersectionOf {type : Ty} {inner : List Ty} (hmem : type ∈ types)
    (hsingle : (types.flatMap Ty.intersectionMembers).length ≠ 1)
    (hne : Ty.intersectionOf types ≠ type) (h : table.Fits (.intersectionOf types) type)
    (hbound : .union inner ∈ type.bounds) :
    ∃ m ∈ inner, table.Fits (.intersectionOf types) m := by
  have heq := ((Ty.intersectionOf_eq types).resolve_left
    fun heq => hsingle (by rw [heq]; rfl)).2
  rw [heq] at h hne ⊢
  obtain ⟨m, hm, hbound⟩ := Ty.exists_mem_intersectionMembers hbound
  have hmember : m ∈ types.flatMap Ty.intersectionMembers := List.mem_flatMap.mpr ⟨type, hmem, hm⟩
  have hfits : table.Fits (.intersection (types.flatMap Ty.intersectionMembers)) m := by
    cases type with
    | intersection members =>
      have hj := (h.justifies.resolve_left hne).resolve_left (by simp)
      exact hj.resolve_left (by simp) m hm
    | _ => cases List.mem_singleton.mp hm; exact h
  exact hfits.exists_of_union_mem_bounds m (Ty.sizeOf_lt_intersection hmember) hbound

/-- An intersection of types that is asked whether it fits where one of them is expected, and
gets an answer, gets the answer yes exactly if it fits a member of each union among the bounds
of that type; unless it comes down to a single type, or is the very type itself. -/
theorem fits?_intersectionOf_iff {type : Ty} (hmem : type ∈ types) {effort : Nat} {answer : Bool}
    (h : table.fits? effort (.intersectionOf types) type = some answer) :
    answer = true ↔
      (∀ inner, .union inner ∈ type.bounds → ∃ m ∈ inner, table.Fits (.intersectionOf types) m) ∨
        (types.flatMap Ty.intersectionMembers).length = 1 ∨ Ty.intersectionOf types = type := by
  constructor
  · rintro rfl
    by_cases hsingle : (types.flatMap Ty.intersectionMembers).length = 1
    · exact Or.inr (Or.inl hsingle)
    · by_cases hne : Ty.intersectionOf types = type
      · exact Or.inr (Or.inr hne)
      · exact Or.inl fun inner hbound =>
          Fits.exists_of_intersectionOf hmem hsingle hne ⟨effort, h⟩ hbound
  · intro hcase
    suffices hfits : table.Compatible (.intersectionOf types) type from hfits.eq_true h
    rcases hcase with hunions | hsingle | heq
    · refine .of_bounds type fun bound hbound => ?_
      cases bound with
      | union inner =>
        obtain ⟨m, hm, hfits⟩ := hunions inner hbound
        exact .union_right hm hfits.compatible
      | _ => exact .of_mem_bounds _ (Ty.mem_bounds_intersectionOf hmem hbound) (by simp)
    · -- all that the types are made of is the one type that the intersection comes down to
      have heq := (Ty.intersectionOf_eq types).resolve_right fun hmany => hmany.1 hsingle
      have hall : ∀ m ∈ type.intersectionMembers, m = .intersectionOf types := fun m hm =>
        List.mem_singleton.mp (heq ▸ List.mem_flatMap.mpr ⟨type, hmem, hm⟩)
      cases type with
      | intersection members => exact .intersection_right fun m hm => hall m hm ▸ .refl _
      | _ => exact hall _ (List.mem_singleton_self _) ▸ .refl _
    · exact heq ▸ .refl _

/-- What is of one of two interfaces and of the first of them: it fits where one of the two is
expected, as it fits the first. -/
theorem fits?_intersectionOf_iff_of_first :
    let table : Table := ⟨.ofList [("A", [⟨"a", .text, false⟩]), ("B", [⟨"b", .text, false⟩])]⟩
    let either : List Ty := [.named "A", .named "B"]
    table.fits? 12 (.intersectionOf [.union either, .named "A"]) (.union either) = some true ∧
      ∃ m ∈ either, table.Fits (.intersectionOf [.union either, .named "A"]) m := by
  intro table either
  have h : table.fits? 12 (.intersectionOf [.union either, .named "A"]) (.union either) =
      some true := by decide +kernel
  have hcase := (fits?_intersectionOf_iff (List.mem_cons_self ..) h).mp rfl
  rcases hcase with hunions | hsingle | heq
  · exact ⟨h, hunions either (List.mem_singleton_self _)⟩
  · exact absurd hsingle (by decide)
  · exact absurd heq (by decide +kernel)

/-- What is of one of two interfaces and of a third one does not fit where one of the two is
expected, for it fits neither of them alone. -/
theorem not_fits?_intersectionOf :
    let table : Table := ⟨.ofList [("A", [⟨"a", .text, false⟩]), ("B", [⟨"b", .text, false⟩]),
      ("C", [⟨"c", .text, false⟩])]⟩
    let either : Ty := .union [.named "A", .named "B"]
    either ∈ [either, .named "C"] ∧
      table.fits? 12 (.intersectionOf [either, .named "C"]) either = some false := by
  decide +kernel

end Table

end TypedScript
