import TypedScript.Proofs.WrittenTypes

/-!
# Grouping the members of a written type

The members of a union may be put into parentheses in groups, and groups into further
parentheses; so may those of an intersection. `TypeExpr.ungrouped` is what is written without
any such groups, and without its positions.

A group denotes a union of its own, which is put together at once: repeated members are
dropped, it is `unknown` if one of them is, and a single member is left alone. None of this is
lost on the union around it (`Ty.summands_unionOf`), so a written type denotes the same with
and without its groups (`TypeExpr.denote_ungrouped`).

Main result: `Table.denote_of_regrouped`.
-/

namespace TypedScript

/-! ## Written types without groups -/

mutual

/-- A written type without groups inside its unions and intersections, and without
positions. -/
def TypeExpr.ungrouped : TypeExpr → TypeExpr
  | .named name _ => .named name .start
  | .object members _ => .object (ungroupedMembers members) .start
  | .function params result _ => .function (ungroupedParams params) result.ungrouped .start
  | .union members _ => .union (ungroupedUnion members) .start
  | .intersection members _ => .intersection (ungroupedIntersection members) .start

/-- The type of a member without groups. -/
def Member.ungrouped : Member → Member
  | ⟨name, type, isOptional, _⟩ => ⟨name, type.ungrouped, isOptional, .start⟩

/-- The type of a parameter without groups. -/
def Parameter.ungrouped : Parameter → Parameter
  | ⟨name, none, isOptional, _⟩ => ⟨name, none, isOptional, .start⟩
  | ⟨name, some type, isOptional, _⟩ => ⟨name, some type.ungrouped, isOptional, .start⟩

/-- Members without groups in their types. -/
def ungroupedMembers : List Member → List Member
  | [] => []
  | member :: rest => member.ungrouped :: ungroupedMembers rest

/-- Parameters without groups in their types. -/
def ungroupedParams : List Parameter → List Parameter
  | [] => []
  | param :: rest => param.ungrouped :: ungroupedParams rest

/-- The members of a union, at every depth of its groups. -/
def ungroupedUnion : List TypeExpr → List TypeExpr
  | [] => []
  | .union members _ :: rest => ungroupedUnion members ++ ungroupedUnion rest
  | type :: rest => type.ungrouped :: ungroupedUnion rest

/-- The members of an intersection, at every depth of its groups. -/
def ungroupedIntersection : List TypeExpr → List TypeExpr
  | [] => []
  | .intersection members _ :: rest =>
    ungroupedIntersection members ++ ungroupedIntersection rest
  | type :: rest => type.ungrouped :: ungroupedIntersection rest

end

theorem requiredCount_ungrouped (params : List Parameter) :
    requiredCount (ungroupedParams params) = requiredCount params := by
  induction params with
  | nil => rfl
  | cons param rest ih =>
    obtain ⟨name, type?, isOptional, position⟩ := param
    cases type? <;> simp [ungroupedParams, Parameter.ungrouped, requiredCount, ih]

/-! ## Types at their first places -/

namespace Ty

/-- Adds a type at the end, unless it is there already. -/
def addNew (seen : List Ty) (type : Ty) : List Ty :=
  if type ∈ seen then seen else seen ++ [type]

theorem distinct_eq_foldl (types : List Ty) : distinct types = types.foldl Ty.addNew [] := rfl

theorem distinct_concat (types : List Ty) (type : Ty) :
    distinct (types ++ [type]) = addNew (distinct types) type := by
  rw [distinct_eq_foldl, List.foldl_append]
  rfl

theorem mem_foldl_addNew {x : Ty} (types seen : List Ty) :
    x ∈ types.foldl Ty.addNew seen ↔ x ∈ seen ∨ x ∈ types := by
  induction types generalizing seen with
  | nil => simp
  | cons type rest ih =>
    rw [List.foldl_cons, ih, addNew]
    split
    · next hmem =>
      rw [List.mem_cons]
      constructor
      · rintro (h | h)
        · exact .inl h
        · exact .inr (.inr h)
      · rintro (h | rfl | h)
        · exact .inl h
        · exact .inl hmem
        · exact .inr h
    · simp [or_assoc]

/-- To what is there it makes no difference whether types are repeated. -/
theorem foldl_distinct (types seen : List Ty) :
    (distinct types).foldl Ty.addNew seen = types.foldl Ty.addNew seen := by
  induction types using List.reverseRecOn with
  | nil => rfl
  | append_singleton types type ih =>
    rw [distinct_concat, List.foldl_append, ← ih]
    by_cases hmem : type ∈ distinct types
    · have hthere : type ∈ (distinct types).foldl Ty.addNew seen :=
        (mem_foldl_addNew _ _).mpr (.inr hmem)
      rw [addNew, if_pos hmem, List.foldl_cons, List.foldl_nil, addNew, if_pos hthere]
    · rw [addNew, if_neg hmem, List.foldl_append]

theorem distinct_append (first second : List Ty) :
    distinct (first ++ second) = (distinct second).foldl Ty.addNew (distinct first) := by
  rw [distinct_eq_foldl, List.foldl_append, foldl_distinct]
  rfl

theorem distinct_distinct (types : List Ty) : distinct (distinct types) = distinct types :=
  foldl_distinct types []

/-- The types at their first places are what is left when later repetitions are erased. -/
theorem distinct_eq_eraseDups (types : List Ty) : distinct types = types.eraseDups := by
  induction types using List.reverseRecOn with
  | nil => rfl
  | append_singleton types type ih =>
    rw [distinct_concat, List.eraseDups_append, ← ih, addNew]
    by_cases hmem : type ∈ types
    · rw [if_pos (mem_distinct.mpr hmem)]
      simp [List.removeAll, hmem]
    · rw [if_neg (mt mem_distinct.mp hmem)]
      simp [List.removeAll, hmem, List.eraseDups_cons]

/-! ## Unions of unions -/

/-- The members that some types contribute to a union, each once; none if one of the types is
unknown. -/
def summands (types : List Ty) : Option (List Ty) :=
  if unknown ∈ types then none else some (distinct (types.flatMap unionMembers))

/-- The union of members that are each there once. -/
def ofSummands : Option (List Ty) → Ty
  | none => unknown
  | some [] => void
  | some [type] => type
  | some members => .union members

theorem summands_of_not_isUnion {types : List Ty} (h : ∀ type ∈ types, type.isUnion = false) :
    summands types = if unknown ∈ types then none else some types.eraseDups := by
  have hflat : types.flatMap unionMembers = types := by
    induction types with
    | nil => rfl
    | cons type rest ih =>
      obtain ⟨htype, hrest⟩ := List.forall_mem_cons.mp h
      rw [List.flatMap_cons, unionMembers_of_not_isUnion htype, ih hrest]
      rfl
  rw [summands, hflat, distinct_eq_eraseDups]

theorem unionOf_eq (types : List Ty) : unionOf types = ofSummands (summands types) := by
  unfold unionOf summands
  split
  · rfl
  · split <;> simp_all [ofSummands]

theorem summands_append (first second : List Ty) :
    summands (first ++ second) =
      (summands first).bind fun seen =>
        (summands second).map fun more => more.foldl Ty.addNew seen := by
  unfold summands
  by_cases hfirst : unknown ∈ first
  · simp [hfirst]
  · by_cases hsecond : unknown ∈ second
    · simp [hfirst, hsecond]
    · simp [hfirst, hsecond, distinct_append]

end Ty

namespace Table

variable {table : Table}

theorem Normal.unionMembers_ne_nil {type : Ty} (h : table.Normal type) :
    type.unionMembers ≠ [] := by
  cases type with
  | union members =>
    have hlength := (Ty.Throughout.union_iff.mp h).1.1
    rintro rfl
    simp at hlength
  | _ => simp [Ty.unionMembers]

theorem distinct_unionMembers_ne_nil {types : List Ty} (hne : types ≠ [])
    (h : ∀ type ∈ types, table.Normal type) :
    Ty.distinct (types.flatMap Ty.unionMembers) ≠ [] := by
  obtain ⟨type, htype⟩ := List.exists_mem_of_ne_nil _ hne
  obtain ⟨m, hm⟩ := List.exists_mem_of_ne_nil _ (h type htype).unionMembers_ne_nil
  exact List.ne_nil_of_mem (Ty.mem_distinct.mpr (List.mem_flatMap.mpr ⟨type, htype, hm⟩))

/-- A union contributes to a union around it what its members would. -/
theorem summands_unionOf {types : List Ty} (hne : types ≠ [])
    (h : ∀ type ∈ types, table.Normal type) : Ty.summands [.unionOf types] = Ty.summands types := by
  by_cases hunknown : .unknown ∈ types
  · simp [Ty.unionOf, Ty.summands, hunknown]
  · have hmembers : ∀ m ∈ Ty.distinct (types.flatMap Ty.unionMembers),
        m ≠ .unknown ∧ m.isUnion = false := by
      intro m hm
      obtain ⟨type, htype, hm⟩ := List.mem_flatMap.mp (Ty.mem_distinct.mp hm)
      exact ((h type htype).unionMembers (fun heq => hunknown (heq ▸ htype)) hm).2
    have hflat := distinct_unionMembers_ne_nil hne h
    have hself := Ty.distinct_distinct (types.flatMap Ty.unionMembers)
    rw [Ty.unionOf_eq, Ty.summands.eq_def types, if_neg hunknown]
    generalize Ty.distinct (types.flatMap Ty.unionMembers) = members at *
    match members with
    | [] => exact absurd rfl hflat
    | [type] =>
      obtain ⟨hknown, hunion⟩ := hmembers type (List.mem_singleton_self type)
      simp [Ty.ofSummands, Ty.summands, Ty.unionMembers_of_not_isUnion hunion, Ne.symm hknown,
        hself]
    | first :: second :: rest => simp [Ty.ofSummands, Ty.summands, Ty.unionMembers, hself]

/-- So does an intersection to an intersection around it. -/
theorem intersectionMembers_intersectionOf {types : List Ty}
    (h : ∀ type ∈ types, table.Normal type) :
    (Ty.intersectionOf types).intersectionMembers = types.flatMap Ty.intersectionMembers := by
  have hmembers : ∀ m ∈ types.flatMap Ty.intersectionMembers, m.isIntersection = false := by
    intro m hm
    obtain ⟨type, htype, hm⟩ := List.mem_flatMap.mp hm
    exact ((h type htype).intersectionMembers.2 m hm).2
  unfold Ty.intersectionOf
  split
  · next type heq =>
    have hplain := hmembers type (heq ▸ List.mem_singleton_self type)
    rw [heq]
    cases type <;> first | rfl | cases hplain
  · rfl

end Table

/-! ## What is denoted without groups -/

theorem denoteEach_append (isDeclared : String → Bool) (first second : List TypeExpr) :
    denoteEach isDeclared (first ++ second) =
      denoteEach isDeclared first ++ denoteEach isDeclared second := by
  induction first with
  | nil => rfl
  | cons type rest ih => rw [List.cons_append, denoteEach, denoteEach, ih, List.cons_append]

namespace Table

variable (table : Table)

/-- A written type denotes a normal type. -/
theorem normal_denote {type : TypeExpr} (h : type.isBuilt = true) :
    table.Normal (table.denote type) :=
  TypeExpr.normal_denote (fun _ hname => hname) (List.all_eq_true.mp h)

theorem normal_of_mem_denoteEach {types : List TypeExpr}
    (h : ∀ type ∈ types, type.isBuilt = true) :
    ∀ type ∈ denoteEach table.declares types, table.Normal type := by
  induction types with
  | nil => exact fun _ htype => absurd htype List.not_mem_nil
  | cons first rest ih =>
    obtain ⟨hfirst, hrest⟩ := List.forall_mem_cons.mp h
    exact List.forall_mem_cons.mpr ⟨table.normal_denote hfirst, ih hrest⟩

end Table

section Denotation

variable {table : Table}

theorem summands_denoteEach_cons {type plain : TypeExpr} {rest plains : List TypeExpr}
    (htype : table.denote plain = table.denote type)
    (hrest : Ty.summands (denoteEach table.declares plains) =
      Ty.summands (denoteEach table.declares rest)) :
    Ty.summands (denoteEach table.declares (plain :: plains)) =
      Ty.summands (denoteEach table.declares (type :: rest)) := by
  show Ty.summands ([table.denote plain] ++ denoteEach table.declares plains) =
    Ty.summands ([table.denote type] ++ denoteEach table.declares rest)
  rw [Ty.summands_append, Ty.summands_append, htype, hrest]

theorem flatMap_denoteEach_cons {type plain : TypeExpr} {rest plains : List TypeExpr}
    (htype : table.denote plain = table.denote type)
    (hrest : (denoteEach table.declares plains).flatMap Ty.intersectionMembers =
      (denoteEach table.declares rest).flatMap Ty.intersectionMembers) :
    (denoteEach table.declares (plain :: plains)).flatMap Ty.intersectionMembers =
      (denoteEach table.declares (type :: rest)).flatMap Ty.intersectionMembers := by
  show (table.denote plain :: denoteEach table.declares plains).flatMap Ty.intersectionMembers =
    (table.denote type :: denoteEach table.declares rest).flatMap Ty.intersectionMembers
  rw [List.flatMap_cons, List.flatMap_cons, htype, hrest]

mutual

/-- A written type denotes the same without its groups. -/
theorem TypeExpr.denote_ungrouped : ∀ {type : TypeExpr}, type.isBuilt = true →
    table.denote type.ungrouped = table.denote type
  | .named _ _, _ => rfl
  | .object members _, h => by
    show Ty.object _ = Ty.object _
    rw [denoteMembers_ungrouped [] (TypeExpr.isBuilt_object.mp h)]
  | .function params result _, h => by
    obtain ⟨hparams, hresult⟩ := TypeExpr.isBuilt_function.mp h
    have hdenote := TypeExpr.denote_ungrouped hresult
    show Ty.function ⟨_, requiredCount (ungroupedParams params), false,
      table.denote result.ungrouped⟩ = Ty.function ⟨_, _, _, _⟩
    rw [denoteParams_ungrouped hparams, requiredCount_ungrouped, hdenote]
    rfl
  | .union members _, h => by
    have hsummands := summands_ungroupedUnion (TypeExpr.isBuilt_union.mp h).2
    show Ty.unionOf (denoteEach table.declares (ungroupedUnion members)) =
      Ty.unionOf (denoteEach table.declares members)
    rw [Ty.unionOf_eq, Ty.unionOf_eq, hsummands]
  | .intersection members _, h => by
    have hmembers := flatMap_ungroupedIntersection (TypeExpr.isBuilt_intersection.mp h).2
    show Ty.intersectionOf (denoteEach table.declares (ungroupedIntersection members)) =
      Ty.intersectionOf (denoteEach table.declares members)
    rw [Ty.intersectionOf, Ty.intersectionOf, hmembers]

theorem denoteMembers_ungrouped : ∀ {members : List Member} (taken : List String),
    (∀ m ∈ members, m.type.isBuilt = true) →
    denoteMembers table.declares taken (ungroupedMembers members) =
      denoteMembers table.declares taken members
  | [], _, _ => rfl
  | ⟨name, type, isOptional, _⟩ :: rest, taken, h => by
    obtain ⟨htype, hrest⟩ := List.forall_mem_cons.mp h
    have hdenote : type.ungrouped.denote table.declares = type.denote table.declares :=
      TypeExpr.denote_ungrouped htype
    rw [ungroupedMembers, Member.ungrouped, denoteMembers, denoteMembers,
      denoteMembers_ungrouped taken hrest, denoteMembers_ungrouped (name :: taken) hrest,
      Member.denote, Member.denote, hdenote]

theorem denoteParams_ungrouped : ∀ {params : List Parameter},
    (∀ param ∈ params, ∀ type, param.type? = some type → type.isBuilt = true) →
    denoteParams table.declares (ungroupedParams params) = denoteParams table.declares params
  | [], _ => rfl
  | ⟨_, none, _, _⟩ :: rest, h => by
    rw [ungroupedParams, denoteParams, denoteParams,
      denoteParams_ungrouped (List.forall_mem_cons.mp h).2]
    rfl
  | ⟨_, some type, _, _⟩ :: rest, h => by
    obtain ⟨htype, hrest⟩ := List.forall_mem_cons.mp h
    have hdenote : type.ungrouped.denote table.declares = type.denote table.declares :=
      TypeExpr.denote_ungrouped (htype type rfl)
    rw [ungroupedParams, Parameter.ungrouped, denoteParams, denoteParams,
      denoteParams_ungrouped hrest, Parameter.denote, Parameter.denote, hdenote]

theorem summands_ungroupedUnion : ∀ {types : List TypeExpr},
    (∀ type ∈ types, type.isBuilt = true) →
    Ty.summands (denoteEach table.declares (ungroupedUnion types)) =
      Ty.summands (denoteEach table.declares types)
  | [], _ => rfl
  | .union members _ :: rest, h => by
    obtain ⟨hgroup, hrest⟩ := List.forall_mem_cons.mp h
    obtain ⟨hlength, hmembers⟩ := TypeExpr.isBuilt_union.mp hgroup
    have hne : denoteEach table.declares members ≠ [] := by
      refine List.ne_nil_of_length_pos ?_
      rw [length_denoteEach]
      omega
    -- the group contributes what its members contribute, each of them without groups
    have hunion := Table.summands_unionOf hne (table.normal_of_mem_denoteEach hmembers)
    show Ty.summands (denoteEach table.declares (ungroupedUnion members ++ ungroupedUnion rest)) =
      Ty.summands ([.unionOf (denoteEach table.declares members)] ++
        denoteEach table.declares rest)
    rw [denoteEach_append, Ty.summands_append, Ty.summands_append, hunion,
      summands_ungroupedUnion hmembers, summands_ungroupedUnion hrest]
  | .named _ _ :: _, h | .object _ _ :: _, h | .function _ _ _ :: _, h
  | .intersection _ _ :: _, h =>
    summands_denoteEach_cons (TypeExpr.denote_ungrouped (List.forall_mem_cons.mp h).1)
      (summands_ungroupedUnion (List.forall_mem_cons.mp h).2)

theorem flatMap_ungroupedIntersection : ∀ {types : List TypeExpr},
    (∀ type ∈ types, type.isBuilt = true) →
    (denoteEach table.declares (ungroupedIntersection types)).flatMap Ty.intersectionMembers =
      (denoteEach table.declares types).flatMap Ty.intersectionMembers
  | [], _ => rfl
  | .intersection members _ :: rest, h => by
    obtain ⟨hgroup, hrest⟩ := List.forall_mem_cons.mp h
    obtain ⟨-, hmembers⟩ := TypeExpr.isBuilt_intersection.mp hgroup
    have hintersection := Table.intersectionMembers_intersectionOf
      (table.normal_of_mem_denoteEach hmembers)
    show (denoteEach table.declares
        (ungroupedIntersection members ++ ungroupedIntersection rest)).flatMap _ =
      (.intersectionOf (denoteEach table.declares members) ::
        denoteEach table.declares rest).flatMap _
    rw [denoteEach_append, List.flatMap_append, List.flatMap_cons, hintersection,
      flatMap_ungroupedIntersection hmembers, flatMap_ungroupedIntersection hrest]
  | .named _ _ :: _, h | .object _ _ :: _, h | .function _ _ _ :: _, h | .union _ _ :: _, h =>
    flatMap_denoteEach_cons (TypeExpr.denote_ungrouped (List.forall_mem_cons.mp h).1)
      (flatMap_ungroupedIntersection (List.forall_mem_cons.mp h).2)

end

/-! ## Regrouping -/

/-- Whether a written type is a union. -/
def TypeExpr.isUnion : TypeExpr → Bool
  | .union _ _ => true
  | _ => false

/-- A written type that is no union denotes none, as an intersection has two members or
more. -/
theorem isUnion_denote {type : TypeExpr} (h : type.isBuilt = true) (hplain : type.isUnion = false) :
    (table.denote type).isUnion = false := by
  cases type with
  | named name position =>
    unfold Table.denote TypeExpr.denote
    split
    · next given hname =>
      unfold Ty.ofName? at hname
      split at hname <;> cases hname <;> rfl
    · split <;> rfl
  | object members position => rfl
  | function params result position => rfl
  | union members position => cases hplain
  | intersection members position =>
    obtain ⟨hlength, hmembers⟩ := TypeExpr.isBuilt_intersection.mp h
    rcases members with - | ⟨first, - | ⟨second, rest⟩⟩
    · simp at hlength
    · simp at hlength
    · obtain ⟨hfirst, hmembers⟩ := List.forall_mem_cons.mp hmembers
      obtain ⟨hsecond, -⟩ := List.forall_mem_cons.mp hmembers
      -- two members give at least two types, so the intersection is not one of its members alone
      obtain ⟨x, xs, hx⟩ :=
        List.exists_cons_of_ne_nil (table.normal_denote hfirst).intersectionMembers.1
      obtain ⟨y, ys, hy⟩ :=
        List.exists_cons_of_ne_nil (table.normal_denote hsecond).intersectionMembers.1
      show (Ty.intersectionOf
        (table.denote first :: table.denote second :: denoteEach _ rest)).isUnion = false
      rw [Ty.intersectionOf, List.flatMap_cons, List.flatMap_cons, hx, hy]
      split
      · next type heq => simp at heq
      · rfl

/-- The members of a union at every depth of its groups are no unions themselves. -/
theorem isUnion_of_mem_ungroupedUnion : ∀ {types : List TypeExpr},
    (∀ type ∈ types, type.isBuilt = true) →
    ∀ type ∈ (ungroupedUnion types).map table.denote, type.isUnion = false
  | [], _ => fun _ htype => absurd htype List.not_mem_nil
  | .union members _ :: rest, h => by
    obtain ⟨hgroup, hrest⟩ := List.forall_mem_cons.mp h
    rw [ungroupedUnion, List.map_append]
    exact List.forall_mem_append.mpr
      ⟨isUnion_of_mem_ungroupedUnion (TypeExpr.isBuilt_union.mp hgroup).2,
        isUnion_of_mem_ungroupedUnion hrest⟩
  | .named _ _ :: _, h | .object _ _ :: _, h | .function _ _ _ :: _, h
  | .intersection _ _ :: _, h => by
    obtain ⟨hfirst, hrest⟩ := List.forall_mem_cons.mp h
    refine List.forall_mem_cons.mpr ⟨?_, isUnion_of_mem_ungroupedUnion hrest⟩
    rw [TypeExpr.denote_ungrouped hfirst]
    exact isUnion_denote hfirst rfl

end Denotation

theorem denoteEach_eq_map (isDeclared : String → Bool) (types : List TypeExpr) :
    denoteEach isDeclared types = types.map (·.denote isDeclared) := by
  induction types with
  | nil => rfl
  | cons type rest ih => rw [denoteEach, ih, List.map_cons]

namespace Table

variable (table : Table)

/-- Written types that differ in nothing but the groups of their unions and intersections
denote the same type; each of these has two members or more, as the grammar makes them
(`Derives.isFormed`). A union denotes `unknown` exactly if one of its members does, at
whatever depth of its groups, and otherwise the types of its members, each once where it comes
first, or the type itself if there is only one. -/
theorem denote_of_regrouped {a b : TypeExpr} (ha : a.isBuilt = true) (hb : b.isBuilt = true)
    (h : a.ungrouped = b.ungrouped) :
    table.denote a = table.denote b ∧
    ∀ members position, a = .union members position →
      let types := (ungroupedUnion members).map table.denote
      (table.denote a = .unknown ↔ .unknown ∈ types) ∧
      (.unknown ∉ types →
        (∃ type, types.eraseDups = [type] ∧ table.denote a = type) ∨
        2 ≤ types.eraseDups.length ∧ table.denote a = .union types.eraseDups) := by
  refine ⟨?_, ?_⟩
  · rw [← TypeExpr.denote_ungrouped ha, h, TypeExpr.denote_ungrouped hb]
  · rintro members position rfl types
    obtain ⟨hlength, hmembers⟩ := TypeExpr.isBuilt_union.mp ha
    have hne : denoteEach table.declares members ≠ [] := by
      refine List.ne_nil_of_length_pos ?_
      rw [length_denoteEach]
      omega
    -- groups within a union add no summands of their own
    have htypes : Ty.summands types = Ty.summands (denoteEach table.declares members) := by
      rw [← summands_ungroupedUnion hmembers, denoteEach_eq_map]
      rfl
    have hflat := distinct_unionMembers_ne_nil hne (table.normal_of_mem_denoteEach hmembers)
    have hdenote : table.denote (.union members position) = Ty.ofSummands (Ty.summands types) := by
      rw [htypes, ← Ty.unionOf_eq]
      rfl
    rw [Ty.summands_of_not_isUnion (isUnion_of_mem_ungroupedUnion hmembers)] at htypes hdenote
    by_cases hunknown : .unknown ∈ types
    · rw [if_pos hunknown] at hdenote
      exact ⟨iff_of_true hdenote hunknown, fun hknown => absurd hunknown hknown⟩
    · rw [if_neg hunknown] at htypes hdenote
      have hdups : types.eraseDups ≠ [] := by
        intro hnil
        rw [hnil, Ty.summands] at htypes
        split at htypes
        · cases htypes
        · exact hflat (Option.some.inj htypes).symm
      match hmatch : types.eraseDups with
      | [] => exact absurd hmatch hdups
      | [type] =>
        rw [hmatch] at hdenote
        have hmem : type ∈ types := List.mem_eraseDups.mp (hmatch ▸ List.mem_singleton_self type)
        have hdenote : table.denote (.union members position) = type := hdenote
        rw [hdenote]
        refine ⟨iff_of_false (fun heq => hunknown (heq ▸ hmem)) hunknown, fun _ => ?_⟩
        exact .inl ⟨type, rfl, rfl⟩
      | first :: second :: rest =>
        rw [hmatch] at hdenote
        have hdenote : table.denote (.union members position) = .union (first :: second :: rest) :=
          hdenote
        rw [hdenote]
        refine ⟨iff_of_false (fun heq => nomatch heq) hunknown, fun _ => ?_⟩
        exact .inr ⟨by simp, rfl⟩

/-- Members in groups inside groups and repeated ones are told once each, in the order in
which they come first; an intersection in a group of its own loses its groups as well, and
keeps what is repeated. -/
theorem denote_of_regrouped_of_groups :
    let name (text : String) (column : Nat) : TypeExpr := .named text ⟨1, column⟩
    let empty (column : Nat) : TypeExpr := .object [] ⟨1, column⟩
    let grouped : TypeExpr := .union [name "number" 1, .union [name "string" 11,
      .union [.intersection [empty 21, .intersection [empty 27, empty 32] ⟨1, 26⟩] ⟨1, 21⟩,
        name "number" 39] ⟨1, 20⟩] ⟨1, 10⟩, name "void" 50] ⟨1, 1⟩
    let plain : TypeExpr := .union [name "number" 1, name "string" 10,
      .intersection [empty 19, empty 24, empty 29] ⟨1, 19⟩, name "number" 34, name "void" 43] ⟨1, 1⟩
    grouped.isBuilt = true ∧ plain.isBuilt = true ∧ grouped.ungrouped = plain.ungrouped ∧
      Table.empty.denote grouped = Table.empty.denote plain ∧
      Table.empty.denote grouped =
        .union [.number, .text, .intersection [.object [], .object [], .object []], .void] := by
  intro name empty grouped plain
  have hgrouped : grouped.isBuilt = true := by decide
  have hplain : plain.isBuilt = true := by decide
  have hsame : grouped.ungrouped = plain.ungrouped := rfl
  exact ⟨hgrouped, hplain, hsame, (Table.empty.denote_of_regrouped hgrouped hplain hsame).1,
    by decide +kernel⟩

end Table

end TypedScript
