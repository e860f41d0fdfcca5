import TypedScript.Proofs.Bounds
import TypedScript.Proofs.Conformance
import TypedScript.Proofs.Transitivity

/-!
# The shape of an intersection

The shape of an intersection is merged from the properties that its members declare, one
after the other. What becomes of a name depends on the declarations of that name alone
(`find?_of_foldlM`): each is compared with what the earlier ones left, by the question
whether its type fits there (`combine`).

If the members do not contradict each other, one of any two declarations of a name fits
where the other one is expected. So the type that is left fits where each declaration so
far is expected, as long as fitting is transitive. It is so for strict types, also in a
table that has other interfaces besides the strict ones (`IsStrictPartOf`,
`Compatible.trans`).

Main result: `shape?_intersectionOf_narrowest`.
-/

namespace TypedScript

/-! ## Properties by their names -/

namespace Shape

theorem name_of_find? {shape : Shape} {name : String} {p : Property}
    (h : shape.find? name = some p) : p.name = name := by
  simpa using List.find?_some h

theorem mem_of_find? {shape : Shape} {name : String} {p : Property}
    (h : shape.find? name = some p) : p ∈ shape :=
  List.mem_of_find?_eq_some h

theorem find?_eq_none {shape : Shape} {name : String} :
    shape.find? name = none ↔ name ∉ shape.map (·.name) := by
  simp [find?]

theorem find?_append (first second : Shape) (name : String) :
    (first ++ second).find? name = (first.find? name).or (second.find? name) :=
  List.find?_append

/-- If no name is declared twice, each property is the one of its name. -/
theorem find?_of_mem {shape : Shape} (hnodup : (shape.map (·.name)).Nodup) {p : Property}
    (hp : p ∈ shape) : shape.find? p.name = some p := by
  induction shape with
  | nil => exact absurd hp List.not_mem_nil
  | cons q rest ih =>
    obtain ⟨hq, hrest⟩ := List.nodup_cons.mp hnodup
    by_cases hname : q.name = p.name
    · have heq : p = q := by
        refine (List.mem_cons.mp hp).resolve_right fun hp => hq ?_
        show q.name ∈ rest.map (·.name)
        rw [hname]
        exact List.mem_map_of_mem hp
      simp [find?, heq]
    · have hp : p ∈ rest := (List.mem_cons.mp hp).resolve_left fun heq => hname (heq ▸ rfl)
      simpa [find?, hname] using ih hrest hp

section Update

variable {f : Property → Property} (hf : ∀ p, (f p).name = p.name)
include hf

theorem map_name_update (name : String) (shape : Shape) :
    (shape.update name f).map (·.name) = shape.map (·.name) := by
  induction shape with
  | nil => rfl
  | cons p rest ih =>
    unfold update
    split
    · simp [hf]
    · simp [ih]

theorem find?_update (name other : String) (shape : Shape) :
    (shape.update name f).find? other =
      if other = name then (shape.find? name).map f else shape.find? other := by
  induction shape with
  | nil => simp [update, find?]
  | cons p rest ih =>
    unfold update
    unfold find? at ih ⊢
    by_cases hname : p.name = name
    · by_cases hother : p.name = other
      · simp [hf, ← hname, ← hother]
      · simp [hf, hname ▸ hother, Ne.symm (hname ▸ hother : name ≠ other), hname]
    · by_cases hother : p.name = other
      · simp [hother, hother ▸ hname]
      · simpa [hname, hother] using ih

end Update

end Shape

namespace Table

variable {part table : Table} {source middle target : Ty}

/-! ## What merging makes of a name -/

section Merging

variable (fits : Ty → Ty → Answer Bool)

/-- What is left of the property of a name, if there is one yet, and a further declaration
of that name. -/
def combine : Option Property → Property → Answer (Option Property)
  | none, p => some (some p)
  | some old, p => do
    let type := if ← fits p.type old.type then p.type else old.type
    return some ⟨old.name, type, old.isOptional && p.isOptional⟩

variable {fits}

/-- A merged property is combined with the one of its name, and all other names stay. -/
theorem find?_of_mergeProperty {shape next : Shape} {p : Property}
    (h : mergeProperty fits shape p = some next) :
    combine fits (shape.find? p.name) p = some (next.find? p.name) ∧
      ∀ name, name ≠ p.name → next.find? name = shape.find? name := by
  unfold mergeProperty at h
  split at h
  · next hnone =>
    cases h
    rw [Shape.find?_append, hnone]
    refine ⟨by simp [combine, Shape.find?], fun name hname => ?_⟩
    rw [Shape.find?_append]
    simp [Shape.find?, Ne.symm hname]
  · next old hold =>
    obtain ⟨isNarrower, hfits, h⟩ := Option.bind_eq_some_iff.mp h
    cases h
    constructor
    · rw [Shape.find?_update]
      · simp [combine, hold, hfits]
      · exact fun _ => rfl
    · intro name hname
      rw [Shape.find?_update, if_neg hname]
      exact fun _ => rfl

/-- What merging some properties makes of a name comes from those of that name. -/
theorem find?_of_foldlM {properties : List Property} (name : String) :
    ∀ {shape merged : Shape}, properties.foldlM (mergeProperty fits) shape = some merged →
      (properties.filter (·.name = name)).foldlM (combine fits) (shape.find? name) =
        some (merged.find? name) := by
  induction properties with
  | nil => intro shape merged h; cases h; rfl
  | cons p rest ih =>
    intro shape merged h
    rw [List.foldlM_cons] at h
    obtain ⟨next, hfirst, h⟩ := Option.bind_eq_some_iff.mp h
    obtain ⟨hcombine, hothers⟩ := find?_of_mergeProperty hfirst
    -- a declaration of another name is left out by the filter and leaves this name alone
    by_cases hname : p.name = name
    · subst hname
      rw [List.filter_cons_of_pos (by simp), List.foldlM_cons, hcombine]
      exact ih h
    · rw [List.filter_cons_of_neg (by simpa using hname), ← hothers name (Ne.symm hname)]
      exact ih h

/-- A name that is not there yet goes to the end. -/
theorem map_name_of_mergeProperty {shape next : Shape} {p : Property}
    (h : mergeProperty fits shape p = some next) :
    next.map (·.name) =
      if p.name ∈ shape.map (·.name) then shape.map (·.name)
      else shape.map (·.name) ++ [p.name] := by
  unfold mergeProperty at h
  split at h
  · next hnone =>
    cases h
    rw [if_neg (Shape.find?_eq_none.mp hnone), List.map_append]
    rfl
  · next old hold =>
    obtain ⟨isNarrower, -, h⟩ := Option.bind_eq_some_iff.mp h
    cases h
    have hmem : p.name ∈ shape.map (·.name) := by
      rw [← Shape.name_of_find? hold]
      exact List.mem_map_of_mem (Shape.mem_of_find? hold)
    rw [if_pos hmem, Shape.map_name_update]
    exact fun _ => rfl

/-- The names of merged properties are those declared, each once, in the order of their
first declarations. -/
theorem map_name_of_foldlM {properties : List Property} :
    ∀ (seen : Shape) {shape merged : Shape}, shape.map (·.name) = (seen.map (·.name)).eraseDups →
      properties.foldlM (mergeProperty fits) shape = some merged →
      merged.map (·.name) = ((seen ++ properties).map (·.name)).eraseDups := by
  induction properties with
  | nil => intro seen shape merged hseen h; cases h; rw [List.append_nil, hseen]
  | cons p rest ih =>
    intro seen shape merged hseen h
    rw [List.foldlM_cons] at h
    obtain ⟨next, hfirst, h⟩ := Option.bind_eq_some_iff.mp h
    rw [List.append_cons]
    refine ih (seen ++ [p]) ?_ h
    rw [map_name_of_mergeProperty hfirst, hseen, List.map_append, List.eraseDups_append,
      List.map_singleton]
    by_cases hp : p.name ∈ seen.map (·.name)
    · rw [if_pos (List.mem_eraseDups.mpr hp), List.removeAll,
        List.filter_cons_of_neg (by simpa using hp)]
      simp
    · rw [if_neg (mt List.mem_eraseDups.mp hp), List.removeAll,
        List.filter_cons_of_pos (by simpa using hp)]
      simp [List.eraseDups_cons]

/-- No name is declared twice by merged properties. -/
theorem nodup_of_foldlM {properties : List Property} :
    ∀ (shape : Shape) {merged : Shape}, (shape.map (·.name)).Nodup →
      properties.foldlM (mergeProperty fits) shape = some merged →
      (merged.map (·.name)).Nodup := by
  induction properties with
  | nil => intro shape merged hshape h; cases h; exact hshape
  | cons p rest ih =>
    intro shape merged hshape h
    rw [List.foldlM_cons] at h
    obtain ⟨next, hfirst, h⟩ := Option.bind_eq_some_iff.mp h
    refine ih next ?_ h
    rw [map_name_of_mergeProperty hfirst]
    split
    · exact hshape
    · next hp => exact List.nodup_append.mpr ⟨hshape, by simp, by simpa using hp⟩

/-- Properties can be merged if the questions among those of one name are answered. -/
theorem exists_foldlM {properties : List Property} :
    ∀ (seen shape : Shape),
      (∀ p ∈ shape, ∃ q ∈ seen, p.name = q.name ∧ p.type = q.type) →
      (∀ p ∈ seen ++ properties, ∀ q ∈ seen ++ properties, p.name = q.name →
        (fits p.type q.type).isSome) →
      ∃ merged, properties.foldlM (mergeProperty fits) shape = some merged := by
  -- The types that are asked about are declared ones: merging makes no new types.
  induction properties with
  | nil => exact fun _ _ _ _ => ⟨_, rfl⟩
  | cons p rest ih =>
    intro seen shape hshape hended
    rw [List.append_cons] at hended
    have hp : p ∈ seen ++ [p] := List.mem_append_right _ (List.mem_singleton_self p)
    have hseen : ∀ q ∈ shape, ∃ q' ∈ seen ++ [p], q.name = q'.name ∧ q.type = q'.type :=
      fun q hq => (hshape q hq).imp fun _ h => ⟨List.mem_append_left _ h.1, h.2⟩
    obtain ⟨next, hnext⟩ : ∃ next, mergeProperty fits shape p = some next := by
      unfold mergeProperty
      split
      · exact ⟨_, rfl⟩
      · next old hold =>
        obtain ⟨q, hq, hname, htype⟩ := hseen old (Shape.mem_of_find? hold)
        have hsame : p.name = q.name := (Shape.name_of_find? hold).symm.trans hname
        obtain ⟨isNarrower, hfits⟩ := Option.isSome_iff_exists.mp
          (hended p (List.mem_append_left _ hp) q (List.mem_append_left _ hq) hsame)
        rw [htype, hfits]
        exact ⟨_, rfl⟩
    rw [List.foldlM_cons, hnext]
    refine ih (seen ++ [p]) next ?_ hended
    -- a merged property has its name and its type from declarations of that name
    refine forall_of_mergeProperty ?_ hnext hseen ⟨p, hp, rfl, rfl⟩
    rintro q old hname ⟨q', hq', hqname, hqtype⟩ ⟨old', hold', holdname, holdtype⟩ type htype
    rcases htype with rfl | rfl
    · exact ⟨q', hq', hname ▸ hqname, hqtype⟩
    · exact ⟨old', hold', holdname, holdtype⟩

/-! ## The narrowest declaration -/

variable (fits) (R : Ty → Ty → Prop)

/-- What is left of several declarations of one name: it is optional if all of them are, and
its type is that of one of them and in a relation to all of their types. -/
structure Narrows (seen : List Property) (p : Property) : Prop where
  isOptional : p.isOptional = true ↔ ∀ q ∈ seen, q.isOptional = true
  exists_type : ∃ q ∈ seen, p.type = q.type
  related : ∀ q ∈ seen, R p.type q.type

/-- Whether the question if a declaration is narrower than an earlier one tells which of the
two types is related to the other. -/
def Decides (earlier later : Property) : Prop :=
  ∀ isNarrower, fits later.type earlier.type = some isNarrower →
    if isNarrower then R later.type earlier.type else R earlier.type later.type

variable {fits R} (hrefl : ∀ type, R type type)
  (htrans : ∀ {a b c : Ty}, R a b → R b c → R a c)
include hrefl

theorem Narrows.single (p : Property) : Narrows R [p] p where
  isOptional := by simp
  exists_type := ⟨p, List.mem_singleton_self p, rfl⟩
  related q hq := by
    rw [List.mem_singleton.mp hq]
    exact hrefl p.type

include htrans

/-- A further declaration that is compared with what the earlier ones left is thereby
compared with each of them. -/
theorem Narrows.combine {seen : List Property} {old p : Property} {next? : Option Property}
    (h : Narrows R seen old) (hdecides : ∀ q ∈ seen, Decides fits R q p)
    (hcombine : combine fits (some old) p = some next?) :
    ∃ next, next? = some next ∧ Narrows R (seen ++ [p]) next := by
  obtain ⟨isNarrower, hfits, hnext⟩ := Option.bind_eq_some_iff.mp hcombine
  cases hnext
  refine ⟨_, rfl, ?_⟩
  obtain ⟨q, hq, htype⟩ := h.exists_type
  have hdecided := hdecides q hq isNarrower (htype ▸ hfits)
  have hlast : p ∈ seen ++ [p] := List.mem_append_right _ (List.mem_singleton_self p)
  have hoptional : (old.isOptional && p.isOptional) = true ↔
      ∀ q ∈ seen ++ [p], q.isOptional = true := by
    simp [h.isOptional, or_imp, forall_and]
  cases isNarrower with
  | true =>
    refine ⟨hoptional, ⟨p, hlast, rfl⟩, fun r hr => ?_⟩
    rcases List.mem_append.mp hr with hr | hr
    · -- what fits where the narrowest one so far does fits where all of them do
      exact htrans (htype ▸ hdecided) (h.related r hr)
    · rw [List.mem_singleton.mp hr]
      exact hrefl p.type
  | false =>
    refine ⟨hoptional, ⟨q, List.mem_append_left _ hq, htype⟩, fun r hr => ?_⟩
    rcases List.mem_append.mp hr with hr | hr
    · exact h.related r hr
    · rw [List.mem_singleton.mp hr]
      exact htype ▸ hdecided

/-- Of declarations that can be compared with each other, the narrowest one is left. -/
theorem narrows_of_foldlM {declared : List Property} :
    ∀ {seen : List Property} {old : Property} {last? : Option Property}, Narrows R seen old →
      (seen ++ declared).Pairwise (Decides fits R) →
      declared.foldlM (Table.combine fits) (some old) = some last? →
      ∃ last, last? = some last ∧ Narrows R (seen ++ declared) last := by
  induction declared with
  | nil =>
    intro seen old last? hold _ h
    cases h
    exact ⟨old, rfl, by rwa [List.append_nil]⟩
  | cons p rest ih =>
    intro seen old last? hold hpairwise h
    rw [List.append_cons] at hpairwise ⊢
    rw [List.foldlM_cons] at h
    obtain ⟨next?, hcombine, h⟩ := Option.bind_eq_some_iff.mp h
    have hdecides : ∀ q ∈ seen, Decides fits R q p := fun q hq =>
      (List.pairwise_append.mp (List.pairwise_append.mp hpairwise).1).2.2 q hq p
        (List.mem_singleton_self p)
    obtain ⟨next, rfl, hnext⟩ := hold.combine hrefl htrans hdecides hcombine
    exact ih hnext hpairwise h

/-- Each merged property is the narrowest of the declarations of its name. -/
theorem narrows_of_mem {declared merged : Shape} {p : Property}
    (hmerged : declared.foldlM (mergeProperty fits) [] = some merged)
    (hpairwise : declared.Pairwise fun q q' => q.name = q'.name → Decides fits R q q')
    (hp : p ∈ merged) : Narrows R (declared.filter (·.name = p.name)) p := by
  have hfind : merged.find? p.name = some p :=
    Shape.find?_of_mem (nodup_of_foldlM [] List.nodup_nil hmerged) hp
  have hfold := find?_of_foldlM p.name hmerged
  have hdecides : (declared.filter (·.name = p.name)).Pairwise (Decides fits R) := by
    refine (hpairwise.filter _).imp_of_mem fun hq hq' h => h ?_
    have hname := of_decide_eq_true (List.mem_filter.mp hq).2
    exact hname.trans (of_decide_eq_true (List.mem_filter.mp hq').2).symm
  rw [hfind] at hfold
  cases hdeclared : declared.filter (·.name = p.name) with
  | nil =>
    rw [hdeclared] at hfold
    cases hfold
  | cons first rest =>
    rw [hdeclared] at hfold hdecides
    obtain ⟨last, heq, hlast⟩ :=
      narrows_of_foldlM hrefl htrans (.single hrefl first) hdecides hfold
    cases heq
    exact hlast

end Merging

/-! ## Declarations that do not contradict each other -/

section Conflicts

variable {α β : Type}

theorem forall_of_findSomeM? {f : α → Answer (Option β)} :
    ∀ {l : List α}, l.findSomeM? f = some none → ∀ x ∈ l, f x = some none
  | [], _, x, hx => absurd hx List.not_mem_nil
  | y :: l, h, x, hx => by
    obtain ⟨found?, hy, h⟩ := Option.bind_eq_some_iff.mp h
    cases found? with
    | some found => cases h
    | none =>
      rcases List.mem_cons.mp hx with rfl | hx
      · exact hy
      · exact forall_of_findSomeM? h x hx

/-- Without a conflict no member of an intersection contradicts a later one. -/
theorem pairwise_of_conflict? {effort : Nat} {members : List Ty}
    (h : table.conflict? effort members = some none) :
    members.Pairwise fun first second => table.clash? effort first second = some none := by
  induction members with
  | nil => exact .nil
  | cons first rest ih =>
    obtain ⟨found?, hfirst, h⟩ := Option.bind_eq_some_iff.mp h
    cases found? with
    | some found => cases h
    | none => exact .cons (forall_of_findSomeM? hfirst) (ih h)

/-- Shapes that do not contradict each other have comparable properties. -/
theorem compatible_of_clashOfShapes? {effort : Nat} {first second : Shape}
    (h : table.clashOfShapes? effort first second = some none) {p q : Property} (hp : p ∈ first)
    (hq : second.find? p.name = some q) :
    table.Compatible p.type q.type ∨ table.Compatible q.type p.type := by
  have hclash := forall_of_findSomeM? h p hp
  rw [hq] at hclash
  obtain ⟨isFirst, hfirst, hclash⟩ := Option.bind_eq_some_iff.mp hclash
  cases isFirst with
  | true => exact Or.inl (.of_fits hfirst)
  | false =>
    obtain ⟨isSecond, hsecond, hclash⟩ := Option.bind_eq_some_iff.mp hclash
    cases isSecond with
    | true => exact Or.inr (.of_fits hsecond)
    | false => cases hclash

end Conflicts

variable (table) in
/-- The properties that an object type or a declared interface lists. -/
def declarations (type : Ty) : Shape :=
  match table.opened type with
  | .object shape => shape
  | _ => []

variable (table) in
/-- An object type or a declared interface in which no name is declared twice. -/
structure IsObject (type : Ty) : Prop where
  opened : table.opened type = .object (table.declarations type)
  nodup : ((table.declarations type).map (·.name)).Nodup

instance (type : Ty) : Decidable (table.IsObject type) :=
  decidable_of_iff (_ ∧ _) ⟨fun h => ⟨h.1, h.2⟩, fun h => ⟨h.opened, h.nodup⟩⟩

theorem IsObject.shapeOf? {type : Ty} (h : table.IsObject type) (fits : Ty → Ty → Answer Bool) :
    table.shapeOf? fits type = some (some (table.declarations type)) := by
  have hopened := h.opened
  cases type with
  | object shape => rfl
  | named name =>
    show some (table.interface? name) = _
    cases hname : table.interface? name with
    | none => simp [Table.opened, expand, hname] at hopened
    | some shape => simp [declarations, Table.opened, expand_of_interface? hname]
  | _ => cases hopened

theorem IsObject.intersectionMembers {type : Ty} (h : table.IsObject type) :
    type.intersectionMembers = [type] := by
  have hopened := h.opened
  cases type with
  | intersection members => cases hopened
  | _ => rfl

section Objects

variable {members : List Ty} (hobject : ∀ m ∈ members, table.IsObject m)
include hobject

theorem flatMap_intersectionMembers : members.flatMap Ty.intersectionMembers = members := by
  induction members with
  | nil => rfl
  | cons m rest ih =>
    rw [List.flatMap_cons, (hobject m (List.mem_cons_self ..)).intersectionMembers,
      ih fun m hm => hobject m (List.mem_cons_of_mem _ hm)]
    rfl

theorem shapesOf_of_isObject (fits : Ty → Ty → Answer Bool) :
    table.shapesOf fits members = some (members.map table.declarations) := by
  induction members with
  | nil => rfl
  | cons m rest ih =>
    unfold shapesOf
    rw [(hobject m (List.mem_cons_self ..)).shapeOf?,
      ih fun m hm => hobject m (List.mem_cons_of_mem _ hm)]
    rfl

/-- The shape of an intersection of object types is merged from their declarations. -/
theorem shapeOf?_intersectionOf (hlength : 2 ≤ members.length) (fits : Ty → Ty → Answer Bool) :
    table.shapeOf? fits (.intersectionOf members) =
      ((members.flatMap table.declarations).foldlM (mergeProperty fits) []).map some := by
  have hmembers := flatMap_intersectionMembers hobject
  have hintersection : Ty.intersectionOf members = .intersection members := by
    rcases Ty.intersectionOf_eq members with heq | ⟨-, heq⟩
    · have hone := congrArg List.length (hmembers.symm.trans heq)
      rw [List.length_singleton] at hone
      omega
    · rwa [hmembers] at heq
  have hne : (members.map table.declarations).isEmpty = false := by
    cases members with
    | nil => exact absurd hlength (by decide)
    | cons m rest => rfl
  rw [hintersection, Table.shapeOf?, shapesOf_of_isObject hobject]
  show mergeShapes fits (members.map table.declarations) = _
  rw [mergeShapes, hne, List.flatMap_def]
  cases List.foldlM (mergeProperty fits) [] (members.map table.declarations).flatten <;> rfl

/-- In an intersection without a conflict, of two declarations of a name one fits where the
other one is expected. -/
theorem comparable_of_conflict? {effort : Nat} (h : table.conflict? effort members = some none) :
    (members.flatMap table.declarations).Pairwise fun p q => p.name = q.name →
      table.Compatible p.type q.type ∨ table.Compatible q.type p.type := by
  refine List.pairwise_flatMap.mpr ⟨fun m hm => ?_, ?_⟩
  · -- one member does not declare a name twice
    refine (List.pairwise_map.mp (hobject m hm).nodup).imp fun hne heq => absurd heq hne
  · -- two members are compared name by name in the search for a conflict
    refine (pairwise_of_conflict? h).imp_of_mem fun {first second} hfirst hsecond hclash => ?_
    intro p hp q hq hname
    have hshapes : table.clashOfShapes? effort (table.declarations first)
        (table.declarations second) = some none := by
      have hopened := (hobject first hfirst).opened
      unfold clash? at hclash
      split at hclash
      · cases hopened
      · unfold shape? at hclash
        rw [(hobject first hfirst).shapeOf?, (hobject second hsecond).shapeOf?] at hclash
        exact hclash
    refine compatible_of_clashOfShapes? hshapes hp ?_
    rw [hname]
    exact Shape.find?_of_mem (hobject second hsecond).nodup hq

end Objects

/-! ## Strict types in a table with other interfaces -/

/-- A table of strict interfaces all of which are also in another one, which may have
interfaces of any kind besides. -/
structure IsStrictPartOf (part table : Table) : Prop where
  strict : part.AllStrict
  interface? : ∀ {name shape}, part.interface? name = some shape →
    table.interface? name = some shape

theorem AllStrict.isStrictPart (h : table.AllStrict) : table.IsStrictPartOf table :=
  ⟨h, fun hname => hname⟩

/-- What a strict name stands for is the same in the part as in the whole table. -/
theorem IsStrictPartOf.expand_eq (hpart : part.IsStrictPartOf table) {name : String}
    (h : part.Strict (.named name)) :
    table.expand name = part.expand name ∧ part.Strict (part.expand name) := by
  obtain ⟨shape, hshape⟩ := Option.isSome_iff_exists.mp h.self
  rw [expand_of_interface? hshape, expand_of_interface? (hpart.interface? hshape)]
  exact ⟨rfl, hpart.strict name shape hshape⟩

variable (part) in
/-- A relation between the strict types alone. -/
def OnStrict (R : Ty → Ty → Prop) (s t : Ty) : Prop :=
  part.Strict s ∧ part.Strict t ∧ R s t

section OnStrict

variable {R : Ty → Ty → Prop}

theorem JustifiesShape.onStrict {source target : Shape} (hs : part.Strict (.object source))
    (ht : part.Strict (.object target)) (h : JustifiesShape R source target) :
    JustifiesShape (part.OnStrict R) source target := by
  intro wanted hwanted
  have hj := h wanted hwanted
  cases hfound : source.find? wanted.name with
  | none => rwa [hfound] at hj
  | some found =>
    rw [hfound] at hj
    exact ⟨hj.1, (hs.property (Shape.mem_of_find? hfound)).1, (ht.property hwanted).1, hj.2⟩

theorem Strict.param? {signature : Signature} (h : part.Strict (.function signature)) {index : Nat}
    {type : Ty} (htype : signature.param? index = some type) : part.Strict type :=
  h.param (Signature.mem_of_param? htype)

theorem JustifiesSignature.onStrict {source target : Signature}
    (hs : part.Strict (.function source)) (ht : part.Strict (.function target))
    (h : JustifiesSignature R source target) :
    JustifiesSignature (part.OnStrict R) source target :=
  ⟨h.1, fun index s t hparam hparam' =>
    ⟨ht.param? hparam', hs.param? hparam, h.2.1 index s t hparam hparam'⟩,
    hs.result, ht.result, h.2.2⟩

/-- What makes two strict types compatible does so in each table with the same strict part. -/
theorem Justifies.onStrict {other : Table} (hpart : part.IsStrictPartOf table)
    (hother : part.IsStrictPartOf other) (hs : part.Strict source) (ht : part.Strict target)
    (h : table.Justifies R source target) : other.Justifies (part.OnStrict R) source target := by
  -- a name that is strict stands for the same type in all tables with the strict part
  have hopen : ∀ {name}, part.Strict (.named name) →
      table.expand name = other.expand name ∧ part.Strict (other.expand name) := by
    intro name h
    obtain ⟨heq, hstrict⟩ := hpart.expand_eq h
    rw [heq, (hother.expand_eq h).1]
    exact ⟨rfl, hstrict⟩
  have hright : ∀ {s name}, part.Strict s → part.Strict (.named name) →
      R s (table.expand name) → part.OnStrict R s (other.expand name) :=
    fun hs ht h => ⟨hs, (hopen ht).2, (hopen ht).1 ▸ h⟩
  unfold Justifies at h ⊢
  rcases h with heq | hunknown | hunknown | h
  · exact Or.inl heq
  · exact absurd hunknown hs.ne_unknown
  · exact absurd hunknown ht.ne_unknown
  refine Or.inr (Or.inr (Or.inr ?_))
  cases source with
  | unknown | intersection => exact hs.self.elim
  | named s =>
    obtain ⟨heq, hstrict⟩ := hopen hs
    cases target with
    | named t => exact hright hstrict ht (heq ▸ h)
    | _ => exact ⟨hstrict, ht, heq ▸ h⟩
  | union members =>
    cases target with
    | named t => exact hright hs ht h
    | _ => exact fun m hm => ⟨hs.member hm, ht, h m hm⟩
  | _ =>
    cases target with
    | unknown | intersection => exact ht.self.elim
    | named t => exact hright hs ht h
    | union members =>
      obtain ⟨m, hm, h⟩ := h
      exact ⟨m, hm, hs, ht.member hm, h⟩
    | _ =>
      first
      | exact h.elim
      | exact h
      | exact JustifiesShape.onStrict hs ht h
      | exact JustifiesSignature.onStrict hs ht h

end OnStrict

/-- Two tables with the same strict part agree on its types. -/
theorem IsStrictPartOf.compatible {other : Table} (hpart : part.IsStrictPartOf table)
    (hother : part.IsStrictPartOf other) (hs : part.Strict source) (ht : part.Strict target)
    (h : table.Compatible source target) : other.Compatible source target := by
  refine ⟨part.OnStrict table.Compatible, ?_, hs, ht, h⟩
  rintro source target ⟨hs, ht, h⟩
  exact (consistent_compatible source target h).onStrict hpart hother hs ht

/-- Fitting is transitive on the strict types of a part of the table. -/
theorem Compatible.trans (hpart : part.IsStrictPartOf table) (hs : part.Strict source)
    (hm : part.Strict middle) (ht : part.Strict target) (h : table.Compatible source middle)
    (h' : table.Compatible middle target) : table.Compatible source target := by
  -- The table may have interfaces that are not strict, so the type between is left out in the
  -- part, where it can be.
  have hbridged : part.Bridged source target :=
    ⟨hs, ht, middle, hm, hpart.compatible hpart.strict.isStrictPart hs hm h,
      hpart.compatible hpart.strict.isStrictPart hm ht h'⟩
  refine hpart.strict.isStrictPart.compatible hpart hs ht ?_
  exact ⟨_, consistent_covered hpart.strict, Or.inr ⟨hs, ht, hbridged.covers hpart.strict⟩⟩

/-! ## The narrowest declarations of an intersection -/

variable (part table) in
/-- Two types that are the same, or strict and compatible. -/
def Narrower (s t : Ty) : Prop :=
  s = t ∨ part.OnStrict table.Compatible s t

theorem Narrower.trans (hpart : part.IsStrictPartOf table) (h : part.Narrower table source middle)
    (h' : part.Narrower table middle target) : part.Narrower table source target := by
  rcases h with rfl | ⟨hs, hm, h⟩
  · exact h'
  · rcases h' with rfl | ⟨-, ht, h'⟩
    · exact Or.inr ⟨hs, hm, h⟩
    · exact Or.inr ⟨hs, ht, h.trans hpart hs hm ht h'⟩

theorem Narrower.compatible (h : part.Narrower table source target) :
    table.Compatible source target := by
  rcases h with rfl | ⟨-, -, h⟩
  · exact .refl _
  · exact h

/-- Of two strict types that can be compared, the question if the one fits tells which one is
the narrower. -/
theorem decides_narrower {p q : Property} (hp : part.Strict p.type) (hq : part.Strict q.type)
    (h : table.Compatible p.type q.type ∨ table.Compatible q.type p.type) (effort : Nat) :
    Decides (table.fits? effort) (part.Narrower table) p q := by
  intro isNarrower hfits
  cases isNarrower with
  | true => exact Or.inr ⟨hq, hp, .of_fits hfits⟩
  | false =>
    -- as the answer is no, the other way is the one that holds
    refine Or.inr ⟨hp, hq, h.resolve_right fun h => ?_⟩
    exact absurd (h.eq_true hfits) (by decide)

/-- The shape of an intersection of object types that do not contradict each other keeps the
narrowest declaration of each name. It declares the names that some member declares, each
once and in the order of their first declarations; a property is optional if it is so
wherever it is declared; and its type is that of one of the declarations and fits where each
of them is expected. This is of members whose properties have strict types, and there is
such a shape if the questions among the declarations of one name are answered. -/
theorem shape?_intersectionOf_narrowest (hpart : part.IsStrictPartOf table) {members : List Ty}
    (hlength : 2 ≤ members.length) (hobject : ∀ m ∈ members, table.IsObject m)
    (hstrict : ∀ m ∈ members, ∀ p ∈ table.declarations m, part.Strict p.type) {effort : Nat}
    (hconflict : table.conflict? effort members = some none) (effort' : Nat) :
    let declared := members.flatMap table.declarations
    (∀ answer, table.shape? effort' (.intersectionOf members) = some answer →
      ∃ merged, answer = some merged ∧
        merged.map (·.name) = (declared.map (·.name)).eraseDups ∧
        ∀ p ∈ merged,
          (p.isOptional = true ↔ ∀ q ∈ declared, q.name = p.name → q.isOptional = true) ∧
          (∃ q ∈ declared, q.name = p.name ∧ p.type = q.type) ∧
          ∀ q ∈ declared, q.name = p.name → ∀ more fits,
            table.fits? more p.type q.type = some fits → fits = true) ∧
    ((∀ p ∈ declared, ∀ q ∈ declared, p.name = q.name →
        (table.fits? effort' p.type q.type).isSome) →
      (table.shape? effort' (.intersectionOf members)).isSome) := by
  intro declared
  have hshape : table.shape? effort' (.intersectionOf members) =
      (declared.foldlM (mergeProperty (table.fits? effort')) []).map some :=
    shapeOf?_intersectionOf hobject hlength _
  have hdeclared : ∀ p ∈ declared, part.Strict p.type := by
    intro p hp
    obtain ⟨m, hm, hp⟩ := List.mem_flatMap.mp hp
    exact hstrict m hm p hp
  rw [hshape]
  constructor
  · intro answer hanswer
    obtain ⟨merged, hmerged, rfl⟩ := Option.map_eq_some_iff.mp hanswer
    refine ⟨merged, rfl, map_name_of_foldlM [] rfl hmerged, fun p hp => ?_⟩
    -- without a conflict the answers that merging asks for are those of the narrower relation
    have hdecides : declared.Pairwise fun q q' => q.name = q'.name →
        Decides (table.fits? effort') (part.Narrower table) q q' :=
      (comparable_of_conflict? hobject hconflict).imp_of_mem fun hq hq' h hname =>
        decides_narrower (hdeclared _ hq) (hdeclared _ hq') (h hname) effort'
    have hnarrows := narrows_of_mem (R := part.Narrower table) (fun _ => Or.inl rfl)
      (Narrower.trans hpart) hmerged hdecides hp
    have hmem : ∀ q, q ∈ declared.filter (·.name = p.name) ↔ q ∈ declared ∧ q.name = p.name := by
      simp
    refine ⟨?_, ?_, fun q hq hname more fits hfits => ?_⟩
    · simp only [hnarrows.isOptional, hmem, and_imp]
    · obtain ⟨q, hq, htype⟩ := hnarrows.exists_type
      exact ⟨q, ((hmem q).mp hq).1, ((hmem q).mp hq).2, htype⟩
    · exact (hnarrows.related q ((hmem q).mpr ⟨hq, hname⟩)).compatible.eq_true hfits
  · intro hended
    obtain ⟨merged, hmerged⟩ : ∃ merged,
        declared.foldlM (mergeProperty (table.fits? effort')) [] = some merged :=
      exists_foldlM [] [] (fun p hp => absurd hp List.not_mem_nil) hended
    rw [hmerged]
    rfl

/-- Three members that declare an optional property in three ways, the narrowest one in the
middle, and one that two of them declare to be of interfaces. -/
theorem shape?_intersectionOf_narrowest_of_three :
    let dots : List (String × Shape) := [("Dot", [⟨"x", .number, false⟩]),
      ("Spot", [⟨"mark", .union [.text, .named "Dot"], false⟩, ⟨"x", .number, false⟩])]
    let part : Table := ⟨.ofList dots⟩
    let table : Table := ⟨.ofList (dots ++
      [("Pin", [⟨"at", .named "Dot", true⟩, ⟨"id", .union [.number, .text, .void], true⟩])])⟩
    let members : List Ty := [.named "Pin", .object [⟨"id", .number, true⟩],
      .object [⟨"tag", .boolean, false⟩, ⟨"at", .named "Spot", false⟩,
        ⟨"id", .union [.text, .number], true⟩]]
    part.IsStrictPartOf table ∧ table.conflict? 9 members = some none ∧
      ∃ merged, table.shape? 9 (.intersectionOf members) = some (some merged) ∧
        merged.map (·.name) = ["at", "id", "tag"] ∧
        ∀ p ∈ merged, ∀ q ∈ members.flatMap table.declarations, q.name = p.name →
          ∀ more fits, table.fits? more p.type q.type = some fits → fits = true := by
  intro dots part table members
  have hpart : part.IsStrictPartOf table := by
    refine ⟨allStrict_of_entries (by decide +kernel), fun {name shape} h => ?_⟩
    have hmem : (name, shape) ∈ dots := Record.mem_entries_of_get? h
    rcases List.mem_cons.mp hmem with heq | hmem
    · cases heq
      rfl
    · cases List.mem_singleton.mp hmem
      rfl
  have hconflict : table.conflict? 9 members = some none := by decide +kernel
  have hobject : ∀ m ∈ members, table.IsObject m := by decide +kernel
  obtain ⟨hshape, hended⟩ := shape?_intersectionOf_narrowest hpart (by decide) hobject
    (by decide +kernel) hconflict 9
  obtain ⟨answer, hanswer⟩ := Option.isSome_iff_exists.mp (hended (by decide +kernel))
  obtain ⟨merged, rfl, hnames, hmerged⟩ := hshape answer hanswer
  refine ⟨hpart, hconflict, merged, hanswer, ?_, fun p hp => (hmerged p hp).2.2⟩
  rw [hnames]
  decide +kernel

end Table

end TypedScript
