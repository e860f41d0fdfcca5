import TypedScript.Proofs.Merging

/-!
# The order of the members of an intersection

An intersection has the same properties in whichever order its members are written, and the
same of them are optional. The types of the properties are a different matter. A later
declaration of a name takes the place of an earlier one if its type fits there, so of two
types that fit where each other is expected the later one is left. Strict types that do so
can stand for each other, and the order does not matter. But `unknown` and a number fit where
each other is expected as well, and it is of great account which of them is left
(`unlike_of_unknown`).

Main result: `shape?_intersectionOf_swap`, which says when the order does not matter.
-/

namespace TypedScript

namespace Table

variable {table : Table} {fits fits' : Ty → Ty → Answer Bool}

variable (table) in
/-- Two types that fit in the same places, as far as the questions are answered. -/
def AlikeWhere (P : Ty → Prop) (s t : Ty) : Prop :=
  ∀ target, P target → ∀ effort effort' answer answer',
    table.fits? effort s target = some answer → table.fits? effort' t target = some answer' →
      answer = answer'

variable (table) in
/-- Two types that fit in the same places. -/
def Alike (s t : Ty) : Prop :=
  table.AlikeWhere (fun _ => True) s t

theorem AlikeWhere.refl (P : Ty → Prop) (type : Ty) : table.AlikeWhere P type type := by
  intro target _ effort effort' answer answer' h h'
  rw [Bool.eq_iff_iff, fits?_eq_true_iff h, fits?_eq_true_iff h']

theorem AlikeWhere.symm {P : Ty → Prop} {s t : Ty} (h : table.AlikeWhere P s t) :
    table.AlikeWhere P t s :=
  fun target hP effort effort' answer answer' h₁ h₂ =>
    (h target hP effort' effort answer' answer h₂ h₁).symm

/-- Strict types that fit where each other is expected fit where the same strict types are. -/
theorem alikeWhere_of_fits {part : Table} (hpart : part.IsStrictPartOf table) {s t : Ty}
    (hs : part.Strict s) (ht : part.Strict t) (hst : table.Fits s t) (hts : table.Fits t s) :
    table.AlikeWhere part.Strict s t := by
  intro target htarget effort effort' answer answer' h h'
  have hst : table.Compatible s t := hst.compatible
  have hts : table.Compatible t s := hts.compatible
  rw [Bool.eq_iff_iff, fits?_eq_true_iff h, fits?_eq_true_iff h']
  exact ⟨fun h => hts.trans hpart ht hs htarget h, fun h => hst.trans hpart hs ht htarget h⟩

/-! ## Two declarations of a name -/

/-- At most one property of a shape has a name. -/
theorem filter_name_eq {shape : Shape} (hnodup : (shape.map (·.name)).Nodup) (name : String) :
    shape.filter (·.name = name) = (shape.find? name).toList := by
  induction shape with
  | nil => rfl
  | cons p rest ih =>
    obtain ⟨hp, hrest⟩ := List.nodup_cons.mp hnodup
    by_cases hname : p.name = name
    · have hothers : rest.filter (·.name = name) = [] := by
        refine List.filter_eq_nil_iff.mpr fun q hq heq => hp ?_
        show p.name ∈ rest.map (·.name)
        rw [hname, ← of_decide_eq_true heq]
        exact List.mem_map_of_mem hq
      simp [Shape.find?, hname, hothers]
    · simpa [Shape.find?, hname] using ih hrest

section Pair

variable {first second merged : Shape} (hfirst : (first.map (·.name)).Nodup)
  (hsecond : (second.map (·.name)).Nodup)
  (hmerged : (first ++ second).foldlM (mergeProperty fits) [] = some merged)
include hfirst hsecond hmerged

/-- What two shapes make of a name is what its declarations in them make of it. -/
theorem find?_of_pair (name : String) :
    ((first.find? name).toList ++ (second.find? name).toList).foldlM (combine fits) none =
      some (merged.find? name) := by
  have hfold := find?_of_foldlM name hmerged
  rwa [List.filter_append, filter_name_eq hfirst, filter_name_eq hsecond] at hfold

/-- A name that both shapes declare has the second type if that fits where the first one is
expected, and is optional if it is so in both. -/
theorem find?_of_both {p q : Property} (hp : p ∈ first) (hq : q ∈ second)
    (hname : p.name = q.name) :
    ∃ isNarrower, fits q.type p.type = some isNarrower ∧
      merged.find? p.name =
        some ⟨p.name, if isNarrower then q.type else p.type, p.isOptional && q.isOptional⟩ := by
  have hfold := find?_of_pair hfirst hsecond hmerged p.name
  rw [Shape.find?_of_mem hfirst hp, hname, Shape.find?_of_mem hsecond hq] at hfold
  have hcombine : combine fits (some p) q = some (merged.find? q.name) := by
    simpa [combine] using hfold
  obtain ⟨isNarrower, hfits, hfind⟩ := Option.bind_eq_some_iff.mp hcombine
  refine ⟨isNarrower, hfits, ?_⟩
  rw [hname, ← Option.some.inj hfind, hname]

/-- What one of two shapes declares alone stays as it is. -/
theorem find?_of_single {name : String} {p : Property}
    (hp : first.find? name = some p ∧ second.find? name = none ∨
      first.find? name = none ∧ second.find? name = some p) :
    merged.find? name = some p := by
  have hfold := find?_of_pair hfirst hsecond hmerged name
  rcases hp with ⟨hp, hnone⟩ | ⟨hnone, hp⟩
  all_goals
    rw [hp, hnone] at hfold
    exact (Option.some.inj hfold).symm

end Pair

/-! ## Both orders -/

section Swap

variable {first second merged swapped : Shape} {effort effort' : Nat}
  (hfirst : (first.map (·.name)).Nodup) (hsecond : (second.map (·.name)).Nodup)
  (hmerged : (first ++ second).foldlM (mergeProperty (table.fits? effort)) [] = some merged)
  (hswapped : (second ++ first).foldlM (mergeProperty (table.fits? effort')) [] = some swapped)
include hfirst hsecond hmerged hswapped

/-- If both of two declarations fit where the other one is expected, each order of the
shapes leaves the one that comes later. -/
theorem later_of_fits {p q : Property} (hp : p ∈ first) (hq : q ∈ second)
    (hname : p.name = q.name) (hpq : table.Fits p.type q.type) (hqp : table.Fits q.type p.type) :
    merged.find? p.name = some ⟨p.name, q.type, p.isOptional && q.isOptional⟩ ∧
      swapped.find? p.name = some ⟨p.name, p.type, p.isOptional && q.isOptional⟩ := by
  obtain ⟨isNarrower, hfits, hfind⟩ := find?_of_both hfirst hsecond hmerged hp hq hname
  obtain ⟨isNarrower', hfits', hfind'⟩ := find?_of_both hsecond hfirst hswapped hq hp hname.symm
  have heq : isNarrower = true := hqp.compatible.eq_true hfits
  have heq' : isNarrower' = true := hpq.compatible.eq_true hfits'
  rw [heq] at hfind
  rw [heq', ← hname, Bool.and_comm] at hfind'
  exact ⟨hfind, hfind'⟩

/-- A property of both orders is optional in both or in neither, and has the same type in
both unless it is declared with two types that fit where each other is expected. -/
theorem same_or_later
    (hcomparable : ∀ p ∈ first, ∀ q ∈ second, p.name = q.name →
      table.Compatible p.type q.type ∨ table.Compatible q.type p.type)
    {x y : Property} (hx : x ∈ merged) (hy : y ∈ swapped) (hxy : x.name = y.name) :
    x.isOptional = y.isOptional ∧ (x.type = y.type ∨
      ∃ p ∈ first, ∃ q ∈ second, p.name = q.name ∧ table.Fits p.type q.type ∧
        table.Fits q.type p.type ∧ x.type = q.type ∧ y.type = p.type) := by
  have hx : merged.find? x.name = some x :=
    Shape.find?_of_mem (nodup_of_foldlM [] List.nodup_nil hmerged) hx
  have hy : swapped.find? x.name = some y :=
    hxy ▸ Shape.find?_of_mem (nodup_of_foldlM [] List.nodup_nil hswapped) hy
  have hsingle : ∀ p, first.find? x.name = some p ∧ second.find? x.name = none ∨
      first.find? x.name = none ∧ second.find? x.name = some p → x = y := by
    intro p hp
    have hx' := find?_of_single hfirst hsecond hmerged hp
    have hy' := find?_of_single hsecond hfirst hswapped (hp.symm.imp And.symm And.symm)
    exact Option.some.inj (hx.symm.trans (hx'.trans (hy'.symm.trans hy)))
  -- A name that one shape declares alone is not merged with anything in either order.
  cases hp : first.find? x.name with
  | none =>
    cases hq : second.find? x.name with
    | none =>
      have hfold := find?_of_pair hfirst hsecond hmerged x.name
      rw [hp, hq, hx] at hfold
      cases hfold
    | some q =>
      have heq := hsingle q (Or.inr ⟨hp, hq⟩)
      exact ⟨congrArg Property.isOptional heq, Or.inl (congrArg Property.type heq)⟩
  | some p =>
    cases hq : second.find? x.name with
    | none =>
      have heq := hsingle p (Or.inl ⟨hp, hq⟩)
      exact ⟨congrArg Property.isOptional heq, Or.inl (congrArg Property.type heq)⟩
    | some q =>
      have hpname : p.name = x.name := Shape.name_of_find? hp
      have hname : p.name = q.name := hpname.trans (Shape.name_of_find? hq).symm
      replace hp := Shape.mem_of_find? hp
      replace hq := Shape.mem_of_find? hq
      obtain ⟨isNarrower, hfits, hx'⟩ := find?_of_both hfirst hsecond hmerged hp hq hname
      obtain ⟨isNarrower', hfits', hy'⟩ := find?_of_both hsecond hfirst hswapped hq hp hname.symm
      rw [hpname, hx] at hx'
      rw [← hname, hpname, hy] at hy'
      rw [Option.some.inj hx', Option.some.inj hy']
      refine ⟨Bool.and_comm _ _, ?_⟩
      cases isNarrower with
      | true =>
        cases isNarrower' with
        | true => exact Or.inr ⟨p, hp, q, hq, hname, ⟨_, hfits'⟩, ⟨_, hfits⟩, rfl, rfl⟩
        | false => exact Or.inl rfl
      | false =>
        cases isNarrower' with
        | true => exact Or.inl rfl
        | false =>
          -- one of the two fits, so not both answers are no
          rcases hcomparable p hp q hq hname with h | h
          · exact absurd (h.eq_true hfits') (by decide)
          · exact absurd (h.eq_true hfits) (by decide)

end Swap

/-- The order of the members of an intersection that do not contradict each other decides
about the types of its properties only. The shapes for both orders have the same names and
the same optional properties. The types of each name fit in the same places in both exactly
if this is so of any two declarations of the name whose types fit where each other is
expected. Strict types fit where the same strict types are in any case. -/
theorem shape?_intersectionOf_swap {a b : Ty} (ha : table.IsObject a) (hb : table.IsObject b)
    {effort : Nat} (hconflict : table.conflict? effort [a, b] = some none)
    {effort' effort'' : Nat} {answer answer' : Option Shape}
    (h : table.shape? effort' (.intersectionOf [a, b]) = some answer)
    (h' : table.shape? effort'' (.intersectionOf [b, a]) = some answer') :
    ∃ s t, answer = some s ∧ answer' = some t ∧ (s.map (·.name)).Perm (t.map (·.name)) ∧
      (∀ p ∈ s, ∀ q ∈ t, p.name = q.name → p.isOptional = q.isOptional) ∧
      ((∀ p ∈ s, ∀ q ∈ t, p.name = q.name → table.Alike p.type q.type) ↔
        ∀ p ∈ table.declarations a, ∀ q ∈ table.declarations b, p.name = q.name →
          table.Fits p.type q.type → table.Fits q.type p.type → table.Alike p.type q.type) ∧
      ∀ part : Table, part.IsStrictPartOf table →
        (∀ p ∈ table.declarations a ++ table.declarations b, part.Strict p.type) →
        ∀ p ∈ s, ∀ q ∈ t, p.name = q.name → table.AlikeWhere part.Strict p.type q.type := by
  -- without a conflict any two declarations of a name are compatible one way or the other
  have hcomparable : ∀ p ∈ table.declarations a, ∀ q ∈ table.declarations b, p.name = q.name →
      table.Compatible p.type q.type ∨ table.Compatible q.type p.type := by
    have hpairwise := comparable_of_conflict? (by simp [ha, hb]) hconflict
    rw [List.flatMap_cons, List.flatMap_singleton] at hpairwise
    exact (List.pairwise_append.mp hpairwise).2.2
  have hfold : ∀ {x y : Ty} {effort : Nat} {answer : Option Shape}, table.IsObject x →
      table.IsObject y → table.shape? effort (.intersectionOf [x, y]) = some answer →
      ∃ merged, answer = some merged ∧
        (table.declarations x ++ table.declarations y).foldlM
          (mergeProperty (table.fits? effort)) [] = some merged := by
    intro x y effort answer hx hy h
    unfold shape? at h
    rw [shapeOf?_intersectionOf (by simp [hx, hy]) (by simp), List.flatMap_cons,
      List.flatMap_singleton] at h
    obtain ⟨merged, hmerged, rfl⟩ := Option.map_eq_some_iff.mp h
    exact ⟨merged, rfl, hmerged⟩
  obtain ⟨s, rfl, hs⟩ := hfold ha hb h
  obtain ⟨t, rfl, ht⟩ := hfold hb ha h'
  -- a property has one type in both orders, or in each order that of the later member
  have hsame := fun {x y} => same_or_later ha.nodup hb.nodup hs ht hcomparable (x := x) (y := y)
  refine ⟨s, t, rfl, rfl, ?_, fun x hx y hy hxy => (hsame hx hy hxy).1, ⟨?_, ?_⟩, ?_⟩
  · refine (List.perm_ext_iff_of_nodup (nodup_of_foldlM [] List.nodup_nil hs)
      (nodup_of_foldlM [] List.nodup_nil ht)).mpr fun name => ?_
    rw [map_name_of_foldlM [] rfl hs, map_name_of_foldlM [] rfl ht]
    simp [List.mem_eraseDups, or_comm]
  · intro halike p hp q hq hname hpq hqp
    obtain ⟨hx, hy⟩ := later_of_fits ha.nodup hb.nodup hs ht hp hq hname hpq hqp
    exact (halike _ (Shape.mem_of_find? hx) _ (Shape.mem_of_find? hy) rfl).symm
  · intro halike x hx y hy hxy
    rcases (hsame hx hy hxy).2 with heq | ⟨p, hp, q, hq, hname, hpq, hqp, hxtype, hytype⟩
    · rw [heq]
      exact .refl _ _
    · rw [hxtype, hytype]
      exact (halike p hp q hq hname hpq hqp).symm
  · intro part hpart hstrict x hx y hy hxy
    rcases (hsame hx hy hxy).2 with heq | ⟨p, hp, q, hq, hname, hpq, hqp, hxtype, hytype⟩
    · rw [heq]
      exact .refl _ _
    · rw [hxtype, hytype]
      exact alikeWhere_of_fits hpart (hstrict q (List.mem_append_right _ hq))
        (hstrict p (List.mem_append_left _ hp)) hqp hpq

/-- Two interfaces with a property that both declare with comparable types, the narrower one
first or last. -/
theorem shape?_intersectionOf_swap_of_dots :
    let table : Table := ⟨.ofList
      [("Dot", [⟨"x", .number, false⟩]),
        ("A", [⟨"at", .named "Dot", true⟩, ⟨"id", .union [.number, .text], false⟩]),
        ("B", [⟨"id", .number, true⟩, ⟨"at", .object [⟨"x", .number, false⟩], true⟩])]⟩
    let part : Table := ⟨.ofList [("Dot", [⟨"x", .number, false⟩])]⟩
    table.conflict? 9 [.named "A", .named "B"] = some none ∧
      ∃ s t, table.shape? 9 (.intersectionOf [.named "A", .named "B"]) = some (some s) ∧
        table.shape? 9 (.intersectionOf [.named "B", .named "A"]) = some (some t) ∧
        ∀ p ∈ s, ∀ q ∈ t, p.name = q.name → p.isOptional = q.isOptional ∧
          table.AlikeWhere part.Strict p.type q.type := by
  intro table part
  have hpart : part.IsStrictPartOf table := by
    refine ⟨allStrict_of_entries (by decide +kernel), fun {name shape} h => ?_⟩
    cases List.mem_singleton.mp (Record.mem_entries_of_get? h)
    rfl
  have hconflict : table.conflict? 9 [.named "A", .named "B"] = some none := by decide +kernel
  have hended : ∀ types ∈ [[Ty.named "A", .named "B"], [.named "B", .named "A"]],
      (table.shape? 9 (.intersectionOf types)).isSome := by decide +kernel
  obtain ⟨answer, h⟩ := Option.isSome_iff_exists.mp (hended _ (List.mem_cons_self ..))
  obtain ⟨answer', h'⟩ := Option.isSome_iff_exists.mp
    (hended _ (List.mem_cons_of_mem _ (List.mem_singleton_self _)))
  obtain ⟨s, t, rfl, rfl, -, hoptional, -, hstrict⟩ := shape?_intersectionOf_swap
    (by decide +kernel) (by decide +kernel) hconflict h h'
  have halike := hstrict part hpart (by decide +kernel)
  exact ⟨hconflict, s, t, h, h', fun p hp q hq hname =>
    ⟨hoptional p hp q hq hname, halike p hp q hq hname⟩⟩

instance : DecidableEq Property := fun a b =>
  decidable_of_iff (a.same b = true) (Property.same_iff a b)

/-- A property of unknown type and one of numbers fit where each other is expected, and the
later of the two is left: it depends on the order whether the result is taken for a text. -/
theorem unlike_of_unknown :
    let table : Table := ⟨.ofList
      [("A", [⟨"x", .unknown, false⟩]), ("B", [⟨"x", .number, false⟩])]⟩
    table.IsObject (.named "A") ∧ table.IsObject (.named "B") ∧
      table.conflict? 5 [.named "A", .named "B"] = some none ∧
      ∃ p q : Property, p.name = q.name ∧
        table.shape? 5 (.intersectionOf [.named "A", .named "B"]) = some (some [p]) ∧
        table.shape? 5 (.intersectionOf [.named "B", .named "A"]) = some (some [q]) ∧
        ¬table.Alike p.type q.type := by
  intro table
  refine ⟨by decide +kernel, by decide +kernel, by decide +kernel, ⟨"x", .number, false⟩,
    ⟨"x", .unknown, false⟩, rfl, by decide +kernel, by decide +kernel, fun halike => ?_⟩
  have hnumber : table.fits? 5 .number .text = some false := by decide +kernel
  have hunknown : table.fits? 5 .unknown .text = some true := by decide +kernel
  exact absurd (halike .text trivial 5 5 _ _ hnumber hunknown) (by decide)

end Table

end TypedScript
