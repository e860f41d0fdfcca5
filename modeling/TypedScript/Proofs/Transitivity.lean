import TypedScript.Proofs.Compatibility
import TypedScript.Proofs.Parts

/-!
# Fitting is transitive

A value of a union or of an interface is of one of its `Alternative`s: what remains when
unions are taken apart and names are opened. So one type fits where another is expected if
each alternative of the first has one of the second that it matches (`Covers`), and this no
longer depends on where the unions and the names stand. Two such statements in a row
compose, and what is left to compare are the types of properties, parameters and results.

This needs types in which nothing is lost on the way (`Strict`): `unknown` fits everywhere,
an object without an optional property fits where one with it is expected, a function of
any number of arguments has no length to compare, and an intersection has no alternatives.

Main result: `fits?_trans`.
-/

namespace TypedScript

/-- Whether a type is neither a name nor composed of alternatives. -/
def Ty.isHead : Ty → Bool
  | .primitive _ | .object _ | .function _ => true
  | _ => false

namespace Table

/-! ## Strict types -/

/-- A part of a type that is no intersection and not unknown, and neither an object with an
optional property, nor a function of any number of arguments, nor a name without a
declaration. -/
def StrictPart (table : Table) : Ty → Prop
  | .unknown => False
  | .intersection _ => False
  | .named name => table.declares name = true
  | .object properties => ∀ p ∈ properties, p.isOptional = false
  | .function signature => signature.isVariadic = false
  | _ => True

/-- A type that is strict at each depth. -/
def Strict (table : Table) (type : Ty) : Prop :=
  ∀ part ∈ type.parts, table.StrictPart part

/-- A table whose interfaces are strict. -/
def AllStrict (table : Table) : Prop :=
  ∀ name shape, table.interface? name = some shape → table.Strict (.object shape)

instance (table : Table) : DecidablePred table.StrictPart
  | .unknown | .intersection _ => inferInstanceAs (Decidable False)
  | .named _ | .function _ => inferInstanceAs (Decidable (_ = _))
  | .object properties => inferInstanceAs (Decidable (∀ p ∈ properties, p.isOptional = false))
  | .primitive _ | .union _ => inferInstanceAs (Decidable True)

instance (table : Table) (type : Ty) : Decidable (table.Strict type) :=
  inferInstanceAs (Decidable (∀ part ∈ type.parts, table.StrictPart part))

variable {table : Table}

theorem allStrict_of_entries
    (h : ∀ entry ∈ table.interfaces.entries, table.Strict (.object entry.2)) :
    table.AllStrict := by
  intro name shape hname
  exact h _ (Record.mem_entries_of_get? hname)

theorem Strict.self {type : Ty} (h : table.Strict type) : table.StrictPart type :=
  Ty.Throughout.self h

theorem Strict.member {members : List Ty} (h : table.Strict (.union members)) {m : Ty}
    (hm : m ∈ members) : table.Strict m :=
  (Ty.Throughout.union_iff.mp h).2 m hm

theorem Strict.property {properties : List Property} (h : table.Strict (.object properties))
    {p : Property} (hp : p ∈ properties) : table.Strict p.type ∧ p.isOptional = false :=
  ⟨(Ty.Throughout.object_iff.mp h).2 p hp, h.self p hp⟩

theorem Strict.param {signature : Signature} (h : table.Strict (.function signature)) {p : Ty}
    (hp : p ∈ signature.params) : table.Strict p :=
  (Ty.Throughout.function_iff.mp h).2.1 p hp

theorem Strict.result {signature : Signature} (h : table.Strict (.function signature)) :
    table.Strict signature.result :=
  (Ty.Throughout.function_iff.mp h).2.2

theorem Strict.ne_unknown {type : Ty} (h : table.Strict type) : type ≠ .unknown := by
  rintro rfl
  exact h.self

/-- Behind the name of a declared interface there is a shape, as strict as the table. -/
theorem Strict.expand (htable : table.AllStrict) {name : String}
    (h : table.Strict (.named name)) :
    ∃ shape, table.expand name = .object shape ∧ table.Strict (.object shape) := by
  obtain ⟨shape, hshape⟩ := Option.isSome_iff_exists.mp h.self
  exact ⟨shape, expand_of_interface? hshape, htable name shape hshape⟩

/-- What a strict type is once its name is opened: strict and no name. -/
theorem Strict.opened (htable : table.AllStrict) {type : Ty} (h : table.Strict type) :
    table.Strict (table.opened type) ∧ ∀ name, table.opened type ≠ .named name := by
  cases type with
  | named name =>
    obtain ⟨shape, hshape, hstrict⟩ := h.expand htable
    have hopened : table.opened (.named name) = .object shape := hshape
    rw [hopened]
    exact ⟨hstrict, by simp⟩
  | _ => exact ⟨h, by simp [Table.opened]⟩

/-! ## Alternatives -/

variable (table) in
/-- What a value of a type may be, once unions are taken apart and names are opened. -/
inductive Alternative : Ty → Ty → Prop where
  | self {h : Ty} : h.isHead = true → Alternative h h
  | member {h m : Ty} {members : List Ty} : m ∈ members → Alternative h m →
      Alternative h (.union members)
  | name {h : Ty} {name : String} : Alternative h (table.expand name) →
      Alternative h (.named name)

/-- What makes two types that are neither names nor unions compatible, if those related by
`R` are. -/
def Matches (R : Ty → Ty → Prop) : Ty → Ty → Prop
  | .primitive s, .primitive t => s = t
  | .object s, .object t => JustifiesShape R s t
  | .function s, .function t => JustifiesSignature R s t
  | _, _ => False

variable (table) in
/-- Each alternative of a type has an equal one of the other type, or one that it matches. -/
def Covers (R : Ty → Ty → Prop) (source target : Ty) : Prop :=
  ∀ h, table.Alternative h source →
    ∃ g, table.Alternative g target ∧ (h = g ∨ Matches R h g)

variable {R S : Ty → Ty → Prop} {source target h g : Ty}

theorem Alternative.isHead (ha : table.Alternative h source) : h.isHead = true := by
  induction ha with
  | self hh => exact hh
  | member _ _ ih => exact ih
  | name _ ih => exact ih

theorem Alternative.eq_of_isHead (ha : table.Alternative h source)
    (hs : source.isHead = true) : h = source := by
  cases ha with
  | self _ => rfl
  | member _ _ => exact absurd hs (by simp [Ty.isHead])
  | name _ => exact absurd hs (by simp [Ty.isHead])

theorem Alternative.of_union {members : List Ty}
    (ha : table.Alternative h (.union members)) : ∃ m ∈ members, table.Alternative h m := by
  cases ha with
  | self hh => exact absurd hh (by simp [Ty.isHead])
  | member hm ha => exact ⟨_, hm, ha⟩

theorem Alternative.of_named {name : String} (ha : table.Alternative h (.named name)) :
    table.Alternative h (table.expand name) := by
  cases ha with
  | self hh => exact absurd hh (by simp [Ty.isHead])
  | name ha => exact ha

theorem Alternative.of_opened (ha : table.Alternative h (table.opened source)) :
    table.Alternative h source := by
  cases source with
  | named name => exact .name ha
  | _ => exact ha

theorem Alternative.strict (htable : table.AllStrict) (ha : table.Alternative h source)
    (hs : table.Strict source) : table.Strict h := by
  induction ha with
  | self _ => exact hs
  | member hm _ ih => exact ih (hs.member hm)
  | name _ ih => exact ih (hs.opened htable).1

theorem Matches.mono (hRS : ∀ s t, R s t → S s t) (hm : Matches R h g) : Matches S h g := by
  unfold Matches at hm ⊢
  split at hm
  · exact hm
  · exact JustifiesShape.mono hRS hm
  · exact JustifiesSignature.mono hRS hm
  · exact hm.elim

/-! ## Compatible types cover each other -/

section Covering

variable (hR : table.Consistent R) (htable : table.AllStrict)

include hR

/-- Names are opened before anything else is compared. -/
theorem related_opened (hs : table.Strict source) (ht : table.Strict target)
    (hst : R source target) : source = target ∨ R (table.opened source) (table.opened target) := by
  have hj := hR source target hst
  unfold Justifies at hj
  rcases hj with heq | hunknown | hunknown | hj
  · exact Or.inl heq
  · exact absurd hunknown hs.ne_unknown
  · exact absurd hunknown ht.ne_unknown
  · refine Or.inr ?_
    cases source <;> cases target <;> first | exact hj | exact hst

theorem related_member {members : List Ty} (ht : table.Strict target)
    (hname : ∀ name, target ≠ .named name) (hst : R (.union members) target) :
    target = .union members ∨ ∀ m ∈ members, R m target := by
  have hj := hR _ target hst
  unfold Justifies at hj
  rcases hj with heq | hunknown | hunknown | hj
  · exact Or.inl heq.symm
  · exact absurd hunknown (by simp)
  · exact absurd hunknown ht.ne_unknown
  · refine Or.inr ?_
    cases target <;> first | exact hj | exact absurd rfl (hname _)

theorem exists_member {members : List Ty} (hh : h.isHead = true) (hst : R h (.union members)) :
    ∃ m ∈ members, R h m := by
  have hj := hR h _ hst
  unfold Justifies at hj
  cases h <;> simp_all [Ty.isHead]

theorem matches_of_isHead (hh : h.isHead = true) (hg : g.isHead = true) (hhg : R h g) :
    h = g ∨ Matches R h g := by
  have hj := hR h g hhg
  unfold Justifies at hj
  cases h <;> cases g <;> simp_all [Ty.isHead, Matches]

theorem related_expand (hh : h.isHead = true) (hs : table.Strict h) {name : String}
    (ht : table.Strict (.named name)) (hst : R h (.named name)) : R h (table.expand name) := by
  rcases related_opened hR hs ht hst with rfl | hopen
  · exact absurd hh (by simp [Ty.isHead])
  · cases h <;> first | exact hopen | exact absurd hh (by simp [Ty.isHead])

include htable

/-- A type that is its only alternative matches one of each type where it fits. -/
theorem exists_alternative (hh : h.isHead = true) (hs : table.Strict h) :
    ∀ target : Ty, table.Strict target → R h target →
      ∃ g, table.Alternative g target ∧ (h = g ∨ Matches R h g)
  | .unknown, ht, _ | .intersection _, ht, _ => ht.self.elim
  | .primitive p, _, hst => ⟨.primitive p, .self rfl, matches_of_isHead hR hh rfl hst⟩
  | .object shape, _, hst => ⟨.object shape, .self rfl, matches_of_isHead hR hh rfl hst⟩
  | .function signature, _, hst =>
    ⟨.function signature, .self rfl, matches_of_isHead hR hh rfl hst⟩
  | .named name, ht, hst => by
    obtain ⟨shape, hshape, hstrict⟩ := ht.expand htable
    have hopen := related_expand hR hh hs ht hst
    rw [hshape] at hopen
    have hg : table.Alternative (.object shape) (.named name) :=
      .name (by rw [hshape]; exact .self rfl)
    exact ⟨_, hg, matches_of_isHead hR hh rfl hopen⟩
  | .union members, ht, hst => by
    obtain ⟨m, hm, hhm⟩ := exists_member hR hh hst
    have hlt := Ty.sizeOf_lt_union hm
    obtain ⟨g, hg, hmatch⟩ := exists_alternative hh hs m (ht.member hm) hhm
    exact ⟨g, .member hm hg, hmatch⟩
termination_by target => sizeOf target

/-- If two types are compatible, the second one covers the first. -/
theorem covers_of_related (hs : table.Strict source) (ht : table.Strict target)
    (hst : R source target) : table.Covers R source target := by
  intro h ha
  induction ha generalizing target with
  | self hh => exact exists_alternative hR htable hh hs target ht hst
  | member hm ha ih =>
    rcases related_opened hR hs ht hst with rfl | hopen
    · exact ⟨_, .member hm ha, Or.inl rfl⟩
    · obtain ⟨hstrict, hname⟩ := ht.opened htable
      rcases related_member hR hstrict hname hopen with heq | hall
      · exact ⟨_, .of_opened (heq ▸ .member hm ha), Or.inl rfl⟩
      · obtain ⟨g, hg, hmatch⟩ := ih (hs.member hm) hstrict (hall _ hm)
        exact ⟨g, hg.of_opened, hmatch⟩
  | name ha ih =>
    rcases related_opened hR hs ht hst with rfl | hopen
    · exact ⟨_, .name ha, Or.inl rfl⟩
    · obtain ⟨g, hg, hmatch⟩ := ih (hs.opened htable).1 (ht.opened htable).1 hopen
      exact ⟨g, hg.of_opened, hmatch⟩

end Covering

/-! ## Two steps in a row -/

variable (table) in
/-- Two strict types that are compatible by way of a third one. -/
def Bridged (source target : Ty) : Prop :=
  table.Strict source ∧ table.Strict target ∧
    ∃ middle, table.Strict middle ∧ table.Compatible source middle ∧
      table.Compatible middle target

variable (table) in
/-- Two types that are compatible by one step or by two. -/
def Linked (source target : Ty) : Prop :=
  table.Compatible source target ∨ table.Bridged source target

theorem JustifiesShape.comp {first second third : Shape} (hfirst : table.Strict (.object first))
    (hsecond : table.Strict (.object second)) (hthird : table.Strict (.object third))
    (h : JustifiesShape table.Compatible first second)
    (h' : JustifiesShape table.Compatible second third) :
    JustifiesShape table.Bridged first third := by
  intro wanted hwanted
  -- no property may be missing, so each one wanted has one of its name in between
  have hstep : ∀ {source target : Shape} {p : Property}, table.Strict (.object target) →
      JustifiesShape table.Compatible source target → p ∈ target →
      ∃ q, source.find? p.name = some q ∧ table.Compatible q.type p.type := by
    intro source target p htarget hj hp
    have hfound := hj p hp
    cases hfind : source.find? p.name with
    | none =>
      rw [hfind] at hfound
      exact absurd hfound (by simp [(htarget.property hp).2])
    | some q =>
      rw [hfind] at hfound
      exact ⟨q, rfl, hfound.2⟩
  obtain ⟨q, hq, hqw⟩ := hstep hthird h' hwanted
  have hqmem : q ∈ second := List.mem_of_find?_eq_some hq
  have hqname : q.name = wanted.name := by simpa using List.find?_some hq
  obtain ⟨p, hp, hpq⟩ := hstep hsecond h hqmem
  have hpmem : p ∈ first := List.mem_of_find?_eq_some hp
  rw [hqname] at hp
  rw [hp]
  exact ⟨by simp [(hfirst.property hpmem).2], (hfirst.property hpmem).1,
    (hthird.property hwanted).1, q.type, (hsecond.property hqmem).1, hpq, hqw⟩

theorem JustifiesSignature.comp {first second third : Signature}
    (hfirst : table.Strict (.function first)) (hsecond : table.Strict (.function second))
    (hthird : table.Strict (.function third))
    (h : JustifiesSignature table.Compatible first second)
    (h' : JustifiesSignature table.Compatible second third) :
    JustifiesSignature table.Bridged first third := by
  have hfixed : ∀ {f : Signature}, table.Strict (.function f) → f.isVariadic = false :=
    fun hf => hf.self
  have hparam : ∀ {f : Signature} (index : Nat), table.Strict (.function f) →
      f.param? index = f.params[index]? := by
    intro f index hf
    unfold Signature.param?
    rw [hfixed hf]
    cases f.params[index]? <;> rfl
  have hlength : first.params.length = second.params.length := by
    simpa [hfixed hfirst, hfixed hsecond] using h.1
  have hlength' : second.params.length = third.params.length := by
    simpa [hfixed hsecond, hfixed hthird] using h'.1
  refine ⟨Or.inl (hlength.trans hlength'), ?_, hfirst.result, hthird.result, second.result,
    hsecond.result, h.2.2, h'.2.2⟩
  intro index s u hs hu
  have hs' := hs
  have hu' := hu
  rw [hparam index hfirst] at hs'
  rw [hparam index hthird] at hu'
  -- there are as many parameters in between, so one stands at the same place
  have hlt : index < second.params.length := by
    have := (List.getElem?_eq_some_iff.mp hs').1
    omega
  have ht : second.param? index = some second.params[index] := by
    rw [hparam index hsecond, List.getElem?_eq_getElem hlt]
  exact ⟨hthird.param (List.mem_of_getElem? hu'), hfirst.param (List.mem_of_getElem? hs'),
    second.params[index], hsecond.param (List.getElem_mem hlt), h'.2.1 index _ u ht hu,
    h.2.1 index s _ hs ht⟩

theorem Matches.comp {k : Ty} (hh : table.Strict h) (hg : table.Strict g) (hk : table.Strict k)
    (hhg : Matches table.Compatible h g) (hgk : Matches table.Compatible g k) :
    Matches table.Bridged h k := by
  cases h <;> cases g <;> try exact hhg.elim
  all_goals cases k <;> try exact hgk.elim
  case primitive.primitive.primitive => exact Eq.trans hhg hgk
  case object.object.object => exact JustifiesShape.comp hh hg hk hhg hgk
  case function.function.function => exact JustifiesSignature.comp hh hg hk hhg hgk

/-- What two steps lead to covers where they begin. -/
theorem Bridged.covers (htable : table.AllStrict) (hst : table.Bridged source target) :
    table.Covers table.Linked source target := by
  obtain ⟨hs, ht, middle, hm, hsm, hmt⟩ := hst
  have hcompatible : table.Consistent table.Compatible := consistent_compatible
  intro h hh
  obtain ⟨g, hg, hhg⟩ := covers_of_related hcompatible htable hs hm hsm h hh
  obtain ⟨k, hk, hgk⟩ := covers_of_related hcompatible htable hm ht hmt g hg
  refine ⟨k, hk, ?_⟩
  rcases hhg with rfl | hhg
  · exact hgk.imp_right (Matches.mono fun _ _ => Or.inl)
  · rcases hgk with rfl | hgk
    · exact Or.inr (hhg.mono fun _ _ => Or.inl)
    · have hcomp := hhg.comp (hh.strict htable hs) (hg.strict htable hm) (hk.strict htable ht) hgk
      exact Or.inr (hcomp.mono fun _ _ => Or.inr)

/-! ## Covering is consistent -/

/-- The names of two types may be opened where one covers the other. -/
theorem Covers.opened (hst : table.Covers R source target) :
    table.Covers R (table.opened source) (table.opened target) := by
  intro h hh
  obtain ⟨g, hg, hmatch⟩ := hst h hh.of_opened
  refine ⟨g, ?_, hmatch⟩
  cases target with
  | named name => exact hg.of_named
  | _ => exact hg

theorem Covers.member {members : List Ty} (hst : table.Covers R (.union members) target) {m : Ty}
    (hm : m ∈ members) : table.Covers R m target :=
  fun h hh => hst h (.member hm hh)

/-- A type that is its only alternative has one that it matches in a member of each union
that covers it. -/
theorem Covers.exists_member {members : List Ty} (hs : source.isHead = true)
    (hst : table.Covers R source (.union members)) :
    ∃ m ∈ members, table.Covers R source m := by
  obtain ⟨g, hg, hmatch⟩ := hst source (.self hs)
  obtain ⟨m, hm, hgm⟩ := hg.of_union
  refine ⟨m, hm, fun h hh => ⟨g, hgm, ?_⟩⟩
  rw [hh.eq_of_isHead hs]
  exact hmatch

theorem Covers.matches (hs : source.isHead = true) (ht : target.isHead = true)
    (hst : table.Covers R source target) : source = target ∨ Matches R source target := by
  obtain ⟨g, hg, hmatch⟩ := hst source (.self hs)
  rw [hg.eq_of_isHead ht] at hmatch
  exact hmatch

variable (table) in
/-- Two types of which the second covers the first up to two steps. -/
def Covered (source target : Ty) : Prop :=
  table.Strict source ∧ table.Strict target ∧ table.Covers table.Linked source target

theorem justifies_of_covered (htable : table.AllStrict) (hst : table.Covered source target) :
    table.Justifies (fun s t => table.Compatible s t ∨ table.Covered s t) source target := by
  obtain ⟨hs, ht, hcovers⟩ := hst
  -- names and unions are opened first; what is left on both sides are heads
  have hopened : table.Covered (table.opened source) (table.opened target) :=
    ⟨(hs.opened htable).1, (ht.opened htable).1, hcovers.opened⟩
  have hheads : source.isHead = true → target.isHead = true →
      table.Justifies (fun s t => table.Compatible s t ∨ table.Covered s t) source target := by
    intro hsource htarget
    rcases hcovers.matches hsource htarget with heq | hmatch
    · exact Or.inl heq
    · have hlinked := hmatch.mono fun s t (h : table.Linked s t) =>
        h.imp_right fun h => (⟨h.1, h.2.1, h.covers htable⟩ : table.Covered s t)
      refine Or.inr (Or.inr (Or.inr ?_))
      cases source <;> cases target <;> first | exact hlinked | exact hlinked.elim
  cases source with
  | unknown => exact hs.self.elim
  | intersection members => exact hs.self.elim
  | named name =>
    refine Or.inr (Or.inr (Or.inr ?_))
    cases target <;> exact Or.inr hopened
  | union members =>
    have hall : ∀ m ∈ members, table.Covered m target :=
      fun m hm => ⟨hs.member hm, ht, hcovers.member hm⟩
    refine Or.inr (Or.inr (Or.inr ?_))
    cases target with
    | named name => exact Or.inr hopened
    | _ => exact fun m hm => Or.inr (hall m hm)
  | _ =>
    cases target with
    | unknown => exact ht.self.elim
    | intersection members => exact ht.self.elim
    | named name => exact Or.inr (Or.inr (Or.inr (Or.inr hopened)))
    | union members =>
      obtain ⟨m, hm, hcovers⟩ := hcovers.exists_member rfl
      exact Or.inr (Or.inr (Or.inr ⟨m, hm, Or.inr ⟨hs, ht.member hm, hcovers⟩⟩))
    | _ => exact hheads rfl rfl

theorem consistent_covered (htable : table.AllStrict) :
    table.Consistent fun s t => table.Compatible s t ∨ table.Covered s t := by
  intro source target hst
  rcases hst with hst | hst
  · exact (consistent_compatible source target hst).mono fun _ _ => Or.inl
  · exact justifies_of_covered htable hst

/-- Fitting is transitive: of three strict types, in a table of strict interfaces, if the first
fits where the second is expected and the second where the third is, then the answer to the
question whether the first fits where the third is expected is yes, if there is one. -/
theorem fits?_trans (htable : table.AllStrict) {source middle target : Ty}
    (hs : table.Strict source) (hm : table.Strict middle) (ht : table.Strict target)
    {effort effort' effort'' : Nat} {answer : Bool}
    (hsm : table.fits? effort source middle = some true)
    (hmt : table.fits? effort' middle target = some true)
    (hst : table.fits? effort'' source target = some answer) : answer = true := by
  have hbridged : table.Bridged source target :=
    ⟨hs, ht, middle, hm, .of_fits hsm, .of_fits hmt⟩
  exact eq_true_of_consistent (consistent_covered htable) effort'' [] source target answer
    (Or.inr ⟨hs, ht, hbridged.covers htable⟩) hst

/-- A function of lists, of which each cell has a size, where one of lists without sizes is
expected, and that again where more results are expected: what is given goes the other way
than what is given back, and the lists refer to themselves. -/
theorem fits?_trans_of_lists :
    let table : Table := ⟨.ofList
      [("Cell", [⟨"next", .named "Cell", false⟩, ⟨"size", .number, false⟩]),
        ("Link", [⟨"next", .named "Link", false⟩])]⟩
    let source : Ty := .function ⟨[.union [.named "Link", .void]], 1, false, .named "Cell"⟩
    let middle : Ty := .function ⟨[.named "Link"], 1, false, .union [.named "Link", .text]⟩
    let target : Ty :=
      .function ⟨[.named "Cell"], 1, false, .union [.text, .number, .named "Link"]⟩
    table.AllStrict ∧ table.fits? 12 source middle = some true ∧
      table.fits? 12 middle target = some true ∧ table.fits? 12 source target = some true := by
  intro table source middle target
  have htable : table.AllStrict := allStrict_of_entries (by decide +kernel)
  have hsm : table.fits? 12 source middle = some true := by decide +kernel
  have hmt : table.fits? 12 middle target = some true := by decide +kernel
  have hended : (table.fits? 12 source target).isSome = true := by decide +kernel
  obtain ⟨answer, hanswer⟩ := Option.isSome_iff_exists.mp hended
  have hyes := fits?_trans htable (by decide +kernel) (by decide +kernel) (by decide +kernel) hsm
    hmt hanswer
  exact ⟨htable, hsm, hmt, hyes ▸ hanswer⟩

end Table

end TypedScript
