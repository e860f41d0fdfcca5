import TypedScript.Proofs.EnoughEffort
import TypedScript.Proofs.Inquiries

/-!
# Interfaces that refer to themselves directly

A pair of names is assumed to fit as soon as both are looked up, so interfaces
that name themselves or each other as the types of their properties, or of the
parameters and results of those, are compared to the end (`RecursesDirectly`).
What stands under a union or in an object type is compared with a name that is
looked up without a note, so there only such interfaces may stand as do not lead
back to themselves: looking up their names comes to an end by itself (`Bounded`).

Main result: with such interfaces all comparisons end, of any two types without
intersections (`RecursesDirectly.endsBothWays`).

The measure has four layers. The assumptions can grow only as often as there are
pairs of declared names, so for given ones the comparison of names with names may
be taken to end. A bounded type becomes smaller or has a name looked up, which
ends by itself, whatever is looked up on the other side (`endsBothWays_bounded`);
two direct types of functions become smaller, and a name is no function
(`endsBothWays_direct`). So what the names of the table stand for can be compared
with each other (`endsBothWays_named`), hence with any type
(`endsBothWays_of_names`), and at last two types are taken apart until there is a
name on one side (`endsBothWays_of_fresh`).

Both orders of the two types are proved at once (`EndsBothWays`), since the
parameters of functions are compared the other way round.
-/

namespace TypedScript

namespace Table

variable (table : Table)

/-- Whether the names in a type can be looked up, and those in what they stand
for, until there is none left. -/
inductive Bounded : Ty → Prop where
  | intro {type : Ty} : (∀ name, .named name ∈ type.parts → Bounded (table.expand name)) →
      Bounded type

/-- Whether a type is a name, or a function type of such, or bounded. -/
inductive Direct : Ty → Prop where
  | named (name : String) : Direct (.named name)
  | function {signature : Signature} : (∀ p ∈ signature.params, Direct p) →
      Direct signature.result → Direct (.function signature)
  | bounded {type : Ty} : table.Bounded type → Direct type

/-- Whether interfaces lead back to themselves at most by properties of direct
types. -/
def RecursesDirectly : Prop :=
  ∀ entry ∈ table.interfaces.entries, ∀ p ∈ entry.2, table.Direct p.type

end Table

/-- Whether a type has no intersection among its parts. -/
def Ty.HasNoIntersection (type : Ty) : Prop :=
  type.Throughout fun part => part.isIntersection = false

/-- A type is a name or is not, in the form in which questions tell it. -/
theorem Ty.named_or (type : Ty) :
    (∃ name, type = .named name) ∨ ∀ name, type ≠ .named name := by
  cases type with
  | named name => exact Or.inl ⟨name, rfl⟩
  | _ => exact Or.inr nofun

namespace Table

variable {table : Table} {assumed : List (String × String)} {s t : Ty}

/-! ## What is compared within two types -/

theorem Descends.mem_parts {s t s' t' : Ty} (h : Descends s t s' t') :
    s' ∈ s.parts ∧ t' ∈ t.parts := by
  cases h with
  | left hm =>
    exact ⟨Ty.mem_parts_union.mpr (Or.inr ⟨_, hm, Ty.mem_parts_self _⟩), t.mem_parts_self⟩
  | right hm =>
    exact ⟨s.mem_parts_self, Ty.mem_parts_union.mpr (Or.inr ⟨_, hm, Ty.mem_parts_self _⟩)⟩
  | property hfound hwanted =>
    exact ⟨Ty.mem_parts_object.mpr (Or.inr ⟨_, hfound, Ty.mem_parts_self _⟩),
      Ty.mem_parts_object.mpr (Or.inr ⟨_, hwanted, Ty.mem_parts_self _⟩)⟩
  | param hgiven hexpected =>
    exact ⟨Ty.mem_parts_function.mpr (Or.inr (Or.inl ⟨_, hgiven, Ty.mem_parts_self _⟩)),
      Ty.mem_parts_function.mpr (Or.inr (Or.inl ⟨_, hexpected, Ty.mem_parts_self _⟩))⟩
  | result => exact ⟨Ty.mem_parts_function.mpr (Or.inr (Or.inr (Ty.mem_parts_self _))),
      Ty.mem_parts_function.mpr (Or.inr (Or.inr (Ty.mem_parts_self _)))⟩

/-- A union is taken apart alone; of others both sides become smaller. -/
theorem Descends.sizeOf_lt {s t s' t' : Ty} (h : Descends s t s' t') :
    (sizeOf s' < sizeOf s ∧ t' = t) ∨ (s' = s ∧ sizeOf t' < sizeOf t) ∨
      (sizeOf s' < sizeOf s ∧ sizeOf t' < sizeOf t) := by
  cases h with
  | left hm => exact Or.inl ⟨Ty.sizeOf_lt_union hm, rfl⟩
  | right hm => exact Or.inr (Or.inl ⟨rfl, Ty.sizeOf_lt_union hm⟩)
  | property hfound hwanted =>
    exact Or.inr (Or.inr ⟨Ty.sizeOf_lt_object hfound, Ty.sizeOf_lt_object hwanted⟩)
  | param hgiven hexpected =>
    exact Or.inr (Or.inr ⟨Ty.sizeOf_lt_param hgiven, Ty.sizeOf_lt_param hexpected⟩)
  | result => exact Or.inr (Or.inr ⟨Ty.sizeOf_lt_result _, Ty.sizeOf_lt_result _⟩)

variable {table : Table} {assumed : List (String × String)} {s t : Ty}

/-- Whether two types can be compared to the end, in both orders. -/
def EndsBothWays (table : Table) (assumed : List (String × String)) (s t : Ty) : Prop :=
  table.Ends ⟨assumed, s, t⟩ ∧ table.Ends ⟨assumed, t, s⟩

namespace EndsBothWays

theorem symm (h : table.EndsBothWays assumed s t) : table.EndsBothWays assumed t s :=
  ⟨h.2, h.1⟩

theorem of_unknown (t : Ty) : table.EndsBothWays assumed .unknown t := by
  constructor <;> refine ⟨1, ?_⟩ <;> simp [answered, fitsAssuming, fitsRule]

theorem of_expand {a : String} (ht : ∀ b, t ≠ .named b) (hplain : t.isIntersection = false)
    (h : table.EndsBothWays assumed (table.expand a) t) :
    table.EndsBothWays assumed (.named a) t := by
  constructor
  · refine .of_asks rfl fun q hasks => ?_
    cases hasks.canAsk rfl hplain with
    | names _ => exact absurd rfl (ht _)
    | source _ => exact h.1
    | target hs => exact absurd rfl (hs a)
    | parts hs => exact absurd rfl (hs a)
    | flipped hs => exact absurd rfl (hs a)
  · refine .of_asks hplain fun q hasks => ?_
    cases hasks.canAsk hplain rfl with
    | names _ => exact absurd rfl (ht _)
    | source ha => exact absurd rfl (ha a)
    | target _ => exact h.2
    | parts _ ha => exact absurd rfl (ha a)
    | flipped _ ha => exact absurd rfl (ha a)

theorem of_parts (hs : ∀ a, s ≠ .named a) (ht : ∀ b, t ≠ .named b)
    (hsplain : s.isIntersection = false) (htplain : t.isIntersection = false)
    (h : ∀ s' t', Descends s t s' t' → table.EndsBothWays assumed s' t') :
    table.EndsBothWays assumed s t := by
  constructor
  · refine .of_asks hsplain fun q hasks => ?_
    cases hasks.canAsk hsplain htplain with
    | names _ => exact absurd rfl (hs _)
    | source _ => exact absurd rfl (hs _)
    | target _ => exact absurd rfl (ht _)
    | parts _ _ hd => exact (h _ _ hd).1
    | flipped _ _ hd => exact (h _ _ hd).2
  · refine .of_asks htplain fun q hasks => ?_
    cases hasks.canAsk htplain hsplain with
    | names _ => exact absurd rfl (hs _)
    | source _ => exact absurd rfl (ht _)
    | target _ => exact absurd rfl (hs _)
    | parts _ _ hd => exact (h _ _ hd.swap).2
    | flipped _ _ hd => exact (h _ _ hd.swap).1

end EndsBothWays

/-! ## Bounded and direct types -/

theorem Bounded.part {type x : Ty} (h : table.Bounded type) (hx : x ∈ type.parts) :
    table.Bounded x := by
  obtain ⟨h⟩ := h
  exact ⟨fun name hname => h name (Ty.parts_trans type hx hname)⟩

theorem Direct.of_union {members : List Ty} {m : Ty} (h : table.Direct (.union members))
    (hm : m ∈ members) : table.Direct m := by
  cases h with
  | bounded h =>
    exact .bounded (h.part (Ty.mem_parts_union.mpr (Or.inr ⟨m, hm, m.mem_parts_self⟩)))

theorem Direct.of_function {signature : Signature} (h : table.Direct (.function signature)) :
    (∀ p ∈ signature.params, table.Direct p) ∧ table.Direct signature.result := by
  cases h with
  | function hparams hresult => exact ⟨hparams, hresult⟩
  | bounded h =>
    refine ⟨fun p hp => .bounded (h.part ?_), .bounded (h.part ?_)⟩
    · exact Ty.mem_parts_function.mpr (Or.inr (Or.inl ⟨p, hp, p.mem_parts_self⟩))
    · exact Ty.mem_parts_function.mpr (Or.inr (Or.inr signature.result.mem_parts_self))

theorem Direct.primitive (primitive : Primitive) : table.Direct (.primitive primitive) :=
  .bounded ⟨fun _ hmem => nomatch List.mem_singleton.mp hmem⟩

/-- What comes up on one side when direct types are compared: they and what
their names stand for. -/
structure Shallow (table : Table) (type : Ty) : Prop where
  plain : type.HasNoIntersection
  direct : table.Direct type ∨
    ∃ properties, type = .object properties ∧ ∀ p ∈ properties, table.Direct p.type

theorem Shallow.property {properties : List Property} (h : table.Shallow (.object properties))
    {p : Property} (hp : p ∈ properties) : table.Direct p.type := by
  rcases h.direct with h | ⟨_, heq, h⟩
  · cases h with
    | bounded h =>
      exact .bounded (h.part (Ty.mem_parts_object.mpr (Or.inr ⟨p, hp, p.type.mem_parts_self⟩)))
  · cases heq
    exact h p hp

/-- What comes up within a shallow type is shallow. -/
theorem Shallow.descends (h : table.Shallow s) {s' t' : Ty} (hd : Descends s t s' t') :
    table.Shallow s' := by
  have hplain : s'.HasNoIntersection := h.plain.part hd.mem_parts.1
  refine ⟨hplain, ?_⟩
  cases hd with
  | right _ => exact h.direct
  | left hm => exact Or.inl ((h.direct.resolve_right nofun).of_union hm)
  | property hfound _ => exact Or.inl (h.property hfound)
  | param hgiven _ => exact Or.inl ((h.direct.resolve_right nofun).of_function.1 _ hgiven)
  | result => exact Or.inl (h.direct.resolve_right nofun).of_function.2

/-- A name stands for an object type, or for `unknown`. -/
theorem expand_cases (table : Table) (name : String) :
    table.expand name = .unknown ∨
      ∃ shape, table.interface? name = some shape ∧ table.expand name = .object shape := by
  unfold expand
  cases hname : table.interface? name with
  | none => exact Or.inl rfl
  | some shape => exact Or.inr ⟨shape, rfl, rfl⟩

/-! ## Comparisons under one set of assumptions -/

section Settled

variable (hdirect : table.RecursesDirectly)
  (hplain : ∀ name, (table.expand name).HasNoIntersection)
include hdirect hplain

theorem shallow_expand (name : String) : table.Shallow (table.expand name) := by
  refine ⟨hplain name, ?_⟩
  rcases table.expand_cases name with h | ⟨shape, hshape, h⟩
  · rw [h]
    exact Or.inl (.bounded ⟨fun _ hmem => nomatch List.mem_singleton.mp hmem⟩)
  · exact Or.inr ⟨shape, h, hdirect (name, shape) (Record.mem_entries_of_get? hshape)⟩

/-- If shallow types can be compared with the names in a type, they can be
compared with the type: by induction on it, and for one type first all that are
no unions, then names, and unions last. -/
theorem endsBothWays_of_names {t : Ty} (ht : t.HasNoIntersection)
    (hnames : ∀ b, .named b ∈ t.parts → ∀ s, table.Shallow s →
      table.EndsBothWays assumed s (.named b)) :
    ∀ s, table.Shallow s → table.EndsBothWays assumed s t := by
  induction hsize : sizeOf t using Nat.strong_induction_on generalizing t with
  | h size ih =>
    subst hsize
    rcases t.named_or with ⟨b, rfl⟩ | hnoname
    · exact hnames b (Ty.mem_parts_self _)
    have hsmaller : ∀ {s s' t'}, table.Shallow s → Descends s t s' t' → sizeOf t' < sizeOf t →
        table.EndsBothWays assumed s' t' := by
      intro s s' t' hs hd hlt
      have hmem := hd.mem_parts.2
      exact ih _ hlt (ht.part hmem) (fun b hb => hnames b (Ty.parts_trans t hmem hb)) rfl _
        (hs.descends hd)
    have hflat : ∀ s, table.Shallow s → (∀ a, s ≠ .named a) → (∀ members, s ≠ .union members) →
        table.EndsBothWays assumed s t := by
      intro s hs hsname hsunion
      refine .of_parts hsname hnoname hs.plain.self ht.self fun s' t' hd => hsmaller hs hd ?_
      cases hd with
      | left _ => exact absurd rfl (hsunion _)
      | right hm => exact Ty.sizeOf_lt_union hm
      | property _ hwanted => exact Ty.sizeOf_lt_object hwanted
      | param _ hexpected => exact Ty.sizeOf_lt_param hexpected
      | result => exact Ty.sizeOf_lt_result _
    intro s hs
    induction hsize : sizeOf s using Nat.strong_induction_on generalizing s with
    | h size ihs =>
      subst hsize
      cases s with
      | named a =>
        refine .of_expand hnoname ht.self (hflat _ (shallow_expand hdirect hplain a) ?_ ?_) <;>
          rcases table.expand_cases a with h | ⟨_, -, h⟩ <;> rw [h] <;> nofun
      | union members =>
        refine .of_parts nofun hnoname rfl ht.self fun s' t' hd => ?_
        rcases hd.sizeOf_lt with ⟨hlt, rfl⟩ | ⟨-, hlt⟩ | ⟨-, hlt⟩
        · exact ihs _ hlt _ (hs.descends hd) rfl
        · exact hsmaller hs hd hlt
        · exact hsmaller hs hd hlt
      | _ => exact hflat _ hs nofun nofun

variable (hnames : ∀ a b, table.EndsBothWays assumed (.named a) (.named b))
include hnames

/-- Looking up the names of a bounded type ends by itself, so shallow types can
be compared with it. -/
theorem endsBothWays_bounded {t : Ty} (h : table.Bounded t) (ht : t.HasNoIntersection) :
    ∀ s, table.Shallow s → table.EndsBothWays assumed s t := by
  induction h with
  | @intro t _ ih =>
    refine endsBothWays_of_names hdirect hplain ht fun b hb s hs => ?_
    rcases s.named_or with ⟨a, rfl⟩ | hnoname
    · exact hnames a b
    · exact (EndsBothWays.of_expand hnoname hs.plain.self (ih b hb (hplain b) s hs).symm).symm

omit hdirect hplain hnames in
/-- What a name stands for is no function. -/
theorem endsBothWays_expand_function (a : String) (f : Signature) :
    table.EndsBothWays assumed (table.expand a) (.function f) := by
  rcases table.expand_cases a with h | ⟨shape, -, h⟩
  · rw [h]
    exact .of_unknown _
  · rw [h]
    exact .of_parts nofun nofun rfl rfl fun _ _ hd => nomatch hd

/-- Direct types can be compared with each other. -/
theorem endsBothWays_direct {s t : Ty} (hs : table.Direct s) (ht : table.Direct t)
    (hsplain : s.HasNoIntersection) (htplain : t.HasNoIntersection) :
    table.EndsBothWays assumed s t := by
  induction hs generalizing t with
  | named a =>
    cases ht with
    | named b => exact hnames a b
    | @function f _ _ =>
      exact .of_expand nofun rfl (endsBothWays_expand_function a f)
    | bounded h =>
      exact endsBothWays_bounded hdirect hplain hnames h htplain _ ⟨hsplain, Or.inl (.named a)⟩
  | @function f hparams hresult ihparams ihresult =>
    have hdirectf : table.Direct (.function f) := .function hparams hresult
    cases ht with
    | named b =>
      exact .symm (.of_expand nofun rfl (endsBothWays_expand_function b f))
    | bounded h =>
      exact endsBothWays_bounded hdirect hplain hnames h htplain _ ⟨hsplain, Or.inl hdirectf⟩
    | function htparams htresult =>
      refine .of_parts nofun nofun rfl rfl fun s' t' hd => ?_
      have hs' := hsplain.part hd.mem_parts.1
      have ht' := htplain.part hd.mem_parts.2
      cases hd with
      | param hgiven hexpected => exact ihparams _ hgiven (htparams _ hexpected) hs' ht'
      | result => exact ihresult htresult hs' ht'
  | bounded h =>
    exact (endsBothWays_bounded hdirect hplain hnames h hsplain _ ⟨htplain, Or.inl ht⟩).symm

/-- What two names stand for can be compared, also if the one is not looked up. -/
theorem endsBothWays_named {s : Ty} (hs : table.Shallow s) (b : String) :
    table.EndsBothWays assumed s (.named b) := by
  rcases s.named_or with ⟨a, rfl⟩ | hnoname
  · exact hnames a b
  refine (EndsBothWays.of_expand hnoname hs.plain.self ?_).symm
  rcases hs.direct with h | ⟨properties, rfl, -⟩
  · cases h with
    | named a => exact absurd rfl (hnoname a)
    | function _ _ => exact endsBothWays_expand_function b _
    | bounded h =>
      exact endsBothWays_bounded hdirect hplain hnames h hs.plain _
        (shallow_expand hdirect hplain b)
  · rcases table.expand_cases b with h | ⟨shape, -, h⟩
    · rw [h]
      exact .of_unknown _
    · rw [h]
      have hshape : table.Shallow (.object shape) := h ▸ shallow_expand hdirect hplain b
      refine .of_parts nofun nofun rfl rfl fun s' t' hd => ?_
      have hs' := hshape.plain.part hd.mem_parts.1
      have ht' := hs.plain.part hd.mem_parts.2
      cases hd with
      | property hfound hwanted =>
        exact endsBothWays_direct hdirect hplain hnames (hshape.property hfound)
          (hs.property hwanted) hs' ht'

/-- Any two types without intersections can be compared, provided that names can
be compared with names. -/
theorem endsBothWays_of_fresh {s t : Ty} (hs : s.HasNoIntersection) (ht : t.HasNoIntersection) :
    table.EndsBothWays assumed s t := by
  have hname : ∀ a t, t.HasNoIntersection → table.EndsBothWays assumed (.named a) t :=
    fun a t ht => endsBothWays_of_names hdirect hplain ht
      (fun b _ s hs => endsBothWays_named hdirect hplain hnames hs b) _
      ⟨.leaf rfl rfl, Or.inl (.named a)⟩
  induction hsize : sizeOf s + sizeOf t using Nat.strong_induction_on generalizing s t with
  | h size ih =>
    subst hsize
    rcases s.named_or with ⟨a, rfl⟩ | hsname
    · exact hname a t ht
    rcases t.named_or with ⟨b, rfl⟩ | htname
    · exact (hname b s hs).symm
    refine .of_parts hsname htname hs.self ht.self fun s' t' hd =>
      ih _ ?_ (hs.part hd.mem_parts.1) (ht.part hd.mem_parts.2) rfl
    rcases hd.sizeOf_lt with ⟨hlt, rfl⟩ | ⟨rfl, hlt⟩ | ⟨hlt, hlt'⟩ <;> omega

end Settled

/-! ## All comparisons -/

/-- The names of the declared interfaces, as types. -/
def declaredNames (table : Table) : List Ty :=
  table.interfaces.entries.map fun entry => .named entry.1

theorem named_mem_declaredNames {name : String} {shape : Shape}
    (h : table.interface? name = some shape) : .named name ∈ table.declaredNames :=
  List.mem_map.mpr ⟨(name, shape), Record.mem_entries_of_get? h, rfl⟩

/-- Where interfaces lead back to themselves only directly, all comparisons
end: by induction on how many pairs of names are not yet assumed to fit. -/
theorem RecursesDirectly.endsBothWays (h : table.RecursesDirectly)
    (hplain : ∀ name, (table.expand name).HasNoIntersection)
    (assumed : List (String × String)) {s t : Ty} (hs : s.HasNoIntersection)
    (ht : t.HasNoIntersection) : table.EndsBothWays assumed s t := by
  induction hcount : freshCount table.declaredNames assumed using Nat.strong_induction_on
    generalizing assumed s t with
  | h count ih =>
    subst hcount
    have hname : ∀ a b, table.Ends ⟨assumed, .named a, .named b⟩ := by
      intro a b
      refine .of_asks rfl fun q hasks => ?_
      cases hasks.canAsk rfl rfl with
      | names hnot =>
        rcases table.expand_cases a with ha | ⟨_, ha, -⟩
        · exact ha ▸ (EndsBothWays.of_unknown _).1
        · rcases table.expand_cases b with hb | ⟨_, hb, -⟩
          · exact hb ▸ (EndsBothWays.of_unknown _).2
          · exact (ih _ (freshCount_cons_lt (named_mem_declaredNames ha)
              (named_mem_declaredNames hb) hnot) _ (hplain a) (hplain b) rfl).1
      | source hb => exact absurd rfl (hb b)
      | target ha => exact absurd rfl (ha a)
      | parts ha => exact absurd rfl (ha a)
      | flipped ha => exact absurd rfl (ha a)
    exact endsBothWays_of_fresh h hplain (fun a b => ⟨hname a b, hname b a⟩) hs ht

end Table

end TypedScript
