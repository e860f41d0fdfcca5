import TypedScript.Types.Table

/-!
# More effort never changes an answer

A question about types is given a bound on how deep it may descend, and it has
no answer if that was too little. `Upto a b` says that `b` is the answer `a` as
soon as `a` is one. All rules of fitting keep this order: if the questions
further down are answered alike, so is the question itself. It is enough to
know this of the questions that can come up at all; `Closed U` says that none
leads out of the types in `U` (`fitsRule_upto`).

Hence an answer found with some effort is found with every greater effort as
well (`fitsAssuming_upto`), and the same holds for the shape of a type
(`shape?_upto`), so both are functions of the types alone.
-/

namespace TypedScript

namespace Answer

variable {α β : Type}

/-- Whatever the first answer is, the second one is the same; the first one may
be missing. -/
def Upto (a b : Answer α) : Prop :=
  ∀ x, a = some x → b = some x

theorem Upto.refl {a : Answer α} : Upto a a := fun _ h => h

theorem upto_none {b : Answer α} : Upto none b := fun _ h => nomatch h

theorem Upto.bind {a b : Answer α} {f g : α → Answer β} (h : Upto a b)
    (hfg : ∀ x, Upto (f x) (g x)) : Upto (a >>= f) (b >>= g) := by
  intro y hy
  cases a with
  | none => exact absurd hy (by simp)
  | some x =>
    rw [h x rfl]
    exact hfg x y hy

theorem Upto.allM {p q : α → Answer Bool} :
    ∀ {l : List α}, (∀ x ∈ l, Upto (p x) (q x)) → Upto (l.allM p) (l.allM q)
  | [], _ => .refl
  | x :: l, h => by
    unfold List.allM
    refine (h x (List.mem_cons_self ..)).bind fun b => ?_
    cases b with
    | true => exact Upto.allM fun y hy => h y (List.mem_cons_of_mem _ hy)
    | false => exact .refl

theorem Upto.anyM {p q : α → Answer Bool} :
    ∀ {l : List α}, (∀ x ∈ l, Upto (p x) (q x)) → Upto (l.anyM p) (l.anyM q)
  | [], _ => .refl
  | x :: l, h => by
    unfold List.anyM
    refine (h x (List.mem_cons_self ..)).bind fun b => ?_
    cases b with
    | true => exact .refl
    | false => exact Upto.anyM fun y hy => h y (List.mem_cons_of_mem _ hy)

theorem Upto.foldlM {f g : β → α → Answer β} (h : ∀ b x, Upto (f b x) (g b x)) :
    ∀ (l : List α) (b : β), Upto (l.foldlM f b) (l.foldlM g b)
  | [], _ => .refl
  | x :: l, b => by
    rw [List.foldlM_cons, List.foldlM_cons]
    exact (h b x).bind fun c => Upto.foldlM h l c

end Answer

/-- An argument is compared with the type of a parameter, also behind the last. -/
theorem Signature.mem_of_param? {signature : Signature} {index : Nat} {type : Ty}
    (h : signature.param? index = some type) : type ∈ signature.params := by
  unfold Signature.param? at h
  split at h
  · next hget =>
    rw [← Option.some.inj h]
    exact List.mem_of_getElem? hget
  · split at h
    · exact List.mem_of_getLast? h
    · exact absurd h (by simp)

namespace Table

open Answer

/-! ## Shapes -/

section Shapes

variable {fits fits' : Ty → Ty → Answer Bool} (h : ∀ s t, Upto (fits s t) (fits' s t))
include h

theorem mergeProperty_upto (shape : Shape) (property : Property) :
    Upto (mergeProperty fits shape property) (mergeProperty fits' shape property) := by
  unfold mergeProperty
  split
  · exact .refl
  · exact (h _ _).bind fun _ => .refl

theorem mergeShapes_upto (shapes : List Shape) :
    Upto (mergeShapes fits shapes) (mergeShapes fits' shapes) := by
  unfold mergeShapes
  split
  · exact .refl
  · exact (Upto.foldlM (mergeProperty_upto h) _ _).bind fun _ => .refl

end Shapes

variable {table : Table}

mutual

theorem shapeOf?_upto {fits fits' : Ty → Ty → Answer Bool}
    (h : ∀ s t, Upto (fits s t) (fits' s t)) (type : Ty) :
    Upto (table.shapeOf? fits type) (table.shapeOf? fits' type) := by
  cases type with
  | intersection members =>
    unfold shapeOf?
    exact (shapesOf_upto h members).bind fun shapes => mergeShapes_upto h shapes
  | _ => unfold shapeOf?; exact .refl

theorem shapesOf_upto {fits fits' : Ty → Ty → Answer Bool}
    (h : ∀ s t, Upto (fits s t) (fits' s t)) (types : List Ty) :
    Upto (table.shapesOf fits types) (table.shapesOf fits' types) := by
  cases types with
  | nil => exact .refl
  | cons type rest =>
    unfold shapesOf
    exact (shapeOf?_upto h type).bind fun _ => (shapesOf_upto h rest).bind fun _ => .refl

end

/-! ## The rule of fitting -/

section Rules

variable {U : Ty → Prop} {fits fits' : Ty → Ty → Answer Bool}
  (h : ∀ s t, U s → U t → Upto (fits s t) (fits' s t))
include h

theorem shapeFits_upto {source target : Shape} (hs : ∀ p ∈ source, U p.type)
    (ht : ∀ p ∈ target, U p.type) :
    Upto (shapeFits fits source target) (shapeFits fits' source target) := by
  refine Upto.allM fun wanted hw => ?_
  cases hf : source.find? wanted.name with
  | none => exact .refl
  | some found =>
    dsimp only
    split
    · exact h _ _ (hs found (List.mem_of_find?_eq_some hf)) (ht wanted hw)
    · exact .refl

theorem signatureFits_upto {source target : Signature} (hs : ∀ p ∈ source.params, U p)
    (ht : ∀ p ∈ target.params, U p) (hsr : U source.result) (htr : U target.result) :
    Upto (signatureFits fits source target) (signatureFits fits' source target) := by
  unfold signatureFits
  dsimp only
  split
  · refine (Upto.allM fun index _ => ?_).bind fun paramsFit => ?_
    · cases hsp : source.param? index with
      | none => exact .refl
      | some s =>
        cases htp : target.param? index with
        | none => exact .refl
        | some t =>
          exact h t s (ht t (Signature.mem_of_param? htp)) (hs s (Signature.mem_of_param? hsp))
    · cases paramsFit with
      | true => exact h _ _ hsr htr
      | false => exact .refl
  · exact .refl

end Rules

/-- No question about types in `U` leads to one about types outside. The shape
of an intersection may have types from anywhere, so `U` has no intersection or
all object types. -/
structure Closed (table : Table) (U : Ty → Prop) : Prop where
  expand : ∀ name, U (.named name) → U (table.expand name)
  union : ∀ members, U (.union members) → ∀ m ∈ members, U m
  intersection : ∀ members, U (.intersection members) → ∀ m ∈ members, U m
  shape : ∀ members, U (.intersection members) → ∀ properties, U (.object properties)
  property : ∀ properties, U (.object properties) → ∀ p ∈ properties, U p.type
  param : ∀ signature, U (.function signature) → ∀ p ∈ signature.params, U p
  result : ∀ signature, U (.function signature) → U signature.result

theorem closed_true (table : Table) : table.Closed fun _ => True := by
  constructor <;> intros <;> trivial

/-- The rule of fitting gives the same answer if the questions that it leads to
are answered alike. -/
theorem fitsRule_upto {U : Ty → Prop} (hU : table.Closed U)
    {fits fits' : List (String × String) → Ty → Ty → Answer Bool}
    {assumed : List (String × String)}
    (h : ∀ s t, U s → U t → Upto (fits assumed s t) (fits' assumed s t))
    (hopen : ∀ a b, (a, b) ∉ assumed → U (.named a) → U (.named b) →
      Upto (fits ((a, b) :: assumed) (table.expand a) (table.expand b))
        (fits' ((a, b) :: assumed) (table.expand a) (table.expand b)))
    (hshape : ∀ members, U (.intersection members) → ∀ s t, Upto (fits [] s t) (fits' [] s t))
    {source target : Ty} (hs : U source) (ht : U target) :
    Upto (table.fitsRule fits assumed source target)
      (table.fitsRule fits' assumed source target) := by
  unfold fitsRule
  split
  · exact .refl
  · split
    · split
      · exact .refl
      · -- two names are opened together, with the question about them assumed
        next hnot => exact hopen _ _ hnot hs ht
    · exact h _ _ (hU.expand _ hs) ht
    · exact h _ _ hs (hU.expand _ ht)
    · exact Upto.allM fun member hm => h _ _ (hU.union _ hs member hm) ht
    · exact Upto.anyM fun member hm => h _ _ hs (hU.union _ ht member hm)
    · exact Upto.allM fun member hm => h _ _ hs (hU.intersection _ ht member hm)
    · refine (Upto.anyM fun member hm => h _ _ (hU.intersection _ hs member hm) ht).bind
        fun isMember => ?_
      cases isMember with
      | true => exact .refl
      | false =>
        -- no member fits, so the members are merged, which asks questions of its own
        refine (shapeOf?_upto (hshape _ hs) _).bind fun shape? => ?_
        cases shape? with
        | none => exact .refl
        | some shape => exact h _ _ (hU.shape _ hs shape) ht
    · exact shapeFits_upto h (hU.property _ hs) (hU.property _ ht)
    · exact signatureFits_upto h (hU.param _ hs) (hU.param _ ht) (hU.result _ hs) (hU.result _ ht)
    · exact .refl

/-! ## Questions with more effort -/

theorem fitsAssuming_upto_succ (effort : Nat) :
    ∀ assumed source target, Upto (table.fitsAssuming effort assumed source target)
      (table.fitsAssuming (effort + 1) assumed source target) := by
  induction effort with
  | zero => exact fun _ _ _ => upto_none
  | succ effort ih =>
    exact fun assumed source target =>
      fitsRule_upto (closed_true table) (fun s t _ _ => ih assumed s t)
        (fun _ _ _ _ _ => ih _ _ _) (fun _ _ => ih []) trivial trivial

theorem fitsAssuming_upto {effort more : Nat} (hle : effort ≤ more)
    (assumed : List (String × String)) (source target : Ty) :
    Upto (table.fitsAssuming effort assumed source target)
      (table.fitsAssuming more assumed source target) := by
  induction hle with
  | refl => exact .refl
  | step _ ih => exact fun x hx => fitsAssuming_upto_succ _ _ _ _ x (ih x hx)

/-- An answer to the question of fitting stays the same with more effort. -/
theorem fits?_upto {effort more : Nat} (hle : effort ≤ more) (source target : Ty) :
    Upto (table.fits? effort source target) (table.fits? more source target) :=
  fitsAssuming_upto hle [] source target

/-- The shape of a type stays the same with more effort. -/
theorem shape?_upto {effort more : Nat} (hle : effort ≤ more) (type : Ty) :
    Upto (table.shape? effort type) (table.shape? more type) :=
  shapeOf?_upto (fits?_upto hle) type

/-- Two answers to the question for a shape are the same. -/
theorem shape?_unique {effort effort' : Nat} {type : Ty} {x y : Option Shape}
    (hx : table.shape? effort type = some x) (hy : table.shape? effort' type = some y) :
    x = y := by
  have hx' := shape?_upto (Nat.le_max_left effort effort') type x hx
  exact Option.some.inj (hx'.symm.trans (shape?_upto (Nat.le_max_right ..) _ y hy))

end Table

end TypedScript
