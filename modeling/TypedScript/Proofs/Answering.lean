import Mathlib.Order.Filter.AtTopBot.Basic
import TypedScript.Proofs.Effort
import TypedScript.Types.Denotation

/-!
# Answers settle

With more and more effort the answer to a question about types settles: from some effort
on it is the same. A question whether one type fits where another is expected is either
answered at some effort, and then more effort never changes the answer, or it is not
answered with any effort: it is left open. Every other question is put together from such
ones, so its answer settles too, and it is missing for good only if a question of this
kind is left open.
-/

namespace TypedScript

open Filter

/-- Whether a question whether one type fits where another is expected is never answered,
whatever the effort. -/
def Table.LeavesOpen (table : Table) : Prop :=
  ∃ source target, ∀ effort, table.fits? effort source target = none

/-- With enough effort something is the same for good, and it is stuck then only if a
question is left open. -/
def Table.Settles {α : Type} (table : Table) (isStuck : α → Prop) (x : Nat → α) : Prop :=
  ∃ a, (∀ᶠ effort in atTop, x effort = a) ∧ (isStuck a → table.LeavesOpen)

/-- An answer that settles, and is missing then only if a question is left open. -/
def Table.Answers {α : Type} (table : Table) (x : Nat → Answer α) : Prop :=
  table.Settles (· = none) x

namespace Table

variable {table : Table}

/-! ## How answers are put together -/

namespace Answers

variable {α β : Type}

theorem some (a : α) : table.Answers fun _ => some a :=
  ⟨Option.some a, .of_forall fun _ => rfl, fun h => nomatch h⟩

theorem bind {x : Nat → Answer α} {f : Nat → α → Answer β} (hx : table.Answers x)
    (hf : ∀ a, table.Answers fun effort => f effort a) :
    table.Answers fun effort => x effort >>= f effort := by
  obtain ⟨answer, hx, hstuck⟩ := hx
  cases answer with
  | none =>
    refine ⟨none, ?_, fun _ => hstuck rfl⟩
    filter_upwards [hx] with effort hsame
    rw [hsame]
    rfl
  | some a =>
    -- From some effort on both the first answer and what follows from it are settled.
    obtain ⟨b, hb, hstuck'⟩ := hf a
    refine ⟨b, ?_, hstuck'⟩
    filter_upwards [hx, hb] with effort hsame hsame'
    rw [hsame]
    exact hsame'

theorem foldlM {f : Nat → β → α → Answer β}
    (hf : ∀ b a, table.Answers fun effort => f effort b a) (l : List α) (b : β) :
    table.Answers fun effort => l.foldlM (f effort) b := by
  induction l generalizing b with
  | nil => exact some b
  | cons a rest ih =>
    simp only [List.foldlM_cons]
    exact (hf b a).bind ih

theorem mapM {f : Nat → α → Answer β} (hf : ∀ a, table.Answers fun effort => f effort a)
    (l : List α) : table.Answers fun effort => l.mapM (f effort) := by
  induction l with
  | nil => exact some []
  | cons a rest ih =>
    simp only [List.mapM_cons]
    exact (hf a).bind fun _ => ih.bind fun _ => some _

theorem findSomeM? {f : Nat → α → Answer (Option β)}
    (hf : ∀ a, table.Answers fun effort => f effort a) (l : List α) :
    table.Answers fun effort => l.findSomeM? (f effort) := by
  induction l with
  | nil => exact some none
  | cons a rest ih =>
    simp only [List.findSomeM?]
    refine (hf a).bind fun found? => ?_
    cases found? with
    | none => exact ih
    | some b => exact some _

end Answers

/-! ## Questions about types -/

/-- As more effort never changes an answer, it settles on the first one. -/
theorem fits?_answers (source target : Ty) :
    table.Answers fun effort => table.fits? effort source target := by
  by_cases hanswer : ∃ effort answer, table.fits? effort source target = some answer
  · obtain ⟨effort, answer, hanswer⟩ := hanswer
    refine ⟨some answer, ?_, fun h => nomatch h⟩
    filter_upwards [eventually_ge_atTop effort] with more hmore
    exact fits?_upto hmore source target answer hanswer
  · have hnone : ∀ effort, table.fits? effort source target = none := by
      intro effort
      cases hfits : table.fits? effort source target with
      | none => rfl
      | some answer => exact absurd ⟨effort, answer, hfits⟩ hanswer
    exact ⟨none, .of_forall hnone, fun _ => ⟨source, target, hnone⟩⟩

/-! ### Shapes and properties -/

theorem mergeShapes_answers (shapes : List Shape) :
    table.Answers fun effort => mergeShapes (table.fits? effort) shapes := by
  have hproperty : ∀ (shape : Shape) (property : Property),
      table.Answers fun effort => mergeProperty (table.fits? effort) shape property := by
    intro shape property
    unfold mergeProperty
    cases shape.find? property.name with
    | none => exact .some _
    | some old => exact (fits?_answers _ _).bind fun _ => .some _
  unfold mergeShapes
  split
  · exact .some _
  · exact (Answers.foldlM hproperty _ _).bind fun _ => .some _

mutual

theorem shape?_answers : ∀ type : Ty, table.Answers fun effort => table.shape? effort type
  | .intersection members => by
    unfold shape? shapeOf?
    exact (shapesOf_answers members).bind mergeShapes_answers
  | .object _ | .named _ | .primitive _ | .function _ | .union _ | .unknown => by
    unfold shape? shapeOf?
    exact .some _

theorem shapesOf_answers : ∀ types : List Ty,
    table.Answers fun effort => table.shapesOf (table.fits? effort) types
  | [] => by
    unfold shapesOf
    exact .some _
  | type :: rest => by
    unfold shapesOf
    exact (shape?_answers type).bind fun _ => (shapesOf_answers rest).bind fun _ => .some _

end

mutual

theorem property?_answers (name : String) : ∀ type : Ty,
    table.Answers fun effort => table.property? effort name type
  | .unknown => by
    unfold property?
    exact .some _
  | .union members => by
    unfold property?
    exact (propertyOfEach?_answers name members).bind fun _ => .some _
  | .object _ | .named _ | .primitive _ | .function _ | .intersection _ => by
    unfold property?
    exact (shape?_answers _).bind fun _ => .some _

theorem propertyOfEach?_answers (name : String) : ∀ types : List Ty,
    table.Answers fun effort => table.propertyOfEach? effort name types
  | [] => by
    unfold propertyOfEach?
    exact .some _
  | type :: rest => by
    unfold propertyOfEach?
    refine (property?_answers name type).bind fun first? => ?_
    cases first? with
    | none => exact .some _
    | some first => exact (propertyOfEach?_answers name rest).bind fun _ => .some _

end

/-! ### Contradictions -/

theorem clashOfShapes?_answers (first second : Shape) :
    table.Answers fun effort => table.clashOfShapes? effort first second := by
  refine Answers.findSomeM? (fun property => ?_) first
  cases second.find? property.name with
  | none => exact .some _
  | some other =>
    refine (fits?_answers _ _).bind fun isFirst => ?_
    cases isFirst with
    | true => exact .some _
    | false =>
      refine (fits?_answers _ _).bind fun isSecond => ?_
      cases isSecond <;> exact .some _

theorem clash?_answers (first second : Ty) :
    table.Answers fun effort => table.clash? effort first second := by
  unfold clash?
  split
  · exact .some _
  · refine (shape?_answers first).bind fun first? => (shape?_answers second).bind fun second? => ?_
    cases first? with
    | none => exact .some _
    | some first =>
      cases second? with
      | none => exact .some _
      | some second => exact clashOfShapes?_answers first second

theorem conflict?_answers (members : List Ty) :
    table.Answers fun effort => table.conflict? effort members := by
  induction members with
  | nil => exact .some _
  | cons first rest ih =>
    unfold conflict?
    refine (Answers.findSomeM? (clash?_answers first) rest).bind fun found? => ?_
    cases found? with
    | none => exact ih
    | some found => exact .some _

mutual

theorem conflicts?_answers : ∀ type : TypeExpr,
    table.Answers fun effort => table.conflicts? effort type
  | .named _ _ => by
    unfold conflicts?
    exact .some _
  | .object members _ => by
    unfold conflicts?
    exact conflictsOfMembers?_answers members
  | .function params result _ => by
    unfold conflicts?
    exact (conflictsOfParams?_answers params).bind fun _ =>
      (conflicts?_answers result).bind fun _ => .some _
  | .union members _ => by
    unfold conflicts?
    exact conflictsOfEach?_answers members
  | .intersection members _ => by
    unfold conflicts?
    refine (conflictsOfEach?_answers members).bind fun _ =>
      (conflict?_answers _).bind fun conflict? => ?_
    cases conflict? <;> exact .some _

theorem conflictsOfMember?_answers : ∀ member : Member,
    table.Answers fun effort => table.conflictsOfMember? effort member
  | ⟨_, type, _, _⟩ => by
    unfold conflictsOfMember?
    exact conflicts?_answers type

theorem conflictsOfParam?_answers : ∀ param : Parameter,
    table.Answers fun effort => table.conflictsOfParam? effort param
  | ⟨_, none, _, _⟩ => by
    unfold conflictsOfParam?
    exact .some _
  | ⟨_, some type, _, _⟩ => by
    unfold conflictsOfParam?
    exact conflicts?_answers type

theorem conflictsOfEach?_answers : ∀ types : List TypeExpr,
    table.Answers fun effort => table.conflictsOfEach? effort types
  | [] => by
    unfold conflictsOfEach?
    exact .some _
  | type :: rest => by
    unfold conflictsOfEach?
    exact (conflicts?_answers type).bind fun _ =>
      (conflictsOfEach?_answers rest).bind fun _ => .some _

theorem conflictsOfParams?_answers : ∀ params : List Parameter,
    table.Answers fun effort => table.conflictsOfParams? effort params
  | [] => by
    unfold conflictsOfParams?
    exact .some _
  | param :: rest => by
    unfold conflictsOfParams?
    exact (conflictsOfParam?_answers param).bind fun _ =>
      (conflictsOfParams?_answers rest).bind fun _ => .some _

theorem conflictsOfMembers?_answers : ∀ members : List Member,
    table.Answers fun effort => table.conflictsOfMembers? effort members
  | [] => by
    unfold conflictsOfMembers?
    exact .some _
  | member :: rest => by
    unfold conflictsOfMembers?
    exact (conflictsOfMember?_answers member).bind fun _ =>
      (conflictsOfMembers?_answers rest).bind fun _ => .some _

end

theorem problems?_answers (type : TypeExpr) :
    table.Answers fun effort => table.problems? effort type :=
  (conflicts?_answers type).bind fun _ => .some _

end Table

theorem Program.interfaceProblems?_answers (program : Program) :
    program.table.Answers fun effort => program.interfaceProblems? effort :=
  (Table.Answers.mapM (fun _ => Table.conflictsOfMembers?_answers _) _).bind fun _ => .some _

end TypedScript
