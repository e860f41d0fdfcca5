import Mathlib.Data.Set.Finite.List
import Mathlib.Order.Preorder.Finite
import TypedScript.Execution
import TypedScript.Proofs.DirectTables

/-!
# Which comparisons of types end

The comparison of two types without intersections, in the interfaces of a
program that have none either, ends if and only if no infinite chain of questions
leads on from it. As it stays within finitely many types, this is so if and only
if none of the questions that it leads to comes up again within itself
(`Table.ends_iff_no_return`), and it is decided by `Table.enoughEffort`.

There are comparisons that do not end. The interfaces `A`, whose `x` is an `A` or
a text, and `B`, whose `x` is a `B` or a text, lead from `A` and `B | string` to
the object type of `A` and `B | string`, where `A` has been looked up without a
note of it, and from there to the object types of both and to `A` and
`B | string` again (`Program.fits?_never_ends`).

Main result: which comparisons end, and that all do if interfaces lead back to
themselves directly (`Program.fits?_ends_iff`).
-/

namespace TypedScript

open Relation

namespace Table

variable {table : Table} {q q' : Question}

/-! ## Questions that come up again -/

/-- One question leads to another under the same assumptions, or names have been
looked up and there are fewer left. -/
theorem CanAsk.assumed_cases {types : List Ty} (h : table.CanAsk q q') (hs : q.source ∈ types)
    (ht : q.target ∈ types) :
    q'.assumed = q.assumed ∨ freshCount types q'.assumed < freshCount types q.assumed := by
  cases h with
  | names hnot => exact Or.inr (freshCount_cons_lt hs ht hnot)
  | _ => exact Or.inl rfl

theorem transGen_of_chain {α : Type} {r : α → α → Prop} {chain : Nat → α}
    (h : ∀ n, r (chain n) (chain (n + 1))) {i j : Nat} (hlt : i < j) :
    TransGen r (chain i) (chain j) := by
  induction hlt with
  | refl => exact .single (h i)
  | step _ ih => exact ih.tail (h _)

/-- What is accessible never leads back to something that it has led to. -/
theorem not_transGen_of_acc {α : Type} {r : α → α → Prop} {x y : α}
    (hacc : Acc (fun y x => r x y) x) (hreach : ReflTransGen r x y) : ¬TransGen r y y := by
  induction hacc with
  | intro x _ ih =>
    intro hreturn
    rcases hreach.cases_head with rfl | ⟨z, hz, hreach⟩
    · obtain ⟨z, hz, hreach⟩ := TransGen.head'_iff.mp hreturn
      exact ih z hz hreach hreturn
    · exact ih z hz hreach hreturn

/-- Among finitely many types an infinite chain of questions comes back to one of
them: from some place on nothing more is assumed, and then there are finitely
many questions. -/
theorem exists_return {types : List Ty} (hclosed : table.Closed (· ∈ types))
    (hplain : ∀ type ∈ types, type.isIntersection = false) {chain : Nat → Question}
    (hs : (chain 0).source ∈ types) (ht : (chain 0).target ∈ types)
    (hasks : ∀ n, table.Asks (chain n) (chain (n + 1))) :
    ∃ n, TransGen table.Asks (chain n) (chain n) := by
  have hwithin : ∀ n, (chain n).source ∈ types ∧ (chain n).target ∈ types := by
    intro n
    induction n with
    | zero => exact ⟨hs, ht⟩
    | succ n ih =>
      exact ((hasks n).canAsk (hplain _ ih.1) (hplain _ ih.2)).within hclosed ih.1 ih.2
  -- take the place with the fewest names left
  obtain ⟨_, ⟨start, rfl⟩, hleast⟩ := wellFounded_lt.has_min
    (Set.range fun n => freshCount types (chain n).assumed) ⟨_, 0, rfl⟩
  have hassumed : ∀ k, (chain (start + k)).assumed = (chain start).assumed := by
    intro k
    induction k with
    | zero => rfl
    | succ k ih =>
      obtain ⟨hs, ht⟩ := hwithin (start + k)
      have hask := (hasks (start + k)).canAsk (hplain _ hs) (hplain _ ht)
      rcases hask.assumed_cases hs ht with heq | hlt
      · exact heq.trans ih
      · rw [ih] at hlt
        exact absurd hlt (hleast _ ⟨start + k + 1, rfl⟩)
  obtain ⟨i, j, hlt, heq⟩ := (pairs types).finite_toSet.exists_lt_map_eq_of_forall_mem
    (f := fun k => ((chain (start + k)).source, (chain (start + k)).target))
    fun k => mem_pairs.mpr (hwithin (start + k))
  have hreturn : chain (start + i) = chain (start + j) := by
    obtain ⟨hsource, htarget⟩ := Prod.mk.inj heq
    exact Question.ext ((hassumed i).trans (hassumed j).symm) hsource htarget
  refine ⟨start + i, ?_⟩
  have hgen := transGen_of_chain hasks (Nat.add_lt_add_left hlt start)
  rwa [← hreturn] at hgen

/-- A comparison among finitely many types ends if and only if none of the
questions that it leads to comes up again within itself. -/
theorem ends_iff_no_return {types : List Ty} (hclosed : table.Closed (· ∈ types))
    (hplain : ∀ type ∈ types, type.isIntersection = false) (hs : q.source ∈ types)
    (ht : q.target ∈ types) :
    table.Ends q ↔ ¬∃ q', ReflTransGen table.Asks q q' ∧ TransGen table.Asks q' q' := by
  constructor
  · rw [ends_iff_acc hclosed hplain hs ht]
    exact fun hacc ⟨q', hreach, hreturn⟩ => not_transGen_of_acc hacc hreach hreturn
  · intro hnone
    rw [ends_iff_no_chain hclosed hplain hs ht]
    rintro ⟨chain, rfl, hasks⟩
    obtain ⟨n, hreturn⟩ := exists_return hclosed hplain hs ht hasks
    refine hnone ⟨chain n, ?_, hreturn⟩
    rcases Nat.eq_zero_or_pos n with rfl | hpos
    · exact .refl
    · exact (transGen_of_chain hasks hpos).to_reflTransGen

end Table

/-! ## The interfaces of a program -/

namespace Program

variable {program : Program}

/-- A program whose interfaces are declared without intersections. -/
def HasNoIntersection (program : Program) : Prop :=
  ∀ declaration ∈ program.interfaces, ∀ type ∈ partsOfMembers declaration.members,
    type.isIntersection = false

instance (program : Program) : Decidable program.HasNoIntersection :=
  inferInstanceAs (Decidable (∀ _ ∈ program.interfaces, ∀ _ ∈ partsOfMembers _, _))

/-- What is declared without intersections has none in its shapes. -/
theorem isIntersection_of_mem_parts (h : program.HasNoIntersection) {type : Ty}
    (hmem : type ∈ program.table.parts) : type.isIntersection = false := by
  obtain ⟨entry, hentry, hmem⟩ := List.mem_flatMap.mp hmem
  obtain ⟨name, hgiven⟩ := Record.mem_ofList hentry
  obtain ⟨declaration, hdeclaration, heq⟩ := List.mem_map.mp hgiven
  rw [← (Prod.mk.inj heq).2] at hmem
  rcases Ty.mem_parts_object.mp hmem with rfl | ⟨p, hp, hmem⟩
  · rfl
  · obtain ⟨written, hwritten, hyields⟩ := yields_of_mem_members [] declaration.members hp hmem
    cases hi : type.isIntersection with
    | false => rfl
    | true =>
      exact absurd (h declaration hdeclaration written hwritten)
        (by simp [hyields.isIntersection hi])

/-- What the name of an interface stands for has no intersection. -/
theorem hasNoIntersection_expand (h : program.HasNoIntersection) (name : String) :
    (program.table.expand name).HasNoIntersection := by
  rcases program.table.expand_cases name with heq | ⟨shape, hshape, heq⟩
  · rw [heq]
    exact .leaf rfl rfl
  · rw [heq]
    exact fun part hpart => isIntersection_of_mem_parts h
      (List.mem_flatMap.mpr ⟨_, Record.mem_entries_of_get? hshape, hpart⟩)

/-- Without intersections, a comparison ends if and only if it does not lead into
an infinite chain of questions, if and only if no question to which it leads
comes up again within itself, and if and only if it ends with an effort that is
known from the types and the interfaces. All comparisons end if interfaces lead
back to themselves only directly. -/
theorem fits?_ends_iff (h : program.HasNoIntersection) {source target : Ty}
    (hs : source.HasNoIntersection) (ht : target.HasNoIntersection) :
    let table := program.table
    let first : Question := ⟨[], source, target⟩
    ((∃ effort answer, table.fits? effort source target = some answer) ↔
      ¬∃ chain : Nat → Question, chain 0 = first ∧ ∀ n, table.Asks (chain n) (chain (n + 1))) ∧
    ((∃ effort answer, table.fits? effort source target = some answer) ↔
      ¬∃ q, ReflTransGen table.Asks first q ∧ TransGen table.Asks q q) ∧
    ((∃ effort answer, table.fits? effort source target = some answer) ↔
      (table.fits? (table.enoughEffort source target) source target).isSome) ∧
    (table.RecursesDirectly →
      ∃ effort answer, table.fits? effort source target = some answer) := by
  intro table first
  have hplain : ∀ type ∈ table.reach source target, type.isIntersection = false := by
    intro type hmem
    rcases List.mem_cons.mp hmem with rfl | hmem
    · rfl
    · rcases List.mem_append.mp hmem with hmem | hmem
      · rcases List.mem_append.mp hmem with hmem | hmem
        · exact hs type hmem
        · exact ht type hmem
      · exact isIntersection_of_mem_parts h hmem
  have hclosed := Table.closed_reach hplain
  have hsmem := table.source_mem_reach source target
  have htmem := table.target_mem_reach source target
  have hends : (∃ effort answer, table.fits? effort source target = some answer) ↔
      table.Ends first := exists_congr fun _ => Option.isSome_iff_exists.symm
  refine ⟨hends.trans ?_, hends.trans ?_, Table.fits?_ends_iff_of_reach hplain, fun hdirect => ?_⟩
  · exact Table.ends_iff_no_chain hclosed hplain hsmem htmem
  · exact Table.ends_iff_no_return hclosed hplain hsmem htmem
  · exact hends.mpr (hdirect.endsBothWays (hasNoIntersection_expand h) [] hs ht).1

/-- Interfaces that refer to themselves directly: their comparison ends. -/
theorem fits?_ends_of_direct : ∃ program,
    Program.ofSource? "interface A \x7b name: string; next?: A; \x7d
      interface B \x7b name: string; next?: B; \x7d" = .ok program ∧
    program.HasNoIntersection ∧ program.table.RecursesDirectly ∧
    ∃ effort answer, program.table.fits? effort (.named "A") (.named "B") = some answer := by
  have hread : (Program.ofSource? "interface A \x7b name: string; next?: A; \x7d
      interface B \x7b name: string; next?: B; \x7d").toOption.any
      (fun program => program.HasNoIntersection ∧ ∀ entry ∈ program.table.interfaces.entries,
        ∀ p ∈ entry.2, p.type = .text ∨ p.type = .named entry.1) = true := by
    decide +kernel
  obtain ⟨program, hsource, h⟩ := exists_ofSource hread
  obtain ⟨hplain, htypes⟩ := of_decide_eq_true h
  have hdirect : program.table.RecursesDirectly := by
    intro entry hentry p hp
    rcases htypes entry hentry p hp with htype | htype
    · rw [htype]
      exact .primitive .text
    · rw [htype]
      exact .named entry.1
  have hnamed : ∀ name, (Ty.named name).HasNoIntersection := fun _ => .leaf rfl rfl
  exact ⟨program, hsource, hplain, hdirect,
    (fits?_ends_iff hplain (hnamed "A") (hnamed "B")).2.2.2 hdirect⟩

end Program

/-! ## Interfaces that are compared forever -/

namespace Table

/-- The property `x` of an interface whose `x` may be of the interface itself. -/
def selfOrText (name : String) : Property :=
  ⟨"x", .union [.named name, .text], false⟩

/-- Two interfaces that refer to themselves under unions: no question that
comes up when they are compared is ever answered. -/
theorem fitsAssuming_selfOrText {table : Table}
    (hA : table.expand "A" = .object [selfOrText "A"])
    (hB : table.expand "B" = .object [selfOrText "B"]) (effort : Nat) :
    let fits := table.fitsAssuming effort [("A", "B")]
    fits (.object [selfOrText "A"]) (.object [selfOrText "B"]) = none ∧
      fits (selfOrText "A").type (selfOrText "B").type = none ∧
      fits (.named "A") (selfOrText "B").type = none ∧
      fits (.object [selfOrText "A"]) (selfOrText "B").type = none ∧
      fits (.object [selfOrText "A"]) (.named "B") = none := by
  induction effort with
  | zero => exact ⟨rfl, rfl, rfl, rfl, rfl⟩
  | succ effort ih =>
    obtain ⟨hobjects, hunions, hname, hobject, hunfold⟩ := ih
    simp only [selfOrText] at hobjects hunions hname hobject hunfold hA hB ⊢
    refine ⟨?_, ?_, ?_, ?_, ?_⟩ <;> unfold fitsAssuming fitsRule
    · simp [shapeFits, Shape.find?, List.allM, hunions]
    · simp [List.allM, hname]
    · simp [hA, hobject]
    · simp [List.anyM, hunfold]
    · simp [hB, hobjects]

end Table

namespace Program

/-- The comparison of two declared interfaces need not end. -/
theorem fits?_never_ends : ∃ program,
    Program.ofSource? "interface A \x7b x: A | string \x7d interface B \x7b x: B | string \x7d"
      = .ok program ∧
    program.HasNoIntersection ∧ program.table.declares "A" ∧ program.table.declares "B" ∧
    ∀ effort, program.table.fits? effort (.named "A") (.named "B") = none := by
  have hread : (Program.ofSource?
      "interface A \x7b x: A | string \x7d interface B \x7b x: B | string \x7d").toOption.any
      (fun program => program.HasNoIntersection ∧ program.table.declares "A" ∧
        program.table.declares "B" ∧
        program.table.expand "A" = .object [Table.selfOrText "A"] ∧
        program.table.expand "B" = .object [Table.selfOrText "B"]) = true := by
    decide +kernel
  obtain ⟨program, hsource, h⟩ := exists_ofSource hread
  obtain ⟨hplain, hdeclA, hdeclB, hA, hB⟩ := of_decide_eq_true h
  refine ⟨program, hsource, hplain, hdeclA, hdeclB, fun effort => ?_⟩
  cases effort with
  | zero => rfl
  | succ effort =>
    unfold Table.fits? Table.fitsAssuming Table.fitsRule
    simp [hA, hB, (Table.fitsAssuming_selfOrText hA hB effort).1]

end Program

end TypedScript
