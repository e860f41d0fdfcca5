import TypedScript.Proofs.SideBySide
import TypedScript.Proofs.Standing

/-!
# Names that are declared nowhere

The body of a declared function may be looked at many times, whenever its result is
asked for before its turn. What is reported then is dropped again. So each reference to a
name that is declared nowhere counts once, in the turn of the place where it stands: this
is what `Comparison` says of a check beside itself, with the reports of this one name at
this one position as those that are counted (`Program.count_unknownName`). A position
holds one reference only in a program that was read from a source, so there each of
them is reported exactly once (`Program.count_unknownName_eq_one`).
-/

namespace TypedScript

/-- The survey that asks that no variable, parameter or declared function has a name. -/
def Survey.withoutName (name : String) : Survey Unit :=
  { Survey.nothing with
    stmt := fun _ s =>
      match s with
      | .variable other _ _ _ => other ≠ name
      | .function f => f.name? ≠ some name
      | _ => true
    function := fun _ f => f.params.all fun param => param.name ≠ name }

/-- Whether a program declares a name nowhere: neither a variable nor a parameter nor a
declared function has it. -/
def Program.leavesOut (program : Program) (name : String) : Bool :=
  rowPasses (.withoutName name) () program.statements

section Counting

variable {name : String} {position : Position}

theorem Survey.params_ne_of_passes {f : Function} (h : f.passes (.withoutName name) () = true)
    {param : Parameter} (hparam : param ∈ f.params) : param.name ≠ name := by
  rw [Function.passes_eq, Bool.and_eq_true] at h
  exact of_decide_eq_true (List.all_eq_true.mp h.1 param hparam)

/-- The comparison that counts the reports of a name at a position, where no scope has
the name. -/
def Comparison.reports (name : String) (position : Position) (hthis : name ≠ "this") :
    Comparison where
  names other := other ≠ name
  functions f := f.passes (.withoutName name) () = true
  notices d := d == ⟨.unknownName name, position⟩
  stops _ := True
  survey _ := .withoutName name
  question := trivial
  names_param hf hparam := Survey.params_ne_of_passes hf hparam
  names_variable h := of_decide_eq_true h
  names_function h hname := fun heq => of_decide_eq_true h (heq ▸ hname)
  functions_passes h := h
  noticed h := ⟨name, by rw [eq_of_beq h], hthis, not_not_intro rfl⟩

theorem Comparison.weight_reports (hthis : name ≠ "this") (l : List (String × Position)) :
    (reports name position hthis).weight l = l.count (name, position) := by
  refine List.countP_congr fun reference _ => ?_
  obtain ⟨other, place⟩ := reference
  simp [reports]

/-- The check of a row reports the name at the position as often as the row refers to it
there. -/
theorem Comparison.reports_like (hthis : name ≠ "this") (position : Position) (table : Table)
    (effort fuel : Nat) (c : Stage) {l : List Stmt}
    (hl : rowPasses (.withoutName name) () l = true) :
    (reports name position hthis).Like c ((referencesOfRow l).count (name, position))
      (Block.checkAll table effort fuel l) (Block.checkAll table effort fuel l) := by
  have hbodies : ∀ (c : Stage) f, (reports name position hthis).functions f →
      rowPasses (.withoutName name) () f.body.statements = true := by
    intro c f hf
    have hpasses : f.passes (.withoutName name) () = true := hf
    rw [Function.passes_eq, Bool.and_eq_true] at hpasses
    exact hpasses.2
  have hasks : ∀ fuel, (checker table effort fuel).AsksAlike (checker table effort fuel) :=
    fun _ => ⟨rfl, rfl, rfl, rfl⟩
  have halike := checker_alike hasks (fun _ => trivial) hbodies fuel c (sizeOf l + 1)
  rw [← weight_reports hthis]
  exact halike.checkAll l (Nat.lt_succ_self _) hl

end Counting

namespace Program

variable {program : Program} {name : String} {position : Position} {effort fuel : Nat}
  {problems : List Diagnostic}

/-- A name that a program declares nowhere is reported as often as it is referred to. -/
theorem count_unknownName (hcheck : program.check effort fuel = .ok problems)
    (hname : program.leavesOut name = true) (hthis : name ≠ "this")
    (hholder : name ≠ Native.log.holder) :
    problems.count ⟨.unknownName name, position⟩ = program.references.count (name, position) := by
  have hlike := Comparison.reports_like hthis position program.table effort fuel ⟨[], 0⟩ hname
  obtain ⟨-, hcount, -⟩ := hlike.whole hholder.symm program effort
  exact hcount problems hcheck

/-- Each reference of a program from a source, wherever it is, is reported exactly once if
the program declares its name nowhere. -/
theorem count_unknownName_eq_one {source : String} (hsource : ofSource? source = .ok program)
    (hcheck : program.check effort fuel = .ok problems)
    (hreference : (name, position) ∈ program.references) (hname : program.leavesOut name = true)
    (hholder : name ≠ Native.log.holder) :
    problems.count ⟨.unknownName name, position⟩ = 1 := by
  have hthis : name ≠ "this" := by
    rintro rfl
    exact absurd (ofSpelling?_of_mem_references hsource hreference) (by decide)
  rw [count_unknownName hcheck hname hthis hholder]
  exact List.count_eq_one_of_mem ((nodup_references hsource).of_map _) hreference

/-- Two functions that call each other, both used ahead of their turn: the name in the
header of the loop is reported once. -/
theorem count_unknownName_eq_one_of_mutual_calls : ∃ program problems,
    ofSource? "f(); g(); function f() \x7b return g(); \x7d
      function g() \x7b for (; missing; ) f(); \x7d" = .ok program ∧
    program.check 20 20 = .ok problems ∧
    ("missing", (⟨2, 29⟩ : Position)) ∈ program.references ∧
    program.leavesOut "missing" = true ∧ "missing" ≠ Native.log.holder ∧
    problems.count ⟨.unknownName "missing", ⟨2, 29⟩⟩ = 1 := by
  have hread : (ofSource? "f(); g(); function f() \x7b return g(); \x7d
      function g() \x7b for (; missing; ) f(); \x7d").toOption.any (fun program =>
        (program.check 20 20).toOption.isSome && (program.leavesOut "missing" &&
          decide (("missing", (⟨2, 29⟩ : Position)) ∈ program.references))) = true := by
    decide +kernel
  obtain ⟨program, hsource, h⟩ := exists_ofSource hread
  rw [Bool.and_eq_true, Bool.and_eq_true] at h
  obtain ⟨hends, hname, hreference⟩ := h
  cases hcheck : program.check 20 20 with
  | error unfinished =>
    rw [hcheck] at hends
    cases hends
  | ok problems =>
    exact ⟨program, problems, hsource, hcheck, of_decide_eq_true hreference, hname, by decide,
      count_unknownName_eq_one hsource hcheck (of_decide_eq_true hreference) hname (by decide)⟩

end Program

end TypedScript
