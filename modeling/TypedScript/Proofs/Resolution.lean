import TypedScript.Proofs.Finding
import TypedScript.Proofs.Reaching

/-!
# Names are found where the check found them

The check looks a name up once, in the scopes as they are at that moment, and a
run looks it up in the frames as they are each time. Both count from the inside,
so they agree on a reference if they find its name at the same address.

For a program that is settled they agree always: whatever notes the check keeps
to, all runs keep to them (`Program.runsWithin_of_checksWithin`). A program that
is not settled may pass the check, and then find a name elsewhere: a function
made in a block sees the names that the block declares later, which the check
does not know yet when it comes to the function
(`Program.not_runsWithin_of_late_declaration`).
-/

namespace TypedScript.Program

/-- Each run of a checked and settled program finds each name, whether to read it
or to write to it, in a scope in which the check found the name in its turn. -/
theorem runsWithin_of_checksWithin {program : Program} {notes : Notes} {effort fuel : Nat}
    (hcheck : program.check effort fuel = .ok []) (hsettled : program.isSettled = true)
    (hnotes : program.ChecksWithin notes effort fuel) (limit steps : Nat) :
    program.RunsWithin notes limit steps := by
  obtain ⟨hsites, hholder⟩ := Bool.and_eq_true_iff.mp hsettled
  have hfound := Program.isFound_of_checksWithin hcheck hnotes
  refine runsWithin_of_allNoted (fun hmem => ?_) (fun site hsite i hi => ?_) limit steps
  · rw [List.contains_iff_mem.mpr hmem] at hholder
    cases hholder
  · -- the only candidate is where the check found the name
    obtain ⟨j, hj, hnoted⟩ := hfound site hsite
    have hone := List.all_eq_true.mp hsites site hsite
    rw [Site.eq_of_isSettled hone hi hj]
    exact hnoted

/-- The variable that a function reads is declared once more in the body of a
loop that calls the function. -/
theorem runsWithin_of_shadowing : ∃ program notes,
    Program.ofSource? "let x = 1;
      function f(n: number): number \x7b let y = x + n; return y; \x7d
      for (let i = 0; i < 2; i++) \x7b let x = f(i); console.log(x); \x7d" = .ok program ∧
    notes = Notes.ofList [(2, 47, 1), (2, 51, 0), (2, 61, 0), (3, 23, 0), (3, 30, 0), (3, 45, 2),
      (3, 47, 1), (3, 51, 3), (3, 63, 0)] ∧
    program.check 20 40 = .ok [] ∧ program.isSettled = true ∧
    program.ChecksWithin notes 20 40 ∧ program.RunsWithin notes 128 60 := by
  have hread : (Program.ofSource? "let x = 1;
      function f(n: number): number \x7b let y = x + n; return y; \x7d
      for (let i = 0; i < 2; i++) \x7b let x = f(i); console.log(x); \x7d").toOption.any
      (fun program => (program.check 20 40).toOption.any (·.isEmpty) && program.isSettled &&
        (program.checkNoted (Notes.ofList [(2, 47, 1), (2, 51, 0), (2, 61, 0), (3, 23, 0),
          (3, 30, 0), (3, 45, 2), (3, 47, 1), (3, 51, 3), (3, 63, 0)]) 20 40).toOption.any
            (·.isEmpty)) = true := by
    decide +kernel
  obtain ⟨program, hsource, h⟩ := exists_ofSource hread
  simp only [Bool.and_eq_true] at h
  obtain ⟨⟨hclean, hsettled⟩, hnoted⟩ := h
  have hcheck := check_of_isEmpty hclean
  have hwithin := (check_of_isEmpty hnoted).trans hcheck.symm
  exact ⟨program, _, hsource, rfl, hcheck, hsettled, hwithin,
    runsWithin_of_checksWithin hcheck hsettled hwithin 128 60⟩

/-- A program that passes the check without its runs finding all names where the
check found them. The function is made before the block declares its own
variable, and called after that: what it reads is the variable outside for the
check, and that of the block for a run. -/
theorem not_runsWithin_of_late_declaration : ∃ program notes,
    Program.ofSource? "let x = 1; \x7b let f = function() \x7b return x; \x7d; let x = 2;
      console.log(f()); \x7d" = .ok program ∧
    notes = Notes.ofList [(1, 42, 2), (2, 7, 2), (2, 19, 0)] ∧
    program.check 20 40 = .ok [] ∧ program.ChecksWithin notes 20 40 ∧
    ¬program.RunsWithin notes 128 60 ∧
    (program.run 128 60).map (·.output) = some ["2"] := by
  have hread : (Program.ofSource?
      "let x = 1; \x7b let f = function() \x7b return x; \x7d; let x = 2;
      console.log(f()); \x7d").toOption.any
      (fun program => (program.check 20 40).toOption.any (·.isEmpty) &&
        (program.checkNoted (Notes.ofList [(1, 42, 2), (2, 7, 2), (2, 19, 0)]) 20 40).toOption.any
          (·.isEmpty) &&
        ((program.execNoted (Notes.ofList [(1, 42, 2), (2, 7, 2), (2, 19, 0)]) .outOfFuel 128
          60).run' Machine.initial).isNone &&
        ((program.exec 128 60).run' Machine.initial).isSome &&
        (program.run 128 60).map (·.output) = some ["2"]) = true := by
    decide +kernel
  obtain ⟨program, hsource, h⟩ := exists_ofSource hread
  simp only [Bool.and_eq_true, decide_eq_true_eq] at h
  obtain ⟨⟨⟨⟨hclean, hnoted⟩, hrefused⟩, hends⟩, houtput⟩ := h
  have hcheck := check_of_isEmpty hclean
  have hwithin := (check_of_isEmpty hnoted).trans hcheck.symm
  refine ⟨program, _, hsource, rfl, hcheck, hwithin, fun hruns => ?_, houtput⟩
  have hsame := hruns .outOfFuel
  unfold EStateM.run' EStateM.run at hrefused hends
  rw [hsame] at hrefused
  rw [Option.isNone_iff_eq_none.mp hrefused] at hends
  cases hends

end TypedScript.Program
