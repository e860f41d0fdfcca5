import TypedScript.Checking
import TypedScript.Evaluation
import TypedScript.Grammar.Statements
import TypedScript.Token.Scanner

/-!
# From a source text to its output

A source text is read, checked and run. Whichever of these fails first decides
the failure; a text that is not read or checked without complaint prints
nothing. The lines printed before a run stops with a fault remain.
-/

namespace TypedScript

/-- Why a source text is no program. -/
inductive SourceFault where
  | scan (fault : ScanFault)
  | parse (fault : ParseFault)

/-- The full message of a fault in a source text. -/
def SourceFault.message : SourceFault → String
  | .scan fault => fault.message
  | .parse fault => fault.message

/-- The program that a source text makes up. -/
def Program.ofSource? (source : String) : Except SourceFault Program :=
  match Token.ofSource? source with
  | .error fault => .error (.scan fault)
  | .ok tokens =>
    match Program.ofTokens? tokens with
    | .error fault => .error (.parse fault)
    | .ok program => .ok program

theorem Program.exists_ofSource {source : String} {p : Program → Bool}
    (h : (Program.ofSource? source).toOption.any p = true) :
    ∃ program, Program.ofSource? source = .ok program ∧ p program = true := by
  cases hsource : Program.ofSource? source with
  | error fault => rw [hsource] at h; exact absurd h (by simp [Except.toOption])
  | ok program => rw [hsource] at h; exact ⟨program, rfl, h⟩

/-- How a program is run. -/
structure Options where
  /-- Whether a program has to pass the check before it is run. -/
  isChecked : Bool := true
  /-- How many calls of declared functions may be in progress at once. -/
  maxDepth : Nat := 128

/-- What a run of a program leaves behind. -/
structure Outcome where
  output : List String
  fault? : Option RuntimeFault

/-- The end of a run, none if the fuel was not enough. -/
def Program.run (limit fuel : Nat) (program : Program) : Option Outcome :=
  match program.exec limit fuel Machine.initial with
  | .ok _ m => some ⟨m.output.toList, none⟩
  | .error (.fault fault) m => some ⟨m.output.toList, some fault⟩
  | .error .outOfFuel _ => none

/-- Why a source text could not be run to its end. -/
inductive Failure where
  | source (fault : SourceFault)
  | types (problems : List Diagnostic)
  | running (fault : RuntimeFault)

/-- The full message of a failure: one line for each diagnostic. -/
def Failure.message : Failure → String
  | .source fault => fault.message
  | .types problems => String.intercalate "\n" (problems.map (·.message))
  | .running fault => fault.message

/-- What executing a source text leaves behind. -/
structure Execution where
  output : List String
  failure? : Option Failure

namespace Execution

/-- An execution that ends before anything is run. -/
def stopped (failure : Failure) : Execution :=
  ⟨[], some failure⟩

/-- The execution of a program that is not checked any more. -/
def ofProgram (options : Options) (fuel : Nat) (program : Program) : Option Execution :=
  (program.run options.maxDepth fuel).map fun outcome =>
    ⟨outcome.output, outcome.fault?.map .running⟩

/-- The execution of a source text. The fuel bounds the check and the run alike;
if it is not enough, there is none. -/
def ofSource (options : Options) (fuel : Nat) (source : String) : Option Execution :=
  match Program.ofSource? source with
  | .error fault => some (stopped (.source fault))
  | .ok program =>
    if options.isChecked then
      match program.check fuel fuel with
      | .error _ => none
      | .ok [] => ofProgram options fuel program
      | .ok problems => some (stopped (.types problems))
    else ofProgram options fuel program

end Execution

end TypedScript
