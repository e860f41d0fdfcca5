import TypedScript.Execution
import TypedScript.Proofs.Watching

/-!
# The limit on the depth of calls

A program is run with a limit on the number of calls in progress. Two runs that
differ in the limit and in the fuel do the same until the first one makes a call that
its limit forbids, or its fuel is used up. So a limit only cuts runs short
(`Program.limit_only_cuts`): a run that ends in another way ends so under each higher
limit, and one that is cut has printed the first lines of each longer run. At no
expression and no statement of a run there are more calls in progress than the limit
allows.
-/

namespace TypedScript

open Run

/-- Whether a run stops because its calls went too deep. -/
def RuntimeCause.isOverflow : RuntimeCause → Bool
  | .stackOverflow _ => true
  | _ => false

/-- Whether a run ended because its calls went too deep. -/
def Outcome.isOverflow (outcome : Outcome) : Bool :=
  outcome.fault?.any (·.cause.isOverflow)

/-- No more calls are in progress than a limit allows. -/
def Watch.withinDepth (limit : Nat) : Watch where
  expr _ m := m.depth ≤ limit
  stmt _ m := m.depth ≤ limit

/-- A run halts before its end: its calls went too deep, or the fuel was not enough. -/
def Halt.isPremature : Halt → Bool
  | .fault problem => problem.cause.isOverflow
  | .outOfFuel => true

namespace Program

/-- Of two runs the first one has the lower limit and the less fuel. -/
theorem agree_of_limit_le (program : Program) {limit limit' : Nat} (hle : limit ≤ limit')
    {steps more : Nat} (hsteps : steps ≤ more) :
    (Discipline.same (fun _ => True) (·.isPremature = false) (·.isPremature = true)).Agree
      .nothing () (program.exec limit steps) Machine.initial (program.exec limit' more)
      Machine.initial fun _ a b => a = b := by
  have hfault : ∀ fault : RuntimeFault, (∀ limit, fault.cause ≠ .stackOverflow limit) →
      (Halt.fault fault).isPremature = false := by
    intro fault hcause
    unfold Halt.isPremature RuntimeCause.isOverflow
    dsimp only
    split
    · next limit heq => exact absurd heq (hcause limit)
    · rfl
  have hlimits : (Discipline.same (fun _ => True) (·.isPremature = false)
      (·.isPremature = true)).Limits limit limit' :=
    ⟨hle, fun _ _ => trivial, fun _ => .inr rfl⟩
  have hD : (Discipline.same (fun _ => True) (·.isPremature = false)
      (·.isPremature = true)).Lawful .nothing := Discipline.lawful_same hfault
  exact agree_of_similar hD (evaluator_similar hD hlimits (.inr (.inl ⟨hsteps, rfl⟩)))
    (rowPasses_nothing program.statements) (Discipline.meet_same trivial) rfl

/-- A run that ends for another reason than the depth of its calls ends so under each
higher limit. -/
theorem run_of_limit_le {program : Program} {limit limit' steps more : Nat} (hle : limit ≤ limit')
    (hsteps : steps ≤ more) {outcome : Outcome} (hrun : program.run limit steps = some outcome)
    (hends : outcome.isOverflow = false) : program.run limit' more = some outcome := by
  unfold run at hrun ⊢
  cases program.agree_of_limit_le hle hsteps with
  | ok hexec hexec' _ _ _ hmeet _ =>
    rw [hexec] at hrun
    cases hrun
    rw [hexec']
    dsimp only
    rw [hmeet.output]
  | @halt halt _ _ _ hexec hexec' _ _ hmeet =>
    rw [hexec] at hrun
    cases halt with
    | outOfFuel => cases hrun
    | fault fault =>
      cases hrun
      rw [hexec']
      dsimp only
      rw [hmeet.output]
  | @cutLeft halt _ hexec hcut _ =>
    rw [hexec] at hrun
    cases halt with
    | outOfFuel => cases hrun
    | fault fault =>
      cases hrun
      exact absurd (hends.symm.trans hcut) Bool.false_ne_true
  | cutRight _ hcut _ => exact hcut.elim

/-- The lines of a run whose calls go too deep are the first ones of each run with a
higher limit and no less fuel. -/
theorem prefix_of_limit_le {program : Program} {limit limit' steps more : Nat}
    (hle : limit ≤ limit') (hsteps : steps ≤ more) {outcome : Outcome}
    (hrun : program.run limit steps = some outcome) (hends : outcome.isOverflow = true) :
    outcome.output <+: (endOf (program.exec limit' more) Machine.initial).output.toList := by
  unfold run at hrun
  cases program.agree_of_limit_le hle hsteps with
  | ok hexec _ _ _ _ _ _ =>
    rw [hexec] at hrun
    cases hrun
    cases hends
  | @halt halt _ _ _ hexec _ hpasses _ _ =>
    rw [hexec] at hrun
    cases halt with
    | outOfFuel => cases hrun
    | fault fault =>
      cases hrun
      exact absurd (hpasses.symm.trans hends) Bool.false_ne_true
  | @cutLeft halt _ hexec _ hprefix =>
    rw [hexec] at hrun
    cases halt with
    | outOfFuel => cases hrun
    | fault fault =>
      cases hrun
      exact hprefix
  | cutRight _ hcut _ => exact hcut.elim

/-- There are never more calls in progress than the limit allows. -/
theorem shows_withinDepth (program : Program) (limit steps : Nat) :
    program.Shows (.withinDepth limit) limit steps := by
  have hlimits : (Discipline.same (· ≤ limit) (fun _ => True) fun _ => False).Limits limit limit :=
    ⟨Nat.le_refl _, fun _ hlt => hlt, fun _ => .inl ⟨rfl, trivial⟩⟩
  have hwatch : (Watch.withinDepth limit).Sound
      (.same (· ≤ limit) (fun _ => True) fun _ => False) .nothing := by
    refine ⟨fun hmeet _ _ => decide_eq_true ?_, fun hmeet _ _ => decide_eq_true ?_⟩
    · exact hmeet.depth ▸ hmeet.depths
    · exact hmeet.depth ▸ hmeet.depths
  exact shows_of_sound (Discipline.lawful_same fun _ _ => trivial) Discipline.isExact_same hwatch
    hlimits trivial (rowPasses_nothing program.statements)
    (Discipline.meet_same (Nat.zero_le limit)) rfl steps

/-- A higher limit on the depth of calls changes nothing about a run that did not go
too deep, and a run that did has printed the first lines of each longer one. The calls
in progress are never more than the limit allows. -/
theorem limit_only_cuts (program : Program) {limit limit' : Nat} (hle : limit ≤ limit') :
    (∀ steps outcome, program.run limit steps = some outcome →
      (outcome.isOverflow = false →
        ∀ more, steps ≤ more → program.run limit' more = some outcome) ∧
      (outcome.isOverflow = true → ∀ more, steps ≤ more →
        outcome.output <+: (endOf (program.exec limit' more) Machine.initial).output.toList)) ∧
    ∀ steps, program.Shows (.withinDepth limit) limit steps :=
  ⟨fun _ _ hrun =>
    ⟨fun hends _ hsteps => run_of_limit_le hle hsteps hrun hends,
      fun hends _ hsteps => prefix_of_limit_le hle hsteps hrun hends⟩,
    fun steps => shows_withinDepth program limit steps⟩

/-- A function that calls itself five times is cut short after three calls. -/
theorem limit_only_cuts_of_recursion : ∃ program outcome,
    Program.ofSource? "function f(n: number): number \x7b console.log(n);
      if (n > 0) \x7b return f(n - 1); \x7d return n; \x7d f(5);" = .ok program ∧
    program.run 3 60 = some outcome ∧ outcome.output = ["5", "4", "3"] ∧
    outcome.isOverflow = true ∧ 3 ≤ 10 ∧
    outcome.output <+: (endOf (program.exec 10 80) Machine.initial).output.toList := by
  have hread : (Program.ofSource? "function f(n: number): number \x7b console.log(n);
      if (n > 0) \x7b return f(n - 1); \x7d return n; \x7d f(5);").toOption.any
      (fun program => (program.run 3 60).any fun outcome =>
        outcome.output = ["5", "4", "3"] && outcome.isOverflow) = true := by
    decide +kernel
  obtain ⟨program, hsource, h⟩ := exists_ofSource hread
  obtain ⟨outcome, hrun, h⟩ := (Option.any_eq_true _ _).mp h
  obtain ⟨houtput, hends⟩ := Bool.and_eq_true_iff.mp h
  exact ⟨program, outcome, hsource, hrun, of_decide_eq_true houtput, hends, by decide,
    ((limit_only_cuts program (by decide : 3 ≤ 10)).1 60 outcome hrun).2 hends 80 (by decide)⟩

end Program

end TypedScript
