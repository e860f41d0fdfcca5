import TypedScript.Execution
import TypedScript.Proofs.PlainRuns
import TypedScript.Proofs.WrittenTypes

/-!
# Fallbacks that no run comes to

Evaluation has an answer where it is asked for the place of an expression that is none, and
operators have one where a conjunction or a disjunction is to be computed from two values.
A `Fallback` gives other answers there, and a program may be run with them
(`Program.execWith`): with those of the evaluator itself this is the run as it is
(`Program.execWith_own`).

The grammar makes no program that comes to such a place. Its assignments and updates are of
places and its assignments compute with four operators, in the bodies of functions as well
(`Program.isFormedItem_of_mem`). A function that is called was made from a part of the
program, so all that is ever evaluated is formed, and runs with different fallbacks are the
same. With fallbacks that give plain faults all runs are plain; so no run of a program from
a source ends with a fault that is a fallback (`Program.never_falls_back`).
-/

namespace TypedScript

open Run

/-! ## Places in balance -/

theorem Place.passes_nothing (place : Place) : place.Passes .nothing () := by
  cases place with
  | «variable» name position => rfl
  | property object name => trivial

theorem Place.balanced_read (place : Place) : Balanced place.read :=
  (Evaluator.Similar.read Discipline.lawful_never place.passes_nothing).left

theorem Place.balanced_write (place : Place) (value : Value) : Balanced (place.write value) :=
  (Evaluator.Similar.write Discipline.lawful_never place.passes_nothing value).left

theorem Evaluator.IsBalanced.evalNamed {go : Evaluator} (hgo : go.IsBalanced) (e : Expr)
    (name : String) : Balanced (go.evalNamed e name) :=
  (Evaluator.Similar.evalNamed Discipline.lawful_never hgo.similar_never (Expr.passes_nothing e)
    name).left

/-! ## Runs with other fallbacks -/

/-- Answers to what no source asks: which place an expression denotes that is none, and
what a conjunction or a disjunction of two values is. -/
structure Fallback where
  place : Expr → Except RuntimeFault Place
  logic : Store → BinaryOp → Value → Value → Position → Except RuntimeFault Value

namespace Fallback

/-- The answers of the evaluator. -/
def own : Fallback where
  place target := .error ⟨.typeMismatch "variable or property" "expression", target.position⟩
  logic := Operation.apply

section Rules

variable (F : Fallback) (go : Evaluator) (limit : Nat)

/-- A binary operator on two values. -/
def apply (s : Store) (op : BinaryOp) (left right : Value) (position : Position) :
    Except RuntimeFault Value :=
  match op with
  | .and | .or => F.logic s op left right position
  | _ => Operation.apply s op left right position

/-- The place that an expression denotes. -/
def resolvePlace (target : Expr) : Run Place :=
  if target.isPlace then go.resolvePlace target else ofExcept (F.place target)

/-- The rule of expressions. -/
def evalRule (e : Expr) : Run Value := do
  match e with
  | .binary left op right position =>
    match op with
    | .and | .or => go.evalLogic op left right
    | _ =>
      let a ← go.eval left
      let b ← go.eval right
      ofExcept (← ask (F.apply · op a b position))
  | .assign target op? value position =>
    let place ← F.resolvePlace go target
    let result ←
      match op? with
      | some op =>
        let current ← place.read
        let operand ← go.eval value
        ofExcept (← ask (F.apply · op current operand position))
      | none => go.evalNamed value place.name
    place.write result
    return result
  | .update target op isBefore position =>
    let place ← F.resolvePlace go target
    let old ← ofExcept ((← place.read).asNumber position)
    let new := old + op.delta
    place.write (.number new)
    return .number (if isBefore then new else old)
  | other => go.evalRule limit other

/-- The evaluator with a given amount of fuel. -/
def evaluator : (fuel : Nat) → Evaluator
  | 0 => TypedScript.evaluator limit 0
  | fuel + 1 => (evaluator fuel).withRules (F.evalRule (evaluator fuel) limit)
      (evaluator fuel).execRule

end Rules

end Fallback

/-- Runs the statements of a program with other fallbacks. -/
def Program.execWith (F : Fallback) (limit fuel : Nat) (program : Program) : Run Unit := do
  let _ ← (F.evaluator limit fuel).execStatements program.statements

namespace Fallback

variable (F : Fallback) (go : Evaluator) (limit : Nat)

/-! ### The answers of the evaluator -/

theorem apply_own : own.apply = Operation.apply := by
  funext s op left right position
  cases op <;> rfl

theorem resolvePlace_own (target : Expr) : own.resolvePlace go target = go.resolvePlace target := by
  cases target <;> rfl

theorem evalRule_own (e : Expr) : own.evalRule go limit e = go.evalRule limit e := by
  cases e with
  | binary left op right position => cases op <;> rfl
  | assign target op? value position =>
    unfold evalRule
    dsimp only
    rw [resolvePlace_own, apply_own]
    rfl
  | update target op isBefore position =>
    unfold evalRule
    dsimp only
    rw [resolvePlace_own]
    rfl
  | _ => rfl

theorem evaluator_own (fuel : Nat) :
    own.evaluator limit fuel = TypedScript.evaluator limit fuel := by
  induction fuel with
  | zero => rfl
  | succ fuel ih =>
    have heval := funext (evalRule_own (TypedScript.evaluator limit fuel) limit)
    rw [evaluator, ih, heval]
    rfl

/-! ### What is formed -/

/-- The fallbacks do not matter to what the grammar makes. -/
theorem evalRule_of_isFormed {e : Expr} (h : e.isFormed = true) :
    F.evalRule go limit e = go.evalRule limit e := by
  cases e with
  | binary left op right position => cases op <;> rfl
  | assign target op? value position =>
    obtain ⟨hplace, hop⟩ := Bool.and_eq_true_iff.mp h
    have hresolve : F.resolvePlace go target = go.resolvePlace target := if_pos hplace
    unfold evalRule
    dsimp only
    rw [hresolve]
    cases op? with
    | none => rfl
    | some op =>
      -- with the four operators there is no fallback to take
      cases op with
      | add | subtract | multiply | divide => rfl
      | _ => cases hop
  | update target op isBefore position =>
    have hresolve : F.resolvePlace go target = go.resolvePlace target := if_pos h
    unfold evalRule
    dsimp only
    rw [hresolve]
    rfl
  | _ => rfl

/-! ### Balance -/

section Balance

variable {go : Evaluator} (hgo : go.IsBalanced)
include hgo

theorem balanced_resolvePlace (target : Expr) : Balanced (F.resolvePlace go target) := by
  unfold resolvePlace
  split
  · cases target with
    | reference name position => exact .pure _
    | member object property position =>
      exact (hgo.eval object).bind fun _ => (Balanced.ofExcept _).bind fun _ => .pure _
    | _ => exact .throw _
  · exact .ofExcept _

theorem balanced_evalRule (e : Expr) : Balanced (F.evalRule go limit e) := by
  by_cases hformed : e.isFormed = true
  · rw [F.evalRule_of_isFormed go limit hformed]
    exact hgo.evalRule limit e
  cases e with
  | assign target op? value position =>
    refine (F.balanced_resolvePlace hgo target).bind fun place => ?_
    have hresult : ∀ result, Balanced (do place.write result; return result) :=
      fun result => (place.balanced_write result).bind fun _ => .pure _
    cases op? with
    | none => exact (hgo.evalNamed value place.name).bind hresult
    | some op =>
      exact place.balanced_read.bind fun _ => (hgo.eval value).bind fun _ =>
        (Balanced.ask _).bind fun _ => (Balanced.ofExcept _).bind hresult
  | update target op isBefore position =>
    refine (F.balanced_resolvePlace hgo target).bind fun place => ?_
    exact place.balanced_read.bind fun _ => (Balanced.ofExcept _).bind fun _ =>
      (place.balanced_write _).bind fun _ => .pure _
  | _ => exact absurd rfl hformed

end Balance

theorem balanced_evaluator (fuel : Nat) : (F.evaluator limit fuel).IsBalanced := by
  induction fuel with
  | zero => exact evaluator_balanced limit 0
  | succ fuel ih => exact ih.withRules (F.balanced_evalRule limit ih) ih.execRule

/-! ### Plain fallbacks -/

/-- Fallbacks that fail with plain faults only. -/
structure IsPlain : Prop where
  place : ∀ target, FailsPlainly (F.place target)
  logic : ∀ s op left right position, FailsPlainly (F.logic s op left right position)

/-- Fallbacks that divide by zero. -/
def division : Fallback where
  place target := .error ⟨.divisionByZero, target.position⟩
  logic _ _ _ _ position := .error ⟨.divisionByZero, position⟩

theorem isPlain_division : division.IsPlain :=
  ⟨fun _ => .error rfl, fun _ _ _ _ _ => .error rfl⟩

namespace IsPlain

variable {F go} (hF : F.IsPlain) (hgo : go.IsPlain)
include hF

theorem apply (s : Store) (op : BinaryOp) (left right : Value) (position : Position) :
    FailsPlainly (F.apply s op left right position) := by
  unfold Fallback.apply
  split
  · exact hF.logic s .and left right position
  · exact hF.logic s .or left right position
  · exact .of_values (.apply s op left right position)

include hgo

theorem resolvePlace (target : Expr) : (F.resolvePlace go target).IsPlain := by
  by_cases hplace : target.isPlace = true
  · have hresolve : F.resolvePlace go target = go.resolvePlace target := if_pos hplace
    rw [hresolve]
    cases target with
    | reference name position => exact .pure _
    | member object property position =>
      refine (hgo.eval object).bind fun v => ?_
      exact (Run.IsPlain.ofExcept (.of_values (.expectObject v property position))).bind
        fun _ => .pure _
    | _ => exact absurd hplace Bool.false_ne_true
  · have hresolve : F.resolvePlace go target = ofExcept (F.place target) := if_neg hplace
    rw [hresolve]
    exact .ofExcept (hF.place target)

theorem evalRule (e : Expr) : (F.evalRule go limit e).IsPlain := by
  cases e with
  | literal value position => exact .pure _
  | reference name position => exact .lookup name position
  | receiver position => exact .receiver position
  | unary op operand position =>
    refine (hgo.eval operand).bind fun v => ?_
    cases op with
    | negate => exact (Run.IsPlain.ofExcept (.of_values (.asNumber v _))).bind fun _ => .pure _
    | not => exact (Run.IsPlain.ofExcept (.of_values (.asBoolean v _))).bind fun _ => .pure _
  | binary left op right position =>
    have hoperands : Run.IsPlain (do
        let a ← go.eval left
        let b ← go.eval right
        ofExcept (← ask (F.apply · op a b position))) :=
      (hgo.eval left).bind fun a => (hgo.eval right).bind fun b =>
        .asked fun s => hF.apply s op a b position
    cases op
    case and => exact hgo.evalLogic .and left right
    case or => exact hgo.evalLogic .or left right
    all_goals exact hoperands
  | assign target op? value position =>
    refine (hF.resolvePlace hgo target).bind fun place => ?_
    have hresult : ∀ result, Run.IsPlain (do place.write result; return result) :=
      fun result => (place.isPlain_write result).bind fun _ => .pure _
    cases op? with
    | none => exact (hgo.evalNamed value place.name).bind hresult
    | some op =>
      refine place.isPlain_read.bind fun current => (hgo.eval value).bind fun operand => ?_
      have happly := (Run.IsPlain.asked fun s =>
        hF.apply s op current operand position).bind hresult
      rw [bind_assoc] at happly
      exact happly
  | update target op isBefore position =>
    refine (hF.resolvePlace hgo target).bind fun place => place.isPlain_read.bind fun v => ?_
    exact (Run.IsPlain.ofExcept (.of_values (.asNumber v position))).bind fun _ =>
      (place.isPlain_write _).bind fun _ => .pure _
  | call callee arguments position =>
    exact (hgo.evalCallee callee).bind fun f => (hgo.mapM arguments).bind fun values =>
      hgo.call limit f.1 f.2 values position
  | member object property position =>
    exact (hgo.eval object).bind fun v => .property v property position
  | object fields position =>
    exact (Run.IsPlain.make _).bind fun object => (hgo.evalFields object fields).bind fun _ =>
      .pure _
  | function definition => exact .makeClosure definition definition.name?

omit hgo

/-- Whatever is run with plain fallbacks is plain. -/
theorem evaluator (fuel : Nat) : (F.evaluator limit fuel).IsPlain := by
  induction fuel with
  | zero => exact ⟨fun _ => .outOfFuel, fun _ => .outOfFuel, fun _ _ _ _ => .outOfFuel,
      fun _ _ => .outOfFuel⟩
  | succ fuel ih => exact ih.withRules (hF.evalRule limit ih) ih.execRule

end IsPlain

end Fallback

/-! ## Runs of what is formed -/

/-- The survey of what is evaluated: each expression is formed. -/
def Survey.evaluated : Survey Unit :=
  { nothing with expr := fun _ e => e.isFormed }

theorem Survey.formed_refines_evaluated :
    Survey.formed.Refines .evaluated (fun _ _ => True) fun _ _ => True where
  loosen _ := trivial
  expr _ h := h
  stmt _ _ := rfl
  function _ _ := rfl
  isOpen _ _ := rfl
  declare _ _ := trivial
  enter _ := trivial

theorem Stmt.IsFormedItem.passes_evaluated {s : Stmt} (h : s.IsFormedItem) :
    s.passes .evaluated () = true := by
  rcases h with ⟨declaration, rfl, _⟩ | hformed
  · rw [Stmt.passes]
    rfl
  · exact Stmt.passes_refine Survey.formed_refines_evaluated trivial hformed

/-- The discipline of two runs that do not differ. -/
abbrev Discipline.alike : Discipline Unit Unit :=
  same (fun _ => True) (fun _ => True) fun _ => False

/-- What is formed does the same with other fallbacks. -/
theorem evaluator_similar_with (F : Fallback) (limit fuel : Nat) :
    Evaluator.Similar .alike .evaluated (evaluator limit fuel) (F.evaluator limit fuel) := by
  have hD : Discipline.alike.Lawful .evaluated :=
    Discipline.lawful_same_of_open rfl fun _ _ => trivial
  have hlimits : Discipline.alike.Limits limit limit :=
    ⟨Nat.le_refl _, fun _ _ => trivial, fun _ => .inl ⟨rfl, trivial⟩⟩
  induction fuel with
  | zero =>
    have hfuels : Discipline.alike.Fuels 0 0 := .inl ⟨rfl, trivial⟩
    exact evaluator_similar hD hlimits hfuels
  | succ fuel ih =>
    refine ih.withRules hD (fun h => ?_) (fun h => Evaluator.Similar.execRule hD ih h)
      (evaluator_balanced limit fuel).execRule (F.balanced_evaluator limit fuel).execRule
    rw [F.evalRule_of_isFormed _ _ (Expr.node_of_passes h)]
    exact Evaluator.Similar.evalRule hD ih hlimits h

namespace Program

/-- With the fallbacks of the evaluator a program runs as it does. -/
theorem execWith_own (program : Program) (limit fuel : Nat) :
    program.execWith .own limit fuel = program.exec limit fuel := by
  unfold execWith exec
  rw [Fallback.evaluator_own]

section Running

variable {program : Program} (h : ∀ s ∈ program.statements, s.IsFormedItem) (limit fuel : Nat)
include h

theorem execWith_eq (F : Fallback) :
    program.execWith F limit fuel Machine.initial = program.exec limit fuel Machine.initial := by
  have hprogram : rowPasses .evaluated () program.statements = true :=
    rowPasses_iff.mpr fun s hs => (h s hs).passes_evaluated
  -- no functions are there before the program makes them
  have hmeet : Discipline.alike.Meet .evaluated () Machine.initial Machine.initial :=
    Discipline.meet_same_of_passes trivial fun id c hfound => by cases hfound
  have hgo := evaluator_similar_with F limit fuel
  refine Discipline.isExact_same.eq_of_agree
    (agree_of_similar (Discipline.lawful_same_of_open rfl fun _ _ => trivial) hgo hprogram hmeet
      rfl) ?_ ?_
  · exact (hgo.left _).bind fun _ => .pure _
  · exact (hgo.right _).bind fun _ => .pure _

theorem isFallback_of_run {outcome : Outcome} (hrun : program.run limit fuel = some outcome)
    {fault : RuntimeFault} (hfault : outcome.fault? = some fault) :
    fault.cause.isFallback = false := by
  have hplain : (program.execWith .division limit fuel).IsPlain :=
    ((Fallback.isPlain_division.evaluator limit fuel).execStatements _).bind fun _ => .pure _
  have hlands := hplain Machine.initial
  unfold Lands at hlands
  rw [execWith_eq h limit fuel .division] at hlands
  unfold run at hrun
  split at hrun
  · cases hrun
    cases hfault
  · next heq =>
    cases hrun
    cases hfault
    rw [heq] at hlands
    exact hlands
  · cases hrun

theorem isFallback_of_ofProgram {options : Options} {execution : Execution}
    (hexecution : Execution.ofProgram options fuel program = some execution)
    {fault : RuntimeFault} (hfailure : execution.failure? = some (.running fault)) :
    fault.cause.isFallback = false := by
  obtain ⟨outcome, hrun, rfl⟩ := Option.map_eq_some_iff.mp hexecution
  obtain ⟨_, hfault, heq⟩ := Option.map_eq_some_iff.mp hfailure
  cases heq
  exact isFallback_of_run h options.maxDepth fuel hrun hfault

/-- What is not run has no fault of a run. -/
theorem isFallback_of_ofSource {source : String} (hsource : ofSource? source = .ok program)
    {options : Options} {execution : Execution}
    (hexecution : Execution.ofSource options fuel source = some execution)
    {fault : RuntimeFault} (hfailure : execution.failure? = some (.running fault)) :
    fault.cause.isFallback = false := by
  unfold Execution.ofSource at hexecution
  rw [hsource] at hexecution
  dsimp only at hexecution
  split at hexecution
  · split at hexecution
    · cases hexecution
    · exact isFallback_of_ofProgram h fuel hexecution hfailure
    · cases hexecution
      cases hfailure
  · exact isFallback_of_ofProgram h fuel hexecution hfailure

end Running

/-- A program that tokens make up has names for its functions, interfaces at its top level
only, chains of two types or more, and places and compound operators where it assigns. So
none of its runs depends on a fallback of the evaluator: whatever stands for the place of an
expression that is none, and for a conjunction or a disjunction of two values, the runs are
the same. In no mode and with no limit on the depth of calls an execution ends with the
fault that expects a variable or property, or with the one that expects a comparison
operator. -/
theorem never_falls_back {tokens : List Token} {program : Program}
    (h : ofTokens? tokens = .ok program) :
    (∀ s ∈ program.statements, s.IsFormedItem) ∧
    (∀ (F : Fallback) (limit fuel : Nat),
      program.execWith F limit fuel Machine.initial = program.exec limit fuel Machine.initial) ∧
    (∀ (limit fuel : Nat) (outcome : Outcome) (fault : RuntimeFault),
      program.run limit fuel = some outcome → outcome.fault? = some fault →
      fault.cause.isFallback = false) ∧
    ∀ (source : String), ofSource? source = .ok program →
      ∀ (options : Options) (fuel : Nat) (execution : Execution) (fault : RuntimeFault),
        Execution.ofSource options fuel source = some execution →
        execution.failure? = some (.running fault) → fault.cause.isFallback = false := by
  have hformed := isFormedItem_of_mem h
  exact ⟨hformed, fun F limit fuel => execWith_eq hformed limit fuel F,
    fun limit fuel _ _ hrun hfault => isFallback_of_run hformed limit fuel hrun hfault,
    fun _ hsource _ fuel _ _ hexecution hfailure =>
      isFallback_of_ofSource hformed fuel hsource hexecution hfailure⟩

/-- A sum of a number and a truth value is refused as such, after an assignment and an update
in a function. -/
theorem never_falls_back_of_mismatch : ∃ tokens program outcome fault execution,
    Token.ofSource? "function f(n: number) \x7b let o = \x7b a: n \x7d; o.a += 1; o.a++;
      return o.a; \x7d console.log(f(1), true && false); let v = 1; v -= true;" = .ok tokens ∧
    ofTokens? tokens = .ok program ∧
    program.execWith .division 8 60 Machine.initial = program.exec 8 60 Machine.initial ∧
    program.run 8 60 = some outcome ∧ outcome.output = ["3 false"] ∧
    outcome.fault? = some fault ∧ fault.cause = .typeMismatch "number" "boolean" ∧
    fault.cause.isFallback = false ∧
    Execution.ofProgram ⟨false, 8⟩ 60 program = some execution ∧
    execution.failure? = some (.running fault) := by
  have hread : (ofSource? "function f(n: number) \x7b let o = \x7b a: n \x7d; o.a += 1; o.a++;
      return o.a; \x7d console.log(f(1), true && false); let v = 1; v -= true;").toOption.any
      (fun program => (program.run 8 60).any fun outcome => outcome.output = ["3 false"] &&
        outcome.fault?.any (·.cause = .typeMismatch "number" "boolean")) = true := by
    decide +kernel
  obtain ⟨program, hsource, h⟩ := exists_ofSource hread
  obtain ⟨outcome, hrun, h⟩ := (Option.any_eq_true _ _).mp h
  obtain ⟨houtput, h⟩ := Bool.and_eq_true_iff.mp h
  obtain ⟨fault, hfault, hcause⟩ := (Option.any_eq_true _ _).mp h
  obtain ⟨tokens, htokens, hparse⟩ := exists_tokens hsource
  obtain ⟨-, hsame, hruns, -⟩ := never_falls_back hparse
  refine ⟨tokens, program, outcome, fault, ⟨outcome.output, some (.running fault)⟩, htokens,
    hparse, hsame .division 8 60, hrun, of_decide_eq_true houtput, hfault,
    of_decide_eq_true hcause, hruns 8 60 outcome fault hrun hfault, ?_, rfl⟩
  unfold Execution.ofProgram
  rw [hrun, Option.map_some, hfault]
  rfl

end Program

end TypedScript
