import TypedScript.Execution
import TypedScript.Proofs.Compatibility
import TypedScript.Proofs.Finding

/-!
# Calls that are accepted

The number of arguments of a call is compared with a type while a program is checked, and with
the function itself while it runs. The type says by an `Allowance` what it accepts, the function
by an `Arity`, and each counts the parameters that have to be given in its own way: the type
from the front, by recursion (`requiredCount`), the function from the back
(`Function.requiredCount`). Both find the same count (`Function.requiredCount_eq`), so a function
that the check gave a signature (`Value.HasSignature`) has an arity that agrees with it
(`HasSignature.arity?`): it refuses a call, before anything else is done, exactly if its
signature does not accept it (`HasSignature.refuses_iff`).

What is called need not be known by its own type, but by one where that fits. Whether a
function fits is asked of its parameters and its result; how many of the parameters a call has
to give is not compared, and neither are the lengths if one of the two takes any number of
arguments. So a call that is accepted by the type may be refused by the function
(`accepts_may_be_refused`). Main result: this cannot happen exactly if the function needs no
more arguments than the type, and takes any number of them if the type does, or if the type
accepts no calls at all (`Table.accepts_of_fits_iff`).
-/

namespace TypedScript

/-! ## Counting parameters -/

theorem requiredCount_eq_zero_iff (params : List Parameter) :
    requiredCount params = 0 ↔ ∀ param ∈ params, param.isOptional = true := by
  induction params with
  | nil => simp [requiredCount]
  | cons param rest ih =>
    rw [List.forall_mem_cons, ← ih, requiredCount]
    cases requiredCount rest <;> simp

/-- A parameter in front of others is one more, unless all of them may be missing. -/
theorem requiredCount_cons (param : Parameter) (rest : List Parameter) :
    requiredCount (param :: rest) =
      if requiredCount rest = 0 ∧ param.isOptional = true then 0 else requiredCount rest + 1 := by
  rw [requiredCount]
  cases requiredCount rest <;> simp

/-- Counting from the back finds what the recursion from the front does: as long as a parameter
that has to be given stands behind, those at the end that are dropped all stand behind it. -/
theorem length_dropWhile_reverse (params : List Parameter) :
    (params.reverse.dropWhile (·.isOptional)).length = requiredCount params := by
  induction params with
  | nil => rfl
  | cons param rest ih =>
    rw [List.reverse_cons, List.dropWhile_append, requiredCount_cons, ← ih]
    cases hrest : rest.reverse.dropWhile (·.isOptional) with
    | nil => cases hparam : param.isOptional <;> simp [List.dropWhile, hparam]
    | cons last others => simp

theorem Function.requiredCount_eq (f : Function) :
    f.requiredCount = TypedScript.requiredCount f.params :=
  length_dropWhile_reverse f.params

/-! ## Functions and their signatures -/

theorem Signature.accepts_iff (s : Signature) (count : Nat) :
    s.arity.accepts count = true ↔
      s.required ≤ count ∧ (s.isVariadic = true ∨ count ≤ s.params.length) := by
  rw [Signature.arity, Allowance.accepts, Bool.and_eq_true, Bool.or_eq_true, decide_eq_true_iff,
    decide_eq_true_iff]

/-- Whether an arity and an allowance take the same numbers of arguments and put them into the
same words. -/
structure Arity.Agrees (arity : Arity) (allowance : Allowance) : Prop where
  accepts : ∀ count, arity.accepts count = allowance.accepts count
  text : arity.text = allowance.text

namespace Arity

/-- An arity is exact or a range by the same distinction that an allowance makes only for its
text. -/
theorem agrees_between (required total : Nat) :
    (between required total).Agrees ⟨required, total, false⟩ where
  accepts count := by
    rw [Bool.eq_iff_iff, accepts_between]
    simp [Allowance.accepts]
  text := by
    unfold between Allowance.text
    split
    · next heq => simp [text, heq]
    · simp [text]

theorem agrees_atLeast (least total : Nat) : (atLeast least).Agrees ⟨least, total, true⟩ where
  accepts count := by simp [accepts, Allowance.accepts]
  text := rfl

end Arity

/-- The number of arguments that a value takes, none if it is no function. -/
def Store.arity? (s : Store) : Value → Option Arity
  | .native f => some f.arity
  | .closure id => (s.closure? id).map (·.arity)
  | _ => none

/-- Whether the check gives a function a signature, whatever it takes the result for. -/
inductive Value.HasSignature (s : Store) : Value → Signature → Prop where
  | native (f : Native) : HasSignature s (.native f) f.signature
  | closure {id : ClosureId} {c : Closure} {go : Checker} {k k' : Knowledge} {written : Signature}
      (result : Ty) : s.closure? id = some c → go.signature c.definition k = .ok written k' →
      HasSignature s (.closure id) { written with result }

/-- Whether a call ends at once with a fault about the number of its arguments, whatever the
function does and however deep calls may go. -/
def Machine.Refuses (m : Machine) (f : Value) (arguments : List Value) (position : Position) :
    Prop :=
  ∃ arity, ∀ (go : Evaluator) (limit : Nat) (receiver? : Option Value),
    go.call limit f receiver? arguments position m =
      .error (.fault ⟨.argumentCount arity arguments.length, position⟩) m

variable {s : Store} {m : Machine} {f : Value} {signature : Signature}

theorem Native.arity_agrees (f : Native) : f.arity.Agrees f.signature.arity := by
  cases f
  exact Arity.agrees_atLeast 0 1

/-- What a run makes of a definition counts arguments as the signature of the definition does. -/
theorem Closure.arity_agrees {c : Closure} {go : Checker} {k k' : Knowledge}
    (h : go.signature c.definition k = .ok signature k') : c.arity.Agrees signature.arity := by
  obtain ⟨hlength, hrequired, hvariadic⟩ := Checker.signature_counts h
  rw [Closure.arity, Signature.arity, hvariadic, hlength, hrequired, Function.requiredCount_eq]
  exact Arity.agrees_between _ _

/-- The check and the run agree about the number of arguments. -/
theorem Value.HasSignature.arity? (h : f.HasSignature s signature) :
    ∃ arity, s.arity? f = some arity ∧ arity.Agrees signature.arity := by
  cases h with
  | native f => exact ⟨f.arity, rfl, f.arity_agrees⟩
  | @closure id c _ _ _ written result hc hsignature =>
    have hagrees : c.arity.Agrees written.arity := Closure.arity_agrees hsignature
    refine ⟨c.arity, ?_, hagrees⟩
    rw [Store.arity?, hc, Option.map_some]

/-! ## Calls that are refused -/

theorem Evaluator.call_native (go : Evaluator) (limit : Nat) (f : Native)
    (receiver? : Option Value) (arguments : List Value) (position : Position) :
    go.call limit (.native f) receiver? arguments position =
      (do requireArity f.arity arguments.length position; callNative f arguments) := rfl

theorem Evaluator.call_closure {id : ClosureId} {c : Closure} (hc : m.store.closure? id = some c)
    (go : Evaluator) (limit : Nat) (receiver? : Option Value) (arguments : List Value)
    (position : Position) : go.call limit (.closure id) receiver? arguments position m =
      go.callClosure limit c receiver? arguments position m := by
  have hask : Run.ask (·.closure? id) m = .ok (some c) m := by rw [← hc]; rfl
  simp only [Evaluator.call, bind, EStateM.bind, hask]

section Arity

variable {arity : Arity} {arguments : List Value} {position : Position}

theorem Evaluator.requireArity_of_accepts (h : arity.accepts arguments.length = true) :
    requireArity arity arguments.length position = pure () := by
  rw [requireArity, if_pos h]

theorem Evaluator.requireArity_of_not_accepts (h : arity.accepts arguments.length = false) :
    requireArity arity arguments.length position =
      Run.fail (.argumentCount arity arguments.length) position := by
  rw [requireArity, if_neg (by simp [h])]

theorem Machine.refuses_of_not_accepts (harity : m.store.arity? f = some arity)
    (h : arity.accepts arguments.length = false) : m.Refuses f arguments position := by
  refine ⟨arity, fun go limit receiver? => ?_⟩
  cases f with
  | native f =>
    cases harity
    rw [Evaluator.call_native, Evaluator.requireArity_of_not_accepts h]
    rfl
  | closure id =>
    obtain ⟨c, hc, rfl⟩ := Option.map_eq_some_iff.mp harity
    rw [Evaluator.call_closure hc, Evaluator.callClosure, Evaluator.requireArity_of_not_accepts h]
    rfl
  | _ => cases harity

/-- Where no calls may be in progress, a call that is not refused for the number of its
arguments ends otherwise: a built-in function prints, and a declared one goes too deep. -/
theorem Machine.not_refuses_of_accepts (harity : m.store.arity? f = some arity)
    (h : arity.accepts arguments.length = true) : ¬m.Refuses f arguments position := by
  rintro ⟨_, hrefuses⟩
  have hcall := hrefuses (evaluator 0 0) 0 none
  cases f with
  | native f =>
    cases harity
    rw [Evaluator.call_native, Evaluator.requireArity_of_accepts h] at hcall
    cases f
    cases hcall
  | closure id =>
    obtain ⟨c, hc, rfl⟩ := Option.map_eq_some_iff.mp harity
    rw [Evaluator.call_closure hc, Evaluator.callClosure, Evaluator.requireArity_of_accepts h]
      at hcall
    cases hcall
  | _ => cases harity

end Arity

/-- A function with a signature refuses a call exactly if the signature does not accept it. -/
theorem Value.HasSignature.refuses_iff (h : f.HasSignature m.store signature)
    (arguments : List Value) (position : Position) :
    m.Refuses f arguments position ↔ signature.arity.accepts arguments.length = false := by
  obtain ⟨arity, harity, hagrees⟩ := h.arity?
  rw [← hagrees.accepts]
  cases haccepts : arity.accepts arguments.length with
  | true => exact iff_of_false (Machine.not_refuses_of_accepts harity haccepts) (by simp)
  | false => exact iff_of_true (Machine.refuses_of_not_accepts harity haccepts) rfl

/-! ## Calls by another type -/

namespace Table

variable {table : Table} {effort : Nat} {source target : Signature}

/-- Of two functions of which the first fits where the second is expected, the first accepts
all calls that the second does exactly if it needs no more arguments and takes any number of
them if the second does, or if the second accepts no calls. -/
theorem accepts_of_compatible_iff
    (h : table.Compatible (.function source) (.function target)) :
    (∀ count, target.arity.accepts count = true → source.arity.accepts count = true) ↔
      (source.required ≤ target.required ∧
        (target.isVariadic = true → source.isVariadic = true)) ∨
      (target.isVariadic = false ∧ target.params.length < target.required) := by
  have halike : source.params.length = target.params.length ∨ source.isVariadic = true ∨
      target.isVariadic = true := by
    have hj := consistent_compatible _ _ h
    unfold Justifies at hj
    rcases hj with heq | heq | heq | hj
    · cases heq
      exact Or.inl rfl
    · cases heq
    · cases heq
    · exact hj.1
  simp only [Signature.accepts_iff]
  constructor
  · intro hall
    by_cases hnone : target.isVariadic = false ∧ target.params.length < target.required
    · exact Or.inr hnone
    · refine Or.inl ⟨?_, fun hvariadic => ?_⟩
      · refine (hall target.required ⟨Nat.le_refl _, ?_⟩).1
        cases hvariadic : target.isVariadic with
        | true => exact Or.inl rfl
        | false => exact Or.inr (Nat.not_lt.mp fun hlt => hnone ⟨hvariadic, hlt⟩)
      · -- a type of any number of arguments accepts more than a list of fixed length
        have hmany := (hall (target.required + source.params.length + 1)
          ⟨by omega, Or.inl hvariadic⟩).2
        exact hmany.resolve_right (by omega)
  · rintro (⟨hrequired, hvariadic⟩ | ⟨hfixed, hlt⟩) count ⟨hleast, hmost⟩
    · refine ⟨Nat.le_trans hrequired hleast, ?_⟩
      rcases hmost with hmost | hmost
      · exact Or.inl (hvariadic hmost)
      · rcases halike with hlength | hsource | htarget
        · exact Or.inr (hlength ▸ hmost)
        · exact Or.inl hsource
        · exact Or.inl (hvariadic htarget)
    · rcases hmost with hmost | hmost
      · exact absurd (hfixed.symm.trans hmost) (by simp)
      · omega

/-- If a function fits where another is expected, then it accepts all calls that the other
does, and no function with its signature refuses one of them, exactly if it needs no more
arguments than the other and takes any number of them if the other does, or if the other
accepts no calls at all. -/
theorem accepts_of_fits_iff
    (h : table.fits? effort (.function source) (.function target) = some true) :
    (∀ count, target.arity.accepts count = true → source.arity.accepts count = true ∧
      ∀ (m : Machine) (f : Value) (arguments : List Value) (position : Position),
        f.HasSignature m.store source → arguments.length = count →
          ¬m.Refuses f arguments position) ↔
      (source.required ≤ target.required ∧
        (target.isVariadic = true → source.isVariadic = true)) ∨
      (target.isVariadic = false ∧ target.params.length < target.required) := by
  rw [← accepts_of_compatible_iff (.of_fits h)]
  refine forall₂_congr fun count _ => ⟨fun hcalls => hcalls.1, fun haccepts => ⟨haccepts, ?_⟩⟩
  rintro m f arguments position hf rfl hrefuses
  rw [hf.refuses_iff, haccepts] at hrefuses
  cases hrefuses

/-- The built-in function stands for one of a text and perhaps another, and takes both. -/
theorem accepts_of_fits_iff_of_log :
    let target : Signature := ⟨[.text, .text], 1, false, .void⟩
    Table.empty.fits? 2 (.function Native.log.signature) (.function target) = some true ∧
      target.arity.accepts 2 = true ∧ Native.log.signature.arity.accepts 2 = true ∧
      ¬Machine.initial.Refuses (.native .log) [.text "a", .text "b"] .start := by
  intro target
  have h : Table.empty.fits? 2 (.function Native.log.signature) (.function target) = some true := by
    decide +kernel
  have haccepts : target.arity.accepts 2 = true := by decide
  obtain ⟨hlog, hcalls⟩ := (accepts_of_fits_iff h).mpr
    (Or.inl ⟨by decide, by decide⟩) 2 haccepts
  exact ⟨h, haccepts, hlog, hcalls _ _ _ _ (.native .log) rfl⟩

end Table

/-- A program that calls a function that needs a number by a type where it may be missing. -/
def callWithout : String :=
  "let f: (x?: number) => number = function(x: number): number \x7b return x; \x7d;
    console.log(f() === undefined);"

/-- A function that needs a number fits where it may be missing, and so is called without one:
nothing is wrong with the program, and its run ends with a fault about the number of
arguments. And a function of one number fits where any number of arguments is expected. -/
theorem accepts_may_be_refused :
    (let source : Signature := ⟨[.number], 1, false, .number⟩
      let target : Signature := ⟨[.number], 0, false, .number⟩
      Table.empty.fits? 2 (.function source) (.function target) = some true ∧
        target.arity.accepts 0 = true ∧ source.arity.accepts 0 = false) ∧
    (∃ program outcome, Program.ofSource? callWithout = .ok program ∧
      program.check 20 60 = .ok [] ∧ program.run 8 60 = some outcome ∧
      outcome.fault?.any (fun fault => fault.cause = .argumentCount (.exactly 1) 0) = true) ∧
    let source : Signature := ⟨[.number], 1, false, .void⟩
    Table.empty.fits? 2 (.function source) (.function Native.log.signature) = some true ∧
      Native.log.signature.arity.accepts 2 = true ∧ source.arity.accepts 2 = false := by
  refine ⟨by decide +kernel, ?_, by decide +kernel⟩
  have hread : (Program.ofSource? callWithout).toOption.any (fun program =>
      (program.check 20 60).toOption.any (·.isEmpty) &&
      (program.run 8 60).any fun outcome =>
        outcome.fault?.any fun fault => fault.cause = .argumentCount (.exactly 1) 0) = true := by
    decide +kernel
  obtain ⟨program, hsource, h⟩ := Program.exists_ofSource hread
  obtain ⟨hclean, hrun⟩ := Bool.and_eq_true_iff.mp h
  obtain ⟨outcome, hrun, hfault⟩ := (Option.any_eq_true _ _).mp hrun
  exact ⟨program, outcome, hsource, Program.check_of_isEmpty hclean, hrun, hfault⟩

end TypedScript
