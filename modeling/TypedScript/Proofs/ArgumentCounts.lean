import TypedScript.Proofs.AcceptedCalls
import TypedScript.Proofs.Calling

/-!
# How many arguments a function takes

A call has to give an argument for each parameter up to the last one that is not optional,
so a count is large enough exactly if all parameters behind it are optional
(`requiredCount_le_iff`). It does not matter whether optional parameters stand in front of
others.

The same definition is counted twice and in two ways, for the signature that the check gives it
and for the function that a run makes of it (`Closure.arity_agrees`). Main result: both take the
same counts and put them into the same words, and no argument of a call that is accepted goes
without a type to be compared with (`Checker.accepts_alike`).
-/

namespace TypedScript

/-! ## Counting parameters -/

theorem requiredCount_cons_le_succ (param : Parameter) (rest : List Parameter) (count : Nat) :
    requiredCount (param :: rest) ≤ count + 1 ↔ requiredCount rest ≤ count := by
  rw [requiredCount_cons]
  split <;> omega

/-- So many arguments are enough exactly if all parameters behind them are optional. -/
theorem requiredCount_le_iff (params : List Parameter) (count : Nat) :
    requiredCount params ≤ count ↔ ∀ param ∈ params.drop count, param.isOptional = true := by
  induction params generalizing count with
  | nil => simp [requiredCount]
  | cons param rest ih =>
    cases count with
    | zero => rw [Nat.le_zero, requiredCount_eq_zero_iff, List.drop_zero]
    | succ count =>
      rw [requiredCount_cons_le_succ, List.drop_succ_cons]
      exact ih count

/-! ## Arguments against parameters -/

namespace Checker

variable {go : Checker} {signature : Signature}

/-- Where there is a parameter for each argument, each is compared with its own. -/
theorem expectArguments_eq (found : List (Ty × Position)) (index : Nat)
    (h : index + found.length ≤ signature.params.length) :
    go.expectArguments signature index found =
      forM (found.zip (signature.params.drop index))
        fun ((type, position), expected) => go.expect type expected position := by
  induction found generalizing index with
  | nil => rfl
  | cons first rest ih =>
    rw [List.length_cons] at h
    have hindex : index < signature.params.length := by omega
    have hparam : signature.param? index = some signature.params[index] := by
      unfold Signature.param?
      rw [List.getElem?_eq_getElem hindex]
    rw [List.drop_eq_getElem_cons hindex, List.zip_cons_cons, List.forM_cons,
      ← ih (index + 1) (by omega), expectArguments, hparam]

/-- A function that a run has made of a definition has the signature that the check gives to
the definition. -/
theorem hasSignature_of_signature {s : Store} {id : ClosureId} {c : Closure} {k k' : Knowledge}
    (hclosure : s.closure? id = some c) (h : go.signature c.definition k = .ok signature k') :
    (Value.closure id).HasSignature s signature := by
  obtain ⟨params, required, isVariadic, result⟩ := signature
  exact .closure result hclosure h

/-- A function that a run makes of a definition takes the arguments that the check allows:
both accept the same numbers of them, in the same words, and a call is refused for the number
of its arguments exactly if the signature does not accept it. A count is accepted exactly if there
are so many parameters and all behind them are optional. Each argument of a call that is
accepted is compared with the type of a parameter. -/
theorem accepts_alike {f : Function} {k k' : Knowledge}
    (h : go.signature f k = .ok signature k') (count : Nat) :
    (∀ c : Closure, c.definition = f →
      (c.arity.accepts count = true ↔ signature.arity.accepts count = true) ∧
        c.arity.text = signature.arity.text ∧
        ∀ (m : Machine) (id : ClosureId) (arguments : List Value) (position : Position),
          m.store.closure? id = some c → arguments.length = count →
            (m.Refuses (.closure id) arguments position ↔
              ¬signature.arity.accepts count = true)) ∧
    (signature.arity.accepts count = true ↔
      count ≤ f.params.length ∧ ∀ param ∈ f.params.drop count, param.isOptional = true) ∧
    (signature.arity.accepts count = true →
      (∀ index < count, ∃ type, signature.param? index = some type) ∧
      ∀ found : List (Ty × Position), found.length = count →
        go.expectArguments signature 0 found =
          forM (found.zip signature.params)
            fun ((type, position), expected) => go.expect type expected position) := by
  obtain ⟨hlength, hrequired, hvariadic⟩ := signature_counts h
  have haccepts : signature.arity.accepts count = true ↔
      count ≤ f.params.length ∧ ∀ param ∈ f.params.drop count, param.isOptional = true := by
    rw [Signature.accepts_iff, hvariadic, hrequired, hlength, requiredCount_le_iff]
    simp [and_comm]
  refine ⟨fun c hc => ?_, haccepts, fun hcount => ⟨fun index hindex => ?_, fun found hfound => ?_⟩⟩
  · have hagrees : c.arity.Agrees signature.arity := Closure.arity_agrees (hc ▸ h)
    refine ⟨by rw [hagrees.accepts], hagrees.text, fun m id arguments position hclosure
      harguments => ?_⟩
    have hsignature := hasSignature_of_signature hclosure (hc ▸ h)
    rw [hsignature.refuses_iff, harguments, Bool.not_eq_true]
  · have hlt : index < signature.params.length := by
      rw [hlength]
      exact Nat.lt_of_lt_of_le hindex (haccepts.mp hcount).1
    exact ⟨signature.params[index], by rw [Signature.param?, List.getElem?_eq_getElem hlt]⟩
  · rw [expectArguments_eq found 0, List.drop_zero]
    rw [Nat.zero_add, hfound, hlength]
    exact (haccepts.mp hcount).1

/-- Of four parameters the first and the last are optional: a call has to give three
arguments, the first one among them. -/
theorem accepts_alike_of_optional_first :
    let param (name : String) (isOptional : Bool) : Parameter := ⟨name, none, isOptional, .start⟩
    let f : Function := ⟨some "f",
      [param "a" true, param "b" false, param "c" false, param "d" true], none, ⟨[], .start⟩, .start⟩
    let signature : Signature := ⟨[.unknown, .unknown, .unknown, .unknown], 3, false, .unknown⟩
    let go : Checker := ⟨.empty, 0, Expr.typeOf .empty 0 0, Stmt.check .empty 0 0,
      Block.checkAll .empty 0 0⟩
    go.signature f .initial = .ok signature .initial ∧
      (Closure.arity ⟨f, ⟨0⟩, none⟩).accepts 3 = true ∧
      (Closure.arity ⟨f, ⟨0⟩, none⟩).text = signature.arity.text ∧ signature.arity.text = "3-4" ∧
      signature.arity.accepts 3 = true ∧ signature.arity.accepts 2 = false ∧
      ∃ type, signature.param? 2 = some type := by
  intro param f signature go
  have h : go.signature f .initial = .ok signature .initial := rfl
  obtain ⟨hclosure, -, hparams⟩ := accepts_alike h 3
  obtain ⟨haccepts, htext, -⟩ := hclosure ⟨f, ⟨0⟩, none⟩ rfl
  have hthree : signature.arity.accepts 3 = true := by decide
  exact ⟨h, haccepts.mpr hthree, htext, by decide, hthree, by decide,
    (hparams hthree).1 2 (by decide)⟩

end Checker

end TypedScript
