import TypedScript.Proofs.Calling
import TypedScript.Proofs.Functions

/-!
# Calls and the results that the check has found

A check that gives no diagnostic has looked at the body of each function of a program,
in its turn, and found its result: the one that the function declares, or the union of
the types that its body gives back. If the function is first-order and its types are
plain, a call that ends by a return gives back a value of that result, and a call that
runs off the end of its body gives `undefined` (`Program.calls_give_result`).

The check does not ask whether the end of a body can be reached, and a value of any kind
may be assigned to what is `unknown` and back from there. So the result alone does not
tell what calls give: a body may run off its end with another result declared, and a
variable outside may hold a value of another type (`Program.calls_may_miss_result`).
-/

namespace TypedScript

open Check

/-! ## First-order functions -/

/-- Whether a function has parameters that are required, with plain types, a plain result
if it declares one, and a body of first-order statements that mention its own variables
and some of the scopes around it. -/
def Function.isFirstOrder (part table : Table) (names : List String) (f : Function) : Bool :=
  f.params.all (fun param =>
    !param.isOptional && param.type?.any fun type => part.Plain (table.denote type)) &&
  (f.result?.all (fun type => part.Plain (table.denote type)) &&
    rowPasses (.firstOrder part table)
      ((Survey.firstOrder part table).declareAll names (f.params.map (·.name)))
      f.body.statements)

/-- A function of a program that is read from a source is as surroundings ask for, if it
is first-order. -/
theorem Surroundings.hosts_of_isFirstOrder (O : Surroundings) {program : Program}
    (hprogram : rowPasses .grammar () program.statements = true) {f : Function}
    (hmem : f ∈ program.functions) (hf : f.isFirstOrder O.part O.table O.names = true) :
    O.Hosts f := by
  unfold Function.isFirstOrder at hf
  rw [Bool.and_eq_true, Bool.and_eq_true, List.all_eq_true] at hf
  obtain ⟨hparams, hresult, hbody⟩ := hf
  refine ⟨fun param hparam => ?_, fun result heq => ?_, ?_⟩
  · have htype := (Bool.and_eq_true_iff.mp (hparams param hparam)).2
    unfold Table.typeOfParam
    cases hwritten : param.type? with
    | none =>
      rw [hwritten] at htype
      cases htype
    | some type =>
      rw [hwritten] at htype
      exact of_decide_eq_true htype
  · obtain ⟨type, htype, rfl⟩ := Option.map_eq_some_iff.mp heq
    rw [htype] at hresult
    exact of_decide_eq_true hresult
  · obtain ⟨_, hgrammar⟩ := passes_of_mem_row hprogram hmem
    rw [Function.passes_eq, Bool.and_eq_true] at hgrammar
    have hboth := rowPasses_both hgrammar.2 hbody
    exact rowPasses_refine O.both_refines_survey
      (O.both_refines_survey.declareAll (i := ((), O.names)) rfl _) (by
        rw [Survey.declareAll_both]
        exact hboth)

/-! ## Results -/

namespace Program

/-- The body of a function is looked at without a diagnostic, with something known before
it, and the function is found to give back a result. -/
def GivesResult (program : Program) (effort : Nat) (f : Function) (k : Knowledge) (result : Ty) :
    Prop :=
  ∃ fuel, (checker program.table effort fuel).GivesResult f k result

end Program

open Classical in
/-- The survey that asks of a function that its result has been found in its turn. -/
noncomputable def Survey.results (program : Program) (effort : Nat) : Survey Unit :=
  { nothing with
    function := fun _ f => decide (∃ k result, program.GivesResult effort f k result ∧
      k.ahead = 0) }

open Classical in
theorem Survey.results_guided (program : Program) (effort : Nat) :
    Guided grammar (results program effort) (fun _ => ()) program.table effort where
  built h := h
  enter _ _ := rfl
  add _ _ _ := rfl
  isOpen _ := rfl
  reference _ _ _ := rfl
  expr _ _ := rfl
  stmt _ _ := rfl
  late _ _ _ := rfl
  function {fuel f} levels h := by
    obtain ⟨signature, receiver, k, result, k', hsigned, hcheck, hclean, hahead, _⟩ := h
    exact decide_eq_true
      ⟨k, result, ⟨fuel, signature, receiver, k', hsigned, hcheck, hclean⟩, hahead⟩

namespace Program

open Classical in
/-- A clean check finds the result of each function of a program, in its turn. -/
theorem exists_givesResult {program : Program}
    (hprogram : rowPasses .grammar () program.statements = true) {effort fuel : Nat}
    (hcheck : program.check effort fuel = .ok []) {f : Function} (hf : f ∈ program.functions) :
    ∃ k result, program.GivesResult effort f k result ∧ k.ahead = 0 := by
  obtain ⟨_, hpasses⟩ := passes_of_mem_row
    (passes_of_check (Survey.results_guided program effort) hprogram hcheck) hf
  rw [Function.passes_eq, Bool.and_eq_true] at hpasses
  exact of_decide_eq_true hpasses.1

/-- A result that is declared is the one that is found. -/
theorem GivesResult.eq_denote {program : Program} {effort : Nat} {f : Function} {k : Knowledge}
    {result : Ty} (h : program.GivesResult effort f k result) {type : TypeExpr}
    (htype : f.result? = some type) : result = program.table.denote type := by
  obtain ⟨fuel, signature, receiver, k', ⟨k₀, k₀', hsignature, _⟩, hcheck, _⟩ := h
  obtain ⟨returns, k₁, _, hend⟩ := bind_eq_ok.mp hcheck
  rw [(pure_eq_ok.mp hend).1, htype, Option.map_some, Option.getD_some,
    (Checker.signature_eq hsignature).2]
  unfold Table.resultOf?
  rw [htype]
  rfl

/-- In a program that passes the check, the result of each function is found in its turn.
Whatever was known when it was found, each call of the function that gives a value, in
whatever well-formed machine, either ends by a return and the value conforms to the
result, or it runs off the end of the body and the value is `undefined`: if the function
is first-order, the arguments conform to its parameters, and the names outside that it
mentions have plain types, to which their values conform. -/
theorem calls_give_result {source : String} {program : Program}
    (hsource : Program.ofSource? source = .ok program) {effort fuel : Nat}
    (hcheck : program.check effort fuel = .ok []) {f : Function} (hf : f ∈ program.functions)
    {part : Table} (hpart : part.IsPlainPartOf program.table) {names : List String}
    (hfirst : f.isFirstOrder part program.table names = true) :
    (∃ k result, program.GivesResult effort f k result ∧ k.ahead = 0) ∧
    ∀ k result, program.GivesResult effort f k result →
      (∀ name ∈ names, ∀ known, findBinding k.scopes name = some known → part.Plain known.type) →
      ∀ (limit steps : Nat) (m m' : Machine) (id : ClosureId) (c : Closure)
        (arguments : List Value) (receiver? : Option Value) (position : Position) (value : Value),
        m.WellFormed → m.store.closure? id = some c → c.definition = f →
        List.Forall₂ (fun param argument =>
          Conforms program.table m.store (program.table.typeOfParam param) argument)
          f.params arguments →
        (∀ name ∈ names, ∀ known held, findBinding k.scopes name = some known →
          m.store.lookup? c.frame name = some held →
            Conforms program.table m.store known.type held) →
        (evaluator limit steps).callClosure limit c receiver? arguments position m =
          .ok value m' →
        ∃ completion,
          (evaluator limit steps).completeBody limit c receiver? arguments position m =
            .ok completion m' ∧
          (completion = .gaveBack value ∧ Conforms program.table m'.store result value ∨
            completion = .normal ∧ value = .undefined) := by
  have hprogram := passes_of_ofSource hsource
  refine ⟨exists_givesResult hprogram hcheck hf, ?_⟩
  intro k result hresult hplain limit steps m m' id c arguments receiver? position value hm hid hc
    harguments hnames hcall
  let O : Surroundings := ⟨program.table, part, hpart, k.scopes, names, hplain⟩
  have hosts : O.Hosts f := O.hosts_of_isFirstOrder hprogram hf hfirst
  obtain ⟨fuel, hresult⟩ := hresult
  obtain ⟨frame, hframe⟩ := Option.isSome_iff_exists.mp (hm.closures id c hid)
  have hhonours : O.Honours m.store c.frame [] := .outside hframe hnames
  obtain ⟨completion, hbody, hvalue, hgives⟩ := hosts.gives_result
    (checker_promises O effort fuel) rfl hresult hc hm.ordered hhonours harguments hcall
  refine ⟨completion, hbody, ?_⟩
  cases completion with
  | normal => exact .inr ⟨rfl, hvalue.symm⟩
  | gaveBack given =>
    cases hvalue
    exact .inl ⟨rfl, hgives _ rfl⟩

end Program

/-! ## Functions with primitive types -/

/-- Whether a value is of a primitive type. -/
def Value.isOf : Primitive → Value → Bool
  | .text, .text _ | .number, .number _ | .boolean, .boolean _ | .void, .undefined => true
  | _, _ => false

theorem Conforms.primitive_iff {table : Table} {s : Store} {p : Primitive} {value : Value} :
    Conforms table s (.primitive p) value ↔ value.isOf p = true := by
  cases p with
  | text => rw [Conforms.text_iff]; cases value <;> simp [Value.isOf]
  | number => rw [Conforms.number_iff]; cases value <;> simp [Value.isOf]
  | boolean => rw [Conforms.boolean_iff]; cases value <;> simp [Value.isOf]
  | void => rw [Conforms.void_iff]; cases value <;> simp [Value.isOf]

/-- The result that is found of a function with something known before it, if nothing is
reported. -/
def Checker.result? (go : Checker) (f : Function) (k : Knowledge) : Option Ty :=
  match go.signature f k with
  | .error _ _ => none
  | .ok signature k₁ =>
    match go.checkBody f signature .unknown k with
    | .error _ _ => none
    | .ok result k₂ =>
      if k₁.diagnostics.isEmpty && k₂.diagnostics.isEmpty then some result else none

theorem Checker.givesResult_of_result? {go : Checker} {f : Function} {k : Knowledge} {result : Ty}
    (h : go.result? f k = some result) : go.GivesResult f k result := by
  unfold result? at h
  cases hsignature : go.signature f k with
  | error unfinished k₁ =>
    rw [hsignature] at h
    cases h
  | ok signature k₁ =>
    rw [hsignature] at h
    dsimp only at h
    cases hbody : go.checkBody f signature .unknown k with
    | error unfinished k₂ =>
      rw [hbody] at h
      cases h
    | ok found k₂ =>
      rw [hbody] at h
      dsimp only at h
      split at h
      · next hclean =>
        cases h
        rw [Bool.and_eq_true, List.isEmpty_iff, List.isEmpty_iff] at hclean
        exact ⟨signature, .unknown, k₂, ⟨k, k₁, hsignature, hclean.1⟩, hbody, hclean.2⟩
      · cases h

/-- The value that a run ends with, if it does. -/
def Run.value? {α : Type} (x : Run α) (m : Machine) : Option α :=
  match x m with
  | .ok a _ => some a
  | .error _ _ => none

/-- A call of a function that is there when a run has ended. -/
structure Trial where
  id : ClosureId
  arguments : List Value
  /-- The types of the parameters. -/
  params : List Primitive
  /-- The names outside that the function mentions. -/
  names : List String
  /-- What is known before the body of the function is looked at. -/
  known : Knowledge
  /-- The result that is found then. -/
  result : Ty

namespace Trial

variable (t : Trial) (program : Program) (effort fuel limit steps : Nat)

/-- The value that a call of a function gives when a run has ended. -/
def value? (c : Closure) : Option Value :=
  ((evaluator limit steps).callClosure limit c none t.arguments .start).value?
    (program.reached limit steps)

/-- Whether the function is first-order with the given parameters and result, and the
arguments are of the types of the parameters. -/
def isSetUp (c : Closure) : Bool :=
  c.definition.isFirstOrder .empty program.table t.names &&
    ((checker program.table effort fuel).result? c.definition t.known = some t.result &&
      (c.definition.params.map program.table.typeOfParam = t.params.map .primitive &&
        List.Forall₂ (fun p argument => Value.isOf p argument = true) t.params t.arguments))

/-- A checked function misses its result: it is first-order, the names outside that it
mentions have plain types, the arguments conform to the parameters, and the call gives a
value that does not conform to the result that is found. -/
def Misses : Prop :=
  ∃ c value m', (program.reached limit steps).store.closure? t.id = some c ∧
    c.definition ∈ program.functions ∧
    c.definition.isFirstOrder .empty program.table t.names = true ∧
    program.GivesResult effort c.definition t.known t.result ∧
    (∀ name ∈ t.names, ∀ known, findBinding t.known.scopes name = some known →
      Table.empty.Plain known.type) ∧
    List.Forall₂ (fun param argument => Conforms program.table
      (program.reached limit steps).store (program.table.typeOfParam param) argument)
      c.definition.params t.arguments ∧
    (evaluator limit steps).callClosure limit c none t.arguments .start
      (program.reached limit steps) = .ok value m' ∧
    ¬ Conforms program.table m'.store t.result value

variable {t program effort fuel limit steps}

/-- A call that has been tried is one of a first-order function of the program, with
arguments that conform, and gives the value that was seen. -/
theorem exists_call {accepts : Closure → Value → Bool}
    (h : ((program.reached limit steps).store.closure? t.id).any (fun c =>
      t.isSetUp program effort fuel c && (t.value? program limit steps c).any (accepts c)) =
        true) :
    ∃ c value m', (program.reached limit steps).store.closure? t.id = some c ∧
      c.definition ∈ program.functions ∧
      c.definition.isFirstOrder .empty program.table t.names = true ∧
      program.GivesResult effort c.definition t.known t.result ∧
      List.Forall₂ (fun param argument => Conforms program.table
        (program.reached limit steps).store (program.table.typeOfParam param) argument)
        c.definition.params t.arguments ∧
      (evaluator limit steps).callClosure limit c none t.arguments .start
        (program.reached limit steps) = .ok value m' ∧
      accepts c value = true := by
  cases hc : (program.reached limit steps).store.closure? t.id with
  | none =>
    rw [hc] at h
    cases h
  | some c =>
    rw [hc] at h
    obtain ⟨hsetup, hvalue⟩ := Bool.and_eq_true_iff.mp h
    unfold isSetUp at hsetup
    simp only [Bool.and_eq_true, decide_eq_true_eq] at hsetup
    obtain ⟨hfirst, hresult, hparams, harguments⟩ := hsetup
    have hconform : List.Forall₂ (fun param argument => Conforms program.table
        (program.reached limit steps).store (program.table.typeOfParam param) argument)
        c.definition.params t.arguments := by
      rw [← List.forall₂_map_left_iff (R := fun type argument => Conforms program.table
        (program.reached limit steps).store type argument), hparams, List.forall₂_map_left_iff]
      exact harguments.imp fun _ _ => Conforms.primitive_iff.mpr
    unfold value? Run.value? at hvalue
    cases hcall : (evaluator limit steps).callClosure limit c none t.arguments .start
        (program.reached limit steps) with
    | error halt m' =>
      rw [hcall] at hvalue
      cases hvalue
    | ok value m' =>
      rw [hcall] at hvalue
      exact ⟨c, value, m', rfl, program.definition_mem_functions limit steps hc, hfirst,
        ⟨fuel, Checker.givesResult_of_result? hresult⟩, hconform, hcall, hvalue⟩

end Trial

theorem Table.isPlainPartOf_empty (table : Table) : Table.empty.IsPlainPartOf table where
  plain _ _ h := nomatch h
  interface? h := nomatch h

namespace Program

/-- A function that gives back one of its arguments or a text, whose result is inferred,
and that mentions a variable of the program. -/
def picking : String :=
  "let limit = 3; function pick(n: number, flag: boolean) \x7b
    for (let i = 0; i < limit; i++) \x7b if (flag) \x7b return n; \x7d \x7d return 'none'; \x7d"

/-- A call of it. -/
def pickOne : Trial where
  id := ⟨0⟩
  arguments := [.number 1, .boolean true]
  params := [.number, .boolean]
  names := ["limit"]
  known := { Knowledge.initial with scopes := [.ofList [("limit", ⟨.number, .start, none⟩)]] }
  result := .union [.number, .text]

/-- A call that gives back its argument, of a function that may also give a text. -/
theorem calls_give_result_of_picking : ∃ program c value m' completion,
    Program.ofSource? picking = .ok program ∧ program.check 20 60 = .ok [] ∧
    c.definition ∈ program.functions ∧
    program.GivesResult 20 c.definition pickOne.known pickOne.result ∧
    (evaluator 8 60).callClosure 8 c none pickOne.arguments .start (program.reached 8 60) =
      .ok value m' ∧ value.isOf .number = true ∧
    (evaluator 8 60).completeBody 8 c none pickOne.arguments .start (program.reached 8 60) =
      .ok completion m' ∧
    (completion = .gaveBack value ∧ Conforms program.table m'.store pickOne.result value ∨
      completion = .normal ∧ value = .undefined) := by
  have hread : (Program.ofSource? picking).toOption.any (fun program =>
      (program.check 20 60).toOption.any (·.isEmpty) &&
      ((program.reached 8 60).store.closure? pickOne.id).any fun c =>
        pickOne.isSetUp program 20 60 c && (pickOne.value? program 8 60 c).any fun value =>
          value.isOf .number &&
            ((program.reached 8 60).store.lookup? c.frame "limit").all (·.isOf .number)) =
        true := by
    decide +kernel
  obtain ⟨program, hsource, h⟩ := exists_ofSource hread
  obtain ⟨hclean, htried⟩ := Bool.and_eq_true_iff.mp h
  have hcheck := check_of_isEmpty hclean
  obtain ⟨c, value, m', hid, hmem, hfirst, hresult, harguments, hcall, hseen⟩ :=
    Trial.exists_call htried
  obtain ⟨hnumber, hlimit⟩ := Bool.and_eq_true_iff.mp hseen
  have hnames : ∀ known, findBinding pickOne.known.scopes "limit" = some known →
      known.type = .number := by
    intro known heq
    cases heq
    rfl
  obtain ⟨completion, hbody, hgives⟩ := (calls_give_result hsource hcheck hmem
    (Table.isPlainPartOf_empty _) hfirst).2 pickOne.known pickOne.result hresult
    (fun name hname known heq => by
      rw [List.mem_singleton.mp hname] at heq
      rw [hnames known heq]
      exact Table.plain_primitive _)
    8 60 _ m' pickOne.id c pickOne.arguments none .start value (wellFormed_reached program 8 60)
    hid rfl harguments
    (fun name hname known held heq hheld => by
      rw [List.mem_singleton.mp hname] at heq hheld
      rw [hnames known heq, Conforms.primitive_iff]
      rw [hheld] at hlimit
      exact hlimit)
    hcall
  exact ⟨program, c, value, m', completion, hsource, hcheck, hmem, hresult, hcall, hnumber, hbody,
    hgives⟩

/-! ## Calls that miss the result -/

/-- A function that declares a truth value and whose body may run off its end. -/
def runningOff : String :=
  "function f(n: number): boolean \x7b if (n > 0) \x7b return true; \x7d \x7d
    console.log(f(0) == true || f(0) == false);"

/-- A call of it that does so. -/
def callOfZero : Trial where
  id := ⟨0⟩
  arguments := [.number 0]
  params := [.number]
  names := []
  known := Knowledge.initial
  result := .boolean

/-- A function that gives back a variable outside, which holds a text by way of `unknown`
where a number is declared. -/
def passingOn : String :=
  "let u; u = 'a'; let n: number = u; function f(): number \x7b return n; \x7d
    console.log(f() === 'a');"

/-- A call of it. -/
def callOfNothing : Trial where
  id := ⟨0⟩
  arguments := []
  params := []
  names := ["n"]
  known := { Knowledge.initial with scopes := [.ofList [("n", ⟨.number, .start, none⟩)]] }
  result := .number

/-- A call may give a value that does not conform to the result that the check has found:
where the body runs off its end, and where a name outside holds a value that does not
conform to its type. -/
theorem calls_may_miss_result :
    (∃ program, Program.ofSource? runningOff = .ok program ∧ program.check 20 60 = .ok [] ∧
      (program.run 8 60).any (fun outcome => outcome.output = ["false"]) = true ∧
      callOfZero.Misses program 20 8 60) ∧
    ∃ program, Program.ofSource? passingOn = .ok program ∧ program.check 20 60 = .ok [] ∧
      (program.run 8 60).any (fun outcome => outcome.output = ["true"]) = true ∧
      callOfNothing.Misses program 20 8 60 := by
  have hmisses : ∀ {source : String} {t : Trial} {output : List String} {p : Primitive},
      t.result = .primitive p →
      (∀ name ∈ t.names, ∀ known, findBinding t.known.scopes name = some known →
        Table.empty.Plain known.type) →
      (Program.ofSource? source).toOption.any (fun program =>
        (program.check 20 60).toOption.any (·.isEmpty) &&
        ((program.run 8 60).any (fun outcome => outcome.output = output) &&
        ((program.reached 8 60).store.closure? t.id).any fun c =>
          t.isSetUp program 20 60 c && (t.value? program 8 60 c).any fun value =>
            !value.isOf p)) = true →
      ∃ program, Program.ofSource? source = .ok program ∧ program.check 20 60 = .ok [] ∧
        (program.run 8 60).any (fun outcome => outcome.output = output) = true ∧
        t.Misses program 20 8 60 := by
    intro source t output p hprimitive hplain hread
    obtain ⟨program, hsource, h⟩ := exists_ofSource hread
    obtain ⟨hclean, h⟩ := Bool.and_eq_true_iff.mp h
    obtain ⟨hrun, htried⟩ := Bool.and_eq_true_iff.mp h
    obtain ⟨c, value, m', hid, hmem, hfirst, hresult, harguments, hcall, hseen⟩ :=
      Trial.exists_call htried
    refine ⟨program, hsource, check_of_isEmpty hclean, hrun, c, value, m', hid, hmem, hfirst,
      hresult, hplain, harguments, hcall, ?_⟩
    rw [hprimitive, Conforms.primitive_iff, Bool.not_eq_true]
    exact Bool.not_eq_true' _ ▸ hseen
  refine ⟨hmisses (p := .boolean) rfl (fun _ hname => absurd hname List.not_mem_nil)
    (by decide +kernel), hmisses (p := .number) rfl ?_ (by decide +kernel)⟩
  intro name hname known heq
  rw [List.mem_singleton.mp hname] at heq
  cases heq
  exact Table.plain_primitive _

end Program

end TypedScript
