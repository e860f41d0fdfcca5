import TypedScript.Proofs.Answering
import TypedScript.Proofs.Keeping

/-!
# Checks settle

A check puts the same effort into each of its questions about types. With given fuel it
comes upon finitely many of them, so with more and more effort what it comes to settles,
as the answers do. A check that settles on stopping at a question has come upon one that
is not answered with any effort: if the table leaves no question open, every check comes
to an end that questions do not hinder (`Program.check_settles`).

There is one lemma for each way of putting checks together, and one for each rule of the
checker: what the rule comes to settles if that of the parts does.
-/

namespace TypedScript

open Filter

/-! ## Checks -/

/-- A check that settles from whatever is known, and stops at a question then only if one is
left open. -/
def Table.Checks {α : Type} (table : Table) (x : Nat → Check α) : Prop :=
  ∀ k, table.Settles (fun result => ∃ k', result = .error .question k') fun effort => x effort k

namespace Table.Checks

variable {α β : Type} {table : Table}

/-- A check that asks nothing. -/
theorem of_forall_ne {x : Check α} (hx : ∀ k k', x k ≠ .error .question k') :
    table.Checks fun _ => x :=
  fun k => ⟨x k, .of_forall fun _ => rfl, fun hstuck =>
    absurd hstuck (not_exists.mpr (hx k))⟩

theorem pure (a : α) : table.Checks fun _ => Pure.pure a :=
  of_forall_ne fun _ _ h => nomatch h

theorem change (f : Knowledge → Knowledge) : table.Checks fun _ => (modify f : Check Unit) :=
  of_forall_ne fun _ _ h => nomatch h

theorem exhausted : table.Checks fun _ => (throw .descent : Check α) :=
  of_forall_ne fun _ _ h => nomatch h

theorem bind {x : Nat → Check α} {f : Nat → α → Check β} (hx : table.Checks x)
    (hf : ∀ a, table.Checks fun effort => f effort a) :
    table.Checks fun effort => x effort >>= f effort := by
  intro k
  have hbind : ∀ effort, (x effort >>= f effort) k = EStateM.bind (x effort) (f effort) k :=
    fun _ => rfl
  simp only [hbind, EStateM.bind]
  obtain ⟨result, hx, hstuck⟩ := hx k
  cases result with
  | error unfinished k' =>
    refine ⟨.error unfinished k', ?_, ?_⟩
    · filter_upwards [hx] with effort hsame
      rw [hsame]
    · rintro ⟨k'', hquestion⟩
      cases hquestion
      exact hstuck ⟨k', rfl⟩
  | ok a k' =>
    -- What follows starts from what the first check has settled on.
    obtain ⟨result, hresult, hstuck'⟩ := hf a k'
    refine ⟨result, ?_, hstuck'⟩
    filter_upwards [hx, hresult] with effort hsame hsame'
    rw [hsame]
    exact hsame'

theorem get {f : Nat → Knowledge → Check α} (hf : ∀ k, table.Checks fun effort => f effort k) :
    table.Checks fun effort => MonadState.get >>= f effort :=
  fun k => hf k k

/-- A check that goes on from the answer to a question. -/
theorem ask {x : Nat → Answer α} {f : Nat → α → Check β} (hx : table.Answers x)
    (hf : ∀ a, table.Checks fun effort => f effort a) :
    table.Checks fun effort => Check.ask (x effort) >>= f effort := by
  refine bind (fun k => ?_) hf
  obtain ⟨answer, hx, hstuck⟩ := hx
  refine ⟨Check.ask answer k, ?_, ?_⟩
  · filter_upwards [hx] with effort hsame
    rw [hsame]
  · rintro ⟨k', hquestion⟩
    cases answer with
    | none => exact hstuck rfl
    | some a => cases hquestion

theorem reportAll (found : List Diagnostic) : table.Checks fun _ => Check.reportAll found :=
  change _

theorem report (cause : TypeCause) (position : Position) :
    table.Checks fun _ => Check.report cause position :=
  reportAll _

theorem enter (name : String) (binding : Binding) :
    table.Checks fun _ => Check.enter name binding := by
  refine get fun k => ?_
  split
  · exact pure ()
  · split
    · exact report _ _
    · exact change _

theorem declareParams (params : List Parameter) (types : List Ty) :
    table.Checks fun _ => Check.declareParams params types := by
  induction params generalizing types with
  | nil => exact pure ()
  | cons param params ih =>
    cases types with
    | nil => exact pure ()
    | cons type types => exact (enter _ _).bind fun _ => ih types

variable {x : Nat → Check α}

theorem inScope (hx : table.Checks x) : table.Checks fun effort => Check.inScope (x effort) :=
  (change _).bind fun _ => hx.bind fun _ => (change _).bind fun _ => pure _

theorem inFunction {x : Nat → Check Unit} (hx : table.Checks x) (declared? : Option Ty)
    (receiver : Ty) :
    table.Checks fun effort => Check.inFunction declared? receiver (x effort) :=
  (change _).bind fun _ => hx.bind fun _ => get fun _ => (change _).bind fun _ => pure _

theorem inferring (hx : table.Checks x) (position : Position) :
    table.Checks fun effort => Check.inferring position (x effort) :=
  (change _).bind fun _ => hx.bind fun _ => (change _).bind fun _ => pure _

theorem aside (hx : table.Checks x) (name : String) :
    table.Checks fun effort => Check.aside name (x effort) :=
  get fun _ => (change fun _ => _).bind fun _ => hx.bind fun _ => (change _).bind fun _ => pure _

theorem mapM {f : Nat → α → Check β} (hf : ∀ a, table.Checks fun effort => f effort a)
    (l : List α) : table.Checks fun effort => l.mapM (f effort) := by
  induction l with
  | nil => exact pure []
  | cons a rest ih =>
    simp only [List.mapM_cons]
    exact (hf a).bind fun _ => ih.bind fun _ => pure _

end Table.Checks

namespace Checker

/-- Checkers with more and more effort whose parts settle. -/
structure Settles (table : Table) (go : Nat → Checker) : Prop where
  asks : ∀ effort, (go effort).table = table ∧ (go effort).effort = effort
  typeOf : ∀ e, table.Checks fun effort => (go effort).typeOf e
  check : ∀ s, table.Checks fun effort => (go effort).check s
  checkAll : ∀ l, table.Checks fun effort => (go effort).checkAll l

namespace Settles

variable {table : Table} {go : Nat → Checker} (hgo : Settles table go)
include hgo

/-! ### Types -/

theorem expect (found expected : Ty) (position : Position) :
    table.Checks fun effort => (go effort).expect found expected position := by
  unfold Checker.expect
  simp only [hgo.asks]
  refine .ask (Table.fits?_answers found expected) fun fits => ?_
  cases fits with
  | true => exact .pure ()
  | false => exact .report _ _

theorem readType (type : TypeExpr) : table.Checks fun effort => (go effort).readType type := by
  unfold Checker.readType
  simp only [hgo.asks]
  exact .ask (Table.problems?_answers type) fun _ => (Table.Checks.reportAll _).bind fun _ =>
    .pure _

theorem signature (f : Function) : table.Checks fun effort => (go effort).signature f := by
  have hparam : ∀ param, table.Checks fun effort => (go effort).readParam param := by
    intro param
    unfold Checker.readParam
    split
    · exact hgo.readType _
    · exact .pure _
  unfold Checker.signature
  refine (Table.Checks.mapM hparam _).bind fun params => ?_
  cases f.result? with
  | none => exact (Table.Checks.pure _).bind fun _ => .pure _
  | some type => exact (hgo.readType type).bind fun _ => .pure _

theorem typeOfProperty (object : Ty) (property : String) (position : Position) :
    table.Checks fun effort => (go effort).typeOfProperty object property position := by
  unfold Checker.typeOfProperty
  simp only [hgo.asks]
  refine .ask (Table.property?_answers property object) fun type? => ?_
  cases type? with
  | none => exact (Table.Checks.report _ _).bind fun _ => .pure _
  | some type => exact .pure _

theorem typeOfBinary (op : BinaryOp) (left right : Ty) (position : Position) :
    table.Checks fun effort => (go effort).typeOfBinary op left right position := by
  have hboth : ∀ operand result : Ty, table.Checks fun effort => do
      (go effort).expect left operand position
      (go effort).expect right operand position
      return result := fun operand result =>
    (hgo.expect _ _ _).bind fun _ => (hgo.expect _ _ _).bind fun _ => .pure _
  unfold Checker.typeOfBinary
  cases op
  case add =>
    dsimp only
    split
    · exact .pure _
    · split
      · exact .pure _
      · exact hboth _ _
  case subtract | multiply | divide | modulo => exact hboth _ _
  case less | greater | lessEqual | greaterEqual => exact hboth _ _
  case equal | notEqual | strictEqual | strictNotEqual => exact .pure _
  case and | or => exact hboth _ _

theorem expectArguments (signature : Signature) (index : Nat) (found : List (Ty × Position)) :
    table.Checks fun effort => (go effort).expectArguments signature index found := by
  induction found generalizing index with
  | nil => exact .pure ()
  | cons first rest ih =>
    unfold Checker.expectArguments
    cases signature.param? index with
    | none => exact ih _
    | some expected => exact (hgo.expect _ _ _).bind fun _ => ih _

/-! ### Statements in a row -/

theorem hoist (statements : List Stmt) :
    table.Checks fun effort => (go effort).hoist statements := by
  induction statements with
  | nil => exact .pure []
  | cons s rest ih =>
    cases s with
    | function f =>
      unfold Checker.hoist
      refine (hgo.signature f).bind fun signature => ?_
      cases f.name? with
      | none => exact ih.bind fun _ => .pure _
      | some name => exact (Table.Checks.enter _ _).bind fun _ => ih.bind fun _ => .pure _
    | _ => exact ih

theorem checkEach (statements : List Stmt) :
    table.Checks fun effort => (go effort).checkEach statements := by
  induction statements with
  | nil => exact .pure ()
  | cons s rest ih => exact (hgo.check s).bind fun _ => ih

theorem checkBody (f : Function) (signature : Signature) (receiver : Ty) :
    table.Checks fun effort => (go effort).checkBody f signature receiver :=
  (Table.Checks.inScope ((Table.Checks.declareParams _ _).bind fun _ =>
    (hgo.checkAll _).inFunction _ _)).bind fun _ => .pure _

omit hgo in
theorem awaitsResult (f : Function) (name : String) :
    table.Checks fun _ => Checker.awaitsResult f name := by
  refine .get fun k => ?_
  split
  · exact .pure _
  · split <;> exact .pure _

theorem checkHoisted (hoisted : List (Function × Signature)) :
    table.Checks fun effort => (go effort).checkHoisted hoisted := by
  induction hoisted with
  | nil => exact .pure ()
  | cons first rest ih =>
    obtain ⟨f, signature⟩ := first
    unfold Checker.checkHoisted
    refine ((hgo.checkBody f signature _).inferring _).bind fun result => ?_
    cases f.name? with
    | none => exact ih
    | some name =>
      refine (awaitsResult f name).bind fun awaits => ?_
      cases awaits with
      | true => exact (Table.Checks.change _).bind fun _ => ih
      | false => exact ih

theorem row (statements : List Stmt) :
    table.Checks fun effort => (go effort).rowRule statements := by
  refine (hgo.hoist statements).bind fun hoisted => (hgo.checkEach statements).bind fun _ =>
    .get fun k => ?_
  split
  · exact hgo.checkHoisted hoisted
  · exact .pure ()

theorem checkBlock (b : Block) : table.Checks fun effort => (go effort).checkBlock b :=
  (hgo.checkAll _).inScope

/-! ### Expressions -/

theorem typeOfName (name : String) (position : Position) :
    table.Checks fun effort => (go effort).typeOfName name position := by
  have hinfer : ∀ f signature, table.Checks fun effort =>
      (go effort).infer name f signature := by
    intro f signature
    refine .get fun k => ?_
    -- A function that is being inferred keeps the type that it has.
    split
    · exact .pure ()
    · exact (((hgo.checkBody f signature _).inferring _).bind fun _ =>
        Table.Checks.change _).aside name
  refine .get fun k => ?_
  split
  · exact (Table.Checks.report _ _).bind fun _ => .pure _
  · split
    · exact (hinfer _ _).bind fun _ => .get fun _ => .pure _
    · exact .get fun _ => .pure _

theorem typeOfCall (callee : Expr) (arguments : List Expr) (position : Position) :
    table.Checks fun effort => (go effort).typeOfCall callee arguments position := by
  unfold Checker.typeOfCall
  refine (hgo.typeOf callee).bind fun type => (Table.Checks.mapM (fun argument =>
    (hgo.typeOf argument).bind fun _ => .pure _) arguments).bind fun found => ?_
  split
  · exact .pure _
  · cases type.callable? with
    | none => exact (Table.Checks.report _ _).bind fun _ => .pure _
    | some signature =>
      have hresult := (hgo.expectArguments signature 0 found).bind fun _ =>
        .pure signature.result
      dsimp only
      split
      · exact hresult
      · exact (Table.Checks.report _ _).bind fun _ => hresult

omit hgo in
theorem fieldsBehind {rest : List Field}
    (hrest : ∀ shape, table.Checks fun effort => (go effort).fieldTypes shape rest)
    (field : Field) (shape : Shape) (type : Ty) (methods : List Method) :
    table.Checks fun effort => (go effort).fieldsBehind field rest shape type methods := by
  have hothers := fun extended => (hrest extended).bind fun found =>
    .pure (found.1, methods ++ found.2)
  unfold Checker.fieldsBehind
  split
  · exact (Table.Checks.report _ _).bind fun _ => (Table.Checks.pure _).bind hothers
  · exact (Table.Checks.pure _).bind hothers

theorem fieldTypes (fields : List Field) (shape : Shape) :
    table.Checks fun effort => (go effort).fieldTypes shape fields := by
  induction fields generalizing shape with
  | nil => exact .pure _
  | cons field rest ih =>
    have hbehind := fun type methods => fieldsBehind ih field shape type methods
    simp only [fieldTypes_cons]
    cases field.value with
    | function f => exact (hgo.signature f).bind fun _ => hbehind _ _
    | _ => exact (hgo.typeOf _).bind fun _ => hbehind _ _

theorem checkMethods (methods : List Method) (shape : Shape) :
    table.Checks fun effort => (go effort).checkMethods shape methods := by
  induction methods generalizing shape with
  | nil => exact .pure shape
  | cons method rest ih => exact (hgo.checkBody _ _ _).bind fun result => ih _

/-- The rule of expressions settles if the parts do. -/
theorem expr (e : Expr) : table.Checks fun effort => (go effort).exprRule e := by
  unfold Checker.exprRule
  cases e with
  | literal value position => cases value <;> exact .pure _
  | reference name position => exact hgo.typeOfName name position
  | receiver position =>
    refine .get fun k => ?_
    split
    · exact .pure _
    · exact (Table.Checks.report _ _).bind fun _ => .pure _
  | unary op operand position =>
    exact (hgo.typeOf operand).bind fun _ => (hgo.expect _ _ _).bind fun _ => .pure _
  | binary left op right position =>
    exact (hgo.typeOf left).bind fun _ => (hgo.typeOf right).bind fun _ =>
      hgo.typeOfBinary _ _ _ _
  | assign target op? value position =>
    refine (hgo.typeOf target).bind fun expected => (hgo.typeOf value).bind fun given => ?_
    have hfound := fun found => (hgo.expect found expected value.position).bind fun _ =>
      .pure expected
    cases op? with
    | none => exact (Table.Checks.pure given).bind hfound
    | some op => exact (hgo.typeOfBinary _ _ _ _).bind hfound
  | update target op isBefore position =>
    exact (hgo.typeOf target).bind fun _ => (hgo.expect _ _ _).bind fun _ => .pure _
  | call callee arguments position => exact hgo.typeOfCall _ _ _
  | member object property position =>
    exact (hgo.typeOf object).bind fun _ => hgo.typeOfProperty _ _ _
  | object fields position =>
    exact (hgo.fieldTypes fields []).bind fun _ => (hgo.checkMethods _ _).bind fun _ => .pure _
  | function f =>
    exact (hgo.signature f).bind fun _ => (hgo.checkBody _ _ _).bind fun _ => .pure _

/-! ### Statements -/

theorem checkCondition (condition : Expr) :
    table.Checks fun effort => (go effort).checkCondition condition :=
  (hgo.typeOf condition).bind fun _ => hgo.expect _ _ _

theorem loopRest (update? : Option Expr) (body : Block) :
    table.Checks fun effort => (go effort).loopRest update? body := by
  have hblock := hgo.checkBlock body
  cases update? with
  | none => exact hblock
  | some update => exact ((hgo.typeOf update).bind fun _ => .pure _).bind fun _ => hblock

theorem loopRound (condition? update? : Option Expr) (body : Block) :
    table.Checks fun effort => (go effort).loopRound condition? update? body := by
  have hrest := hgo.loopRest update? body
  cases condition? with
  | none => exact hrest
  | some condition => exact (hgo.checkCondition condition).bind fun _ => hrest

theorem noteGiven (type : Ty) (blamed position : Position) :
    table.Checks fun effort => (go effort).noteGiven type blamed position := by
  refine .get fun k => ?_
  split
  · exact .report _ _
  · split
    · exact (hgo.expect _ _ _).bind fun _ => .change _
    · exact .change _

/-- The rule of statements settles if the parts do. -/
theorem stmt (s : Stmt) : table.Checks fun effort => (go effort).stmtRule s := by
  unfold Checker.stmtRule
  cases s with
  | «variable» name type? value? position =>
    refine .bind ?_ fun declared? => .bind ?_ fun found? => ?_
    · cases type? with
      | none => exact .pure none
      | some type => exact (hgo.readType type).bind fun _ => .pure _
    · cases value? with
      | none => exact .pure none
      | some value => exact (hgo.typeOf value).bind fun _ => .pure _
    · split
      · exact (hgo.expect _ _ _).bind fun _ => .enter _ _
      · exact .enter _ _
  | function f => exact .pure ()
  | interface declaration => exact .pure ()
  | expression e position => exact (hgo.typeOf e).bind fun _ => .pure ()
  | giveBack value? position =>
    cases value? with
    | none => exact hgo.noteGiven _ _ _
    | some value => exact (hgo.typeOf value).bind fun type => hgo.noteGiven type _ _
  | branch condition body otherwise? position =>
    refine (hgo.checkCondition condition).bind fun _ => (hgo.checkBlock body).bind fun _ => ?_
    cases otherwise? with
    | none => exact .pure ()
    | some otherwise => exact hgo.check otherwise
  | block b => exact hgo.checkBlock b
  | loop init? condition? update? body position =>
    have hround := hgo.loopRound condition? update? body
    refine .inScope ?_
    cases init? with
    | none => exact hround
    | some init => exact (hgo.check init).bind fun _ => hround
  | repeatWhile condition body position =>
    exact (hgo.checkCondition condition).bind fun _ => hgo.checkBlock body

end Settles

end Checker

/-- With the same fuel and more and more effort checks settle. -/
theorem checker_settles (table : Table) (fuel : Nat) :
    Checker.Settles table fun effort => checker table effort fuel := by
  induction fuel with
  | zero =>
    exact ⟨fun _ => ⟨rfl, rfl⟩, fun _ => .exhausted, fun _ => .exhausted, fun _ => .exhausted⟩
  | succ fuel ih => exact ⟨fun _ => ⟨rfl, rfl⟩, ih.expr, ih.stmt, ih.row⟩

namespace Program

variable {program : Program}

/-- The check of a program settles if that of its statements does. -/
theorem checkBy_settles {x : Nat → Check Unit} (hx : program.table.Checks x) :
    program.table.Settles (· = .error .question) fun effort =>
      program.checkBy effort (x effort) := by
  obtain ⟨problems?, hproblems, hopen⟩ := program.interfaceProblems?_answers
  obtain ⟨result, hresult, hopen'⟩ := hx.inScope Knowledge.initial
  unfold checkBy
  cases problems? with
  | none =>
    refine ⟨.error .question, ?_, fun _ => hopen rfl⟩
    filter_upwards [hproblems] with effort hsame
    rw [hsame]
  | some problems =>
    cases result with
    | error unfinished k =>
      refine ⟨.error unfinished, ?_, ?_⟩
      · filter_upwards [hproblems, hresult] with effort hsame hsame'
        simp only [hsame, hsame']
      · intro hstuck
        cases hstuck
        exact hopen' ⟨k, rfl⟩
    | ok u k =>
      refine ⟨.ok (problems ++ k.diagnostics), ?_, fun h => nomatch h⟩
      filter_upwards [hproblems, hresult] with effort hsame hsame'
      simp only [hsame, hsame']

/-- With the same fuel and more and more effort the check of a program settles. -/
theorem check_settles (program : Program) (fuel : Nat) :
    program.table.Settles (· = .error .question) fun effort => program.check effort fuel :=
  checkBy_settles ((checker_settles program.table fuel).checkAll program.statements)

end Program

end TypedScript
