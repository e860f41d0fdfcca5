import TypedScript.Proofs.Landing
import TypedScript.Proofs.SimilarPrograms
import TypedScript.Proofs.ValueFaults

/-!
# Plain runs

Two faults of the evaluator answer to trees rather than to values. What is assigned to is
found to be no "variable or property", and an operator that was to compare is found to be
no "comparison operator". They are the fallbacks of the evaluator; all other faults are
plain. A run is plain if it ends with no fallback, from whichever machine.

What lies in values is plain (`FailsPlainly.of_values`). So all that a run does by itself is
plain, and so is each rule of evaluation over plain parts that does not look for a place
(`Evaluator.IsPlain.execRule` and before).
-/

namespace TypedScript

/-- A fault that the evaluator has for trees that no source makes up. -/
def RuntimeCause.isFallback : RuntimeCause → Bool
  | .typeMismatch expected _ =>
    expected = "variable or property" || expected = "comparison operator"
  | _ => false

/-- A computation that fails with plain faults only. -/
def FailsPlainly {α : Type} (e : Except RuntimeFault α) : Prop :=
  ∀ fault, e = .error fault → fault.cause.isFallback = false

namespace FailsPlainly

theorem error {α : Type} {fault : RuntimeFault} (h : fault.cause.isFallback = false) :
    FailsPlainly (.error fault : Except RuntimeFault α) :=
  fun _ heq => by cases heq; exact h

/-- What lies in values is plain. -/
theorem of_values {α : Type} {e : Except RuntimeFault α} (h : FailsForValues e) :
    FailsPlainly e := by
  intro fault heq
  have hcause := h fault heq
  generalize fault.cause = cause at hcause
  cases cause with
  | typeMismatch expected found =>
    have hkinds : expected ∈ ["number", "string", "boolean"] := of_decide_eq_true hcause
    simp only [List.mem_cons, List.not_mem_nil, or_false] at hkinds
    rcases hkinds with rfl | rfl | rfl <;> rfl
  | _ => rfl

end FailsPlainly

/-! ## Runs -/

namespace Run

variable {α β : Type}

/-- A run that ends with no fallback. -/
def IsPlain (x : Run α) : Prop :=
  ∀ m, Lands (fun fault => fault.cause.isFallback = false) x m fun _ _ => True

namespace IsPlain

theorem pure (a : α) : IsPlain (Pure.pure a : Run α) :=
  fun _ => trivial

theorem bind {x : Run α} {f : α → Run β} (hx : IsPlain x) (hf : ∀ a, IsPlain (f a)) :
    IsPlain (x >>= f) :=
  fun m => (hx m).bind fun a m' _ => hf a m'

theorem outOfFuel : IsPlain (Run.outOfFuel : Run α) :=
  fun _ => trivial

theorem fail {cause : RuntimeCause} (h : cause.isFallback = false) (position : Position) :
    IsPlain (Run.fail cause position : Run α) :=
  fun _ => h

theorem ofExcept {e : Except RuntimeFault α} (h : FailsPlainly e) : IsPlain (Run.ofExcept e) :=
  fun _ => Lands.ofExcept (fun _ _ => trivial) h

theorem get : IsPlain (MonadState.get : Run Machine) :=
  fun _ => trivial

theorem ask (question : Store → α) : IsPlain (Run.ask question) :=
  fun _ => trivial

theorem frame : IsPlain Run.frame :=
  fun _ => trivial

theorem change (f : Store → Store) : IsPlain (Run.change f) :=
  fun _ => trivial

theorem make (f : Store → α × Store) : IsPlain (Run.make f) :=
  fun _ => trivial

theorem emit (line : String) : IsPlain (Run.emit line) :=
  fun _ => trivial

theorem inFrame (f : FrameId) {x : Run α} (hx : IsPlain x) : IsPlain (Run.inFrame f x) :=
  fun _ => Lands.inFrame (hx _)

theorem deeper {x : Run α} (hx : IsPlain x) : IsPlain (Run.deeper x) :=
  fun _ => Lands.deeper (hx _)

theorem newChild : IsPlain Run.newChild :=
  frame.bind fun _ => make _

theorem define (name : String) (value : Value) : IsPlain (Run.define name value) :=
  frame.bind fun _ => change _

theorem makeClosure (definition : Function) (name? : Option String) :
    IsPlain (Run.makeClosure definition name?) :=
  frame.bind fun _ => (make _).bind fun _ => pure _

/-- A question to the store that may fail. -/
theorem asked {question : Store → Except RuntimeFault α} (h : ∀ s, FailsPlainly (question s)) :
    IsPlain (do Run.ofExcept (← Run.ask question)) :=
  fun m => ofExcept (h m.store) m

theorem property (v : Value) (name : String) (position : Position) :
    IsPlain (Run.property v name position) :=
  asked fun s => .of_values (.getProperty s v name position)

theorem lookup (name : String) (position : Position) : IsPlain (Run.lookup name position) := by
  refine frame.bind fun _ => (ask _).bind fun value? => ?_
  cases value? with
  | some value => exact pure value
  | none => exact fail rfl position

theorem receiver (position : Position) : IsPlain (Run.receiver position) := by
  refine frame.bind fun _ => (ask _).bind fun value? => ?_
  cases value? with
  | some value => exact pure value
  | none => exact fail rfl position

theorem assign (name : String) (value : Value) (position : Position) :
    IsPlain (Run.assign name value position) := by
  refine frame.bind fun _ => (ask _).bind fun owner? => ?_
  cases owner? with
  | some owner => exact change _
  | none => exact fail rfl position

end IsPlain

end Run

theorem Place.isPlain_read (place : Place) : place.read.IsPlain := by
  cases place with
  | «variable» name position => exact .lookup name position
  | property object name => exact (Run.IsPlain.ask _).bind fun _ => .pure _

theorem Place.isPlain_write (place : Place) (value : Value) : (place.write value).IsPlain := by
  cases place with
  | «variable» name position => exact .assign name value position
  | property object name => exact Run.IsPlain.change (·.setProperty object name value)

/-! ## Rules -/

/-- An evaluator under which the parts of a program run plainly, whichever they are. -/
structure Evaluator.IsPlain (go : Evaluator) : Prop where
  eval : ∀ e, (go.eval e).IsPlain
  exec : ∀ s, (go.exec s).IsPlain
  loop : ∀ f condition? update? body, (go.loop f condition? update? body).IsPlain
  repeatWhile : ∀ condition body, (go.repeatWhile condition body).IsPlain

namespace Evaluator.IsPlain

open Run

variable {go : Evaluator} (hgo : go.IsPlain)

/-! ### Statements in a row -/

theorem hoist (l : List Stmt) : (Evaluator.hoist l).IsPlain := by
  induction l with
  | nil => exact .pure _
  | cons s rest ih =>
    cases s with
    | function definition =>
      rw [Evaluator.hoist]
      cases definition.name? with
      | none => exact (Run.IsPlain.pure PUnit.unit).bind fun _ => ih
      | some name =>
        exact (Run.IsPlain.makeClosure definition (some name)).bind fun value =>
          (Run.IsPlain.define name value).bind fun _ => ih
    | _ => exact ih

include hgo

theorem execEach (l : List Stmt) : (go.execEach l).IsPlain := by
  induction l with
  | nil => exact .pure _
  | cons s rest ih =>
    refine (hgo.exec s).bind fun completion => ?_
    cases completion with
    | normal => exact ih
    | gaveBack value => exact .pure _

theorem execStatements (l : List Stmt) : (go.execStatements l).IsPlain :=
  (hoist l).bind fun _ => hgo.execEach l

theorem execBlock (b : Block) : (go.execBlock b).IsPlain :=
  Run.IsPlain.newChild.bind fun f => (hgo.execStatements b.statements).inFrame f

/-! ### Calls -/

omit hgo in
theorem requireArity (arity : Arity) (count : Nat) (position : Position) :
    (Evaluator.requireArity arity count position).IsPlain := by
  unfold Evaluator.requireArity
  split
  · exact .pure ()
  · exact .fail rfl position

theorem callClosure (limit : Nat) (c : Closure) (receiver? : Option Value)
    (arguments : List Value) (position : Position) :
    (go.callClosure limit c receiver? arguments position).IsPlain := by
  rw [callClosure_eq]
  refine (requireArity c.arity arguments.length position).bind fun _ =>
    Run.IsPlain.get.bind fun m => ?_
  split
  · exact .fail rfl position
  · refine (Run.IsPlain.make _).bind fun f => (Run.IsPlain.change _).bind fun _ =>
      ((hgo.execStatements _).inFrame f).deeper.bind fun completion => ?_
    cases completion <;> exact .pure _

theorem call (limit : Nat) (f : Value) (receiver? : Option Value) (arguments : List Value)
    (position : Position) : (go.call limit f receiver? arguments position).IsPlain := by
  cases f with
  | native f =>
    refine (requireArity f.arity arguments.length position).bind fun _ => ?_
    cases f
    exact (Run.IsPlain.ask _).bind fun line => (Run.IsPlain.emit line).bind fun _ => .pure _
  | closure id =>
    refine (Run.IsPlain.ask _).bind fun c? => ?_
    cases c? with
    | some c => exact hgo.callClosure limit c receiver? arguments position
    | none => exact .fail rfl position
  | _ => exact .fail rfl position

/-! ### Expressions -/

theorem evalNamed (e : Expr) (name : String) : (go.evalNamed e name).IsPlain := by
  unfold Evaluator.evalNamed
  split
  · split
    · exact .makeClosure _ _
    · exact hgo.eval _
  · exact hgo.eval _

theorem evalCondition (e : Expr) : (go.evalCondition e).IsPlain :=
  (hgo.eval e).bind fun v => .ofExcept (.of_values (.asBoolean v _))

theorem mapM (l : List Expr) : (l.mapM go.eval).IsPlain := by
  induction l with
  | nil =>
    rw [List.mapM_nil]
    exact .pure _
  | cons e rest ih =>
    rw [List.mapM_cons]
    exact (hgo.eval e).bind fun _ => ih.bind fun _ => .pure _

theorem evalCallee (callee : Expr) : (go.evalCallee callee).IsPlain := by
  unfold Evaluator.evalCallee
  split
  · exact (hgo.eval _).bind fun v => (Run.IsPlain.property v _ _).bind fun _ => .pure _
  · exact (hgo.eval _).bind fun _ => .pure _

theorem evalFields (object : ObjectId) (fields : List Field) :
    (go.evalFields object fields).IsPlain := by
  induction fields with
  | nil => exact .pure _
  | cons field rest ih =>
    exact (hgo.evalNamed field.value field.name).bind fun _ =>
      (Run.IsPlain.change _).bind fun _ => ih

theorem evalLogic (op : BinaryOp) (left right : Expr) : (go.evalLogic op left right).IsPlain := by
  have hrest : ∀ first decided : Bool, Run.IsPlain
      (if decided then return Value.boolean first
        else return Value.boolean (← go.evalCondition right)) := by
    intro first decided
    cases decided with
    | true => exact .pure _
    | false => exact (hgo.evalCondition right).bind fun _ => .pure _
  exact (hgo.evalCondition left).bind fun first => hrest first _

/-! ### Statements -/

theorem execRule (s : Stmt) : (go.execRule s).IsPlain := by
  cases s with
  | «variable» name type? value? position =>
    have hdefine : ∀ value, Run.IsPlain (do Run.define name value; return Completion.normal) :=
      fun value => (Run.IsPlain.define name value).bind fun _ => .pure _
    cases value? with
    | none => exact hdefine .undefined
    | some e => exact (hgo.evalNamed e name).bind hdefine
  | function definition => exact .pure _
  | interface declaration => exact .pure _
  | expression e position => exact (hgo.eval e).bind fun _ => .pure _
  | giveBack value? position =>
    cases value? with
    | none => exact .pure _
    | some e => exact (hgo.eval e).bind fun _ => .pure _
  | branch condition body otherwise? position =>
    refine (hgo.evalCondition condition).bind fun holds => ?_
    cases holds with
    | true => exact hgo.execBlock body
    | false =>
      cases otherwise? with
      | none => exact .pure _
      | some otherwise => exact hgo.exec otherwise
  | block b => exact hgo.execBlock b
  | loop init? condition? update? body position =>
    refine Run.IsPlain.newChild.bind fun f => ?_
    cases init? with
    | none => exact hgo.loop f condition? update? body
    | some init =>
      exact ((hgo.exec init).inFrame f).bind fun _ => hgo.loop f condition? update? body
  | repeatWhile condition body position => exact hgo.repeatWhile condition body

theorem loopRound (f : FrameId) (condition? update? : Option Expr) (body : Block) :
    (go.loopRound f condition? update? body).IsPlain := by
  have hgoesOn : (go.goesOn condition?).IsPlain := by
    cases condition? with
    | none => exact .pure true
    | some condition => exact hgo.evalCondition condition
  rw [loopRound_eq]
  refine (hgoesOn.inFrame f).bind fun begins => ?_
  cases begins with
  | false => exact .pure _
  | true =>
    refine ((hgo.execBlock body).inFrame f).bind fun completion => ?_
    cases completion with
    | gaveBack value => exact .pure _
    | normal =>
      refine (Run.IsPlain.make _).bind fun next => ?_
      cases update? with
      | none => exact .pure _
      | some update => exact ((hgo.eval update).inFrame next).bind fun _ => .pure _

theorem whileRound (condition : Expr) (body : Block) :
    (go.whileRound condition body).IsPlain := by
  refine (hgo.evalCondition condition).bind fun holds => ?_
  cases holds with
  | false => exact .pure _
  | true =>
    refine (hgo.execBlock body).bind fun completion => ?_
    cases completion <;> exact .pure _

theorem withRules {eval : Expr → Run Value} {exec : Stmt → Run Completion}
    (heval : ∀ e, (eval e).IsPlain) (hexec : ∀ s, (exec s).IsPlain) :
    (go.withRules eval exec).IsPlain where
  eval := heval
  exec := hexec
  loop f condition? update? body := by
    refine (hgo.loopRound f condition? update? body).bind fun next => ?_
    cases next with
    | inl completion => exact .pure _
    | inr next => exact hgo.loop next condition? update? body
  repeatWhile condition body := by
    refine (hgo.whileRound condition body).bind fun completion? => ?_
    cases completion? with
    | some completion => exact .pure _
    | none => exact hgo.repeatWhile condition body

end Evaluator.IsPlain

end TypedScript
