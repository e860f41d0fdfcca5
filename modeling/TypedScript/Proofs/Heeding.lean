import TypedScript.Proofs.Mentions

/-!
# Runs that keep to admitted objects

Operators compute no objects (`GivesNoObject.apply`). So each rule of evaluation keeps to an
admission if its parts do: the values that it passes on are those that its parts have given
or that the store has, and an object that is written to was given as well. By induction on
the fuel this holds of all that can be run (`evaluator_heeds`).
-/

namespace TypedScript

open Run

/-! ## Operators -/

/-- A computation whose value is no object. -/
def GivesNoObject (e : Except RuntimeFault Value) : Prop :=
  ∀ v, e = .ok v → v.asObject? = none

namespace GivesNoObject

theorem ok {v : Value} (h : v.asObject? = none) : GivesNoObject (.ok v) :=
  fun _ heq => by cases heq; exact h

theorem error (fault : RuntimeFault) : GivesNoObject (.error fault) :=
  fun _ heq => nomatch heq

theorem bind {α : Type} {e : Except RuntimeFault α} {f : α → Except RuntimeFault Value}
    (hf : ∀ a, GivesNoObject (f a)) : GivesNoObject (e >>= f) := by
  cases e with
  | ok a => exact hf a
  | error fault => exact error fault

theorem arithmetic (op : BinaryOp) (a b : Float) (position : Position) :
    GivesNoObject (Operation.arithmetic op a b position) := by
  have hdivision : ∀ x : Float, GivesNoObject
      (if b == 0.0 then .error ⟨.divisionByZero, position⟩ else .ok (.number x)) := by
    intro x
    split
    · exact error _
    · exact ok rfl
  cases op with
  | add | subtract | multiply => exact ok rfl
  | _ => exact hdivision _

/-- An operator gives numbers, texts and truth values only. -/
theorem apply (s : Store) (op : BinaryOp) (left right : Value) (position : Position) :
    GivesNoObject (Operation.apply s op left right position) := by
  have hnumbers : ∀ op, GivesNoObject (Operation.numbers left right position >>= fun ab =>
      Operation.arithmetic op ab.1 ab.2 position) :=
    fun op => bind fun ab => arithmetic op ab.1 ab.2 position
  cases op with
  | add =>
    show GivesNoObject (Operation.add s left right position)
    unfold Operation.add
    split
    · exact ok rfl
    · exact hnumbers .add
  | subtract => exact hnumbers .subtract
  | multiply => exact hnumbers .multiply
  | divide => exact hnumbers .divide
  | modulo => exact hnumbers .modulo
  | and =>
    refine bind fun b => ?_
    cases b with
    | true => exact bind fun _ => ok rfl
    | false => exact ok rfl
  | or =>
    refine bind fun b => ?_
    cases b with
    | true => exact ok rfl
    | false => exact bind fun _ => ok rfl
  | equal | notEqual | strictEqual | strictNotEqual => exact ok rfl
  | less | greater | lessEqual | greaterEqual =>
    refine bind fun o? => ?_
    cases o? <;> exact ok rfl

end GivesNoObject

variable {A : Admission} {n : Nat}

/-- An operator on two values. -/
theorem Run.Heeds.apply (op : BinaryOp) (a b : Value) (position : Position) :
    Heeds A n (do Run.ofExcept (← Run.ask (Operation.apply · op a b position))) A.Allows := by
  refine (ask (Q := fun _ => GivesNoObject) fun s _ => .apply s op a b position).bind
    fun _ found _ hfound => ofExcept fun v hv _ _ => ?_
  exact .of_not_object (hfound v hv)

/-! ## Places -/

theorem Place.heeds_read (place : Place) : Heeds A n place.read A.Allows := by
  cases place with
  | «variable» name position => exact .lookup name position
  | property object name =>
    refine (Heeds.ask (Q := fun n' found => A.Allows n' (found.getD .undefined))
      fun s hs => hs.property object name).bind fun _ _ _ hfound => ?_
    exact .pure fun _ hle => hfound.mono hle

theorem Place.heeds_write {place : Place} (hplace : A.AllowsPlace n place) {v : Value}
    (hv : A.Allows n v) : Heeds A n (place.write v) fun _ _ => True := by
  cases place with
  | «variable» name position => exact .assign name hv position
  | property object name => exact .setProperty (hplace object name rfl) name hv

/-- A value is put into a place, and given as the result. -/
theorem Place.heeds_store {place : Place} (hplace : A.AllowsPlace n place) {v w : Value}
    (hv : A.Allows n v) (hw : A.Allows n w) :
    Heeds A n (do place.write v; return w) A.Allows :=
  (place.heeds_write hplace hv).bind fun _ _ hn _ =>
    .pure fun _ hle => hw.mono (Nat.le_trans hn hle)

/-! ## Rules -/

/-- An evaluator under which the parts of a program keep to an admission. -/
structure Evaluator.Heeds (A : Admission) (go : Evaluator) : Prop where
  eval : ∀ {n} e, Run.Heeds A n (go.eval e) A.Allows
  exec : ∀ {n} s, Run.Heeds A n (go.exec s) A.AllowsEnd
  loop : ∀ {n} f condition? update? body,
    Run.Heeds A n (go.loop f condition? update? body) A.AllowsEnd
  repeatWhile : ∀ {n} condition body, Run.Heeds A n (go.repeatWhile condition body) A.AllowsEnd

namespace Evaluator.Heeds

variable {go : Evaluator} (hgo : go.Heeds A)

/-- A row of statements that ends without a value. -/
theorem normal : Run.Heeds A n (pure Completion.normal) A.AllowsEnd :=
  .pure fun _ _ _ hv => nomatch hv

theorem gaveBack {v : Value} (hv : A.Allows n v) :
    Run.Heeds A n (pure (.gaveBack v)) A.AllowsEnd :=
  .pure fun _ hle _ hw => by cases hw; exact hv.mono hle

/-! ### Statements in a row -/

theorem hoist (l : List Stmt) : Run.Heeds A n (Evaluator.hoist l) fun _ _ => True := by
  induction l generalizing n with
  | nil => exact .pure fun _ _ => trivial
  | cons s rest ih =>
    cases s with
    | function definition =>
      rw [Evaluator.hoist]
      cases definition.name? with
      | none =>
        exact (Run.Heeds.pure (a := PUnit.unit) (Q := fun _ _ => True) fun _ _ => trivial).bind
          fun _ _ _ _ => ih
      | some name =>
        exact (Run.Heeds.makeClosure definition (some name)).bind fun _ value _ hvalue =>
          (Run.Heeds.define name hvalue).bind fun _ _ _ _ => ih
    | _ => exact ih

include hgo

theorem execEach (l : List Stmt) : Run.Heeds A n (go.execEach l) A.AllowsEnd := by
  induction l generalizing n with
  | nil => exact normal
  | cons s rest ih =>
    refine (hgo.exec s).bind fun _ completion _ hcompletion => ?_
    cases completion with
    | normal => exact ih
    | gaveBack value => exact gaveBack (hcompletion value rfl)

theorem execStatements (l : List Stmt) : Run.Heeds A n (go.execStatements l) A.AllowsEnd :=
  (hoist l).bind fun _ _ _ _ => hgo.execEach l

theorem execBlock (b : Block) : Run.Heeds A n (go.execBlock b) A.AllowsEnd :=
  Run.Heeds.newChild.bind fun _ f _ _ => (hgo.execStatements b.statements).inFrame f

/-! ### Calls -/

omit hgo in
theorem requireArity (arity : Arity) (count : Nat) (position : Position) :
    Run.Heeds A n (Evaluator.requireArity arity count position) fun _ _ => True := by
  unfold Evaluator.requireArity
  split
  · exact .pure fun _ _ => trivial
  · exact .throw _

theorem enterClosure (c : Closure) {receiver? : Option Value} {arguments : List Value}
    (hreceiver : A.AllowsAny n receiver?) (harguments : ∀ v ∈ arguments, A.Allows n v) :
    Run.Heeds A n (go.enterClosure c receiver? arguments) A.Allows := by
  have hframe : Run.Heeds A n (make (·.callFrame c.frame receiver?)) fun _ _ => True :=
    .make (fun _ => rfl) fun _ hn hs =>
      hs.newFrame (Admission.allowsFrame_empty _ _ (hreceiver.mono hn))
  refine hframe.bind fun n₁ f hn₁ _ => ?_
  have hbind : Run.Heeds A n₁ (change (bindParameters · f c.definition.params arguments))
      fun _ _ => True :=
    .change (fun s => (Similar.bindParameters_frames s f c.definition.params arguments).1)
      fun _ hn hs => hs.bindParameters f c.definition.params fun v hv =>
        (harguments v hv).mono (Nat.le_trans hn₁ hn)
  refine hbind.bind fun _ _ _ _ =>
    ((hgo.execStatements _).inFrame f).deeper.bind fun _ completion _ hcompletion => ?_
  cases completion with
  | normal => exact .pure fun _ _ => .of_not_object rfl
  | gaveBack value => exact .pure fun _ hle => (hcompletion value rfl).mono hle

theorem callClosure (limit : Nat) (c : Closure) {receiver? : Option Value}
    {arguments : List Value} (position : Position) (hreceiver : A.AllowsAny n receiver?)
    (harguments : ∀ v ∈ arguments, A.Allows n v) :
    Run.Heeds A n (go.callClosure limit c receiver? arguments position) A.Allows := by
  rw [callClosure_eq]
  refine (requireArity c.arity arguments.length position).bind fun _ _ hn _ =>
    Run.Heeds.get.bind fun _ m hn' _ => ?_
  have hle := Nat.le_trans hn hn'
  split
  · exact .throw _
  · exact hgo.enterClosure c (hreceiver.mono hle) fun v hv => (harguments v hv).mono hle

theorem call (limit : Nat) (f : Value) {receiver? : Option Value} {arguments : List Value}
    (position : Position) (hreceiver : A.AllowsAny n receiver?)
    (harguments : ∀ v ∈ arguments, A.Allows n v) :
    Run.Heeds A n (go.call limit f receiver? arguments position) A.Allows := by
  cases f with
  | native f =>
    refine (requireArity f.arity arguments.length position).bind fun _ _ _ _ => ?_
    cases f
    exact (Run.Heeds.ask_any _).bind fun _ line _ _ =>
      (Run.Heeds.emit line).bind fun _ _ _ _ => .pure fun _ _ => .of_not_object rfl
  | closure id =>
    refine (Run.Heeds.ask_any _).bind fun _ c? hn _ => ?_
    cases c? with
    | some c =>
      exact hgo.callClosure limit c position (hreceiver.mono hn) fun v hv =>
        (harguments v hv).mono hn
    | none => exact .throw _
  | _ => exact .throw _

/-! ### Expressions -/

theorem evalNamed (e : Expr) (name : String) :
    Run.Heeds A n (go.evalNamed e name) A.Allows := by
  unfold Evaluator.evalNamed
  split
  · split
    · exact .makeClosure _ _
    · exact hgo.eval _
  · exact hgo.eval _

theorem evalCondition (e : Expr) : Run.Heeds A n (go.evalCondition e) fun _ _ => True :=
  (hgo.eval e).bind fun _ _ _ _ => .ofExcept_any _

theorem resolvePlace (target : Expr) :
    Run.Heeds A n (go.resolvePlace target) A.AllowsPlace := by
  cases target with
  | reference name position => exact .pure fun _ _ _ _ hplace => nomatch hplace
  | member object property position =>
    refine (hgo.eval object).bind fun n' v _ hv => ?_
    have hobject : Run.Heeds A n' (Run.ofExcept (v.expectObject property position)) A.admits := by
      refine .ofExcept fun o ho _ hle => A.mono hle (hv o ?_)
      unfold Value.expectObject at ho
      split at ho <;> cases ho
      next hv =>
      cases v with
      | object id => cases hv; rfl
      | _ => cases hv
    exact hobject.bind fun _ o _ ho => .pure fun _ hle _ _ hplace => by
      cases hplace
      exact A.mono hle ho
  | _ => exact .throw _

theorem evalAll (l : List Expr) :
    Run.Heeds A n (l.mapM go.eval) fun n' values => ∀ v ∈ values, A.Allows n' v := by
  induction l generalizing n with
  | nil =>
    rw [List.mapM_nil]
    exact .pure fun _ _ v hv => absurd hv List.not_mem_nil
  | cons e rest ih =>
    rw [List.mapM_cons]
    refine (hgo.eval e).bind fun _ first _ hfirst => ih.bind fun _ values hn hvalues => ?_
    refine .pure fun _ hle => List.forall_mem_cons.mpr ⟨hfirst.mono (Nat.le_trans hn hle), ?_⟩
    exact fun v hv => (hvalues v hv).mono hle

theorem evalCallee (callee : Expr) :
    Run.Heeds A n (go.evalCallee callee) fun n' f => A.AllowsAny n' f.2 := by
  unfold Evaluator.evalCallee
  split
  · refine (hgo.eval _).bind fun _ receiver _ hreceiver =>
      (Run.Heeds.property receiver _ _).bind fun _ _ hn _ => .pure fun _ hle v hv => ?_
    cases hv
    exact hreceiver.mono (Nat.le_trans hn hle)
  · exact (hgo.eval _).bind fun _ _ _ _ => .pure fun _ _ => Admission.allowsAny_none

theorem evalFields {object : ObjectId} (hobject : A.admits n object) (fields : List Field) :
    Run.Heeds A n (go.evalFields object fields) fun _ _ => True := by
  induction fields generalizing n with
  | nil => exact .pure fun _ _ => trivial
  | cons field rest ih =>
    refine (hgo.evalNamed field.value field.name).bind fun _ value hn hvalue => ?_
    have hthere := A.mono hn hobject
    exact (Run.Heeds.setProperty hthere field.name hvalue).bind fun _ _ hn' _ =>
      ih (A.mono hn' hthere)

theorem evalLogic (op : BinaryOp) (left right : Expr) :
    Run.Heeds A n (go.evalLogic op left right) A.Allows := by
  have hboolean : ∀ {n} b, Run.Heeds A n (pure (Value.boolean b)) A.Allows :=
    fun _ => .pure fun _ _ => .of_not_object rfl
  have hrest : ∀ {n} (first decided : Bool), Run.Heeds A n
      (if decided then return Value.boolean first
        else return Value.boolean (← go.evalCondition right)) A.Allows := by
    intro n first decided
    cases decided with
    | true => exact hboolean first
    | false => exact (hgo.evalCondition right).bind fun _ b _ _ => hboolean b
  exact (hgo.evalCondition left).bind fun _ first _ _ => hrest first _

theorem evalOperands (left : Expr) (op : BinaryOp) (right : Expr) (position : Position) :
    Run.Heeds A n (do
      let a ← go.eval left
      let b ← go.eval right
      ofExcept (← ask (Operation.apply · op a b position))) A.Allows :=
  (hgo.eval left).bind fun _ a _ _ => (hgo.eval right).bind fun _ b _ _ => .apply op a b position

theorem evalRule (limit : Nat) (e : Expr) : Run.Heeds A n (go.evalRule limit e) A.Allows := by
  cases e with
  | literal value position =>
    cases value <;> exact .pure fun _ _ => .of_not_object rfl
  | reference name position => exact .lookup name position
  | receiver position => exact .receiver position
  | unary op operand position =>
    refine (hgo.eval operand).bind fun _ v _ _ => ?_
    cases op with
    | negate =>
      exact (Run.Heeds.ofExcept_any _).bind fun _ _ _ _ => .pure fun _ _ => .of_not_object rfl
    | not =>
      exact (Run.Heeds.ofExcept_any _).bind fun _ _ _ _ => .pure fun _ _ => .of_not_object rfl
  | binary left op right position =>
    cases op
    case and => exact hgo.evalLogic .and left right
    case or => exact hgo.evalLogic .or left right
    all_goals exact hgo.evalOperands left _ right position
  | assign target op? value position =>
    refine (hgo.resolvePlace target).bind fun n₁ place _ hplace => ?_
    -- the value is computed after the place, so there may be more objects by then
    have hstore : ∀ n' result, n₁ ≤ n' → A.Allows n' result →
        Run.Heeds A n' (do place.write result; return result) A.Allows :=
      fun n' result hn hresult => place.heeds_store
        (fun o name heq => A.mono hn (hplace o name heq)) hresult hresult
    cases op? with
    | none => exact (hgo.evalNamed value place.name).bind hstore
    | some op =>
      refine place.heeds_read.bind fun n₂ current hn₂ _ =>
        (hgo.eval value).bind fun n₃ operand hn₃ _ => ?_
      have happly := (Run.Heeds.apply (A := A) (n := n₃) op current operand position).bind
        fun n' result hn => hstore n' result (Nat.le_trans (Nat.le_trans hn₂ hn₃) hn)
      rw [bind_assoc] at happly
      exact happly
  | update target op isBefore position =>
    refine (hgo.resolvePlace target).bind fun _ place _ hplace =>
      place.heeds_read.bind fun n₂ v hn₂ _ => ?_
    refine (Run.Heeds.ofExcept_any _).bind fun n₃ old hn₃ _ => ?_
    exact place.heeds_store (fun o name heq => A.mono (Nat.le_trans hn₂ hn₃) (hplace o name heq))
      (.of_not_object rfl) (.of_not_object rfl)
  | call callee arguments position =>
    exact (hgo.evalCallee callee).bind fun _ f _ hf =>
      (hgo.evalAll arguments).bind fun _ values hn hvalues =>
        hgo.call limit f.1 position (hf.mono hn) hvalues
  | member object property position =>
    exact (hgo.eval object).bind fun _ v _ _ => .property v property position
  | object fields position =>
    refine Run.Heeds.newObject.bind fun _ object _ hobject =>
      (hgo.evalFields hobject fields).bind fun _ _ hn _ => .pure fun _ hle o ho => ?_
    cases ho
    exact A.mono (Nat.le_trans hn hle) hobject
  | function definition => exact .makeClosure definition definition.name?

/-! ### Statements -/

theorem execRule (s : Stmt) : Run.Heeds A n (go.execRule s) A.AllowsEnd := by
  cases s with
  | «variable» name type? value? position =>
    have hdefine : ∀ {n} value, A.Allows n value →
        Run.Heeds A n (do Run.define name value; return Completion.normal) A.AllowsEnd :=
      fun value hvalue => (Run.Heeds.define name hvalue).bind fun _ _ _ _ => normal
    cases value? with
    | none => exact hdefine .undefined (.of_not_object rfl)
    | some e => exact (hgo.evalNamed e name).bind fun _ value _ hvalue => hdefine value hvalue
  | function definition => exact normal
  | interface declaration => exact normal
  | expression e position => exact (hgo.eval e).bind fun _ _ _ _ => normal
  | giveBack value? position =>
    cases value? with
    | none => exact gaveBack (.of_not_object rfl)
    | some e => exact (hgo.eval e).bind fun _ _ _ hv => gaveBack hv
  | branch condition body otherwise? position =>
    refine (hgo.evalCondition condition).bind fun _ holds _ _ => ?_
    cases holds with
    | true => exact hgo.execBlock body
    | false =>
      cases otherwise? with
      | none => exact normal
      | some otherwise => exact hgo.exec otherwise
  | block b => exact hgo.execBlock b
  | loop init? condition? update? body position =>
    refine Run.Heeds.newChild.bind fun _ f _ _ => ?_
    cases init? with
    | none => exact hgo.loop f condition? update? body
    | some init =>
      exact ((hgo.exec init).inFrame f).bind fun _ _ _ _ => hgo.loop f condition? update? body
  | repeatWhile condition body position => exact hgo.repeatWhile condition body

/-- What comes of a round of a loop: an end that is allowed, or one more round. -/
theorem loopRound (f : FrameId) (condition? update? : Option Expr) (body : Block) :
    Run.Heeds A n (go.loopRound f condition? update? body) fun n' next =>
      ∀ completion, next = .inl completion → A.AllowsEnd n' completion := by
  have hgoesOn : ∀ {n}, Run.Heeds A n (go.goesOn condition?) fun _ _ => True := by
    intro n
    cases condition? with
    | none => exact .pure fun _ _ => trivial
    | some condition => exact hgo.evalCondition condition
  rw [loopRound_eq]
  refine (hgoesOn.inFrame f).bind fun _ begins _ _ => ?_
  cases begins with
  | false =>
    exact .pure fun _ _ _ heq => by
      cases heq
      exact fun _ hv => nomatch hv
  | true =>
    refine ((hgo.execBlock body).inFrame f).bind fun _ completion _ hcompletion => ?_
    cases completion with
    | gaveBack value =>
      exact .pure fun _ hle _ heq v hv => by
        cases heq
        exact (hcompletion v hv).mono hle
    | normal =>
      -- a copied frame holds the values of the frame before
      have hfork : ∀ {n}, Run.Heeds A n (make (·.fork f)) fun _ _ => True :=
        .make (fun _ => rfl) fun _ _ hs => hs.fork f
      refine hfork.bind fun _ next _ _ => ?_
      cases update? with
      | none => exact .pure fun _ _ _ heq => nomatch heq
      | some update =>
        exact ((hgo.eval update).inFrame next).bind fun _ _ _ _ =>
          .pure fun _ _ _ heq => nomatch heq

theorem whileRound (condition : Expr) (body : Block) :
    Run.Heeds A n (go.whileRound condition body) fun n' next =>
      ∀ completion, next = some completion → A.AllowsEnd n' completion := by
  refine (hgo.evalCondition condition).bind fun _ holds _ _ => ?_
  cases holds with
  | false =>
    exact .pure fun _ _ _ heq => by
      cases heq
      exact fun _ hv => nomatch hv
  | true =>
    refine (hgo.execBlock body).bind fun _ completion _ hcompletion => ?_
    cases completion with
    | gaveBack value =>
      exact .pure fun _ hle _ heq v hv => by
        cases heq
        exact (hcompletion v hv).mono hle
    | normal => exact .pure fun _ _ _ heq => nomatch heq

theorem withRules (limit : Nat) :
    (go.withRules (go.evalRule limit) go.execRule).Heeds A where
  eval := hgo.evalRule limit
  exec := hgo.execRule
  loop f condition? update? body := by
    refine (hgo.loopRound f condition? update? body).bind fun _ next _ hnext => ?_
    cases next with
    | inl completion => exact .pure fun _ hle v hv => (hnext completion rfl v hv).mono hle
    | inr next => exact hgo.loop next condition? update? body
  repeatWhile condition body := by
    refine (hgo.whileRound condition body).bind fun _ completion? _ hnext => ?_
    cases completion? with
    | some completion => exact .pure fun _ hle v hv => (hnext completion rfl v hv).mono hle
    | none => exact hgo.repeatWhile condition body

end Evaluator.Heeds

/-- All that is run keeps to every admission. -/
theorem evaluator_heeds (A : Admission) (limit fuel : Nat) : (evaluator limit fuel).Heeds A := by
  induction fuel with
  | zero => exact ⟨fun _ => .throw _, fun _ => .throw _, fun _ _ _ _ => .throw _,
      fun _ _ => .throw _⟩
  | succ fuel ih => exact ih.withRules limit

end TypedScript
