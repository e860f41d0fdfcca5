import TypedScript.Execution
import TypedScript.Proofs.LoopForms

/-!
# Programs without types

A run never looks at a type. A program without types (`Program.untyped`) has the
annotations of its variables, parameters and results removed and its interfaces
dropped; the marks of optional parameters stay, as they say how many arguments a
call has to give. The two programs run alike (`Program.run_untyped_iff`).

The frames and objects of the two runs are the same. What differs are the functions
in the store, whose definitions have types in one run and none in the other, so the
machine of the second run is `Machine.untyped` of that of the first one. A dropped
interface would have taken one unit of fuel. So two runs `Erase` each other only up to
the fuel, which may be too little on one side: on that of the program with types if
both have the same fuel, and on the other one if the program with types has one unit
more.
-/

namespace TypedScript

/-! ## Trees without types -/

/-- A parameter without its type. -/
def Parameter.untyped (param : Parameter) : Parameter :=
  { param with type? := none }

mutual

/-- An expression without types. -/
def Expr.untyped : Expr → Expr
  | .literal value position => .literal value position
  | .reference name position => .reference name position
  | .receiver position => .receiver position
  | .unary op operand position => .unary op operand.untyped position
  | .binary left op right position => .binary left.untyped op right.untyped position
  | .assign target op? value position => .assign target.untyped op? value.untyped position
  | .update target op isBefore position => .update target.untyped op isBefore position
  | .call callee arguments position => .call callee.untyped (untypedEach arguments) position
  | .member object property position => .member object.untyped property position
  | .object fields position => .object (untypedFields fields) position
  | .function definition => .function definition.untyped

/-- Expressions without types. -/
def untypedEach : List Expr → List Expr
  | [] => []
  | e :: rest => e.untyped :: untypedEach rest

/-- An expression that may be missing, without types. -/
def untypedOption : Option Expr → Option Expr
  | none => none
  | some e => some e.untyped

/-- A property of an object literal without types. -/
def Field.untyped : Field → Field
  | ⟨name, value, position⟩ => ⟨name, value.untyped, position⟩

/-- The properties of an object literal without types. -/
def untypedFields : List Field → List Field
  | [] => []
  | field :: rest => field.untyped :: untypedFields rest

/-- A function without the types of its parameters and its result. -/
def Function.untyped : Function → Function
  | ⟨name?, params, _, body, position⟩ =>
    ⟨name?, params.map (·.untyped), none, body.untyped, position⟩

/-- A block without types. -/
def Block.untyped : Block → Block
  | ⟨statements, position⟩ => ⟨untypedRow statements, position⟩

/-- A statement without types. Nothing is left of an interface. -/
def Stmt.untyped? : Stmt → Option Stmt
  | .variable name _ value? position =>
    some (.variable name none (untypedOption value?) position)
  | .function definition => some (.function definition.untyped)
  | .interface _ => none
  | .expression e position => some (.expression e.untyped position)
  | .giveBack value? position => some (.giveBack (untypedOption value?) position)
  | .branch condition body none position =>
    some (.branch condition.untyped body.untyped none position)
  | .branch condition body (some otherwise) position =>
    some (.branch condition.untyped body.untyped otherwise.untyped? position)
  | .block b => some (.block b.untyped)
  | .loop none condition? update? body position =>
    some (.loop none (untypedOption condition?) (untypedOption update?) body.untyped position)
  | .loop (some init) condition? update? body position =>
    some (.loop init.untyped? (untypedOption condition?) (untypedOption update?) body.untyped
      position)
  | .repeatWhile condition body position =>
    some (.repeatWhile condition.untyped body.untyped position)

/-- Statements without types and without interfaces. -/
def untypedRow : List Stmt → List Stmt
  | [] => []
  | s :: rest =>
    match s.untyped? with
    | none => untypedRow rest
    | some s => s :: untypedRow rest

end

/-- A program without types and without interfaces. -/
def Program.untyped (program : Program) : Program :=
  ⟨untypedRow program.statements⟩

theorem Expr.position_untyped (e : Expr) : e.untyped.position = e.position := by
  cases e with
  | function definition => obtain ⟨name?, params, result?, body, position⟩ := definition; rfl
  | _ => rfl

/-- The types of parameters do not say whether they may be missing. -/
theorem Function.requiredCount_untyped (f : Function) :
    f.untyped.requiredCount = f.requiredCount := by
  obtain ⟨name?, params, result?, body, position⟩ := f
  rw [Function.untyped, requiredCount, ← List.map_reverse, List.dropWhile_map, List.length_map]
  rfl

/-! ## Machines without types -/

/-- A function of the store without types. -/
def Closure.untyped (c : Closure) : Closure :=
  { c with definition := c.definition.untyped }

/-- A store whose functions have no types. -/
def Store.untyped (s : Store) : Store :=
  { s with closures := s.closures.map (·.untyped) }

/-- A machine whose functions have no types. -/
def Machine.untyped (m : Machine) : Machine :=
  { m with store := m.store.untyped }

/-- A function takes as many arguments without types as with them. -/
theorem Closure.arity_untyped (c : Closure) : c.untyped.arity = c.arity := by
  unfold Closure.arity Closure.untyped
  rw [Function.requiredCount_untyped]
  obtain ⟨⟨name?, params, result?, body, position⟩, frame, name?'⟩ := c
  rw [Function.untyped, List.length_map]

namespace Store

theorem closure?_untyped (s : Store) (id : ClosureId) :
    s.untyped.closure? id = (s.closure? id).map (·.untyped) :=
  Array.getElem?_map

/-- The text of a value does not show types. -/
theorem textOf_untyped (s : Store) (v : Value) : s.untyped.textOf v = s.textOf v := by
  refine textOf_congr (s := s.untyped) (t := s) rfl (fun id => ?_) v
  rw [closure?_untyped]
  cases s.closure? id <;> rfl

theorem lookup?_untyped (s : Store) (f : FrameId) (name : String) :
    s.untyped.lookup? f name = s.lookup? f name :=
  lookup?_congr (s := s.untyped) (t := s) rfl f name

theorem owner?_untyped (s : Store) (f : FrameId) (name : String) :
    s.untyped.owner? f name = s.owner? f name :=
  owner?_congr (s := s.untyped) (t := s) rfl f name

theorem receiver?_untyped (s : Store) (f : FrameId) : s.untyped.receiver? f = s.receiver? f :=
  receiver?_congr (s := s.untyped) (t := s) rfl f

theorem apply_untyped (s : Store) (op : BinaryOp) (a b : Value) (position : Position) :
    Operation.apply s.untyped op a b position = Operation.apply s op a b position := by
  cases op
  -- addition is the only operator that shows a value as text
  case add =>
    unfold Operation.apply Operation.add
    rw [textOf_untyped, textOf_untyped]
  all_goals rfl

theorem newClosure_untyped (s : Store) (c : Closure) :
    s.untyped.newClosure c.untyped = ((s.newClosure c).1, (s.newClosure c).2.untyped) := by
  unfold newClosure untyped
  simp only [Array.size_map, Array.map_push]

theorem bindParameters_untyped (s : Store) (f : FrameId) (params : List Parameter)
    (values : List Value) :
    Evaluator.bindParameters s.untyped f (params.map (·.untyped)) values =
      (Evaluator.bindParameters s f params values).untyped := by
  induction params generalizing s values with
  | nil => rfl
  | cons param rest ih =>
    cases values with
    | nil => exact ih (s.define f param.name .undefined) []
    | cons value values => exact ih (s.define f param.name value) values

end Store

theorem Machine.initial_untyped : Machine.initial.untyped = Machine.initial := by
  -- all functions that are there at the start are native
  have hnone : Machine.initial.store.closures = #[] := by decide +kernel
  unfold Machine.untyped Store.untyped
  rw [hnone, Array.map_empty, ← hnone]

/-! ## Runs with and without types -/

/-- Which of two runs may have too little fuel. -/
inductive Shortage where
  | withTypes
  | withoutTypes

namespace Run

variable {α β : Type} {short : Shortage}

/-- The end of a run, on a machine without types. -/
def withoutTypes : EStateM.Result Halt Machine α → EStateM.Result Halt Machine α
  | .ok a m => .ok a m.untyped
  | .error halt m => .error halt m.untyped

/-- A run ends for want of fuel. -/
def FallsShort (x : Run α) (m : Machine) : Prop :=
  ∃ m', x m = .error .outOfFuel m'

/-- The second run, on a machine without types, ends as the first one does, unless the
one that may have too little fuel has. -/
def Erases (short : Shortage) (x y : Run α) : Prop :=
  ∀ m, y m.untyped = withoutTypes (x m) ∨
    match short with
    | .withTypes => FallsShort x m
    | .withoutTypes => FallsShort y m.untyped

theorem FallsShort.bind {x : Run α} {m : Machine} (h : FallsShort x m) (f : α → Run β) :
    FallsShort (x >>= f) m := by
  obtain ⟨m', h⟩ := h
  exact ⟨m', bind_of_error h⟩

theorem FallsShort.inFrame {f : FrameId} {x : Run α} {m : Machine}
    (h : FallsShort x { m with frame := f }) : FallsShort (Run.inFrame f x) m := by
  obtain ⟨m', h⟩ := h
  exact ⟨_, inFrame_of_error h⟩

theorem FallsShort.deeper {x : Run α} {m : Machine}
    (h : FallsShort x { m with depth := m.depth + 1 }) : FallsShort (Run.deeper x) m := by
  obtain ⟨m', h⟩ := h
  exact ⟨_, deeper_of_error h⟩

namespace Erases

theorem of_eq {x y : Run α} (h : ∀ m, y m.untyped = withoutTypes (x m)) : Erases short x y :=
  fun m => .inl (h m)

theorem pure (a : α) : Erases short (Pure.pure a) (Pure.pure a) :=
  of_eq fun _ => rfl

theorem throw (halt : Halt) :
    Erases short (MonadExcept.throw halt : Run α) (MonadExcept.throw halt) :=
  of_eq fun _ => rfl

theorem bind {x y : Run α} {f g : α → Run β} (hxy : Erases short x y)
    (hfg : ∀ a, Erases short (f a) (g a)) : Erases short (x >>= f) (y >>= g) := by
  intro m
  rcases hxy m with heq | hshort
  · cases hx : x m with
    | ok a m' =>
      -- both runs go on with the same value, the second one on the machine without types
      have hleft : (x >>= f) m = f a m' := bind_of_ok hx
      have hright : (y >>= g) m.untyped = g a m'.untyped :=
        bind_of_ok (heq.trans (congrArg withoutTypes hx))
      refine (hfg a m').imp (fun h => hright.trans (h.trans (hleft ▸ rfl))) fun h => ?_
      unfold FallsShort at h ⊢
      rwa [hleft, hright]
    | error halt m' =>
      -- the first run may have too little fuel as well, but then both end alike
      refine .inl ?_
      rw [bind_of_error hx]
      exact bind_of_error (heq.trans (congrArg withoutTypes hx))
  · -- a run that falls short in its first part falls short as a whole
    refine .inr ?_
    cases short with
    | withTypes => exact hshort.bind f
    | withoutTypes => exact hshort.bind g

theorem ofExcept (e : Except RuntimeFault α) :
    Erases short (Run.ofExcept e) (Run.ofExcept e) := by
  cases e with
  | ok a => exact pure a
  | error fault => exact throw _

theorem fail (cause : RuntimeCause) (position : Position) :
    Erases short (Run.fail cause position : Run α) (Run.fail cause position) :=
  throw _

/-- A question whose answer has nothing to do with types. -/
theorem ask {question : Store → α} (h : ∀ s : Store, question s.untyped = question s) :
    Erases short (Run.ask question) (Run.ask question) :=
  of_eq fun m => congrArg (EStateM.Result.ok · m.untyped) (h m.store)

theorem frame : Erases short Run.frame Run.frame :=
  of_eq fun _ => rfl

theorem change {f g : Store → Store} (h : ∀ s : Store, g s.untyped = (f s).untyped) :
    Erases short (Run.change f) (Run.change g) :=
  of_eq fun m =>
    congrArg (fun s => (.ok () { m with store := s } : EStateM.Result Halt Machine Unit))
      (h m.store)

theorem make {f g : Store → α × Store}
    (h : ∀ s : Store, g s.untyped = ((f s).1, (f s).2.untyped)) :
    Erases short (Run.make f) (Run.make g) :=
  of_eq fun m => congrArg (fun made : α × Store =>
    (.ok made.1 { m with store := made.2 } : EStateM.Result Halt Machine α)) (h m.store)

theorem emit (line : String) : Erases short (Run.emit line) (Run.emit line) :=
  of_eq fun _ => rfl

theorem inFrame (f : FrameId) {x y : Run α} (h : Erases short x y) :
    Erases short (Run.inFrame f x) (Run.inFrame f y) := by
  intro m
  rcases h { m with frame := f } with heq | hshort
  · refine .inl ?_
    cases hx : x { m with frame := f } with
    | ok a m' =>
      rw [inFrame_of_ok hx]
      exact inFrame_of_ok (m := m.untyped) (heq.trans (congrArg withoutTypes hx))
    | error halt m' =>
      rw [inFrame_of_error hx]
      exact inFrame_of_error (m := m.untyped) (heq.trans (congrArg withoutTypes hx))
  · refine .inr ?_
    cases short with
    | withTypes => exact FallsShort.inFrame hshort
    | withoutTypes => exact FallsShort.inFrame (m := m.untyped) hshort

theorem deeper {x y : Run α} (h : Erases short x y) :
    Erases short (Run.deeper x) (Run.deeper y) := by
  intro m
  rcases h { m with depth := m.depth + 1 } with heq | hshort
  · refine .inl ?_
    cases hx : x { m with depth := m.depth + 1 } with
    | ok a m' =>
      rw [deeper_of_ok hx]
      exact deeper_of_ok (m := m.untyped) (heq.trans (congrArg withoutTypes hx))
    | error halt m' =>
      rw [deeper_of_error hx]
      exact deeper_of_error (m := m.untyped) (heq.trans (congrArg withoutTypes hx))
  · refine .inr ?_
    cases short with
    | withTypes => exact FallsShort.deeper hshort
    | withoutTypes => exact FallsShort.deeper (m := m.untyped) hshort

/-- What depends on the depth of calls only. -/
theorem atDepth {f g : Machine → Run α} (h : ∀ m, Erases short (f m) (g m.untyped)) :
    Erases short (MonadState.get >>= f) (MonadState.get >>= g) :=
  fun m => h m m

/-- What is done with a function of the store. -/
theorem withClosure (id : ClosureId) {f g : Option Closure → Run α}
    (h : ∀ c?, Erases short (f c?) (g (c?.map (·.untyped)))) :
    Erases short (Run.ask (·.closure? id) >>= f) (Run.ask (·.closure? id) >>= g) := by
  intro m
  have hleft : (Run.ask (·.closure? id) >>= f) m = f (m.store.closure? id) m := rfl
  have hright : (Run.ask (·.closure? id) >>= g) m.untyped =
      g ((m.store.closure? id).map (·.untyped)) m.untyped := by
    rw [← Store.closure?_untyped]
    rfl
  refine (h (m.store.closure? id) m).imp (fun h => hright.trans (h.trans (hleft ▸ rfl))) fun h => ?_
  unfold FallsShort at h ⊢
  rwa [hleft, hright]

/-! ### Actions on the store -/

theorem newChild : Erases short Run.newChild Run.newChild :=
  frame.bind fun _ => make fun _ => rfl

theorem lookup (name : String) (position : Position) :
    Erases short (Run.lookup name position) (Run.lookup name position) := by
  refine frame.bind fun f => (ask fun s => s.lookup?_untyped f name).bind fun value? => ?_
  cases value? with
  | some value => exact pure value
  | none => exact fail _ _

theorem receiver (position : Position) :
    Erases short (Run.receiver position) (Run.receiver position) := by
  refine frame.bind fun f => (ask fun s => s.receiver?_untyped f).bind fun value? => ?_
  cases value? with
  | some value => exact pure value
  | none => exact fail _ _

theorem define (name : String) (value : Value) :
    Erases short (Run.define name value) (Run.define name value) :=
  frame.bind fun _ => change fun _ => rfl

theorem assign (name : String) (value : Value) (position : Position) :
    Erases short (Run.assign name value position) (Run.assign name value position) := by
  refine frame.bind fun f => (ask fun s => s.owner?_untyped f name).bind fun owner? => ?_
  cases owner? with
  | some owner => exact change fun _ => rfl
  | none => exact fail _ _

theorem makeClosure (definition : Function) (name? : Option String) :
    Erases short (Run.makeClosure definition name?)
      (Run.makeClosure definition.untyped name?) :=
  frame.bind fun f => (make fun s => s.newClosure_untyped ⟨definition, f, name?⟩).bind fun _ =>
    pure _

theorem property (v : Value) (name : String) (position : Position) :
    Erases short (Run.property v name position) (Run.property v name position) :=
  (ask fun _ => rfl).bind fun _ => ofExcept _

theorem apply (op : BinaryOp) (a b : Value) (position : Position) :
    Erases short (do Run.ofExcept (← Run.ask (Operation.apply · op a b position)))
      (do Run.ofExcept (← Run.ask (Operation.apply · op a b position))) :=
  (ask fun s => s.apply_untyped op a b position).bind fun _ => ofExcept _

theorem setProperty (o : ObjectId) (name : String) (value : Value) :
    Erases short (Run.change (·.setProperty o name value))
      (Run.change (·.setProperty o name value)) :=
  change fun _ => rfl

theorem read (place : Place) : Erases short place.read place.read := by
  cases place with
  | «variable» name position => exact lookup name position
  | property object name => exact (ask fun _ => rfl).bind fun _ => pure _

theorem write (place : Place) (value : Value) :
    Erases short (place.write value) (place.write value) := by
  cases place with
  | «variable» name position => exact assign name value position
  | property object name => exact setProperty object name value

end Erases

end Run

/-! ## Rules of evaluation -/

/-- The second evaluator does with a part without types what the first one does with
the part, up to a shortage of fuel. -/
structure Evaluator.Erases (short : Shortage) (go go' : Evaluator) : Prop where
  eval : ∀ e, Run.Erases short (go.eval e) (go'.eval e.untyped)
  exec : ∀ {s s'}, s.untyped? = some s' → Run.Erases short (go.exec s) (go'.exec s')
  /-- A statement of which nothing is left does nothing. -/
  skip : ∀ {s}, s.untyped? = none → Run.Erases short (go.exec s) (pure .normal)
  loop : ∀ f condition? update? body, Run.Erases short (go.loop f condition? update? body)
    (go'.loop f (untypedOption condition?) (untypedOption update?) body.untyped)
  repeatWhile : ∀ condition body, Run.Erases short (go.repeatWhile condition body)
    (go'.repeatWhile condition.untyped body.untyped)

namespace Evaluator.Erases

open Run

variable {short : Shortage} {go go' : Evaluator}

/-! ### Statements in a row -/

/-- No function is declared by a statement that does not declare one without types. -/
theorem hoist_cons {s s' : Stmt} (h : s.untyped? = some s') (rest rest' : List Stmt)
    (hrest : Run.Erases short (hoist rest) (hoist rest')) :
    Run.Erases short (hoist (s :: rest)) (hoist (s' :: rest')) := by
  cases s with
  | function definition =>
    obtain ⟨name?, params, result?, body, position⟩ := definition
    cases h
    rw [hoist, hoist, Function.untyped]
    cases name? with
    | none => exact (Run.Erases.pure PUnit.unit).bind fun _ => hrest
    | some name =>
      exact (Run.Erases.makeClosure _ (some name)).bind fun value =>
        (Run.Erases.define name value).bind fun _ => hrest
  | branch condition body otherwise? position => cases otherwise? <;> cases h <;> exact hrest
  | loop init? condition? update? body position => cases init? <;> cases h <;> exact hrest
  | _ => cases h <;> exact hrest

theorem hoist (l : List Stmt) : Run.Erases short (hoist l) (Evaluator.hoist (untypedRow l)) := by
  induction l with
  | nil => exact .pure _
  | cons s rest ih =>
    rw [untypedRow]
    cases h : s.untyped? with
    | some s' => exact hoist_cons h rest _ ih
    | none =>
      -- only an interface leaves nothing behind, and it declares no function
      cases s with
      | interface declaration => exact ih
      | branch condition body otherwise? position => cases otherwise? <;> cases h
      | loop init? condition? update? body position => cases init? <;> cases h
      | _ => cases h

variable (hgo : Evaluator.Erases short go go')

include hgo in
theorem execEach (l : List Stmt) :
    Run.Erases short (go.execEach l) (go'.execEach (untypedRow l)) := by
  induction l with
  | nil => exact .pure _
  | cons s rest ih =>
    have hnext : ∀ completion, Run.Erases short (go.goOn rest completion)
        (go'.goOn (untypedRow rest) completion) := by
      intro completion
      cases completion with
      | normal => exact ih
      | gaveBack value => exact .pure _
    rw [untypedRow, Evaluator.execEach_cons]
    cases h : s.untyped? with
    | some s' =>
      rw [Evaluator.execEach_cons]
      exact (hgo.exec h).bind hnext
    | none => exact (hgo.skip h).bind hnext

include hgo in
theorem execStatements (l : List Stmt) :
    Run.Erases short (go.execStatements l) (go'.execStatements (untypedRow l)) :=
  (hoist l).bind fun _ => hgo.execEach l

include hgo in
theorem execBlock (b : Block) : Run.Erases short (go.execBlock b) (go'.execBlock b.untyped) := by
  obtain ⟨statements, position⟩ := b
  rw [Block.untyped]
  exact Run.Erases.newChild.bind fun f => .inFrame f (hgo.execStatements statements)

/-! ### Calls -/

theorem requireArity (arity : Arity) (count : Nat) (position : Position) :
    Run.Erases short (requireArity arity count position)
      (Evaluator.requireArity arity count position) := by
  unfold Evaluator.requireArity
  split
  · exact .pure _
  · exact .fail _ _

include hgo in
theorem enterClosure (c : Closure) (receiver? : Option Value) (arguments : List Value) :
    Run.Erases short (go.enterClosure c receiver? arguments)
      (go'.enterClosure c.untyped receiver? arguments) := by
  obtain ⟨⟨name?, params, result?, ⟨statements, position⟩, position'⟩, frame, name?'⟩ := c
  unfold Closure.untyped
  rw [Function.untyped, Block.untyped]
  refine Run.Erases.bind (.make fun _ => rfl) fun f => ?_
  refine Run.Erases.bind (.change fun s => s.bindParameters_untyped f params arguments) fun _ => ?_
  refine Run.Erases.bind (.deeper (.inFrame f (hgo.execStatements statements)))
    fun completion => ?_
  cases completion <;> exact .pure _

include hgo in
theorem callClosure (limit : Nat) (c : Closure) (receiver? : Option Value)
    (arguments : List Value) (position : Position) :
    Run.Erases short (go.callClosure limit c receiver? arguments position)
      (go'.callClosure limit c.untyped receiver? arguments position) := by
  rw [callClosure_eq, callClosure_eq, Closure.arity_untyped]
  refine (requireArity c.arity arguments.length position).bind fun _ => .atDepth fun m => ?_
  -- both calls are refused at the same depth
  have hdepth : m.untyped.depth = m.depth := rfl
  rw [hdepth]
  split
  · exact .fail _ _
  · exact hgo.enterClosure c receiver? arguments

include hgo in
theorem call (limit : Nat) (f : Value) (receiver? : Option Value) (arguments : List Value)
    (position : Position) :
    Run.Erases short (go.call limit f receiver? arguments position)
      (go'.call limit f receiver? arguments position) := by
  unfold Evaluator.call
  cases f with
  | native f =>
    refine (requireArity f.arity arguments.length position).bind fun _ => ?_
    cases f
    -- the line is made of the texts of the arguments, and these show no types
    refine (Run.Erases.ask fun s => ?_).bind fun line =>
      (Run.Erases.emit line).bind fun _ => .pure _
    exact congrArg (String.intercalate " ") (List.map_congr_left fun v _ => s.textOf_untyped v)
  | closure id =>
    refine .withClosure id fun c? => ?_
    cases c? with
    | some c => exact hgo.callClosure limit c receiver? arguments position
    | none => exact .fail _ _
  | _ => exact .fail _ _

/-! ### Expressions -/

include hgo in
theorem evalNamed (e : Expr) (name : String) :
    Run.Erases short (go.evalNamed e name) (go'.evalNamed e.untyped name) := by
  cases e with
  | function definition =>
    obtain ⟨name?, params, result?, body, position⟩ := definition
    cases name? with
    | none => exact .makeClosure _ (some name)
    -- a function keeps its own name
    | some _ => exact hgo.eval _
  | _ => exact hgo.eval _

include hgo in
theorem evalCondition (e : Expr) :
    Run.Erases short (go.evalCondition e) (go'.evalCondition e.untyped) := by
  unfold Evaluator.evalCondition
  rw [Expr.position_untyped]
  exact (hgo.eval e).bind fun _ => .ofExcept _

include hgo in
theorem resolvePlace (target : Expr) :
    Run.Erases short (go.resolvePlace target) (go'.resolvePlace target.untyped) := by
  cases target with
  | reference name position => exact .pure _
  | member object property position =>
    exact (hgo.eval object).bind fun _ => (Run.Erases.ofExcept _).bind fun _ => .pure _
  | function definition =>
    -- the position of the fault is that of the function, which stays
    obtain ⟨name?, params, result?, body, position⟩ := definition
    exact .fail _ _
  | _ => exact .fail _ _

include hgo in
theorem evalEach (l : List Expr) :
    Run.Erases short (l.mapM go.eval) ((untypedEach l).mapM go'.eval) := by
  induction l with
  | nil => exact .pure _
  | cons e rest ih =>
    rw [untypedEach, List.mapM_cons, List.mapM_cons]
    exact (hgo.eval e).bind fun _ => ih.bind fun _ => .pure _

include hgo in
theorem evalCallee (callee : Expr) :
    Run.Erases short (go.evalCallee callee) (go'.evalCallee callee.untyped) := by
  cases callee with
  | member object property position =>
    exact (hgo.eval object).bind fun v => (Run.Erases.property v property position).bind fun _ =>
      .pure _
  | _ => exact (hgo.eval _).bind fun _ => .pure _

include hgo in
theorem evalFields (object : ObjectId) (fields : List Field) :
    Run.Erases short (go.evalFields object fields)
      (go'.evalFields object (untypedFields fields)) := by
  induction fields with
  | nil => exact .pure _
  | cons field rest ih =>
    obtain ⟨name, value, position⟩ := field
    exact (hgo.evalNamed value name).bind fun v =>
      (Run.Erases.setProperty object name v).bind fun _ => ih

include hgo in
theorem evalLogic (op : BinaryOp) (left right : Expr) :
    Run.Erases short (go.evalLogic op left right)
      (go'.evalLogic op left.untyped right.untyped) := by
  refine (hgo.evalCondition left).bind fun first => ?_
  have hrest : ∀ decided : Bool, Run.Erases short
      (if decided then return Value.boolean first
        else return Value.boolean (← go.evalCondition right))
      (if decided then return Value.boolean first
        else return Value.boolean (← go'.evalCondition right.untyped)) := by
    intro decided
    cases decided with
    | true => exact .pure _
    | false => exact (hgo.evalCondition right).bind fun _ => .pure _
  exact hrest _

include hgo in
theorem evalBinary (op : BinaryOp) (left right : Expr) (position : Position) :
    Run.Erases short
      (do
        let a ← go.eval left
        let b ← go.eval right
        ofExcept (← ask (Operation.apply · op a b position)))
      (do
        let a ← go'.eval left.untyped
        let b ← go'.eval right.untyped
        ofExcept (← ask (Operation.apply · op a b position))) :=
  (hgo.eval left).bind fun a => (hgo.eval right).bind fun b => .apply op a b position

include hgo in
theorem evalRule (limit : Nat) (e : Expr) :
    Run.Erases short (go.evalRule limit e) (go'.evalRule limit e.untyped) := by
  cases e with
  | literal value position => exact .pure _
  | reference name position => exact .lookup name position
  | receiver position => exact .receiver position
  | unary op operand position =>
    refine (hgo.eval operand).bind fun v => ?_
    rw [Expr.position_untyped]
    cases op <;> exact (Run.Erases.ofExcept _).bind fun _ => .pure _
  | binary left op right position =>
    cases op
    case and => exact hgo.evalLogic .and left right
    case or => exact hgo.evalLogic .or left right
    all_goals exact hgo.evalBinary _ left right position
  | assign target op? value position =>
    refine (hgo.resolvePlace target).bind fun place => ?_
    have hwrite : ∀ result, Run.Erases short (do place.write result; return result)
        (do place.write result; return result) :=
      fun result => (Run.Erases.write place result).bind fun _ => .pure _
    cases op? with
    | none => exact (hgo.evalNamed value place.name).bind hwrite
    | some op =>
      refine (Run.Erases.read place).bind fun current => (hgo.eval value).bind fun operand => ?_
      exact (Run.Erases.ask fun s => s.apply_untyped op current operand position).bind fun _ =>
        (Run.Erases.ofExcept _).bind hwrite
  | update target op isBefore position =>
    refine (hgo.resolvePlace target).bind fun place => (Run.Erases.read place).bind fun v => ?_
    refine (Run.Erases.ofExcept _).bind fun old => ?_
    exact (Run.Erases.write place _).bind fun _ => .pure _
  | call callee arguments position =>
    exact (hgo.evalCallee callee).bind fun f => (hgo.evalEach arguments).bind fun values =>
      hgo.call limit f.1 f.2 values position
  | member object property position =>
    exact (hgo.eval object).bind fun v => .property v property position
  | object fields position =>
    exact (Run.Erases.make fun _ => rfl).bind fun object =>
      (hgo.evalFields object fields).bind fun _ => .pure _
  | function definition =>
    obtain ⟨name?, params, result?, body, position⟩ := definition
    exact .makeClosure _ name?

/-! ### Statements -/

include hgo in
theorem execBranch {otherwise otherwise' : Run Completion} (condition : Expr) (body : Block)
    (h : Run.Erases short otherwise otherwise') :
    Run.Erases short
      (do if ← go.evalCondition condition then go.execBlock body else otherwise)
      (do if ← go'.evalCondition condition.untyped then go'.execBlock body.untyped
          else otherwise') := by
  refine (hgo.evalCondition condition).bind fun goesOn => ?_
  cases goesOn with
  | true => exact hgo.execBlock body
  | false => exact h

include hgo in
theorem execLoop (init : Stmt) (condition? update? : Option Expr) (body : Block) (f : FrameId) :
    Run.Erases short
      (do
        let _ ← inFrame f (go.exec init)
        go.loop f condition? update? body)
      (do
        if let some init := init.untyped? then
          let _ ← inFrame f (go'.exec init)
        go'.loop f (untypedOption condition?) (untypedOption update?) body.untyped) := by
  have hloop := hgo.loop f condition? update? body
  cases h : init.untyped? with
  | some init' => exact ((hgo.exec h).inFrame f).bind fun _ => hloop
  | none => exact ((hgo.skip h).inFrame f).bind fun _ => hloop

include hgo in
theorem execRule {s s' : Stmt} (h : s.untyped? = some s') :
    Run.Erases short (go.execRule s) (go'.execRule s') := by
  cases s with
  | «variable» name type? value? position =>
    cases h
    have hdefine : ∀ value, Run.Erases short
        (do Run.define name value; return Completion.normal)
        (do Run.define name value; return Completion.normal) :=
      fun value => (Run.Erases.define name value).bind fun _ => .pure _
    cases value? with
    | none => exact hdefine .undefined
    | some e => exact (hgo.evalNamed e name).bind hdefine
  | function definition => cases h; exact .pure _
  -- of an interface nothing is left
  | interface declaration => cases h
  | expression e position => cases h; exact (hgo.eval e).bind fun _ => .pure _
  | giveBack value? position =>
    cases h
    cases value? with
    | none => exact .pure _
    | some e => exact (hgo.eval e).bind fun _ => .pure _
  | branch condition body otherwise? position =>
    cases otherwise? with
    | none => cases h; exact hgo.execBranch condition body (.pure _)
    | some otherwise =>
      cases h
      cases hotherwise : otherwise.untyped? with
      | some otherwise' => exact hgo.execBranch condition body (hgo.exec hotherwise)
      | none => exact hgo.execBranch condition body (hgo.skip hotherwise)
  | block b => cases h; exact hgo.execBlock b
  | loop init? condition? update? body position =>
    cases init? with
    | none => cases h; exact Run.Erases.newChild.bind fun f => hgo.loop f condition? update? body
    | some init =>
      cases h
      exact Run.Erases.newChild.bind fun f => hgo.execLoop init condition? update? body f
  | repeatWhile condition body position => cases h; exact hgo.repeatWhile condition body

theorem skipRule {s : Stmt} (h : s.untyped? = none) :
    Run.Erases short (go.execRule s) (pure .normal) := by
  cases s with
  | interface declaration => exact .pure _
  | branch condition body otherwise? position => cases otherwise? <;> cases h
  | loop init? condition? update? body position => cases init? <;> cases h
  | _ => cases h

/-! ### Loops -/

include hgo in
theorem loopRound (f : FrameId) (condition? update? : Option Expr) (body : Block) :
    Run.Erases short (go.loopRound f condition? update? body)
      (go'.loopRound f (untypedOption condition?) (untypedOption update?) body.untyped) := by
  rw [loopRound_eq, loopRound_eq]
  have hgoesOn :
      Run.Erases short (go.goesOn condition?) (go'.goesOn (untypedOption condition?)) := by
    cases condition? with
    | none => exact .pure _
    | some condition => exact hgo.evalCondition condition
  refine (hgoesOn.inFrame f).bind fun goesOn => ?_
  cases goesOn with
  | false => exact .pure _
  | true =>
    refine ((hgo.execBlock body).inFrame f).bind fun completion => ?_
    cases completion with
    | gaveBack value => exact .pure _
    | normal =>
      refine Run.Erases.bind (.make fun _ => rfl) fun next => ?_
      cases update? with
      | none => exact .pure _
      | some update => exact ((hgo.eval update).inFrame next).bind fun _ => .pure _

include hgo in
theorem whileRound (condition : Expr) (body : Block) :
    Run.Erases short (go.whileRound condition body)
      (go'.whileRound condition.untyped body.untyped) := by
  refine (hgo.evalCondition condition).bind fun goesOn => ?_
  cases goesOn with
  | false => exact .pure _
  | true =>
    refine (hgo.execBlock body).bind fun completion => ?_
    cases completion <;> exact .pure _

/-! ### Any amount of fuel -/

/-- One more unit of fuel on both sides. -/
theorem next {limit fuel fuel' : Nat}
    (h : Evaluator.Erases short (evaluator limit fuel) (evaluator limit fuel')) :
    Evaluator.Erases short (evaluator limit (fuel + 1)) (evaluator limit (fuel' + 1)) where
  eval e := h.evalRule limit e
  exec hs := h.execRule hs
  skip hs := skipRule hs
  loop f condition? update? body := by
    refine (h.loopRound f condition? update? body).bind fun next => ?_
    cases next with
    | inl completion => exact .pure _
    | inr next => exact h.loop next condition? update? body
  repeatWhile condition body := by
    refine (h.whileRound condition body).bind fun completion? => ?_
    cases completion? with
    | some completion => exact .pure _
    | none => exact h.repeatWhile condition body

/-- With the same fuel, only the program with types may have too little of it. -/
theorem same_fuel (limit fuel : Nat) :
    Evaluator.Erases .withTypes (evaluator limit fuel) (evaluator limit fuel) := by
  induction fuel with
  | zero =>
    exact ⟨fun _ m => .inr ⟨m, rfl⟩, fun _ m => .inr ⟨m, rfl⟩, fun _ m => .inr ⟨m, rfl⟩,
      fun _ _ _ _ m => .inr ⟨m, rfl⟩, fun _ _ m => .inr ⟨m, rfl⟩⟩
  | succ fuel ih => exact ih.next

/-- One unit of fuel is enough to pass over what is dropped, however often. -/
theorem less_fuel (limit fuel : Nat) :
    Evaluator.Erases .withoutTypes (evaluator limit (fuel + 1)) (evaluator limit fuel) := by
  induction fuel with
  | zero =>
    -- the one unit on the side with types is what an interface takes
    exact ⟨fun _ m => .inr ⟨m.untyped, rfl⟩, fun _ m => .inr ⟨m.untyped, rfl⟩, skipRule,
      fun _ _ _ _ m => .inr ⟨m.untyped, rfl⟩, fun _ _ m => .inr ⟨m.untyped, rfl⟩⟩
  | succ fuel ih => exact ih.next

end Evaluator.Erases

namespace Program

/-- The statements of a program under two evaluators that erase each other. -/
theorem exec_erases {short : Shortage} {limit fuel fuel' : Nat} (program : Program)
    (h : Evaluator.Erases short (evaluator limit fuel) (evaluator limit fuel')) :
    Run.Erases short (program.exec limit fuel) (program.untyped.exec limit fuel') :=
  (h.execStatements program.statements).bind fun _ => .pure _

/-- Runs that end alike but for the types of functions have the same outcome. -/
theorem run_untyped_of_exec {program : Program} {limit fuel fuel' : Nat}
    (h : program.untyped.exec limit fuel' Machine.initial.untyped =
      Run.withoutTypes (program.exec limit fuel Machine.initial)) :
    program.untyped.run limit fuel' = program.run limit fuel := by
  rw [Machine.initial_untyped] at h
  unfold run
  rw [h]
  cases program.exec limit fuel Machine.initial with
  | ok _ m => rfl
  | error halt m => cases halt <;> rfl

/-- A run for which the fuel is not enough has no outcome. -/
theorem run_of_fallsShort {program : Program} {limit fuel : Nat}
    (h : Run.FallsShort (program.exec limit fuel) Machine.initial) :
    program.run limit fuel = none := by
  obtain ⟨m, h⟩ := h
  unfold run
  rw [h]

/-- A program and the program without its types and interfaces run alike, under every
limit on the depth of calls: if one of them ends, so does the other one, with the same
lines and the same fault. -/
theorem run_untyped_iff (program : Program) (options : Options) (outcome : Outcome) :
    (∃ fuel, program.run options.maxDepth fuel = some outcome) ↔
      ∃ fuel, program.untyped.run options.maxDepth fuel = some outcome := by
  constructor
  · rintro ⟨fuel, hrun⟩
    rcases exec_erases program (.same_fuel options.maxDepth fuel) Machine.initial with heq | hshort
    · exact ⟨fuel, (run_untyped_of_exec heq).trans hrun⟩
    · rw [run_of_fallsShort hshort] at hrun
      cases hrun
  · rintro ⟨fuel, hrun⟩
    rcases exec_erases program (.less_fuel options.maxDepth fuel) Machine.initial with heq | hshort
    · -- the fuel of the program without types, and one unit for an interface
      exact ⟨fuel + 1, (run_untyped_of_exec heq).symm.trans hrun⟩
    · rw [Machine.initial_untyped] at hshort
      rw [run_of_fallsShort hshort] at hrun
      cases hrun

end Program

end TypedScript
