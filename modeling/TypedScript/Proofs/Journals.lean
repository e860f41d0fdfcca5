import TypedScript.Proofs.SimilarPrograms
import TypedScript.Proofs.WriteOrder

/-!
# Journals of runs

A `Run.Journal` of a run tells for each machine which properties the run writes, one write
after the other, and which frames and objects it makes, and it proves that it is complete:
the properties of each object behind the run are those before it with the noted writes made,
and the frames and objects behind it are those before it and the noted ones. This is so
however the run ends.

Most of what a run does by itself writes no property and makes nothing. A journal of a run
that is put together goes through its parts in their order, each from the machine that the
parts before it have left. So there is one journal for each rule of evaluation, and by
recursion on the fuel one for all that can be run (`evaluatorJournals`). The journals follow
the rules as these are written: a write is noted where a field of an object literal or the
value of an assignment or update to a property is stored, a frame where a block, a loop, its
next round or a call begins, an object where a literal does, and nothing anywhere else.
-/

namespace TypedScript

/-- A value is stored in a property of an object. -/
structure Write where
  object : ObjectId
  name : String
  value : Value

/-- What some writes put into one object. -/
def Write.entriesOn (o : ObjectId) (writes : List Write) : List (String × Value) :=
  writes.filterMap fun w => if w.object = o then some (w.name, w.value) else none

/-- Something that a run makes and that can be cleared in the end. -/
inductive Made where
  | frame (f : FrameId)
  | object (o : ObjectId)

/-- The frames among what is made. -/
def Made.frames (made : List Made) : List FrameId :=
  made.filterMap fun
    | .frame f => some f
    | .object _ => none

/-- The objects among what is made. -/
def Made.objects (made : List Made) : List ObjectId :=
  made.filterMap fun
    | .frame _ => none
    | .object o => some o

theorem Made.frames_append (made more : List Made) :
    frames (made ++ more) = frames made ++ frames more :=
  List.filterMap_append

theorem Made.objects_append (made more : List Made) :
    objects (made ++ more) = objects made ++ objects more :=
  List.filterMap_append

namespace Store

/-- The frames of a store, in the order in which they were made. -/
def allFrames (s : Store) : List FrameId :=
  (List.range s.frames.size).map .mk

/-- The objects of a store, in the order in which they were made. -/
def allObjects (s : Store) : List ObjectId :=
  (List.range s.objects.size).map .mk

/-- One store has the frames and the objects of another, and those that were made. -/
structure Gains (s t : Store) (made : List Made) : Prop where
  frames : t.allFrames = s.allFrames ++ Made.frames made
  objects : t.allObjects = s.allObjects ++ Made.objects made

theorem Gains.trans {s t u : Store} {made more : List Made} (h : s.Gains t made)
    (hmore : t.Gains u more) : s.Gains u (made ++ more) where
  frames := by rw [hmore.frames, h.frames, List.append_assoc, Made.frames_append]
  objects := by rw [hmore.objects, h.objects, List.append_assoc, Made.objects_append]

/-- Nothing is made where nothing becomes more. -/
theorem gains_of_size {s t : Store} (hframes : t.frames.size = s.frames.size)
    (hobjects : t.objects.size = s.objects.size) : s.Gains t [] where
  frames := by
    rw [allFrames, hframes]
    exact (List.append_nil _).symm
  objects := by
    rw [allObjects, hobjects]
    exact (List.append_nil _).symm

theorem gains_newFrame (s : Store) (frame : Frame) :
    s.Gains (s.newFrame frame).2 [.frame (s.newFrame frame).1] where
  frames := by
    unfold allFrames newFrame
    rw [Array.size_push, List.range_succ, List.map_append]
    rfl
  objects := (List.append_nil _).symm

theorem gains_newObject (s : Store) (properties : Record Value) :
    s.Gains (s.newObject properties).2 [.object (s.newObject properties).1] where
  frames := (List.append_nil _).symm
  objects := by
    unfold allObjects newObject
    rw [Array.size_push, List.range_succ, List.map_append]
    rfl

theorem size_frames_define (s : Store) (f : FrameId) (name : String) (value : Value) :
    (s.define f name value).frames.size = s.frames.size :=
  Array.size_modify

theorem size_frames_bindParameters (s : Store) (f : FrameId) (params : List Parameter)
    (values : List Value) :
    (Evaluator.bindParameters s f params values).frames.size = s.frames.size := by
  induction params generalizing s values with
  | nil => rfl
  | cons param rest ih =>
    cases values with
    | nil => exact (ih _ _).trans (s.size_frames_define f param.name .undefined)
    | cons value values => exact (ih _ _).trans (s.size_frames_define f param.name value)

end Store

/-- A new object without properties shows like an object that is not there. -/
theorem Store.properties_newObject_empty (s : Store) (o : ObjectId) :
    (s.newObject .empty).2.properties o = s.properties o := by
  rw [properties_newObject]
  split
  next ho => exact (properties_of_size_le (Nat.le_of_eq ho.symm)).symm
  next => rfl

/-! ## Journals -/

namespace Run

variable {α β : Type} {x y : Run α}

/-- What a run writes to the properties of objects, and what it makes. -/
structure Journal (x : Run α) where
  writes : Machine → List Write
  made : Machine → List Made
  complete : ∀ m o, (endOf x m).store.properties o =
    (m.store.properties o).setAll (Write.entriesOn o (writes m))
  gains : ∀ m : Machine, m.store.Gains (endOf x m).store (made m)

/-- A run in another frame ends with the store with which it would end by itself. -/
theorem store_inFrame (f : FrameId) (x : Run α) (m : Machine) :
    (endOf (Run.inFrame f x) m).store = (endOf x { m with frame := f }).store := by
  cases h : x { m with frame := f } with
  | ok a m' => rw [endOf_of_ok h, endOf_of_ok (inFrame_of_ok h)]
  | error halt m' => rw [endOf_of_error h, endOf_of_error (inFrame_of_error h)]

theorem store_deeper (x : Run α) (m : Machine) :
    (endOf (Run.deeper x) m).store = (endOf x { m with depth := m.depth + 1 }).store := by
  cases h : x { m with depth := m.depth + 1 } with
  | ok a m' => rw [endOf_of_ok h, endOf_of_ok (deeper_of_ok h)]
  | error halt m' => rw [endOf_of_error h, endOf_of_error (deeper_of_error h)]

namespace Journal

/-- A run that leaves all properties as they are, and only makes something. -/
def quiet (made : Machine → List Made)
    (h : ∀ m o, (endOf x m).store.properties o = m.store.properties o)
    (hgains : ∀ m : Machine, m.store.Gains (endOf x m).store (made m)) : Journal x where
  writes _ := []
  made := made
  complete := h
  gains := hgains

/-- A run that leaves the store as it is. -/
def idle (h : ∀ m, (endOf x m).store = m.store) : Journal x :=
  quiet (fun _ => []) (fun m _ => by rw [h m]) fun m => by
    rw [h m]
    exact Store.gains_of_size rfl rfl

/-- The same run in other words. -/
def of_eq (h : x = y) (j : Journal x) : Journal y where
  writes := j.writes
  made := j.made
  complete := h ▸ j.complete
  gains := h ▸ j.gains

def pure (a : α) : Journal (Pure.pure a : Run α) :=
  idle fun _ => rfl

def throw (halt : Halt) : Journal (MonadExcept.throw halt : Run α) :=
  idle fun _ => rfl

/-- The second run goes on where the first one has ended with a value. -/
def bind {f : α → Run β} (jx : Journal x) (jf : ∀ a, Journal (f a)) : Journal (x >>= f) where
  writes m := jx.writes m ++
    match x m with
    | .ok a m' => (jf a).writes m'
    | .error _ _ => []
  made m := jx.made m ++
    match x m with
    | .ok a m' => (jf a).made m'
    | .error _ _ => []
  complete m o := by
    have hx := jx.complete m o
    unfold Write.entriesOn at hx ⊢
    rw [List.filterMap_append, Record.setAll_append, ← hx]
    cases h : x m with
    | ok a m' =>
      have hend : endOf (x >>= f) m = endOf (f a) m' := by
        unfold endOf
        rw [bind_of_ok h]
      rw [hend, endOf_of_ok h]
      exact (jf a).complete m' o
    | error halt m' =>
      -- the second run does not begin, and nothing more is noted
      rw [endOf_of_error h, endOf_of_error (bind_of_error h)]
      rfl
  gains m := by
    have hx := jx.gains m
    cases h : x m with
    | ok a m' =>
      have hend : endOf (x >>= f) m = endOf (f a) m' := by
        unfold endOf
        rw [bind_of_ok h]
      rw [endOf_of_ok h] at hx
      rw [hend]
      exact hx.trans ((jf a).gains m')
    | error halt m' =>
      rw [endOf_of_error h] at hx
      rw [endOf_of_error (bind_of_error h)]
      exact hx.trans (Store.gains_of_size rfl rfl)

def inFrame (f : FrameId) (j : Journal x) : Journal (Run.inFrame f x) where
  writes m := j.writes { m with frame := f }
  made m := j.made { m with frame := f }
  complete m o := by
    rw [store_inFrame]
    exact j.complete { m with frame := f } o
  gains m := by
    rw [store_inFrame]
    exact j.gains { m with frame := f }

def deeper (j : Journal x) : Journal (Run.deeper x) where
  writes m := j.writes { m with depth := m.depth + 1 }
  made m := j.made { m with depth := m.depth + 1 }
  complete m o := by
    rw [store_deeper]
    exact j.complete { m with depth := m.depth + 1 } o
  gains m := by
    rw [store_deeper]
    exact j.gains { m with depth := m.depth + 1 }

def ite {p : Prop} [Decidable p] (jx : Journal x) (jy : Journal y) :
    Journal (if p then x else y) where
  writes m := if p then jx.writes m else jy.writes m
  made m := if p then jx.made m else jy.made m
  complete m o := by
    by_cases hp : p
    · simp only [if_pos hp]
      exact jx.complete m o
    · simp only [if_neg hp]
      exact jy.complete m o
  gains m := by
    by_cases hp : p
    · simp only [if_pos hp]
      exact jx.gains m
    · simp only [if_neg hp]
      exact jy.gains m

/-! ### What a run does by itself -/

def ofExcept : (e : Except RuntimeFault α) → Journal (Run.ofExcept e)
  | .ok a => .pure a
  | .error fault => .throw (.fault fault)

def fail (cause : RuntimeCause) (position : Position) :
    Journal (Run.fail cause position : Run α) :=
  .throw _

def get : Journal (MonadState.get : Run Machine) :=
  idle fun _ => rfl

def ask (question : Store → α) : Journal (Run.ask question) :=
  idle fun _ => rfl

def frame : Journal Run.frame :=
  idle fun _ => rfl

def emit (line : String) : Journal (Run.emit line) :=
  idle fun _ => rfl

/-- A change that leaves the objects alone and makes no frame. -/
def change {f : Store → Store} (h : ∀ s, (f s).objects = s.objects)
    (hframes : ∀ s, (f s).frames.size = s.frames.size) : Journal (Run.change f) :=
  quiet (fun _ => []) (fun m o => Store.properties_congr (h m.store) o) fun m =>
    Store.gains_of_size (hframes m.store) (congrArg Array.size (h m.store))

/-- A variable of some frame gets a value. -/
def defineIn (f : FrameId) (name : String) (value : Value) :
    Journal (Run.change (·.define f name value)) :=
  change (fun _ => rfl) fun s => s.size_frames_define f name value

/-- A new frame. -/
def newFrame (frame : Store → Frame) : Journal (Run.make fun s => s.newFrame (frame s)) :=
  quiet (fun m => [.frame (m.store.newFrame (frame m.store)).1])
    (fun _ o => Store.properties_congr rfl o) fun m => m.store.gains_newFrame (frame m.store)

def newClosure (c : Closure) : Journal (Run.make (·.newClosure c)) :=
  quiet (fun _ => []) (fun _ o => Store.properties_congr rfl o) fun _ =>
    Store.gains_of_size rfl rfl

def newObject : Journal (Run.make (·.newObject .empty)) :=
  quiet (fun m => [.object (m.store.newObject .empty).1])
    (fun m o => m.store.properties_newObject_empty o) fun m => m.store.gains_newObject .empty

/-- A write to an object that is there. -/
def setProperty (o : ObjectId) (name : String) (value : Value) :
    Journal (Run.change (·.setProperty o name value)) where
  writes m := if o.index < m.store.objects.size then [⟨o, name, value⟩] else []
  made _ := []
  gains _ := Store.gains_of_size rfl Array.size_modify
  complete m p := by
    have hend : (endOf (Run.change (·.setProperty o name value)) m).store =
        m.store.setProperty o name value := rfl
    rw [hend, Store.properties_setProperty]
    by_cases hthere : o.index < m.store.objects.size
    · rw [if_pos hthere]
      by_cases hsame : o = p
      · rw [if_pos ⟨hsame.symm, hthere⟩]
        simp only [Write.entriesOn, List.filterMap_cons, if_pos hsame]
        rfl
      · rw [if_neg fun h => hsame h.1.symm]
        simp only [Write.entriesOn, List.filterMap_cons, if_neg hsame]
        rfl
    · rw [if_neg hthere, if_neg fun h => hthere h.2]
      rfl

def newChild : Journal Run.newChild :=
  frame.bind fun parent => newFrame fun _ => ⟨.empty, some parent, false, none⟩

def define (name : String) (value : Value) : Journal (Run.define name value) :=
  frame.bind fun f => defineIn f name value

def makeClosure (definition : Function) (name? : Option String) :
    Journal (Run.makeClosure definition name?) :=
  frame.bind fun _ => (newClosure _).bind fun _ => pure _

def property (v : Value) (name : String) (position : Position) :
    Journal (Run.property v name position) :=
  (ask _).bind fun _ => ofExcept _

def lookup (name : String) (position : Position) : Journal (Run.lookup name position) :=
  frame.bind fun _ => (ask _).bind fun
    | some value => pure value
    | none => fail _ position

def receiver (position : Position) : Journal (Run.receiver position) :=
  frame.bind fun _ => (ask _).bind fun
    | some value => pure value
    | none => fail _ position

def assign (name : String) (value : Value) (position : Position) :
    Journal (Run.assign name value position) :=
  frame.bind fun _ => (ask _).bind fun
    | some owner => defineIn owner name value
    | none => fail _ position

end Journal

end Run

open Run

def Place.journalRead : (place : Place) → Journal place.read
  | .variable name position => .lookup name position
  | .property _ _ => (Journal.ask _).bind fun _ => .pure _

/-- To put a value into a property is a write. -/
def Place.journalWrite (value : Value) : (place : Place) → Journal (place.write value)
  | .variable name position => .assign name value position
  | .property object name => .setProperty object name value

/-! ## Rules -/

/-- Journals of all that an evaluator does with the parts of a program. -/
structure Evaluator.Journals (go : Evaluator) where
  eval : ∀ e, Journal (go.eval e)
  exec : ∀ s, Journal (go.exec s)
  loop : ∀ f condition? update? body, Journal (go.loop f condition? update? body)
  repeatWhile : ∀ condition body, Journal (go.repeatWhile condition body)

namespace Evaluator.Journals

variable {go : Evaluator}

/-! ### Statements in a row -/

def hoist : (l : List Stmt) → Journal (Evaluator.hoist l)
  | [] => .pure ()
  | .function ⟨none, _, _, _, _⟩ :: rest => (Journal.pure PUnit.unit).bind fun _ => hoist rest
  | .function ⟨some name, params, result?, body, position⟩ :: rest =>
    (Journal.makeClosure ⟨some name, params, result?, body, position⟩ (some name)).bind
      fun value => (Journal.define name value).bind fun _ => hoist rest
  | .variable _ _ _ _ :: rest | .interface _ :: rest | .expression _ _ :: rest
  | .giveBack _ _ :: rest | .branch _ _ _ _ :: rest | .block _ :: rest
  | .loop _ _ _ _ _ :: rest | .repeatWhile _ _ _ :: rest => hoist rest

variable (j : go.Journals)

def execEach : (l : List Stmt) → Journal (go.execEach l)
  | [] => .pure _
  | s :: rest => (j.exec s).bind fun
    | .normal => execEach rest
    | .gaveBack _ => .pure _

def execStatements (l : List Stmt) : Journal (go.execStatements l) :=
  (hoist l).bind fun _ => j.execEach l

def execBlock (b : Block) : Journal (go.execBlock b) :=
  Journal.newChild.bind fun f => (j.execStatements b.statements).inFrame f

/-! ### Calls -/

def requireArity (arity : Arity) (count : Nat) (position : Position) :
    Journal (Evaluator.requireArity arity count position) :=
  .ite (.pure ()) (.fail _ position)

def enterClosure (c : Closure) (receiver? : Option Value) (arguments : List Value) :
    Journal (go.enterClosure c receiver? arguments) :=
  (Journal.newFrame fun _ => ⟨.empty, some c.frame, true, receiver?⟩).bind fun f =>
    (Journal.change
      (fun s => (Similar.bindParameters_frames s f c.definition.params arguments).1)
      fun s => s.size_frames_bindParameters f c.definition.params arguments).bind fun _ =>
    ((j.execStatements c.definition.body.statements).inFrame f).deeper.bind fun
      | .gaveBack _ => .pure _
      | .normal => .pure _

def callClosure (limit : Nat) (c : Closure) (receiver? : Option Value) (arguments : List Value)
    (position : Position) : Journal (go.callClosure limit c receiver? arguments position) :=
  .of_eq (callClosure_eq go limit c receiver? arguments position).symm <|
    (requireArity c.arity arguments.length position).bind fun _ =>
      Journal.get.bind fun _ =>
        .ite (.fail _ position) (j.enterClosure c receiver? arguments)

def callNative (arguments : List Value) : (f : Native) → Journal (callNative f arguments)
  | .log => (Journal.ask _).bind fun line => (Journal.emit line).bind fun _ => .pure _

def call (limit : Nat) (receiver? : Option Value) (arguments : List Value)
    (position : Position) : (f : Value) → Journal (go.call limit f receiver? arguments position)
  | .native f =>
    (requireArity f.arity arguments.length position).bind fun _ => callNative arguments f
  | .closure _ => (Journal.ask _).bind fun
    | some c => j.callClosure limit c receiver? arguments position
    | none => .fail _ position
  | .number _ | .text _ | .boolean _ | .undefined | .object _ => .fail _ position

/-! ### Expressions -/

def evalNamed (name : String) : (e : Expr) → Journal (go.evalNamed e name)
  | .function ⟨none, _, _, _, _⟩ => .makeClosure _ _
  | .function ⟨some _, _, _, _, _⟩ => j.eval _
  | .literal _ _ | .reference _ _ | .receiver _ | .unary _ _ _ | .binary _ _ _ _
  | .assign _ _ _ _ | .update _ _ _ _ | .call _ _ _ | .member _ _ _ | .object _ _ => j.eval _

def evalCondition (e : Expr) : Journal (go.evalCondition e) :=
  (j.eval e).bind fun _ => .ofExcept _

def resolvePlace : (target : Expr) → Journal (go.resolvePlace target)
  | .reference _ _ => .pure _
  | .member object _ _ => (j.eval object).bind fun _ => (Journal.ofExcept _).bind fun _ => .pure _
  | .literal _ _ | .receiver _ | .unary _ _ _ | .binary _ _ _ _ | .assign _ _ _ _
  | .update _ _ _ _ | .call _ _ _ | .object _ _ | .function _ => .fail _ _

def evalAll : (l : List Expr) → Journal (l.mapM go.eval)
  | [] => .of_eq List.mapM_nil.symm (.pure _)
  | e :: rest => .of_eq List.mapM_cons.symm <|
    (j.eval e).bind fun _ => (evalAll rest).bind fun _ => .pure _

def evalCallee : (callee : Expr) → Journal (go.evalCallee callee)
  | .member object property position =>
    (j.eval object).bind fun v => (Journal.property v property position).bind fun _ => .pure _
  | .literal _ _ | .reference _ _ | .receiver _ | .unary _ _ _ | .binary _ _ _ _
  | .assign _ _ _ _ | .update _ _ _ _ | .call _ _ _ | .object _ _ | .function _ =>
    (j.eval _).bind fun _ => .pure _

/-- The value of each field is written when it is there. -/
def evalFields (object : ObjectId) : (fields : List Field) → Journal (go.evalFields object fields)
  | [] => .pure ()
  | field :: rest =>
    (j.evalNamed field.name field.value).bind fun value =>
      (Journal.setProperty object field.name value).bind fun _ => evalFields object rest

def evalLogic (op : BinaryOp) (left right : Expr) : Journal (go.evalLogic op left right) :=
  (j.evalCondition left).bind fun _ =>
    .ite (.pure _) ((j.evalCondition right).bind fun _ => .pure _)

def evalOperands (left : Expr) (op : BinaryOp) (right : Expr) (position : Position) :
    Journal (do
      let a ← go.eval left
      let b ← go.eval right
      Run.ofExcept (← Run.ask (Operation.apply · op a b position))) :=
  (j.eval left).bind fun _ => (j.eval right).bind fun _ => (Journal.ask _).bind fun _ => .ofExcept _

def evalBinary (left : Expr) (op : BinaryOp) (right : Expr) (position : Position) (limit : Nat) :
    Journal (go.evalRule limit (.binary left op right position)) :=
  match op with
  | .and => j.evalLogic .and left right
  | .or => j.evalLogic .or left right
  | .add | .subtract | .multiply | .divide | .modulo | .less | .greater | .lessEqual
  | .greaterEqual | .equal | .notEqual | .strictEqual | .strictNotEqual =>
    j.evalOperands left _ right position

def evalRule (limit : Nat) : (e : Expr) → Journal (go.evalRule limit e)
  | .literal _ _ => .pure _
  | .reference name position => .lookup name position
  | .receiver position => .receiver position
  | .unary .negate operand _ =>
    (j.eval operand).bind fun _ => (Journal.ofExcept _).bind fun _ => .pure _
  | .unary .not operand _ =>
    (j.eval operand).bind fun _ => (Journal.ofExcept _).bind fun _ => .pure _
  | .binary left op right position => j.evalBinary left op right position limit
  | .assign target none value _ =>
    (j.resolvePlace target).bind fun place =>
      (j.evalNamed place.name value).bind fun result =>
        (place.journalWrite result).bind fun _ => .pure _
  | .assign target (some _) value _ =>
    (j.resolvePlace target).bind fun place =>
      place.journalRead.bind fun _ =>
        (j.eval value).bind fun _ =>
          (Journal.ask _).bind fun _ =>
            (Journal.ofExcept _).bind fun result =>
              (place.journalWrite result).bind fun _ => .pure _
  | .update target _ _ _ =>
    (j.resolvePlace target).bind fun place =>
      place.journalRead.bind fun _ =>
        (Journal.ofExcept _).bind fun _ =>
          (place.journalWrite _).bind fun _ => .pure _
  | .call callee arguments position =>
    (j.evalCallee callee).bind fun f =>
      (j.evalAll arguments).bind fun values => j.call limit f.2 values position f.1
  | .member object property position =>
    (j.eval object).bind fun v => .property v property position
  | .object fields _ =>
    Journal.newObject.bind fun object => (j.evalFields object fields).bind fun _ => .pure _
  | .function definition => .makeClosure definition definition.name?

/-! ### Statements -/

def execRule : (s : Stmt) → Journal (go.execRule s)
  | .variable name _ none _ =>
    (Journal.pure Value.undefined).bind fun value =>
      (Journal.define name value).bind fun _ => .pure _
  | .variable name _ (some e) _ =>
    (j.evalNamed name e).bind fun value => (Journal.define name value).bind fun _ => .pure _
  | .function _ => .pure _
  | .interface _ => .pure _
  | .expression e _ => (j.eval e).bind fun _ => .pure _
  | .giveBack none _ => .pure _
  | .giveBack (some e) _ => (j.eval e).bind fun _ => .pure _
  | .branch condition body none _ =>
    (j.evalCondition condition).bind fun _ => .ite (j.execBlock body) (.pure _)
  | .branch condition body (some otherwise) _ =>
    (j.evalCondition condition).bind fun _ => .ite (j.execBlock body) (j.exec otherwise)
  | .block b => j.execBlock b
  | .loop none condition? update? body _ =>
    Journal.newChild.bind fun f =>
      (Journal.pure PUnit.unit).bind fun _ => j.loop f condition? update? body
  | .loop (some init) condition? update? body _ =>
    Journal.newChild.bind fun f =>
      ((j.exec init).inFrame f).bind fun _ => j.loop f condition? update? body
  | .repeatWhile condition body _ => j.repeatWhile condition body

def goesOn : (condition? : Option Expr) → Journal (go.goesOn condition?)
  | some condition => j.evalCondition condition
  | none => .pure true

def loopRound (f : FrameId) (condition? update? : Option Expr) (body : Block) :
    Journal (go.loopRound f condition? update? body) :=
  .of_eq (loopRound_eq go f condition? update? body).symm <|
    ((j.goesOn condition?).inFrame f).bind fun
      | true => ((j.execBlock body).inFrame f).bind fun
        | .gaveBack _ => .pure _
        | .normal => (Journal.newFrame fun s =>
            (s.frame? f).getD ⟨.empty, none, false, none⟩).bind fun next =>
          match update? with
          | some update => ((j.eval update).inFrame next).bind fun _ => .pure _
          | none => .pure _
      | false => .pure _

def whileRound (condition : Expr) (body : Block) : Journal (go.whileRound condition body) :=
  (j.evalCondition condition).bind fun
    | true => (j.execBlock body).bind fun
      | .gaveBack _ => .pure _
      | .normal => .pure _
    | false => .pure _

/-- The journals with one more unit of fuel. -/
def withRules (limit : Nat) : (go.withRules (go.evalRule limit) go.execRule).Journals where
  eval := j.evalRule limit
  exec := j.execRule
  loop f condition? update? body := (j.loopRound f condition? update? body).bind fun
    | .inl _ => .pure _
    | .inr next => j.loop next condition? update? body
  repeatWhile condition body := (j.whileRound condition body).bind fun
    | some _ => .pure _
    | none => j.repeatWhile condition body

end Evaluator.Journals

/-! ## All that can be run -/

/-- The journals of what is run with a given amount of fuel. -/
def evaluatorJournals (limit : Nat) : (fuel : Nat) → (evaluator limit fuel).Journals
  | 0 => ⟨fun _ => .throw _, fun _ => .throw _, fun _ _ _ _ => .throw _, fun _ _ => .throw _⟩
  | fuel + 1 => (evaluatorJournals limit fuel).withRules limit

/-- The journal of a program. -/
def Program.journal (limit fuel : Nat) (program : Program) : Journal (program.exec limit fuel) :=
  ((evaluatorJournals limit fuel).execStatements program.statements).bind fun _ => .pure ()

end TypedScript
