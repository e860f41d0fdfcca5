import TypedScript.Operation

/-!
# The machine that runs a program

A `Machine` is all that a run can change: the store, the frame in which names
are looked up, the number of calls in progress, and the lines printed so far.
A `Run` changes a machine and ends with a value, with a fault, or for want of
fuel; the machine it has reached is known in each case. `inFrame` and `deeper`
change the frame and the depth for the time of an action and change them back
however the action ends.
-/

namespace TypedScript

/-- The state of a run. -/
structure Machine where
  store : Store
  frame : FrameId
  /-- How many calls of declared functions are in progress. -/
  depth : Nat
  output : Array String

/-- How a run stops early. -/
inductive Halt where
  | fault (fault : RuntimeFault)
  /-- The fuel given was not enough to finish; nothing is wrong with the
  program. -/
  | outOfFuel

/-- A computation that changes a machine. -/
abbrev Run := EStateM Halt Machine

/-- How a statement ends: at its end, or by giving back a value. -/
inductive Completion where
  | normal
  | gaveBack (value : Value)

/-- Puts a built-in function into its global object, which is made if it is
not there. -/
def Store.install (s : Store) (global : FrameId) (f : Native) : Store :=
  match s.lookup? global f.holder with
  | some (.object o) => s.setProperty o f.name (.native f)
  | _ =>
    let (o, s) := s.newObject (.ofList [(f.name, .native f)])
    s.define global f.holder (.object o)

/-- The store before a program starts, with its outermost frame. -/
def Store.initial : FrameId × Store :=
  let (global, s) := Store.empty.globalFrame
  (global, Native.all.foldl (fun s f => s.install global f) s)

/-- The machine before a program starts. -/
def Machine.initial : Machine where
  store := Store.initial.2
  frame := Store.initial.1
  depth := 0
  output := #[]

namespace Run

variable {α : Type}

/-- Ends a run with a fault. -/
def fail (cause : RuntimeCause) (position : Position) : Run α :=
  throw (.fault ⟨cause, position⟩)

/-- Ends a run for want of fuel. -/
def outOfFuel : Run α :=
  throw .outOfFuel

/-- The value of a computation that does not touch the machine. -/
def ofExcept : Except RuntimeFault α → Run α
  | .ok a => pure a
  | .error fault => throw (.fault fault)

/-- A question to the store. -/
def ask (question : Store → α) : Run α := do
  return question (← get).store

/-- A change of the store. -/
def change (f : Store → Store) : Run Unit :=
  modify fun m => { m with store := f m.store }

/-- A change of the store that also gives an answer, such as the name of what
was made. -/
def make (f : Store → α × Store) : Run α :=
  modifyGet fun m =>
    let (a, store) := f m.store
    (a, { m with store })

/-- The frame in which names are looked up. -/
def frame : Run FrameId := do
  return (← get).frame

/-- Runs an action with names looked up in another frame. -/
def inFrame (f : FrameId) (action : Run α) : Run α := fun ⟨store, frame, depth, output⟩ =>
  match action ⟨store, f, depth, output⟩ with
  | .ok a m => .ok a { m with frame }
  | .error halt m => .error halt { m with frame }

/-- Runs an action as one more call in progress. -/
def deeper (action : Run α) : Run α := fun m =>
  match action { m with depth := m.depth + 1 } with
  | .ok a m => .ok a { m with depth := m.depth - 1 }
  | .error halt m => .error halt { m with depth := m.depth - 1 }

/-- Prints a line. -/
def emit (line : String) : Run Unit :=
  modify fun m => { m with output := m.output.push line }

/-- A new frame inside the current one. -/
def newChild : Run FrameId := do
  let parent ← frame
  make (·.childFrame parent)

/-- The value of a variable. -/
def lookup (name : String) (position : Position) : Run Value := do
  let f ← frame
  match ← ask (·.lookup? f name) with
  | some value => return value
  | none => fail (.unknownVariable name) position

/-- Gives a variable of the current frame its value. -/
def define (name : String) (value : Value) : Run Unit := do
  let f ← frame
  change (·.define f name value)

/-- Gives a variable that is in sight a new value. -/
def assign (name : String) (value : Value) (position : Position) : Run Unit := do
  let f ← frame
  match ← ask (·.owner? f name) with
  | some owner => change (·.define owner name value)
  | none => fail (.unknownVariable name) position

/-- The receiver of the call in progress. -/
def receiver (position : Position) : Run Value := do
  let f ← frame
  match ← ask (·.receiver? f) with
  | some value => return value
  | none => fail (.unknownVariable "this") position

/-- A new function that sees the current frame. -/
def makeClosure (definition : Function) (name? : Option String) : Run Value := do
  let f ← frame
  return .closure (← make (·.newClosure ⟨definition, f, name?⟩))

/-- The property of a value. -/
def property (v : Value) (name : String) (position : Position) : Run Value := do
  ofExcept (← ask (·.getProperty v name position))

end Run

end TypedScript
