import TypedScript.Record
import TypedScript.Value

/-!
# The store of a running program

A `Store` holds everything that can change or has an identity: frames of
variables, objects, and functions with the frame they were made in. A frame
has a parent, which was made before it, so the frames from any one outward
form a finite chain that ends at a frame without a parent. A name is looked up
along that chain, and an assignment writes into the innermost frame of the
chain that has the name.

Main statements: the links between frames do not change when variables are
defined or assigned (`chain_define`), and an assignment succeeds exactly where
a look-up does (`assign?_isSome`).
-/

namespace TypedScript

/-- One scope of variables. -/
structure Frame where
  bindings : Record Value
  parent? : Option FrameId
  /-- Whether the frame belongs to a call, or to the program as a whole. -/
  isCall : Bool
  receiver? : Option Value

/-- A function together with the frame it was made in. -/
structure Closure where
  definition : Function
  frame : FrameId
  name? : Option String

/-- How many arguments a function takes. -/
def Closure.arity (c : Closure) : Arity :=
  Arity.between c.definition.requiredCount c.definition.params.length

/-- Frames, objects and functions, each under the name it was given when it
was made. -/
structure Store where
  frames : Array Frame
  objects : Array (Record Value)
  closures : Array Closure

namespace Store

/-- The store without anything in it. -/
def empty : Store := ⟨#[], #[], #[]⟩

instance : Inhabited Store := ⟨empty⟩

/-! ## Objects and functions -/

/-- The properties of an object. -/
def properties (s : Store) (o : ObjectId) : Record Value :=
  s.objects[o.index]?.getD .empty

/-- A new object with the given properties. -/
def newObject (s : Store) (properties : Record Value) : ObjectId × Store :=
  (⟨s.objects.size⟩, { s with objects := s.objects.push properties })

/-- Writes a property of an object. -/
def setProperty (s : Store) (o : ObjectId) (name : String) (value : Value) : Store :=
  { s with objects := s.objects.modify o.index (·.set name value) }

/-- The property of a value: `undefined` if the object does not have it, a
fault if the value is no object. -/
def getProperty (s : Store) (v : Value) (name : String) (position : Position) :
    Except RuntimeFault Value :=
  match v.expectObject name position with
  | .ok o => .ok (((s.properties o).get? name).getD .undefined)
  | .error fault => .error fault

/-- The function with a given name. -/
def closure? (s : Store) (c : ClosureId) : Option Closure :=
  s.closures[c.index]?

/-- A new function. -/
def newClosure (s : Store) (c : Closure) : ClosureId × Store :=
  (⟨s.closures.size⟩, { s with closures := s.closures.push c })

/-! ## Frames -/

/-- The frame with a given name. -/
def frame? (s : Store) (f : FrameId) : Option Frame :=
  s.frames[f.index]?

/-- Adds a frame. -/
def newFrame (s : Store) (frame : Frame) : FrameId × Store :=
  (⟨s.frames.size⟩, { s with frames := s.frames.push frame })

/-- A new outermost frame: there is no receiver at the top level. -/
def globalFrame (s : Store) : FrameId × Store :=
  s.newFrame ⟨.empty, none, true, none⟩

/-- A new frame for a block inside another frame. -/
def childFrame (s : Store) (parent : FrameId) : FrameId × Store :=
  s.newFrame ⟨.empty, some parent, false, none⟩

/-- A new frame for a call of a function made in `parent`. -/
def callFrame (s : Store) (parent : FrameId) (receiver? : Option Value) : FrameId × Store :=
  s.newFrame ⟨.empty, some parent, true, receiver?⟩

/-- A copy of a frame: the same bindings, parent and receiver, and from now on
a life of its own. -/
def fork (s : Store) (f : FrameId) : FrameId × Store :=
  s.newFrame ((s.frame? f).getD ⟨.empty, none, false, none⟩)

theorem fork_eq {s : Store} {f : FrameId} {frame : Frame} (h : s.frame? f = some frame) :
    s.fork f = s.newFrame frame := by
  unfold fork
  rw [h, Option.getD_some]

/-- The frames from `f` outward, innermost first, at most `steps` of them. -/
def chainUpTo (s : Store) : (steps : Nat) → (f : FrameId) → List FrameId
  | 0, _ => []
  | steps + 1, f =>
    match s.frame? f with
    | none => []
    | some frame =>
      match frame.parent? with
      | none => [f]
      | some parent => f :: s.chainUpTo steps parent

/-- The frames from `f` outward, innermost first. A parent is older than its
child, so there are no more of them than frames up to `f`. -/
def chain (s : Store) (f : FrameId) : List FrameId :=
  s.chainUpTo (f.index + 1) f

/-- The value that a frame itself gives to a name. -/
def binding? (s : Store) (name : String) (f : FrameId) : Option Value :=
  (s.frame? f).bind (·.bindings.get? name)

/-- The innermost frame of the chain that has a name. -/
def owner? (s : Store) (f : FrameId) (name : String) : Option FrameId :=
  (s.chain f).find? fun g => (s.binding? name g).isSome

/-- The value of a name as seen from a frame. -/
def lookup? (s : Store) (f : FrameId) (name : String) : Option Value :=
  (s.chain f).findSome? (s.binding? name)

/-- Gives a name a value in the frame itself. -/
def define (s : Store) (f : FrameId) (name : String) (value : Value) : Store :=
  { s with
    frames := s.frames.modify f.index fun frame =>
      { frame with bindings := frame.bindings.set name value } }

/-- Gives a name a new value in the innermost frame of the chain that has it;
none has it if the name is unknown. -/
def assign? (s : Store) (f : FrameId) (name : String) (value : Value) : Option Store :=
  (s.owner? f name).map fun g => s.define g name value

/-- The receiver as seen from a frame: that of the call it belongs to. -/
def receiver? (s : Store) (f : FrameId) : Option Value :=
  (s.chain f).findSome? (fun g =>
    match s.frame? g with
    | some frame => if frame.isCall then some frame.receiver? else none
    | none => none) |>.join

/-- Forgets the bindings, the parent and the receiver of a frame. -/
def clearFrame (s : Store) (f : FrameId) : Store :=
  { s with
    frames := s.frames.modify f.index fun frame =>
      { frame with bindings := .empty, parent? := none, receiver? := none } }

/-- Forgets the properties of an object. -/
def clearObject (s : Store) (o : ObjectId) : Store :=
  { s with objects := s.objects.modify o.index fun _ => .empty }

/-! ## What becomes of objects -/

theorem properties_congr {s t : Store} (h : s.objects = t.objects) (o : ObjectId) :
    s.properties o = t.properties o := by
  unfold properties
  rw [h]

/-- An object that is not there shows without properties. -/
theorem properties_of_size_le {s : Store} {o : ObjectId} (h : s.objects.size ≤ o.index) :
    s.properties o = .empty := by
  unfold properties
  rw [Array.getElem?_eq_none h]
  rfl

theorem properties_newObject (s : Store) (properties : Record Value) (o : ObjectId) :
    (s.newObject properties).2.properties o =
      if o.index = s.objects.size then properties else s.properties o := by
  unfold Store.properties newObject
  dsimp only
  rw [Array.getElem?_push]
  split <;> rfl

/-- A write to an object that is there changes its properties and no others. -/
theorem properties_setProperty (s : Store) (o p : ObjectId) (name : String) (value : Value) :
    (s.setProperty o name value).properties p =
      if p = o ∧ o.index < s.objects.size then (s.properties p).set name value
      else s.properties p := by
  obtain ⟨i⟩ := o
  obtain ⟨j⟩ := p
  unfold setProperty properties
  dsimp only
  rw [Array.getElem?_modify]
  by_cases h : i = j
  · subst h
    by_cases hi : i < s.objects.size
    · rw [if_pos rfl, if_pos ⟨rfl, hi⟩, Array.getElem?_eq_getElem hi]
      rfl
    · rw [if_pos rfl, if_neg fun h => hi h.2, Array.getElem?_eq_none (Nat.le_of_not_lt hi)]
      rfl
  · rw [if_neg h, if_neg fun heq => h (ObjectId.mk.inj heq.1).symm]

theorem properties_clearObject (s : Store) (o p : ObjectId) :
    (s.clearObject o).properties p = if p = o then .empty else s.properties p := by
  obtain ⟨i⟩ := o
  obtain ⟨j⟩ := p
  unfold clearObject properties
  rw [Array.getElem?_modify]
  by_cases h : i = j
  · subst h
    rw [if_pos rfl, if_pos rfl]
    cases s.objects[i]? <;> rfl
  · rw [if_neg h, if_neg fun heq => h (ObjectId.mk.inj heq).symm]

/-! ## What a definition changes -/

theorem frame?_define (s : Store) (f g : FrameId) (name : String) (value : Value) :
    (s.define f name value).frame? g =
      (s.frame? g).map fun frame =>
        if g = f then { frame with bindings := frame.bindings.set name value } else frame := by
  obtain ⟨i⟩ := f
  obtain ⟨j⟩ := g
  by_cases h : i = j
  · subst h
    simp [define, frame?, Array.getElem?_modify]
  · simp [define, frame?, Array.getElem?_modify, h, Ne.symm h]

theorem chainUpTo_define (s : Store) (f : FrameId) (name : String) (value : Value)
    (steps : Nat) (g : FrameId) :
    (s.define f name value).chainUpTo steps g = s.chainUpTo steps g := by
  induction steps generalizing g with
  | zero => rfl
  | succ steps ih =>
    simp only [chainUpTo, frame?_define]
    cases s.frame? g with
    | none => rfl
    | some frame => by_cases h : g = f <;> simp [h, ih]

/-- Defining or assigning a variable leaves the links between frames alone. -/
theorem chain_define (s : Store) (f g : FrameId) (name : String) (value : Value) :
    (s.define f name value).chain g = s.chain g :=
  chainUpTo_define s f name value _ g

/-- An assignment succeeds exactly if the name can be looked up. -/
theorem assign?_isSome (s : Store) (f : FrameId) (name : String) (value : Value) :
    (s.assign? f name value).isSome = (s.lookup? f name).isSome := by
  simp only [assign?, owner?, lookup?, Option.isSome_map]
  induction s.chain f with
  | nil => rfl
  | cons g rest ih =>
    cases h : s.binding? name g <;> simp [List.find?, List.findSome?, h, ih]

end Store

end TypedScript
