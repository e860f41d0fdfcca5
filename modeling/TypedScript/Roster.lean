import TypedScript.Value

/-!
# Rosters of frames and objects

A `Roster` lists the frames and objects that were made, so that all of them can
be cleared in the end. Some of those listed may be gone by then, and a roster
does not keep them alive: which ones are still there is asked when it matters.
From time to time it strikes off what is gone. It does so when it has grown to
its limit, and sets the limit to twice of what is left, so that the work of
striking off stays in proportion to the work of listing.

A roster is not a part of the machine, as a run never looks at it. What a run
lists on it is all that its journal notes as made, in that order
(`Program.roster`). Whether something is still there is told by a `Liveness`
from outside: how long a frame or an object stays depends on who holds it, and
nothing that a roster does depends on more of it.
-/

namespace TypedScript

/-- The frames and objects listed, in the order in which they were, and the
length at which the roster is looked through next. -/
structure Roster where
  frames : Array FrameId
  objects : Array ObjectId
  limit : Nat

/-- Which frames and objects are still there. -/
structure Liveness where
  hasFrame : FrameId → Bool
  hasObject : ObjectId → Bool

namespace Roster

/-- The roster without entries. -/
def empty : Roster := ⟨#[], #[], 0⟩

/-- A roster shorter than this is never looked through. -/
def leastLimit : Nat := 1024

/-- How many entries there are. -/
def size (r : Roster) : Nat :=
  r.frames.size + r.objects.size

/-- The roster without what is gone. -/
def strikeOff (r : Roster) (alive : Liveness) : Roster :=
  let frames := r.frames.filter alive.hasFrame
  let objects := r.objects.filter alive.hasObject
  ⟨frames, objects, 2 * (frames.size + objects.size)⟩

/-- Strikes off what is gone if the roster has grown to its limit. -/
def tidy (r : Roster) (alive : Liveness) : Roster :=
  if r.size < max r.limit leastLimit then r else r.strikeOff alive

/-- Lists a frame. -/
def addFrame (r : Roster) (alive : Liveness) (f : FrameId) : Roster :=
  { r with frames := r.frames.push f }.tidy alive

/-- Lists an object. -/
def addObject (r : Roster) (alive : Liveness) (o : ObjectId) : Roster :=
  { r with objects := r.objects.push o }.tidy alive

/-- The frames and objects to be cleared in the end, those that are still
there, and the roster without entries. -/
def release (r : Roster) (alive : Liveness) : (Array FrameId × Array ObjectId) × Roster :=
  ((r.frames.filter alive.hasFrame, r.objects.filter alive.hasObject),
    { r with frames := #[], objects := #[] })

end Roster

end TypedScript
