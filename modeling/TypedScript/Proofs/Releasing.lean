import TypedScript.Proofs.Journals
import TypedScript.Proofs.Listing

/-!
# What is released behind a run

A run lists each frame and each object on a roster when it makes it, and behind the run all
that is still there is cleared. What is listed does not change what a run does, so machines
are without rosters; which frames and objects a run makes, and in which order, stands in its
journal (`Run.Journal.made`). The roster of a run is the one on which that has been listed
(`Program.roster`), behind the outermost frame and the object of the built-in functions,
which are there before.

Meanwhile some of it goes. A `Course` says what is still there whenever something is listed,
and it is only assumed that what is gone does not come back. Since journals are complete, all
frames and objects of the store have been listed (`Program.listed_roster`). So however a run
ends, a release clears the frames and objects that are still there, and no other
(`Program.frame?_released`, `Program.properties_released`): no circle of frames, functions
and objects is left behind.
-/

namespace TypedScript

open Run

/-! ## Listing what is made -/

/-- What is still there at each step. What has not been made yet counts as there, and what is
gone does not come back. -/
structure Course where
  alive : Nat → Liveness
  frame : ∀ step f, (alive (step + 1)).hasFrame f = true → (alive step).hasFrame f = true
  object : ∀ step o, (alive (step + 1)).hasObject o = true → (alive step).hasObject o = true

namespace Roster

/-- Lists something that is made. -/
def add (r : Roster) (alive : Liveness) : Made → Roster
  | .frame f => r.addFrame alive f
  | .object o => r.addObject alive o

/-- Lists what is made, from some step on. -/
def addAll (course : Course) : (step : Nat) → Roster → List Made → Roster
  | _, r, [] => r
  | step, r, first :: rest => addAll course (step + 1) (r.add (course.alive step) first) rest

variable {r : Roster} {frames : List FrameId} {objects : List ObjectId} {left : Nat}

theorem listed_add {alive : Liveness} (made : Made) (h : Listed r alive frames objects left) :
    ∃ left', Listed (r.add alive made) alive (frames ++ Made.frames [made])
      (objects ++ Made.objects [made]) left' := by
  cases made with
  | frame f => exact ⟨_, (List.append_nil objects).symm ▸ h.addFrame f⟩
  | object o => exact ⟨_, (List.append_nil frames).symm ▸ h.addObject o⟩

theorem listed_addAll (course : Course) (made : List Made) {step : Nat}
    (h : Listed r (course.alive step) frames objects left) :
    ∃ left', Listed (addAll course step r made) (course.alive (step + made.length))
      (frames ++ Made.frames made) (objects ++ Made.objects made) left' := by
  induction made generalizing step r frames objects left with
  | nil => exact ⟨left, by simpa [addAll, Made.frames, Made.objects] using h⟩
  | cons first rest ih =>
    obtain ⟨left', hfirst⟩ := listed_add first h
    obtain ⟨left', hrest⟩ := ih (.gone (course.alive (step + 1)) hfirst
      (fun f _ => course.frame step f) fun o _ => course.object step o)
    refine ⟨left', ?_⟩
    rw [List.append_assoc, List.append_assoc, ← Made.frames_append, ← Made.objects_append,
      Nat.add_right_comm] at hrest
    exact hrest

end Roster

/-! ## The roster of a run -/

/-- What is there before a program starts. -/
def Machine.madeBefore : List Made :=
  [.frame ⟨0⟩, .object ⟨0⟩]

theorem Machine.gains_initial :
    Store.empty.Gains Machine.initial.store Machine.madeBefore :=
  ⟨rfl, rfl⟩

theorem Store.frame?_of_not_mem {s : Store} {f : FrameId} (h : f ∉ s.allFrames) :
    s.frame? f = none := by
  refine Array.getElem?_eq_none (Nat.le_of_not_lt fun hlt => h ?_)
  exact List.mem_map.mpr ⟨f.index, List.mem_range.mpr hlt, rfl⟩

theorem Store.properties_of_not_mem {s : Store} {o : ObjectId} (h : o ∉ s.allObjects) :
    s.properties o = .empty := by
  refine properties_of_size_le (Nat.le_of_not_lt fun hlt => h ?_)
  exact List.mem_map.mpr ⟨o.index, List.mem_range.mpr hlt, rfl⟩

namespace Program

variable (limit fuel : Nat) (program : Program)

/-- All that there is to be listed for a run of a program. -/
def made : List Made :=
  Machine.madeBefore ++ (program.journal limit fuel).made Machine.initial

/-- The roster at the end of a run. -/
def roster (course : Course) : Roster :=
  Roster.addAll course 0 .empty (program.made limit fuel)

/-- The store at the end of a run. -/
def lastStore : Store :=
  (endOf (program.exec limit fuel) Machine.initial).store

/-- What is still there at the end of a run. -/
def lastAlive (course : Course) : Liveness :=
  course.alive (program.made limit fuel).length

theorem gains_lastStore :
    Store.empty.Gains (program.lastStore limit fuel) (program.made limit fuel) :=
  Machine.gains_initial.trans ((program.journal limit fuel).gains Machine.initial)

/-- All frames and objects of the store have been listed. -/
theorem listed_roster (course : Course) :
    ∃ left, Roster.Listed (program.roster limit fuel course)
      (program.lastAlive limit fuel course) (program.lastStore limit fuel).allFrames
      (program.lastStore limit fuel).allObjects left := by
  obtain ⟨left, h⟩ :=
    Roster.listed_addAll course (program.made limit fuel) (.empty (course.alive 0))
  have hgains := program.gains_lastStore limit fuel
  rw [hgains.frames, hgains.objects]
  rw [Nat.zero_add] at h
  exact ⟨left, h⟩

/-- The store behind a run, with all cleared that the roster of the run releases. -/
def releasedStore (course : Course) : Store :=
  (program.lastStore limit fuel).clearAll
    ((program.roster limit fuel course).release (program.lastAlive limit fuel course)).1

/-- However a run ends, the frames are cleared that are still there, and no others. -/
theorem frame?_released (course : Course) (f : FrameId) :
    (program.releasedStore limit fuel course).frame? f =
      if (program.lastAlive limit fuel course).hasFrame f then
        ((program.lastStore limit fuel).frame? f).map .cleared
      else (program.lastStore limit fuel).frame? f := by
  obtain ⟨left, h⟩ := program.listed_roster limit fuel course
  rw [releasedStore, Store.frame?_clearAll, h.released_frames]
  by_cases hmem : f ∈ (program.lastStore limit fuel).allFrames
  · simp only [List.mem_filter, hmem, true_and]
  · rw [Store.frame?_of_not_mem hmem, Option.map_none, ite_self, ite_self]

/-- However a run ends, the objects are cleared that are still there, and no others. -/
theorem properties_released (course : Course) (o : ObjectId) :
    (program.releasedStore limit fuel course).properties o =
      if (program.lastAlive limit fuel course).hasObject o then .empty
      else (program.lastStore limit fuel).properties o := by
  obtain ⟨left, h⟩ := program.listed_roster limit fuel course
  rw [releasedStore, Store.properties_clearAll, h.released_objects]
  by_cases hmem : o ∈ (program.lastStore limit fuel).allObjects
  · simp only [List.mem_filter, hmem, true_and]
  · rw [Store.properties_of_not_mem hmem, ite_self, ite_self]

end Program

end TypedScript
