import TypedScript.Roster
import TypedScript.Store

/-!
# What a roster keeps

`Roster.Listed` says how a roster comes about: frames and objects are listed, some of
those listed go at any time and do not come back, and now and then all are released. It
carries along what was listed since the last release, and how many entries were left when
the roster was last looked through.

Striking off drops only what is gone, so of all that was listed the roster has those that
are still there, in order and as often as they were listed (`Keeps`). The limit is twice
of what was left, and a roster that reaches it is looked through at once, so it stays
below (`Roster.Listed.keeps_living`).
-/

namespace TypedScript

/-! ## Lists from which only the dead are missing -/

/-- A list with some entries left out, none of which is alive. -/
structure Keeps {α : Type} (alive : α → Bool) (listed kept : List α) : Prop where
  sublist : kept.Sublist listed
  filter : kept.filter alive = listed.filter alive

namespace Keeps

variable {α : Type} {alive later : α → Bool} {listed kept : List α}

theorem nil : Keeps alive [] [] :=
  ⟨.slnil, rfl⟩

theorem concat (h : Keeps alive listed kept) (a : α) : Keeps alive (listed ++ [a]) (kept ++ [a]) :=
  ⟨h.sublist.append (List.Sublist.refl _), by rw [List.filter_append, List.filter_append, h.filter]⟩

/-- Entries that are gone may be left out. -/
theorem strikeOff (h : Keeps alive listed kept) : Keeps alive listed (kept.filter alive) := by
  refine ⟨List.filter_sublist.trans h.sublist, ?_⟩
  rw [List.filter_filter]
  simp only [Bool.and_self]
  exact h.filter

/-- Fewer are alive later on, and the same entries are missing. -/
theorem gone (h : Keeps alive listed kept)
    (hgone : ∀ a ∈ listed, later a = true → alive a = true) : Keeps later listed kept := by
  have hfewer : ∀ l : List α, (∀ a ∈ l, a ∈ listed) →
      l.filter later = (l.filter alive).filter later := by
    intro l hl
    rw [List.filter_filter]
    refine List.filter_congr fun a ha => ?_
    cases hlater : later a with
    | false => rfl
    | true => rw [hgone a (hl a ha) hlater]; rfl
  refine ⟨h.sublist, ?_⟩
  rw [hfewer kept fun a ha => h.sublist.subset ha, hfewer listed fun _ ha => ha, h.filter]

theorem count_eq [BEq α] [LawfulBEq α] (h : Keeps alive listed kept) {a : α}
    (ha : alive a = true) : kept.count a = listed.count a := by
  rw [← List.count_filter ha, h.filter, List.count_filter ha]

end Keeps

/-! ## How rosters come about -/

namespace Roster

/-- How many entries were left when a roster was last looked through, if it is tidied
now. -/
def left (r : Roster) (alive : Liveness) (before : Nat) : Nat :=
  if r.size < max r.limit leastLimit then before else (r.strikeOff alive).size

/-- The rosters that come about, with what is there at the time, with the frames and the
objects listed since the last release, and with the number of entries that were left when
the roster was last looked through. What is listed may go at any time, and does not come
back. -/
inductive Listed : Roster → Liveness → List FrameId → List ObjectId → Nat → Prop where
  | empty (alive : Liveness) : Listed .empty alive [] [] 0
  | addFrame {r : Roster} {alive : Liveness} {frames : List FrameId} {objects : List ObjectId}
      {left : Nat} (f : FrameId) : Listed r alive frames objects left →
      Listed (r.addFrame alive f) alive (frames ++ [f]) objects
        ({ r with frames := r.frames.push f }.left alive left)
  | addObject {r : Roster} {alive : Liveness} {frames : List FrameId} {objects : List ObjectId}
      {left : Nat} (o : ObjectId) : Listed r alive frames objects left →
      Listed (r.addObject alive o) alive frames (objects ++ [o])
        ({ r with objects := r.objects.push o }.left alive left)
  | gone {r : Roster} {alive : Liveness} {frames : List FrameId} {objects : List ObjectId}
      {left : Nat} (later : Liveness) : Listed r alive frames objects left →
      (∀ f ∈ frames, later.hasFrame f = true → alive.hasFrame f = true) →
      (∀ o ∈ objects, later.hasObject o = true → alive.hasObject o = true) →
      Listed r later frames objects left
  | release {r : Roster} {alive : Liveness} {frames : List FrameId} {objects : List ObjectId}
      {left : Nat} : Listed r alive frames objects left →
      Listed (r.release alive).2 alive [] [] left

/-- What holds of a roster: only what is gone is missing, the limit is twice of what was
left, and the roster is below it. -/
structure Accounts (r : Roster) (alive : Liveness) (frames : List FrameId)
    (objects : List ObjectId) (left : Nat) : Prop where
  frames : Keeps alive.hasFrame frames r.frames.toList
  objects : Keeps alive.hasObject objects r.objects.toList
  limit : r.limit = 2 * left
  size_lt : r.size < max leastLimit (2 * left)

variable {r : Roster} {alive : Liveness} {frames : List FrameId} {objects : List ObjectId}
  {left : Nat}

/-- Tidying sets the limit to twice of what it leaves. -/
theorem accounts_tidy (hframes : Keeps alive.hasFrame frames r.frames.toList)
    (hobjects : Keeps alive.hasObject objects r.objects.toList) (hlimit : r.limit = 2 * left) :
    (r.tidy alive).Accounts alive frames objects (r.left alive left) := by
  unfold tidy Roster.left
  by_cases hsize : r.size < max r.limit leastLimit
  · rw [if_pos hsize, if_pos hsize]
    refine ⟨hframes, hobjects, hlimit, ?_⟩
    rwa [hlimit, Nat.max_comm] at hsize
  · rw [if_neg hsize, if_neg hsize]
    have hleft : (r.strikeOff alive).size < max leastLimit (2 * (r.strikeOff alive).size) := by
      show _ < max 1024 _
      omega
    refine ⟨?_, ?_, rfl, hleft⟩
    · show Keeps _ _ (r.frames.filter alive.hasFrame).toList
      rw [Array.toList_filter]
      exact hframes.strikeOff
    · show Keeps _ _ (r.objects.filter alive.hasObject).toList
      rw [Array.toList_filter]
      exact hobjects.strikeOff

theorem Listed.accounts (h : Listed r alive frames objects left) :
    r.Accounts alive frames objects left := by
  induction h with
  | empty alive => exact ⟨.nil, .nil, rfl, by decide⟩
  | addFrame f _ ih =>
    refine accounts_tidy ?_ ih.objects ih.limit
    rw [Array.toList_push]
    exact ih.frames.concat f
  | addObject o _ ih =>
    refine accounts_tidy ih.frames ?_ ih.limit
    rw [Array.toList_push]
    exact ih.objects.concat o
  | gone later _ hframes hobjects ih =>
    exact ⟨ih.frames.gone hframes, ih.objects.gone hobjects, ih.limit, ih.size_lt⟩
  | release _ ih =>
    refine ⟨.nil, .nil, ih.limit, ?_⟩
    show 0 < max 1024 _
    omega

end Roster

/-! ## Clearing what is released -/

/-- A frame without what it held. -/
def Frame.cleared (frame : Frame) : Frame :=
  { frame with bindings := .empty, parent? := none, receiver? := none }

namespace Store

/-- Clears the frames and the objects of two lists. -/
def clearAll (s : Store) (released : Array FrameId × Array ObjectId) : Store :=
  released.2.foldl clearObject (released.1.foldl clearFrame s)

theorem frame?_clearFrame (s : Store) (f g : FrameId) :
    (s.clearFrame f).frame? g = if g = f then (s.frame? g).map .cleared else s.frame? g := by
  obtain ⟨i⟩ := f
  obtain ⟨j⟩ := g
  unfold clearFrame frame?
  rw [Array.getElem?_modify]
  by_cases h : i = j
  · subst h
    rw [if_pos rfl, if_pos rfl]
    rfl
  · rw [if_neg h, if_neg fun heq => h (FrameId.mk.inj heq).symm]

theorem frame?_foldl_clearFrame (l : List FrameId) (s : Store) (f : FrameId) :
    (l.foldl clearFrame s).frame? f =
      if f ∈ l then (s.frame? f).map .cleared else s.frame? f := by
  induction l generalizing s with
  | nil => rfl
  | cons g l ih =>
    rw [List.foldl_cons, ih, frame?_clearFrame]
    by_cases hg : f = g
    · -- a frame that is listed twice is cleared twice, which is the same
      rw [if_pos hg, if_pos (List.mem_cons.mpr (.inl hg))]
      cases s.frame? f <;> by_cases hl : f ∈ l <;> simp [hl, Frame.cleared]
    · rw [if_neg hg]
      simp only [List.mem_cons, hg, false_or]

theorem properties_foldl_clearObject (l : List ObjectId) (s : Store) (o : ObjectId) :
    (l.foldl clearObject s).properties o = if o ∈ l then .empty else s.properties o := by
  induction l generalizing s with
  | nil => rfl
  | cons p l ih =>
    rw [List.foldl_cons, ih, properties_clearObject]
    by_cases hp : o = p
    · rw [if_pos hp, if_pos (List.mem_cons.mpr (.inl hp)), ite_self]
    · rw [if_neg hp]
      simp only [List.mem_cons, hp, false_or]

theorem frames_foldl_clearObject (l : List ObjectId) (s : Store) :
    (l.foldl clearObject s).frames = s.frames := by
  induction l generalizing s with
  | nil => rfl
  | cons o l ih => rw [List.foldl_cons, ih]; rfl

theorem objects_foldl_clearFrame (l : List FrameId) (s : Store) :
    (l.foldl clearFrame s).objects = s.objects := by
  induction l generalizing s with
  | nil => rfl
  | cons f l ih => rw [List.foldl_cons, ih]; rfl

theorem frame?_clearAll (s : Store) (released : Array FrameId × Array ObjectId) (f : FrameId) :
    (s.clearAll released).frame? f =
      if f ∈ released.1.toList then (s.frame? f).map .cleared else s.frame? f := by
  rw [← frame?_foldl_clearFrame, clearAll, ← Array.foldl_toList, ← Array.foldl_toList]
  unfold frame?
  rw [frames_foldl_clearObject]

theorem properties_clearAll (s : Store) (released : Array FrameId × Array ObjectId)
    (o : ObjectId) :
    (s.clearAll released).properties o =
      if o ∈ released.2.toList then .empty else s.properties o := by
  rw [clearAll, ← Array.foldl_toList, ← Array.foldl_toList, properties_foldl_clearObject,
    properties_congr (objects_foldl_clearFrame ..)]

end Store

namespace Roster

variable {r : Roster} {alive : Liveness} {frames : List FrameId} {objects : List ObjectId}
  {left : Nat}

theorem Listed.released_frames (h : Listed r alive frames objects left) :
    (r.release alive).1.1.toList = frames.filter alive.hasFrame := by
  show (r.frames.filter alive.hasFrame).toList = _
  rw [Array.toList_filter, h.accounts.frames.filter]

theorem Listed.released_objects (h : Listed r alive frames objects left) :
    (r.release alive).1.2.toList = objects.filter alive.hasObject := by
  show (r.objects.filter alive.hasObject).toList = _
  rw [Array.toList_filter, h.accounts.objects.filter]

/-- Whatever goes and whenever a roster is tidied, it has those of the frames and objects
listed since the last release that are still there, in the order in which they were
listed and as often; it has fewer entries than the least limit or than twice as many as
were left when it was last looked through. A release clears those that are still there
and no others, and leaves the roster without entries. -/
theorem Listed.keeps_living (h : Listed r alive frames objects left) :
    r.frames.toList.filter alive.hasFrame = frames.filter alive.hasFrame ∧
    r.objects.toList.filter alive.hasObject = objects.filter alive.hasObject ∧
    (∀ f, alive.hasFrame f = true → r.frames.toList.count f = frames.count f) ∧
    (∀ o, alive.hasObject o = true → r.objects.toList.count o = objects.count o) ∧
    r.size < max leastLimit (2 * left) ∧
    (∀ s : Store, ∀ f, (s.clearAll (r.release alive).1).frame? f =
      if f ∈ frames ∧ alive.hasFrame f = true then (s.frame? f).map .cleared else s.frame? f) ∧
    (∀ s : Store, ∀ o, (s.clearAll (r.release alive).1).properties o =
      if o ∈ objects ∧ alive.hasObject o = true then .empty else s.properties o) ∧
    (r.release alive).2.frames = #[] ∧ (r.release alive).2.objects = #[] := by
  have haccounts := h.accounts
  refine ⟨haccounts.frames.filter, haccounts.objects.filter,
    fun f hf => haccounts.frames.count_eq hf, fun o ho => haccounts.objects.count_eq ho,
    haccounts.size_lt, fun s f => ?_, fun s o => ?_, rfl, rfl⟩
  · rw [Store.frame?_clearAll, h.released_frames]
    simp only [List.mem_filter]
  · rw [Store.properties_clearAll, h.released_objects]
    simp only [List.mem_filter]

theorem Listed.keeps_living_of_three :
    let alive : Liveness := ⟨fun _ => true, fun _ => true⟩
    let later : Liveness := ⟨fun f => f ≠ ⟨1⟩, fun _ => true⟩
    let r := ((Roster.empty.addFrame alive ⟨0⟩).addFrame alive ⟨1⟩).addFrame later ⟨0⟩
    Listed r later [⟨0⟩, ⟨1⟩, ⟨0⟩] [] 0 ∧
      r.frames.toList.filter later.hasFrame = [⟨0⟩, ⟨0⟩] ∧ r.size < 1024 := by
  intro alive later r
  have hbefore :
      Listed ((Roster.empty.addFrame alive ⟨0⟩).addFrame alive ⟨1⟩) alive [⟨0⟩, ⟨1⟩] [] 0 :=
    .addFrame ⟨1⟩ (.addFrame ⟨0⟩ (.empty alive))
  have hlisted : Listed r later [⟨0⟩, ⟨1⟩, ⟨0⟩] [] 0 :=
    .addFrame ⟨0⟩ (.gone later hbefore (fun _ _ _ => rfl) fun _ _ _ => rfl)
  obtain ⟨hframes, -, -, -, hsize, -⟩ := hlisted.keeps_living
  exact ⟨hlisted, hframes, hsize⟩

end Roster

end TypedScript
