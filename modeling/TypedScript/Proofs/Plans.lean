import TypedScript.Proofs.Frames
import TypedScript.Proofs.Notes

/-!
# The names that frames get

When a frame is made it is known which names it may ever have: those that the
statements declare that are executed in it. A `Plan` says them for each frame.
The plan and the names that are there already relate the frames of a store to
levels, in two ways. The frames in sight of the statement being executed are
exactly as the levels say (`Level.Now`). The frames in sight of a function have
at least the names that were there when it was made, and may have got more since
(`Level.Sure`); by their plans, no others than the opened levels allow
(`Along.opened`).

So a store is `Planned` if its frames have planned names only, and the sites of
each function that was made are noted, with levels as its frames surely are.
Each change of the store that a run makes keeps a store planned, and takes it to
a `Later` one.
-/

namespace TypedScript

/-- The names that frames may ever have. -/
abbrev Plan := FrameId → List String

/-- The plan when there is one more frame. -/
def Plan.add (plan : Plan) (f : FrameId) (names : List String) : Plan :=
  fun g => if g = f then names else plan g

theorem Plan.add_self (plan : Plan) (f : FrameId) (names : List String) :
    plan.add f names f = names :=
  if_pos rfl

theorem Plan.add_of_ne (plan : Plan) {f g : FrameId} (hne : g ≠ f) (names : List String) :
    plan.add f names g = plan g :=
  if_neg hne

/-! ## Levels and frames -/

namespace Level

/-- A frame has the names that a level says. -/
structure Now (plan : Plan) (s : Store) (f : FrameId) (l : Level) : Prop where
  plan : plan f = l.ever
  bounds : l.Bounds (s.sight f)

/-- A frame has at least the names that a level says. -/
structure Sure (plan : Plan) (s : Store) (f : FrameId) (l : Level) : Prop where
  plan : plan f = l.ever
  made : ∀ name ∈ l.made, s.sight f name = true

variable {plan : Plan} {s : Store} {f : FrameId} {l : Level}

theorem Now.sure (h : l.Now plan s f) : l.Sure plan s f :=
  ⟨h.plan, h.bounds.1⟩

/-- A frame with planned names only is as a level says once that is opened. -/
theorem Sure.opened (h : l.Sure plan s f)
    (hplanned : ∀ name, s.sight f name = true → name ∈ plan f) : l.opened.Now plan s f :=
  ⟨h.plan, h.made, fun name hname => List.mem_append_right _ (h.plan ▸ hplanned name hname)⟩

end Level

/-- The frames from one outward are as levels say, and outside of them is the
built-in object. -/
inductive Along (s : Store) (P : FrameId → Level → Prop) : FrameId → List Level → Prop
  | outermost {f : FrameId} {frame : Frame} {l b : Level} (hframe : s.frame? f = some frame)
    (hparent : frame.parent? = none) (hl : P f l)
    (hb : b.Bounds fun name => decide (name = Native.log.holder)) : Along s P f [l, b]
  | inner {f parent : FrameId} {frame : Frame} {l : Level} {levels : List Level}
    (hframe : s.frame? f = some frame) (hparent : frame.parent? = some parent) (hl : P f l)
    (hrest : Along s P parent levels) : Along s P f (l :: levels)

namespace Along

variable {s : Store} {P : FrameId → Level → Prop} {f : FrameId} {levels : List Level}

theorem frame (h : Along s P f levels) : ∃ frame, s.frame? f = some frame := by
  cases h with
  | outermost hframe => exact ⟨_, hframe⟩
  | inner hframe => exact ⟨_, hframe⟩

/-- What holds of a level and a frame may be replaced by something that follows
from it, in a store that has the same frames. -/
theorem mono {s' : Store} {P' : FrameId → Level → Prop} (h : Along s P f levels)
    (hframes : ∀ g frame, s.frame? g = some frame →
      ∃ frame', s'.frame? g = some frame' ∧ frame'.parent? = frame.parent?)
    (hP : ∀ g frame l, s.frame? g = some frame → P g l → P' g l) : Along s' P' f levels := by
  induction h with
  | outermost hframe hparent hl hb =>
    obtain ⟨frame', hframe', hsame⟩ := hframes _ _ hframe
    exact .outermost hframe' (hsame.trans hparent) (hP _ _ _ hframe hl) hb
  | inner hframe hparent hl _ ih =>
    obtain ⟨frame', hframe', hsame⟩ := hframes _ _ hframe
    exact .inner hframe' (hsame.trans hparent) (hP _ _ _ hframe hl) ih

/-- No frame on the way outward is younger. -/
theorem older (h : Along s P f levels) (hs : s.Ordered) :
    Along s (fun g l => g.index ≤ f.index ∧ P g l) f levels := by
  induction h with
  | outermost hframe hparent hl hb => exact .outermost hframe hparent ⟨Nat.le_refl _, hl⟩ hb
  | inner hframe hparent hl _ ih =>
    have hlt := hs _ _ _ hframe hparent
    refine .inner hframe hparent ⟨Nat.le_refl _, hl⟩ ?_
    exact ih.mono (fun g frame hg => ⟨frame, hg, rfl⟩) fun g _ l _ h => ⟨by omega, h.2⟩

/-- The innermost level and frame may be exchanged for others with the same
frames around. -/
theorem head {l l' : Level} (h : Along s P f (l :: levels)) (hl : P f l → P f l') :
    Along s P f (l' :: levels) := by
  cases h with
  | outermost hframe hparent hp hb => exact .outermost hframe hparent (hl hp) hb
  | inner hframe hparent hp hrest => exact .inner hframe hparent (hl hp) hrest

variable {plan : Plan}

/-- The frames in sight of a function are as the opened levels say. -/
theorem opened (h : Along s (Level.Sure plan s) f levels)
    (hplanned : ∀ g name, s.sight g name = true → name ∈ plan g) :
    Along s (Level.Now plan s) f (levels.map Level.opened) := by
  induction h with
  | outermost hframe hparent hl hb =>
    exact .outermost hframe hparent (hl.opened (hplanned _)) hb.opened
  | inner hframe hparent hl _ ih => exact .inner hframe hparent (hl.opened (hplanned _)) ih

/-- The levels along the frames are those of the names in sight. -/
theorem sights (h : Along s (Level.Now plan s) f levels) (hs : s.Ordered) :
    List.Forall₂ Level.Bounds levels (s.sights f) := by
  induction h with
  | outermost hframe hparent hl hb =>
    unfold Store.sights
    rw [Store.chain_eq hs hframe, hparent]
    exact .cons hl.bounds (.cons hb .nil)
  | inner hframe hparent hl _ ih =>
    unfold Store.sights at ih ⊢
    rw [Store.chain_eq hs hframe, hparent]
    exact .cons hl.bounds ih

end Along

theorem Store.sight_newFrame_self (s : Store) (frame : Frame) :
    (s.newFrame frame).2.sight (s.newFrame frame).1 = frame.sight := by
  funext name
  unfold sight
  rw [s.frame?_newFrame_self frame, Option.any_some]

theorem Store.sight_newFrame_of_ne (s : Store) {frame : Frame} {g : FrameId}
    (hne : g ≠ (s.newFrame frame).1) : (s.newFrame frame).2.sight g = s.sight g := by
  funext name
  unfold sight
  rw [s.frame?_newFrame_of_ne hne]

/-- A definition adds its name, other than that of the built-in object in the
outermost frame. -/
theorem Store.sight_define_self (s : Store) {f : FrameId} {frame : Frame}
    (hf : s.frame? f = some frame) {name : String}
    (hvisible : frame.parent? = none → name ≠ Native.log.holder) (value : Value) (other : String) :
    (s.define f name value).sight f other = (decide (other = name) || s.sight f other) := by
  unfold sight
  rw [s.frame?_define_self hf, hf, Option.any_some, Option.any_some]
  unfold Frame.sight
  dsimp only
  rw [Record.has_set]
  by_cases heq : other = name
  · have hseen : (frame.parent?.isSome || decide (other ≠ Native.log.holder)) = true := by
      cases hparent : frame.parent? with
      | some parent => rfl
      | none => exact decide_eq_true (heq ▸ hvisible hparent)
    rw [decide_eq_true heq, hseen, Bool.true_or, Bool.true_or]
    rfl
  · rw [decide_eq_false heq, Bool.false_or, Bool.false_or]

theorem Store.sight_define_of_ne (s : Store) {f g : FrameId} (hne : g ≠ f) (name : String)
    (value : Value) : (s.define f name value).sight g = s.sight g := by
  funext other
  unfold sight
  rw [s.frame?_define_of_ne hne]

/-! ## Later stores -/

/-- What is there stays. Of the frames that are there only those that are
`changed` may get names. -/
structure Later (changed : FrameId → Prop) (plan plan' : Plan) (s s' : Store) : Prop where
  frames : ∀ g frame, s.frame? g = some frame →
    ∃ frame', s'.frame? g = some frame' ∧ frame'.parent? = frame.parent?
  plan : ∀ g frame, s.frame? g = some frame → plan' g = plan g
  grows : ∀ g frame, s.frame? g = some frame →
    ∀ name, s.sight g name = true → s'.sight g name = true
  same : ∀ g frame, s.frame? g = some frame → ¬changed g → s'.sight g = s.sight g

/-- No frame gets a name. -/
abbrev Unchanged : Plan → Plan → Store → Store → Prop :=
  Later fun _ => False

namespace Later

variable {changed : FrameId → Prop} {plan plan' plan'' : Plan} {s s' s'' : Store}

theorem refl (changed : FrameId → Prop) (plan : Plan) (s : Store) :
    Later changed plan plan s s :=
  ⟨fun _ frame h => ⟨frame, h, rfl⟩, fun _ _ _ => rfl, fun _ _ _ _ h => h, fun _ _ _ _ => rfl⟩

/-- A frame that is not there before does not count as changed. -/
theorem trans {changed' : FrameId → Prop} (h : Later changed plan plan' s s')
    (h' : Later changed' plan' plan'' s' s'')
    (hchanged : ∀ g frame, s.frame? g = some frame → changed' g → changed g) :
    Later changed plan plan'' s s'' where
  frames g frame hg := by
    obtain ⟨frame', hg', hparent⟩ := h.frames g frame hg
    obtain ⟨frame'', hg'', hparent'⟩ := h'.frames g frame' hg'
    exact ⟨frame'', hg'', hparent'.trans hparent⟩
  plan g frame hg := by
    obtain ⟨frame', hg', -⟩ := h.frames g frame hg
    exact (h'.plan g frame' hg').trans (h.plan g frame hg)
  grows g frame hg name hname := by
    obtain ⟨frame', hg', -⟩ := h.frames g frame hg
    exact h'.grows g frame' hg' name (h.grows g frame hg name hname)
  same g frame hg hne := by
    obtain ⟨frame', hg', -⟩ := h.frames g frame hg
    have hne' : ¬changed' g := fun hchange => hne (hchanged g frame hg hchange)
    exact (h'.same g frame' hg' hne').trans (h.same g frame hg hne)

/-- A frame that is not there later was not there before. -/
theorem fresh (h : Later changed plan plan' s s') {f : FrameId} (hf : s'.frame? f = none) :
    s.frame? f = none := by
  cases hold : s.frame? f with
  | none => rfl
  | some frame =>
    obtain ⟨frame', hframe', -⟩ := h.frames f frame hold
    cases hf.symm.trans hframe'

/-- What happens to a frame that was not there before does not show. -/
theorem inside {f : FrameId} (h : Later changed plan plan' s s') (hfresh : s.frame? f = none)
    (h' : Later (· = f) plan' plan'' s' s'') : Later changed plan plan'' s s'' := by
  refine h.trans h' fun g frame hg heq => ?_
  rw [heq] at hg
  cases hfresh.symm.trans hg

theorem mono {changed' : FrameId → Prop} (h : Later changed plan plan' s s')
    (hchanged : ∀ g, changed g → changed' g) : Later changed' plan plan' s s' :=
  ⟨h.frames, h.plan, h.grows, fun g frame hg hne => h.same g frame hg fun hg => hne (hchanged g hg)⟩

theorem sure {f : FrameId} {levels : List Level} (h : Later changed plan plan' s s')
    (hlevels : Along s (Level.Sure plan s) f levels) : Along s' (Level.Sure plan' s') f levels :=
  hlevels.mono h.frames fun g frame _ hg hl =>
    ⟨(h.plan g frame hg).trans hl.plan,
      fun name hname => h.grows g frame hg name (hl.made name hname)⟩

theorem now {f : FrameId} {levels : List Level} (h : Unchanged plan plan' s s')
    (hlevels : Along s (Level.Now plan s) f levels) : Along s' (Level.Now plan' s') f levels := by
  refine hlevels.mono h.frames fun g frame l hg hl => ⟨(h.plan g frame hg).trans hl.plan, ?_⟩
  rw [h.same g frame hg not_false]
  exact hl.bounds

end Later

/-- All frames keep their parents and names, and no function is made. -/
structure Store.SameOutline (s s' : Store) : Prop where
  parents : ∀ g, (s'.frame? g).map (·.parent?) = (s.frame? g).map (·.parent?)
  sights : s'.sight = s.sight
  closures : s'.closures = s.closures

namespace Store.SameOutline

variable {s s' s'' : Store}

theorem refl (s : Store) : s.SameOutline s :=
  ⟨fun _ => rfl, rfl, rfl⟩

theorem trans (h : s.SameOutline s') (h' : s'.SameOutline s'') : s.SameOutline s'' :=
  ⟨fun g => (h'.parents g).trans (h.parents g), h'.sights.trans h.sights,
    h'.closures.trans h.closures⟩

theorem frame (h : s.SameOutline s') {g : FrameId} {frame : Frame} (hg : s.frame? g = some frame) :
    ∃ frame', s'.frame? g = some frame' ∧ frame'.parent? = frame.parent? := by
  have hsame := h.parents g
  rw [hg] at hsame
  exact Option.map_eq_some_iff.mp hsame

theorem frame_back (h : s.SameOutline s') {g : FrameId} {frame' : Frame}
    (hg : s'.frame? g = some frame') :
    ∃ frame, s.frame? g = some frame ∧ frame.parent? = frame'.parent? := by
  have hsame := h.parents g
  rw [hg] at hsame
  exact Option.map_eq_some_iff.mp hsame.symm

theorem unchanged (h : s.SameOutline s') (plan : Plan) : Unchanged plan plan s s' := by
  refine ⟨fun g frame hg => h.frame hg, fun _ _ _ => rfl, fun g frame hg name hname => ?_,
    fun g frame hg _ => ?_⟩
  · rw [h.sights]
    exact hname
  · rw [h.sights]

/-- A name that a frame has is given a new value. -/
theorem define {f : FrameId} {name : String} (hname : (s.binding? name f).isSome = true)
    (value : Value) : s.SameOutline (s.define f name value) := by
  refine ⟨fun g => ?_, ?_, rfl⟩
  · rw [Store.frame?_define]
    cases s.frame? g with
    | none => rfl
    | some frame =>
      rw [Option.map_some, Option.map_some]
      by_cases heq : g = f
      · rw [if_pos heq]
        rfl
      · rw [if_neg heq]
        rfl
  · funext g other
    unfold Store.sight
    by_cases heq : g = f
    · subst heq
      unfold Store.binding? at hname
      cases hframe : s.frame? g with
      | none => rw [Store.frame?_define, hframe]; rfl
      | some frame =>
        rw [hframe] at hname
        have hhas : frame.bindings.has name = true := hname
        rw [s.frame?_define_self hframe, Option.any_some, Option.any_some]
        unfold Frame.sight
        dsimp only
        rw [Record.has_set]
        by_cases heq : other = name
        · rw [heq, hhas, Bool.or_true]
        · rw [decide_eq_false heq, Bool.false_or]
    · rw [s.frame?_define_of_ne heq]

end Store.SameOutline

/-! ## Planned stores -/

/-- The sites of a function are noted, with levels as the frames in its sight
surely are. -/
def Closure.IsNoted (notes : Notes) (plan : Plan) (s : Store) (c : Closure) : Prop :=
  ∃ levels, Along s (Level.Sure plan s) c.frame levels ∧ AllNoted notes (c.definition.sites levels)

/-- A store that keeps to a plan, with noted functions other than those that
still wait for names in their sight. -/
structure Planned (notes : Notes) (waits : Closure → Prop) (plan : Plan) (s : Store) : Prop where
  ordered : s.Ordered
  within : ∀ g name, s.sight g name = true → name ∈ plan g
  outermost : ∀ g frame, s.frame? g = some frame → frame.parent? = none →
    Native.log.holder ∉ plan g
  closures : ∀ c ∈ s.closures, waits c ∨ c.IsNoted notes plan s

/-- A planned store, seen from a frame where the names are as levels say. -/
structure Stands (notes : Notes) (waits : Closure → Prop) (plan : Plan) (s : Store) (f : FrameId)
    (levels : List Level) : Prop where
  planned : Planned notes waits plan s
  now : Along s (Level.Now plan s) f levels

variable {notes : Notes} {waits : Closure → Prop} {plan : Plan} {s : Store} {f : FrameId}
  {levels : List Level}

theorem Closure.IsNoted.later {changed : FrameId → Prop} {plan' : Plan} {s' : Store} {c : Closure}
    (h : c.IsNoted notes plan s) (hlater : Later changed plan plan' s s') :
    c.IsNoted notes plan' s' := by
  obtain ⟨levels, hlevels, hnoted⟩ := h
  exact ⟨levels, hlater.sure hlevels, hnoted⟩

namespace Planned

/-- Functions that wait no longer. -/
theorem settle (h : Planned notes waits plan s)
    (hsettled : ∀ c, waits c → c.IsNoted notes plan s) :
    Planned notes (fun _ => False) plan s where
  ordered := h.ordered
  within := h.within
  outermost := h.outermost
  closures c hc := .inr <| (h.closures c hc).elim (hsettled c) id

/-- Functions that may wait. -/
theorem unsettle (h : Planned notes (fun _ => False) plan s) (waits : Closure → Prop) :
    Planned notes waits plan s where
  ordered := h.ordered
  within := h.within
  outermost := h.outermost
  closures c hc := (h.closures c hc).imp_left False.elim

/-- A change that does not concern names. -/
theorem of_sameOutline {s' : Store} (h : Planned notes waits plan s) (hsame : s.SameOutline s') :
    Planned notes waits plan s' where
  ordered g frame' parent hg hparent := by
    obtain ⟨frame, hframe, heq⟩ := hsame.frame_back hg
    exact h.ordered g frame parent hframe (heq.trans hparent)
  within g name hname := by
    rw [hsame.sights] at hname
    exact h.within g name hname
  outermost g frame' hg hparent := by
    obtain ⟨frame, hframe, heq⟩ := hsame.frame_back hg
    exact h.outermost g frame hframe (heq.trans hparent)
  closures c hc := by
    rw [hsame.closures] at hc
    exact (h.closures c hc).imp_right fun hnoted => hnoted.later (hsame.unchanged plan)

/-- A function is made. -/
theorem newClosure (h : Planned notes waits plan s) {c : Closure}
    (hc : waits c ∨ c.IsNoted notes plan s) :
    Planned notes waits plan (s.newClosure c).2 ∧ Unchanged plan plan s (s.newClosure c).2 := by
  have hlater : Unchanged plan plan s (s.newClosure c).2 := by
    refine ⟨fun g frame hg => ?_, fun _ _ _ => rfl, fun _ _ _ _ hname => hname, fun _ _ _ _ => rfl⟩
    exact ⟨frame, hg, rfl⟩
  refine ⟨⟨h.ordered, h.within, h.outermost, fun other hother => ?_⟩, hlater⟩
  rcases Array.mem_push.mp hother with hother | rfl
  · exact (h.closures other hother).imp_right fun hnoted => hnoted.later hlater
  · exact hc.imp_right fun hnoted => hnoted.later hlater

/-- A frame is made. -/
theorem newFrame (h : Planned notes waits plan s) (frame : Frame) (names : List String)
    (hparent : ∀ parent, frame.parent? = some parent → ∃ old, s.frame? parent = some old)
    (houtermost : frame.parent? = none → Native.log.holder ∉ names)
    (hnames : ∀ name, frame.sight name = true → name ∈ names) :
    Planned notes waits (plan.add (s.newFrame frame).1 names) (s.newFrame frame).2 ∧
      Unchanged plan (plan.add (s.newFrame frame).1 names) s (s.newFrame frame).2 := by
  have hsight : ∀ g, g ≠ (s.newFrame frame).1 → (s.newFrame frame).2.sight g = s.sight g :=
    fun g hne => s.sight_newFrame_of_ne hne
  have hne : ∀ g old, s.frame? g = some old → g ≠ (s.newFrame frame).1 := by
    rintro g old hg rfl
    rw [s.frame?_fresh frame] at hg
    cases hg
  have hlater : Unchanged plan (plan.add (s.newFrame frame).1 names) s (s.newFrame frame).2 := by
    refine ⟨fun g old hg => ?_, fun g old hg => plan.add_of_ne (hne g old hg) names,
      fun g old hg name hname => ?_, fun g old hg _ => hsight g (hne g old hg)⟩
    · exact ⟨old, (s.frame?_newFrame_of_ne (hne g old hg)).trans hg, rfl⟩
    · rw [hsight g (hne g old hg)]
      exact hname
  refine ⟨⟨?_, fun g name hname => ?_, fun g old hg hnone => ?_, fun c hc => ?_⟩, hlater⟩
  · refine h.ordered.newFrame fun parent hp => ?_
    obtain ⟨old, hold⟩ := hparent parent hp
    exact Store.index_lt_of_frame? hold
  · by_cases hg : g = (s.newFrame frame).1
    · subst hg
      unfold Store.sight at hname
      rw [s.frame?_newFrame_self frame] at hname
      rw [plan.add_self]
      exact hnames name hname
    · rw [hsight g hg] at hname
      rw [plan.add_of_ne hg]
      exact h.within g name hname
  · by_cases hg' : g = (s.newFrame frame).1
    · subst hg'
      rw [s.frame?_newFrame_self frame] at hg
      cases hg
      rw [plan.add_self]
      exact houtermost hnone
    · rw [s.frame?_newFrame_of_ne hg'] at hg
      rw [plan.add_of_ne hg']
      exact h.outermost g old hg hnone
  · exact (h.closures c hc).imp_right fun hnoted => hnoted.later hlater

/-- A name is given a value in a frame that was planned to have it. -/
theorem define (h : Planned notes waits plan s) {frame : Frame} (hf : s.frame? f = some frame)
    {name : String} (hname : name ∈ plan f) (value : Value) :
    Planned notes waits plan (s.define f name value) ∧
      Later (· = f) plan plan s (s.define f name value) ∧
      ∀ other, (s.define f name value).sight f other =
        (decide (other = name) || s.sight f other) := by
  -- the outermost frame is not planned to have the name of the built-in object
  have hvisible : frame.parent? = none → name ≠ Native.log.holder := by
    intro hparent heq
    rw [heq] at hname
    exact h.outermost f frame hf hparent hname
  have hsight := s.sight_define_self hf hvisible value
  have hsame : ∀ g, g ≠ f → (s.define f name value).sight g = s.sight g :=
    fun g hg => s.sight_define_of_ne hg name value
  have hlater : Later (· = f) plan plan s (s.define f name value) := by
    refine ⟨fun g old hg => ?_, fun _ _ _ => rfl, fun g old hg other hother => ?_,
      fun g old hg hne => hsame g hne⟩
    · refine ⟨_, (s.frame?_define f g name value).trans (by rw [hg]; rfl), ?_⟩
      split <;> rfl
    · by_cases heq : g = f
      · rw [heq] at hother ⊢
        rw [hsight, hother, Bool.or_true]
      · rw [hsame g heq]
        exact hother
  refine ⟨⟨h.ordered.define f name value, fun g other hother => ?_, fun g frame' hg hparent => ?_,
    fun c hc => ?_⟩, hlater, hsight⟩
  · by_cases heq : g = f
    · rw [heq] at hother ⊢
      rw [hsight] at hother
      rcases Bool.or_eq_true_iff.mp hother with hother | hother
      · rw [of_decide_eq_true hother]
        exact hname
      · exact h.within f other hother
    · rw [hsame g heq] at hother
      exact h.within g other hother
  · rw [s.frame?_define] at hg
    obtain ⟨old, hold, heq⟩ := Option.map_eq_some_iff.mp hg
    refine h.outermost g old hold ?_
    rw [← heq] at hparent
    split at hparent <;> exact hparent
  · exact (h.closures c hc).imp_right fun hnoted => hnoted.later hlater

end Planned

/-! ## Frames as levels say -/

namespace Stands

/-- The levels tell where a name may be found: if the notes have all these
places, then the names that an expression looks up are found where they allow. -/
theorem allow {e : Expr} (h : Stands notes waits plan s f levels)
    (hnoted : AllNoted notes (e.sites levels)) : notes.allow (s.sights f) e = true := by
  have hname : ∀ name position, (⟨name, position, levels⟩ : Site) ∈ e.sites levels →
      (address? (s.sights f) name).all (notes name position) = true := by
    intro name position hsite
    cases haddress : address? (s.sights f) name with
    | none => rfl
    | some i =>
      exact hnoted _ hsite i
        (Site.mem_candidates ⟨name, position, levels⟩ (h.now.sights h.planned.ordered) haddress)
  -- the name that an expression looks up itself is the first of its sites
  have hmem : ∀ {name position}, e.name? = some (name, position) →
      (⟨name, position, levels⟩ : Site) ∈ e.sites levels := by
    intro name position hnamed
    cases e with
    | reference =>
      cases hnamed
      rw [Expr.sites]
      exact List.mem_singleton.mpr rfl
    | assign target =>
      cases target <;> cases hnamed
      rw [Expr.sites, Expr.sites]
      exact List.mem_cons_self ..
    | update target =>
      cases target <;> cases hnamed
      rw [Expr.sites, Expr.sites]
      exact List.mem_singleton.mpr rfl
    | _ => cases hnamed
  unfold Notes.allow
  cases hnamed : e.name? with
  | none => rfl
  | some named => exact hname named.1 named.2 (hmem hnamed)

theorem weaken {l l' : Level} (h : Stands notes waits plan s f (l :: levels))
    (hmade : ∀ name ∈ l'.made, name ∈ l.made) (hhere : ∀ name ∈ l.here, name ∈ l'.here)
    (hever : l'.ever = l.ever) : Stands notes waits plan s f (l' :: levels) :=
  ⟨h.planned, h.now.head fun hl =>
    ⟨hl.plan.trans hever.symm, hl.bounds.weaken hmade hhere⟩⟩

/-- Nothing shows of changes that do not add names to the frames in sight. -/
theorem unchanged {plan' : Plan} {s' : Store} (h : Stands notes waits plan s f levels)
    (hplanned : Planned notes waits plan' s') (hlater : Unchanged plan plan' s s') :
    Stands notes waits plan' s' f levels :=
  ⟨hplanned, hlater.now h.now⟩

/-- A function sees frames that are as the levels around it say, once these are
opened. -/
theorem of_closure (h : Planned notes (fun _ => False) plan s) {c : Closure}
    (hc : c ∈ s.closures) : ∃ levels,
      Stands notes (fun _ => False) plan s c.frame (levels.map Level.opened) ∧
        AllNoted notes (c.definition.sites levels) := by
  obtain hwaits | ⟨levels, hlevels, hnoted⟩ := h.closures c hc
  · exact hwaits.elim
  · exact ⟨levels, ⟨h, hlevels.opened h.within⟩, hnoted⟩

/-- A function that sees the frames is noted if its sites are. -/
theorem isNoted (h : Stands notes waits plan s f levels) {definition : Function}
    (name? : Option String) (hnoted : AllNoted notes (definition.sites levels)) :
    Closure.IsNoted notes plan s ⟨definition, f, name?⟩ := by
  refine ⟨levels, h.now.mono (fun g frame hg => ?_) fun _ _ _ _ hl => hl.sure, hnoted⟩
  exact ⟨frame, hg, rfl⟩

/-- A function is made, all references in which are noted. -/
theorem newClosure (h : Stands notes waits plan s f levels) {definition : Function}
    (name? : Option String) (hnoted : AllNoted notes (definition.sites levels)) :
    Stands notes waits plan (s.newClosure ⟨definition, f, name?⟩).2 f levels ∧
      Unchanged plan plan s (s.newClosure ⟨definition, f, name?⟩).2 := by
  obtain ⟨hplanned, hlater⟩ := h.planned.newClosure (.inr (h.isNoted name? hnoted))
  exact ⟨h.unchanged hplanned hlater, hlater⟩

/-- A frame is made inside another. -/
theorem newFrame (h : Stands notes waits plan s f levels) {frame : Frame}
    (hparent : frame.parent? = some f) {l : Level} (hl : l.Bounds frame.sight)
    (hever : ∀ name ∈ l.here, name ∈ l.ever) :
    Stands notes waits (plan.add (s.newFrame frame).1 l.ever) (s.newFrame frame).2
        (s.newFrame frame).1 (l :: levels) ∧
      Unchanged plan (plan.add (s.newFrame frame).1 l.ever) s (s.newFrame frame).2 := by
  obtain ⟨hplanned, hlater⟩ := h.planned.newFrame frame l.ever
    (fun parent hp => by rw [hparent] at hp; cases hp; exact h.now.frame)
    (fun hnone => by rw [hparent] at hnone; cases hnone)
    fun name hname => hever name (hl.2 name hname)
  refine ⟨⟨hplanned, .inner (s.frame?_newFrame_self frame) hparent ⟨plan.add_self _ _, ?_⟩
    (hlater.now h.now)⟩, hlater⟩
  rw [s.sight_newFrame_self frame]
  exact hl

/-- A copy of a frame is as the levels say that the frame is. -/
theorem fork {l : Level} (h : Stands notes waits plan s f (l :: levels)) :
    Stands notes waits (plan.add (s.fork f).1 l.ever) (s.fork f).2 (s.fork f).1 (l :: levels) ∧
      Unchanged plan (plan.add (s.fork f).1 l.ever) s (s.fork f).2 := by
  obtain ⟨frame, hf⟩ := h.now.frame
  -- what is in sight in a frame is a matter of its record, which the copy shares
  have hsight : s.sight f = frame.sight := by
    funext name
    unfold Store.sight
    rw [hf, Option.any_some]
  rw [Store.fork_eq hf]
  have hself := s.frame?_newFrame_self frame
  have hnew : ∀ hl : l.Now plan s f,
      l.Now (plan.add (s.newFrame frame).1 l.ever) (s.newFrame frame).2 (s.newFrame frame).1 := by
    intro hl
    refine ⟨plan.add_self _ _, ?_⟩
    rw [s.sight_newFrame_self frame, ← hsight]
    exact hl.bounds
  have hnames : l.Now plan s f → ∀ name, frame.sight name = true → name ∈ l.ever := by
    intro hl name hname
    rw [← hsight] at hname
    exact hl.plan ▸ h.planned.within f name hname
  cases h.now with
  | outermost hframe hparent hl hb =>
    rw [hf] at hframe
    cases hframe
    obtain ⟨hplanned, hlater⟩ := h.planned.newFrame frame l.ever
      (fun parent hp => by rw [hparent] at hp; cases hp)
      (fun hnone => hl.plan ▸ h.planned.outermost f frame hf hnone) (hnames hl)
    exact ⟨⟨hplanned, .outermost hself hparent (hnew hl) hb⟩, hlater⟩
  | inner hframe hparent hl hrest =>
    rw [hf] at hframe
    cases hframe
    obtain ⟨hplanned, hlater⟩ := h.planned.newFrame frame l.ever
      (fun parent hp => by rw [hparent] at hp; cases hp; exact hrest.frame)
      (fun hnone => by rw [hparent] at hnone; cases hnone) (hnames hl)
    exact ⟨⟨hplanned, .inner hself hparent (hnew hl) (hlater.now hrest)⟩, hlater⟩

/-- A name is given a value in the innermost frame. -/
theorem define {l : Level} (h : Stands notes waits plan s f (l :: levels)) {name : String}
    (hname : name ∈ l.ever) (value : Value) :
    Stands notes waits plan (s.define f name value) f
        (l.add name :: levels) ∧
      Later (· = f) plan plan s (s.define f name value) := by
  cases h.now with
  | outermost hframe hparent hl hb =>
    obtain ⟨hplanned, hlater, hsight⟩ := h.planned.define hframe (hl.plan ▸ hname) value
    refine ⟨⟨hplanned, ?_⟩, hlater⟩
    exact .outermost (s.frame?_define_self hframe name value) hparent
      ⟨hl.plan, hl.bounds.add hsight⟩ hb
  | inner hframe hparent hl hrest =>
    obtain ⟨hplanned, hlater, hsight⟩ := h.planned.define hframe (hl.plan ▸ hname) value
    refine ⟨⟨hplanned, ?_⟩, hlater⟩
    refine .inner (s.frame?_define_self hframe name value) hparent
      ⟨hl.plan, hl.bounds.add hsight⟩ ?_
    have hlt := h.planned.ordered _ _ _ hframe hparent
    refine (hrest.older h.planned.ordered).mono hlater.frames fun g frame l hg hl => ⟨hl.2.plan, ?_⟩
    rw [hlater.same g frame hg fun heq => by rw [heq] at hl; exact absurd hl.1 (by omega)]
    exact hl.2.bounds

/-- The parameters of a function are given their values. -/
theorem bindParameters {ever : List String} (params : List Parameter) :
    ∀ (s : Store) (values : List Value) (made here : List String),
      Stands notes waits plan s f (⟨made, here, ever⟩ :: levels) →
      (∀ name ∈ params.map (·.name), name ∈ ever) →
      Stands notes waits plan (Evaluator.bindParameters s f params values) f
          (⟨params.map (·.name) ++ made, params.map (·.name) ++ here, ever⟩ :: levels) ∧
        Later (· = f) plan plan s (Evaluator.bindParameters s f params values) := by
  induction params with
  | nil =>
    intro s values made here h _
    unfold Evaluator.bindParameters
    exact ⟨h, .refl _ plan s⟩
  | cons param params ih =>
    intro s values made here h hever
    rw [List.map_cons] at hever
    have hstep : ∀ (value : Value) (rest : List Value),
        Stands notes waits plan
            (Evaluator.bindParameters (s.define f param.name value) f params rest)
            f (⟨(param :: params).map (·.name) ++ made,
              (param :: params).map (·.name) ++ here, ever⟩ :: levels) ∧
          Later (· = f) plan plan s
            (Evaluator.bindParameters (s.define f param.name value) f params rest) := by
      intro value rest
      obtain ⟨hfirst, hlater⟩ := h.define (hever _ (List.mem_cons_self ..)) value
      obtain ⟨hrest, hlater'⟩ := ih _ rest _ _ hfirst
        fun name hname => hever name (List.mem_cons_of_mem _ hname)
      refine ⟨hrest.weaken ?_ ?_ rfl, hlater.trans hlater' fun _ _ _ hg => hg⟩
      · exact fun name hname => List.perm_middle.symm.subset hname
      · exact fun name hname => List.perm_middle.subset hname
    cases values with
    | nil => exact hstep .undefined []
    | cons value rest => exact hstep value rest

end Stands

end TypedScript
