import TypedScript.Proofs.Balance
import TypedScript.Proofs.Plans

/-!
# Runs that do the same and keep to a plan

Two runs are `Alike` from a machine if they end in the same way, and with a
value and a machine as wanted. They are `Steady` if they are alike from every
machine with a planned store that is as levels say, and end with such a store:
it is later than the first one, and of the frames that were there only the
current one may have got names. Runs are put together in a few ways, each of
which has a rule here. Most of what a run does by itself does not concern names
at all (`Quiet`).
-/

namespace TypedScript.Run

variable {α β : Type}

/-! ## Runs that do the same -/

/-- Two runs that end in the same way, with a value and a machine as wanted. -/
def Alike (x y : Run α) (m : Machine) (wanted : α → Machine → Prop) : Prop :=
  y m = x m ∧ ∀ a m', x m = .ok a m' → wanted a m'

namespace Alike

variable {x y : Run α} {f g : α → Run β} {m m₁ : Machine} {Q Q' : α → Machine → Prop}

theorem refl (h : ∀ a m', x m = .ok a m' → Q a m') : Alike x x m Q :=
  ⟨rfl, h⟩

theorem mono (h : Alike x y m Q) (himp : ∀ a m', Q a m' → Q' a m') : Alike x y m Q' :=
  ⟨h.1, fun a m' hx => himp a m' (h.2 a m' hx)⟩

theorem pure {a : α} (h : Q a m) : Alike (Pure.pure a) (Pure.pure a) m Q := by
  refine refl fun b m' hb => ?_
  cases hb
  exact h

theorem throw {halt : Halt} :
    Alike (MonadExcept.throw halt : Run α) (MonadExcept.throw halt) m Q := by
  refine refl fun b m' hb => ?_
  cases hb

theorem bind {Q' : β → Machine → Prop} (hx : Alike x y m Q)
    (hf : ∀ a m', Q a m' → Alike (f a) (g a) m' Q') : Alike (x >>= f) (y >>= g) m Q' := by
  unfold Alike
  rw [bind_run, bind_run, hx.1]
  cases hxm : x m with
  | ok a m' => exact hf a m' (hx.2 a m' hxm)
  | error halt m' => exact ⟨rfl, fun b m'' h => by cases h⟩

/-- A step whose end is known. -/
theorem step {Q' : β → Machine → Prop} {a : α} (hx : x m = .ok a m₁)
    (hf : Alike (f a) (g a) m₁ Q') : Alike (x >>= f) (x >>= g) m Q' := by
  refine bind (Q := fun b m' => b = a ∧ m' = m₁) (refl fun b m' h => ?_) ?_
  · rw [hx] at h
    cases h
    exact ⟨rfl, rfl⟩
  · intro b m' hpost
    obtain ⟨rfl, rfl⟩ := hpost
    exact hf

theorem inFrame {frame : FrameId}
    (h : Alike x y { m with frame } fun a m' => Q a { m' with frame := m.frame }) :
    Alike (Run.inFrame frame x) (Run.inFrame frame y) m Q := by
  unfold Alike Run.inFrame
  dsimp only
  rw [h.1]
  cases hx : x { m with frame } with
  | ok a m' =>
    refine ⟨rfl, fun b m'' hb => ?_⟩
    cases hb
    exact h.2 a m' hx
  | error halt m' => exact ⟨rfl, fun b m'' hb => by cases hb⟩

theorem deeper (h : Alike x y { m with depth := m.depth + 1 }
      fun a m' => Q a { m' with depth := m'.depth - 1 }) :
    Alike (Run.deeper x) (Run.deeper y) m Q := by
  unfold Alike Run.deeper
  rw [h.1]
  cases hx : x { m with depth := m.depth + 1 } with
  | ok a m' =>
    refine ⟨rfl, fun b m'' hb => ?_⟩
    cases hb
    exact h.2 a m' hx
  | error halt m' => exact ⟨rfl, fun b m'' hb => by cases hb⟩

end Alike

/-! ## Runs that do not concern names -/

/-- A run that stays in the current frame, gives no name to any frame and makes
no function. -/
def Quiet (x : Run α) : Prop :=
  ∀ m a m', x m = .ok a m' → m'.frame = m.frame ∧ m.store.SameOutline m'.store

namespace Quiet

theorem of_same {x : Run α} (h : ∀ m a m', x m = .ok a m' → m' = m) : Quiet x := by
  intro m a m' hx
  rw [h m a m' hx]
  exact ⟨rfl, .refl _⟩

theorem pure (a : α) : Quiet (Pure.pure a : Run α) :=
  of_same fun m b m' h => by cases h; rfl

theorem fail (cause : RuntimeCause) (position : Position) :
    Quiet (Run.fail cause position : Run α) :=
  of_same fun m b m' h => by cases h

theorem bind {x : Run α} {f : α → Run β} (hx : Quiet x) (hf : ∀ a, Quiet (f a)) :
    Quiet (x >>= f) := by
  intro m b m'' h
  obtain ⟨a, m', hxm, hfm⟩ := bind_eq_ok.mp h
  obtain ⟨hframe, hsame⟩ := hx m a m' hxm
  obtain ⟨hframe', hsame'⟩ := hf a m' b m'' hfm
  exact ⟨hframe'.trans hframe, hsame.trans hsame'⟩

theorem ofExcept (e : Except RuntimeFault α) : Quiet (Run.ofExcept e) := by
  cases e with
  | ok a => exact .pure a
  | error fault => exact of_same fun m b m' h => by cases h

theorem ask (question : Store → α) : Quiet (Run.ask question) :=
  of_same fun m b m' h => by cases h; rfl

theorem frame : Quiet Run.frame :=
  of_same fun m b m' h => by cases h; rfl

theorem emit (line : String) : Quiet (Run.emit line) := by
  intro m a m' h
  cases h
  exact ⟨rfl, .refl _⟩

theorem setProperty (o : ObjectId) (name : String) (value : Value) :
    Quiet (Run.change (·.setProperty o name value)) := by
  intro m a m' h
  cases h
  exact ⟨rfl, fun _ => rfl, rfl, rfl⟩

theorem newObject : Quiet (Run.make (·.newObject .empty)) := by
  intro m a m' h
  cases h
  exact ⟨rfl, fun _ => rfl, rfl, rfl⟩

theorem lookup (name : String) (position : Position) : Quiet (Run.lookup name position) := by
  refine frame.bind fun f => (ask _).bind fun value? => ?_
  cases value? with
  | some value => exact .pure value
  | none => exact .fail _ _

theorem receiver (position : Position) : Quiet (Run.receiver position) := by
  refine frame.bind fun f => (ask _).bind fun value? => ?_
  cases value? with
  | some value => exact .pure value
  | none => exact .fail _ _

theorem property (v : Value) (name : String) (position : Position) :
    Quiet (Run.property v name position) :=
  (ask _).bind fun _ => .ofExcept _

/-- An assignment gives a new value to a name that a frame has. -/
theorem assign (name : String) (value : Value) (position : Position) :
    Quiet (Run.assign name value position) := by
  intro m a m' h
  obtain ⟨_, m₁, hframe, h⟩ := bind_eq_ok.mp h
  cases hframe
  obtain ⟨_, m₂, hask, h⟩ := bind_eq_ok.mp h
  cases hask
  dsimp only at h
  cases howner : m.store.owner? m.frame name with
  | none => rw [howner] at h; cases h
  | some owner =>
    rw [howner] at h
    cases h
    have hbinding : (m.store.binding? name owner).isSome = true := by
      unfold Store.owner? at howner
      exact List.find?_some (p := fun g => (m.store.binding? name g).isSome) howner
    exact ⟨rfl, .define hbinding value⟩

end Quiet

/-! ## Runs that keep to a plan -/

/-- A planned store without functions that wait, seen from the current frame. -/
abbrev Ready (notes : Notes) (plan : Plan) (m : Machine) (levels : List Level) : Prop :=
  Stands notes (fun _ => False) plan m.store m.frame levels

/-- A machine is reached from another one with a store that is later, in the
same frame, where the names are as levels say. -/
def Reaches (notes : Notes) (plan : Plan) (m : Machine) (after : List Level) (m' : Machine) :
    Prop :=
  m'.frame = m.frame ∧ ∃ plan', Ready notes plan' m' after ∧
    Later (· = m.frame) plan plan' m.store m'.store

/-- Two runs that are alike and keep to plans, between levels. -/
def Steady (notes : Notes) (levels after : List Level) (x y : Run α) : Prop :=
  ∀ plan m, Ready notes plan m levels → Alike x y m fun _ m' => Reaches notes plan m after m'

theorem Reaches.of_unchanged {notes : Notes} {plan plan' : Plan} {m m' : Machine}
    {levels : List Level} (h : Ready notes plan m levels) (hframe : m'.frame = m.frame)
    (hplanned : Planned notes (fun _ => False) plan' m'.store)
    (hlater : Unchanged plan plan' m.store m'.store) : Reaches notes plan m levels m' := by
  refine ⟨hframe, plan', ?_, hlater.mono fun _ hnot => hnot.elim⟩
  unfold Ready
  rw [hframe]
  exact h.unchanged hplanned hlater

namespace Steady

variable {notes : Notes} {levels between after : List Level} {x y : Run α} {f g : α → Run β}

theorem bind (hx : Steady notes levels between x y)
    (hf : ∀ a, Steady notes between after (f a) (g a)) :
    Steady notes levels after (x >>= f) (y >>= g) := by
  intro plan m h
  refine (hx plan m h).bind fun a m' hreach => ?_
  obtain ⟨hframe, plan', hready, hlater⟩ := hreach
  refine (hf a plan' m' hready).mono fun b m'' hreach' => ?_
  obtain ⟨hframe', plan'', hready', hlater'⟩ := hreach'
  exact ⟨hframe'.trans hframe, plan'', hready',
    hlater.trans hlater' fun g _ _ hg => hg.trans hframe⟩

theorem quiet (hx : Quiet x) : Steady notes levels levels x x := by
  intro plan m h
  refine .refl fun a m' hm' => ?_
  obtain ⟨hframe, hsame⟩ := hx m a m' hm'
  exact .of_unchanged h hframe (h.planned.of_sameOutline hsame) (hsame.unchanged plan)

theorem pure (a : α) : Steady notes levels levels (Pure.pure a) (Pure.pure a) :=
  .quiet (.pure a)

theorem outOfFuel : Steady notes levels after (Run.outOfFuel : Run α) Run.outOfFuel :=
  fun _ _ _ => .throw

/-- What comes next has no part in names. -/
theorem followed (hx : Steady notes levels after x y) (hf : ∀ a, Quiet (f a)) :
    Steady notes levels after (x >>= f) (y >>= f) :=
  hx.bind fun a => .quiet (hf a)

theorem weaken {l l' : Level} (h : Steady notes levels (l :: after) x y)
    (hmade : ∀ name ∈ l'.made, name ∈ l.made) (hhere : ∀ name ∈ l.here, name ∈ l'.here)
    (hever : l'.ever = l.ever) : Steady notes levels (l' :: after) x y := by
  intro plan m hm
  refine (h plan m hm).mono fun a m' hreach => ?_
  obtain ⟨hframe, plan', hready, hlater⟩ := hreach
  exact ⟨hframe, plan', hready.weaken hmade hhere hever, hlater⟩

/-- Two runs in another frame. -/
theorem inFrame (h : Steady notes levels after x y) {plan : Plan} {m : Machine} {frame : FrameId}
    (hstands : Stands notes (fun _ => False) plan m.store frame levels) :
    Alike (Run.inFrame frame x) (Run.inFrame frame y) m fun _ m' => m'.frame = m.frame ∧
      ∃ plan', Stands notes (fun _ => False) plan' m'.store frame after ∧
        Later (· = frame) plan plan' m.store m'.store := by
  refine .inFrame ((h plan { m with frame } hstands).mono fun a m' hreach => ?_)
  obtain ⟨hframe, plan', hready, hlater⟩ := hreach
  unfold Ready at hready
  rw [hframe] at hready
  exact ⟨rfl, plan', hready, hlater⟩

/-- The current frame gets a name that it was planned to have. -/
theorem define {l : Level} {name : String} (hname : name ∈ l.ever) (value : Value) :
    Steady notes (l :: levels) (l.add name :: levels) (Run.define name value)
      (Run.define name value) := by
  intro plan m h
  refine .refl fun a m' hm' => ?_
  cases hm'
  obtain ⟨hstands, hlater⟩ := h.define hname value
  exact ⟨rfl, plan, hstands, hlater⟩

/-- A function is made in the current frame. -/
theorem makeClosure {definition : Function} (hnoted : AllNoted notes (definition.sites levels))
    (name? : Option String) :
    Steady notes levels levels (Run.makeClosure definition name?)
      (Run.makeClosure definition name?) := by
  intro plan m h
  refine .refl fun a m' hm' => ?_
  cases hm'
  obtain ⟨hstands, hlater⟩ := h.newClosure name? hnoted
  exact ⟨rfl, plan, hstands, hlater.mono fun _ hnot => hnot.elim⟩

end Steady

end TypedScript.Run
