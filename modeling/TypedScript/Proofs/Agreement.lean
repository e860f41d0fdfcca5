import TypedScript.Proofs.Balance
import TypedScript.Proofs.Frames
import TypedScript.Proofs.Survey
import TypedScript.Proofs.ValueFaults

/-!
# Runs that agree

Two runs of the same part of a program from two machines often do the same up to
something that does not matter: how far they may descend, or which names their
frames have got. A `Discipline` says which stores and frames correspond, in worlds
that only grow, which halts occur on both sides (`passes`), and which ones may cut
the first run short while the second one goes on (`cuts`). Two machines `Meet` in a
world if their stores correspond, they have the same objects and functions, and
they have printed the same lines at the same depth.

Two runs `Agree` from two machines if the second one ends as the first one does,
and the machines meet again, unless the first one is cut; then its lines are the
first of those of the second. All runs are `Balanced`: the frame and the depth are
restored and the lines remain, however a run ends. Two runs are `Similar` if they
are balanced and agree whenever their machines meet and their frames correspond.
Runs are put together in a few ways, each of which has a rule here.
-/

namespace TypedScript

/-! ## What does not depend on frames -/

namespace Store

variable {s t : Store}

theorem nestedText_congr (hobjects : s.objects = t.objects)
    (hnames : ∀ id, (s.closure? id).bind (·.name?) = (t.closure? id).bind (·.name?))
    (levels : Nat) (ancestors : List ObjectId) (v : Value) :
    s.nestedText levels ancestors v = t.nestedText levels ancestors v := by
  have hproperties : ∀ o, s.properties o = t.properties o := properties_congr hobjects
  induction levels generalizing ancestors v with
  | zero =>
    cases v with
    | closure id => rw [nestedText, nestedText, hnames]
    | _ => rfl
  | succ levels ih =>
    cases v with
    | closure id => rw [nestedText, nestedText, hnames]
    | object id =>
      rw [nestedText, nestedText, hproperties]
      simp only [ih]
    | _ => rfl

/-- The text of a value depends on the objects and on the names of functions. -/
theorem textOf_congr (hobjects : s.objects = t.objects)
    (hnames : ∀ id, (s.closure? id).bind (·.name?) = (t.closure? id).bind (·.name?))
    (v : Value) : s.textOf v = t.textOf v := by
  unfold textOf
  rw [hobjects]
  cases v with
  | text value => rfl
  | _ => exact nestedText_congr hobjects hnames _ _ _

end Store

/-- A fault that has to do neither with names nor with the depth of calls. -/
def RuntimeCause.isOrdinary : RuntimeCause → Bool
  | .unknownVariable _ => false
  | .stackOverflow _ => false
  | _ => true

/-- A computation that fails with ordinary faults only. -/
def FailsOrdinarily {α : Type} (e : Except RuntimeFault α) : Prop :=
  ∀ fault, e = .error fault → fault.cause.isOrdinary = true

namespace FailsOrdinarily

/-- What lies in values has to do neither with names nor with the depth of calls. -/
theorem of_values {α : Type} {e : Except RuntimeFault α} (h : FailsForValues e) :
    FailsOrdinarily e := by
  intro fault heq
  have hcause := h fault heq
  generalize fault.cause = cause at hcause
  cases cause with
  | unknownVariable | stackOverflow => cases hcause
  | _ => rfl

theorem asNumber (v : Value) (position : Position) : FailsOrdinarily (v.asNumber position) :=
  of_values (.asNumber v position)

theorem asBoolean (v : Value) (position : Position) : FailsOrdinarily (v.asBoolean position) :=
  of_values (.asBoolean v position)

theorem expectObject (v : Value) (property : String) (position : Position) :
    FailsOrdinarily (v.expectObject property position) :=
  of_values (.expectObject v property position)

theorem getProperty (s : Store) (v : Value) (name : String) (position : Position) :
    FailsOrdinarily (s.getProperty v name position) :=
  of_values (.getProperty s v name position)

theorem apply (s : Store) (op : BinaryOp) (left right : Value) (position : Position) :
    FailsOrdinarily (Operation.apply s op left right position) :=
  of_values (.apply s op left right position)

end FailsOrdinarily

/-! ## Machines that meet -/

/-- What of two runs corresponds, and how one of them may halt. -/
structure Discipline (I World : Type) where
  /-- One world is later than another one. -/
  le : World → World → Prop
  refl : ∀ w, le w w
  trans : ∀ {w w' w''}, le w w' → le w' w'' → le w w''
  /-- Two frames correspond, as an index says. -/
  frames : World → I → FrameId → FrameId → Prop
  /-- The frames of two stores correspond. -/
  stores : World → Store → Store → Prop
  /-- The depths that calls may reach. -/
  depths : Nat → Prop
  /-- The halts that occur on both sides. -/
  passes : Halt → Prop
  /-- The halts that may cut the first run short. -/
  cutsLeft : Halt → Prop
  /-- The halts that may cut the second run short. -/
  cutsRight : Halt → Prop

namespace Discipline

variable {I World : Type} (D : Discipline I World) (S : Survey I)

/-- Two functions that differ in the frame at most, where the body passes a
survey. -/
structure Twins (w : World) (c d : Closure) : Prop where
  definition : c.definition = d.definition
  name : c.name? = d.name?
  placed : ∃ i, c.definition.passes S i = true ∧ D.frames w i c.frame d.frame

/-- Two machines whose stores correspond and that are the same otherwise. -/
structure Meet (w : World) (m n : Machine) : Prop where
  stores : D.stores w m.store n.store
  objects : m.store.objects = n.store.objects
  closures : ∀ id, Option.Rel (D.Twins S w) (m.store.closure? id) (n.store.closure? id)
  depth : m.depth = n.depth
  depths : D.depths m.depth
  output : m.output = n.output

/-- What changes of two stores have to keep, and which faults have to occur on
both sides. -/
structure Lawful : Prop where
  frames_mono : ∀ {w w' i f g}, D.le w w' → D.frames w i f g → D.frames w' i f g
  stores_congr : ∀ {w s s' t t'}, D.stores w s t → s'.frames = s.frames → t'.frames = t.frames →
    D.stores w s' t'
  fault : ∀ {fault : RuntimeFault}, fault.cause.isOrdinary = true → D.passes (.fault fault)
  lookup : ∀ {w s t i f g name position}, D.stores w s t → D.frames w i f g →
    S.expr i (.reference name position) = true → s.lookup? f name = t.lookup? g name ∧
      (s.lookup? f name = none → D.passes (.fault ⟨.unknownVariable name, position⟩))
  receiver : ∀ {w s t i f g position}, D.stores w s t → D.frames w i f g →
    S.expr i (.receiver position) = true → s.receiver? f = t.receiver? g ∧
      (s.receiver? f = none → D.passes (.fault ⟨.unknownVariable "this", position⟩))
  assign : ∀ {w s t i f g f' g' name} value, D.stores w s t → D.frames w i f g →
    s.owner? f name = some f' → t.owner? g name = some g' →
      ∃ w', D.le w w' ∧ D.stores w' (s.define f' name value) (t.define g' name value)
  define : ∀ {w s t i f g} name value, D.stores w s t → D.frames w i f g → S.isOpen i = true →
    ∃ w', D.le w w' ∧ D.stores w' (s.define f name value) (t.define g name value) ∧
      D.frames w' (S.declare i name) f g
  enter : ∀ {w s t i f g} isCall receiver?, D.stores w s t → D.frames w i f g →
    ∃ w', D.le w w' ∧
      D.stores w' (s.newFrame ⟨.empty, some f, isCall, receiver?⟩).2
        (t.newFrame ⟨.empty, some g, isCall, receiver?⟩).2 ∧
      D.frames w' (S.enter i) (s.newFrame ⟨.empty, some f, isCall, receiver?⟩).1
        (t.newFrame ⟨.empty, some g, isCall, receiver?⟩).1
  fork : ∀ {w s t i f g}, D.stores w s t → D.frames w i f g → S.isOpen i = true →
    ∃ w', D.le w w' ∧ D.stores w' (s.fork f).2 (t.fork g).2 ∧
      D.frames w' i (s.fork f).1 (t.fork g).1
  isOpen_enter : ∀ i, S.isOpen (S.enter i) = true
  isOpen_declare : ∀ {i} name, S.isOpen i = true → S.isOpen (S.declare i name) = true
  /-- The functions of a row are made before its names are there. -/
  hoisted : (∀ i definition, S.stmt i (.function definition) = false) ∨
    ∀ i name, S.declare i name = i

variable {D S}

theorem Twins.mono (hD : D.Lawful S) {w w' : World} {c d : Closure} (h : D.Twins S w c d)
    (hle : D.le w w') : D.Twins S w' c d := by
  obtain ⟨i, hpasses, hframes⟩ := h.placed
  exact ⟨h.definition, h.name, i, hpasses, hD.frames_mono hle hframes⟩

/-- Functions that were alike remain so. -/
theorem rel_twins_mono (hD : D.Lawful S) {w w' : World} {c? d? : Option Closure}
    (h : Option.Rel (D.Twins S w) c? d?) (hle : D.le w w') :
    Option.Rel (D.Twins S w') c? d? := by
  cases h with
  | some hcd => exact .some (hcd.mono hD hle)
  | none => exact .none

namespace Meet

variable {w w' : World} {m n : Machine}

/-- The frame in which names are looked up is no part of a meeting. -/
theorem inFrame (h : D.Meet S w m n) (f g : FrameId) :
    D.Meet S w { m with frame := f } { n with frame := g } :=
  ⟨h.stores, h.objects, h.closures, h.depth, h.depths, h.output⟩

/-- One more call in progress. -/
theorem deepen (h : D.Meet S w m n) (hdepths : D.depths (m.depth + 1)) :
    D.Meet S w { m with depth := m.depth + 1 } { n with depth := n.depth + 1 } :=
  ⟨h.stores, h.objects, h.closures, congrArg (· + 1) h.depth, hdepths, h.output⟩

/-- A change of frames only. -/
theorem of_frames (hD : D.Lawful S) (h : D.Meet S w m n) (hle : D.le w w') {s t : Store}
    (hstores : D.stores w' s t)
    (hs : s.objects = m.store.objects ∧ s.closures = m.store.closures)
    (ht : t.objects = n.store.objects ∧ t.closures = n.store.closures) :
    D.Meet S w' { m with store := s } { n with store := t } where
  stores := hstores
  objects := hs.1.trans (h.objects.trans ht.1.symm)
  closures id := by
    unfold Store.closure?
    dsimp only
    rw [hs.2, ht.2]
    exact rel_twins_mono hD (h.closures id) hle
  depth := h.depth
  depths := h.depths
  output := h.output

/-- The same change of objects. -/
theorem of_objects (hD : D.Lawful S) (h : D.Meet S w m n) {s t : Store}
    (hobjects : s.objects = t.objects)
    (hs : s.frames = m.store.frames ∧ s.closures = m.store.closures)
    (ht : t.frames = n.store.frames ∧ t.closures = n.store.closures) :
    D.Meet S w { m with store := s } { n with store := t } where
  stores := hD.stores_congr h.stores hs.1 ht.1
  objects := hobjects
  closures id := by
    unfold Store.closure?
    dsimp only
    rw [hs.2, ht.2]
    exact h.closures id
  depth := h.depth
  depths := h.depths
  output := h.output

/-- Two machines that meet have equally many functions. -/
theorem size_closures (h : D.Meet S w m n) :
    m.store.closures.size = n.store.closures.size := by
  have hrel := h.closures
  unfold Store.closure? at hrel
  refine Nat.le_antisymm (Nat.le_of_not_lt fun hlt => ?_) (Nat.le_of_not_lt fun hlt => ?_)
  · have hid := hrel ⟨n.store.closures.size⟩
    rw [Array.getElem?_eq_getElem hlt, Array.getElem?_eq_none (Nat.le_refl _)] at hid
    cases hid
  · have hid := hrel ⟨m.store.closures.size⟩
    rw [Array.getElem?_eq_none (Nat.le_refl _), Array.getElem?_eq_getElem hlt] at hid
    cases hid

/-- A new function in frames that correspond. -/
theorem newClosure (hD : D.Lawful S) (h : D.Meet S w m n) {definition : Function} {i : I}
    (hpasses : definition.passes S i = true) {f g : FrameId} (hframes : D.frames w i f g)
    (name? : Option String) :
    (m.store.newClosure ⟨definition, f, name?⟩).1 =
        (n.store.newClosure ⟨definition, g, name?⟩).1 ∧
      D.Meet S w { m with store := (m.store.newClosure ⟨definition, f, name?⟩).2 }
        { n with store := (n.store.newClosure ⟨definition, g, name?⟩).2 } := by
  refine ⟨congrArg ClosureId.mk h.size_closures, ?_⟩
  refine ⟨hD.stores_congr h.stores rfl rfl, h.objects, fun id => ?_, h.depth, h.depths, h.output⟩
  unfold Store.closure? Store.newClosure
  dsimp only
  rw [Array.getElem?_push, Array.getElem?_push, h.size_closures]
  split
  · exact .some ⟨rfl, rfl, i, hpasses, hframes⟩
  · exact h.closures id

theorem textOf (h : D.Meet S w m n) (v : Value) : m.store.textOf v = n.store.textOf v := by
  refine Store.textOf_congr h.objects (fun id => ?_) v
  have hid := h.closures id
  generalize m.store.closure? id = c? at hid
  generalize n.store.closure? id = d? at hid
  cases hid with
  | some hcd => exact hcd.name
  | none => rfl

theorem getProperty (h : D.Meet S w m n) (v : Value) (name : String) (position : Position) :
    m.store.getProperty v name position = n.store.getProperty v name position := by
  unfold Store.getProperty Store.properties
  rw [h.objects]

theorem apply (h : D.Meet S w m n) (op : BinaryOp) (a b : Value) (position : Position) :
    Operation.apply m.store op a b position = Operation.apply n.store op a b position := by
  unfold Operation.apply Operation.add
  rw [h.textOf a, h.textOf b]

end Meet

/-! ## Runs that agree -/

/-- Two runs end alike, in machines that meet again and are in the frames where the
runs began, or one of them is cut short when it has printed the first lines of the
other one. -/
inductive Agree (D : Discipline I World) (S : Survey I) {α β : Type} (w : World) (x : Run α)
    (m : Machine) (y : Run β) (n : Machine) (Q : World → α → β → Prop) : Prop where
  | ok {a : α} {b : β} {m' n' : Machine} {w' : World} (left : x m = .ok a m')
      (right : y n = .ok b n') (frame : m'.frame = m.frame) (frame' : n'.frame = n.frame)
      (le : D.le w w') (meet : D.Meet S w' m' n') (post : Q w' a b)
  | halt {halt : Halt} {m' n' : Machine} {w' : World} (left : x m = .error halt m')
      (right : y n = .error halt n') (passes : D.passes halt) (le : D.le w w')
      (meet : D.Meet S w' m' n')
  | cutLeft {halt : Halt} {m' : Machine} (left : x m = .error halt m') (cuts : D.cutsLeft halt)
      (output : m'.output.toList <+: (Run.endOf y n).output.toList)
  | cutRight {halt : Halt} {n' : Machine} (right : y n = .error halt n') (cuts : D.cutsRight halt)
      (output : n'.output.toList <+: (Run.endOf x m).output.toList)

namespace Agree

variable {α β γ δ : Type} {w : World} {m n : Machine} {x : Run α} {y : Run β}
  {Q : World → α → β → Prop}

theorem pure {a : α} {b : β} (h : D.Meet S w m n) (hpost : Q w a b) :
    D.Agree S w (Pure.pure a) m (Pure.pure b) n Q :=
  .ok rfl rfl rfl rfl (D.refl w) h hpost

/-- A halt that occurs on both sides. -/
theorem throw {halt : Halt} (h : D.Meet S w m n) (hpasses : D.passes halt) :
    D.Agree S w (MonadExcept.throw halt) m (MonadExcept.throw halt) n Q :=
  .halt rfl rfl hpasses (D.refl w) h

/-- A halt that cuts the first run short before it does anything. -/
theorem throwLeft {halt : Halt} (h : D.Meet S w m n) (hcuts : D.cutsLeft halt)
    (hy : Run.Balanced y) : D.Agree S w (MonadExcept.throw halt : Run α) m y n Q :=
  .cutLeft rfl hcuts (h.output ▸ (hy n).output)

/-- A halt that cuts the second run short before it does anything. -/
theorem throwRight {halt : Halt} (h : D.Meet S w m n) (hcuts : D.cutsRight halt)
    (hx : Run.Balanced x) : D.Agree S w x m (MonadExcept.throw halt : Run β) n Q :=
  .cutRight rfl hcuts (h.output ▸ (hx m).output)

/-- The runs go on from later machines. -/
theorem step {x' : Run α} {y' : Run β} {m' n' : Machine} {w' : World}
    (h : D.Agree S w' x m' y n' Q) (hx : x' m = x m') (hy : y' n = y n')
    (hm : m'.frame = m.frame) (hn : n'.frame = n.frame) (hle : D.le w w') :
    D.Agree S w x' m y' n Q := by
  have hendx : Run.endOf x' m = Run.endOf x m' := by unfold Run.endOf; rw [hx]
  have hendy : Run.endOf y' n = Run.endOf y n' := by unfold Run.endOf; rw [hy]
  cases h with
  | ok left right frame frame' le meet post =>
    exact .ok (hx.trans left) (hy.trans right) (frame.trans hm) (frame'.trans hn)
      (D.trans hle le) meet post
  | halt left right passes le meet =>
    exact .halt (hx.trans left) (hy.trans right) passes (D.trans hle le) meet
  | cutLeft left cuts output => exact .cutLeft (hx.trans left) cuts (hendy ▸ output)
  | cutRight right cuts output => exact .cutRight (hy.trans right) cuts (hendx ▸ output)

/-- Only what the runs do from their machines counts. -/
theorem congr {x' : Run α} {y' : Run β} (h : D.Agree S w x m y n Q)
    (hx : x' m = x m) (hy : y' n = y n) : D.Agree S w x' m y' n Q :=
  h.step hx hy rfl rfl (D.refl w)

theorem mono (h : D.Agree S w x m y n Q) {Q' : World → α → β → Prop}
    (himp : ∀ w' a b, D.le w w' → Q w' a b → Q' w' a b) : D.Agree S w x m y n Q' := by
  cases h with
  | ok left right frame frame' le meet post =>
    exact .ok left right frame frame' le meet (himp _ _ _ le post)
  | halt left right passes le meet => exact .halt left right passes le meet
  | cutLeft left cuts output => exact .cutLeft left cuts output
  | cutRight right cuts output => exact .cutRight right cuts output

theorem bind {f : α → Run γ} {g : β → Run δ} {R : World → γ → δ → Prop}
    (h : D.Agree S w x m y n Q) (hf : ∀ a, Run.Balanced (f a)) (hg : ∀ b, Run.Balanced (g b))
    (hfg : ∀ a b m' n' w', m'.frame = m.frame → n'.frame = n.frame → D.le w w' →
      D.Meet S w' m' n' → Q w' a b → D.Agree S w' (f a) m' (g b) n' R) :
    D.Agree S w (x >>= f) m (y >>= g) n R := by
  cases h with
  | ok left right frame frame' le meet post =>
    exact (hfg _ _ _ _ _ frame frame' le meet post).step (bind_of_ok left)
      (bind_of_ok right) frame frame' le
  | halt left right passes le meet =>
    exact .halt (bind_of_error left) (bind_of_error right) passes le meet
  | cutLeft left cuts output =>
    exact .cutLeft (bind_of_error left) cuts (output.trans (Run.output_bind hg n))
  | cutRight right cuts output =>
    exact .cutRight (bind_of_error right) cuts (output.trans (Run.output_bind hf m))

/-- The same action in frames that correspond. -/
theorem inFrame {f g : FrameId}
    (h : D.Agree S w x { m with frame := f } y { n with frame := g } Q) :
    D.Agree S w (Run.inFrame f x) m (Run.inFrame g y) n Q := by
  cases h with
  | ok left right frame frame' le meet post =>
    exact .ok (Run.inFrame_of_ok left) (Run.inFrame_of_ok right) rfl rfl le (meet.inFrame _ _) post
  | halt left right passes le meet =>
    exact .halt (Run.inFrame_of_error left) (Run.inFrame_of_error right) passes le
      (meet.inFrame _ _)
  | cutLeft left cuts output =>
    exact .cutLeft (Run.inFrame_of_error left) cuts (Run.output_inFrame g y n ▸ output)
  | cutRight right cuts output =>
    exact .cutRight (Run.inFrame_of_error right) cuts (Run.output_inFrame f x m ▸ output)

/-- An action in another frame on the left only. -/
theorem inFrameLeft {f : FrameId} (hy : Run.Balanced y)
    (h : D.Agree S w x { m with frame := f } y n Q) : D.Agree S w (Run.inFrame f x) m y n Q :=
  (inFrame (g := n.frame) h).congr rfl (Run.inFrame_self hy n).symm

/-- An action in another frame on the right only. -/
theorem inFrameRight {g : FrameId} (hx : Run.Balanced x)
    (h : D.Agree S w x m y { n with frame := g } Q) : D.Agree S w x m (Run.inFrame g y) n Q :=
  (inFrame (f := m.frame) h).congr (Run.inFrame_self hx m).symm rfl

/-- The same action as one more call in progress. -/
theorem deeper (hx : Run.Balanced x) (hdepths : D.depths m.depth)
    (h : D.Agree S w x { m with depth := m.depth + 1 } y { n with depth := n.depth + 1 } Q) :
    D.Agree S w (Run.deeper x) m (Run.deeper y) n Q := by
  have hback : ∀ {m'}, Run.endOf x { m with depth := m.depth + 1 } = m' →
      m'.depth - 1 = m.depth := by
    intro m' heq
    exact Nat.sub_eq_of_eq_add (heq ▸ (hx { m with depth := m.depth + 1 }).depth)
  have hmeet : ∀ {w' m' n'}, Run.endOf x { m with depth := m.depth + 1 } = m' →
      D.Meet S w' m' n' →
      D.Meet S w' { m' with depth := m'.depth - 1 } { n' with depth := n'.depth - 1 } := by
    intro w' m' n' heq h
    refine ⟨h.stores, h.objects, h.closures, congrArg (· - 1) h.depth, ?_, h.output⟩
    dsimp only
    rw [hback heq]
    exact hdepths
  cases h with
  | ok left right frame frame' le meet post =>
    exact .ok (Run.deeper_of_ok left) (Run.deeper_of_ok right) frame frame' le
      (hmeet (Run.endOf_of_ok left) meet) post
  | halt left right passes le meet =>
    exact .halt (Run.deeper_of_error left) (Run.deeper_of_error right) passes le
      (hmeet (Run.endOf_of_error left) meet)
  | cutLeft left cuts output =>
    exact .cutLeft (Run.deeper_of_error left) cuts (Run.output_deeper y n ▸ output)
  | cutRight right cuts output =>
    exact .cutRight (Run.deeper_of_error right) cuts (Run.output_deeper x m ▸ output)

end Agree

end Discipline

end TypedScript
