import TypedScript.Proofs.Frames
import TypedScript.Proofs.Journals

/-!
# Objects that are mentioned

A run comes by an object in two ways: it makes the object itself, or it finds the object in
a variable, as the receiver of a call or in a property. So what it finds and leaves in the
store is governed by what was there before. An `Admission` says which objects may be
mentioned when so many have been made. A run that starts with a store where only admitted
objects are mentioned ends with such a store, whatever it was, and it writes to no object
that is never admitted (`evaluator_heeds`).

Two admissions matter here. If the objects are admitted that have been made, this tells that
a store never mentions an object that is not there (`Machine.Grounded`). And if all objects
are admitted but one, it tells that an object that nothing mentions is left alone.
-/

namespace TypedScript

/-! ## Values in records -/

namespace Record

variable {α : Type} {P : α → Prop}

/-- All values of a record have a property. -/
def All (P : α → Prop) (r : Record α) : Prop :=
  ∀ entry ∈ r.entries, P entry.2

theorem all_empty : (empty : Record α).All P :=
  fun _ hentry => absurd hentry List.not_mem_nil

theorem All.set {r : Record α} (h : r.All P) (name : String) {value : α} (hvalue : P value) :
    (r.set name value).All P := by
  intro entry hentry
  rcases mem_put hentry with hwritten | hold
  · rwa [hwritten]
  · exact h entry hold

theorem All.get? {r : Record α} (h : r.All P) {name : String} {value : α}
    (hvalue : r.get? name = some value) : P value :=
  h _ (mem_entries_of_get? hvalue)

theorem All.mono {r : Record α} (h : r.All P) {Q : α → Prop} (himp : ∀ a, P a → Q a) :
    r.All Q :=
  fun entry hentry => himp entry.2 (h entry hentry)

end Record

/-! ## Admissions -/

/-- Which objects may be mentioned when so many have been made. -/
structure Admission where
  /-- How many objects there are at least. -/
  least : Nat
  admits : Nat → ObjectId → Prop
  mono : ∀ {n n' o}, n ≤ n' → admits n o → admits n' o
  /-- What a run makes is admitted. -/
  new : ∀ {n}, least ≤ n → admits (n + 1) ⟨n⟩

namespace Admission

/-- The objects that have been made. -/
def made : Admission where
  least := 0
  admits n o := o.index < n
  mono hle h := Nat.lt_of_lt_of_le h hle
  new _ := Nat.lt_succ_self _

/-- All objects but one that is there. -/
def except (o : ObjectId) : Admission where
  least := o.index + 1
  admits _ p := p ≠ o
  mono _ h := h
  new hle h := by
    rw [← h] at hle
    exact Nat.lt_irrefl _ hle

variable (A : Admission)

/-- A value that mentions no other objects than those admitted. -/
def Allows (n : Nat) (v : Value) : Prop :=
  ∀ o, v = .object o → A.admits n o

/-- A value that there may be is allowed. -/
def AllowsAny (n : Nat) (v? : Option Value) : Prop :=
  ∀ v, v? = some v → A.Allows n v

/-- A statement gives back an allowed value if it gives back one. -/
def AllowsEnd (n : Nat) (completion : Completion) : Prop :=
  ∀ v, completion = .gaveBack v → A.Allows n v

/-- The object of a place is admitted. -/
def AllowsPlace (n : Nat) (place : Place) : Prop :=
  ∀ o name, place = .property o name → A.admits n o

/-- The values of a frame are allowed. -/
structure AllowsFrame (n : Nat) (frame : Frame) : Prop where
  bindings : frame.bindings.All (A.Allows n)
  receiver : A.AllowsAny n frame.receiver?

/-- All values of a store are allowed. -/
structure AllowsStore (s : Store) : Prop where
  least : A.least ≤ s.objects.size
  frames : ∀ f frame, s.frame? f = some frame → A.AllowsFrame s.objects.size frame
  properties : ∀ o, (s.properties o).All (A.Allows s.objects.size)

variable {A} {n n' : Nat} {s : Store}

/-! ### Values -/

theorem Allows.mono {v : Value} (h : A.Allows n v) (hle : n ≤ n') : A.Allows n' v :=
  fun o ho => A.mono hle (h o ho)

theorem Allows.of_not_object {v : Value} (h : v.asObject? = none) : A.Allows n v := by
  rintro o rfl
  cases h

theorem AllowsAny.mono {v? : Option Value} (h : A.AllowsAny n v?) (hle : n ≤ n') :
    A.AllowsAny n' v? :=
  fun v hv => (h v hv).mono hle

theorem allowsAny_none : A.AllowsAny n none :=
  fun _ h => nomatch h

theorem allowsFrame_empty (parent? : Option FrameId) (isCall : Bool) {receiver? : Option Value}
    (h : A.AllowsAny n receiver?) : A.AllowsFrame n ⟨.empty, parent?, isCall, receiver?⟩ :=
  ⟨Record.all_empty, h⟩

/-! ### Stores -/

namespace AllowsStore

theorem binding (h : A.AllowsStore s) {name : String} {f : FrameId} {v : Value}
    (hv : s.binding? name f = some v) : A.Allows s.objects.size v := by
  obtain ⟨frame, hframe, hget⟩ := Option.bind_eq_some_iff.mp hv
  exact (h.frames f frame hframe).bindings.get? hget

theorem lookup? (h : A.AllowsStore s) (f : FrameId) (name : String) :
    A.AllowsAny s.objects.size (s.lookup? f name) := by
  intro v hv
  obtain ⟨g, -, hbinding⟩ := List.exists_of_findSome?_eq_some hv
  exact h.binding hbinding

theorem receiver? (h : A.AllowsStore s) (f : FrameId) :
    A.AllowsAny s.objects.size (s.receiver? f) := by
  intro v hv
  obtain ⟨found, hfound, hreceiver⟩ := Option.bind_eq_some_iff.mp hv
  obtain ⟨g, -, hg⟩ := List.exists_of_findSome?_eq_some hfound
  cases hframe : s.frame? g with
  | none =>
    rw [hframe] at hg
    cases hg
  | some frame =>
    rw [hframe] at hg
    dsimp only at hg
    split at hg
    · cases hg
      exact (h.frames g frame hframe).receiver v hreceiver
    · cases hg

theorem property (h : A.AllowsStore s) (o : ObjectId) (name : String) :
    A.Allows s.objects.size (((s.properties o).get? name).getD .undefined) := by
  cases hget : (s.properties o).get? name with
  | none => exact .of_not_object rfl
  | some v => exact (h.properties o).get? hget

theorem newFrame (h : A.AllowsStore s) {frame : Frame}
    (hframe : A.AllowsFrame s.objects.size frame) : A.AllowsStore (s.newFrame frame).2 := by
  refine ⟨h.least, fun f found hfound => ?_, h.properties⟩
  rw [Store.frame?_newFrame] at hfound
  split at hfound
  · cases hfound
    exact hframe
  · exact h.frames f found hfound

theorem fork (h : A.AllowsStore s) (f : FrameId) : A.AllowsStore (s.fork f).2 := by
  refine h.newFrame ?_
  cases hframe : s.frame? f with
  | none => exact allowsFrame_empty none false allowsAny_none
  | some frame => exact h.frames f frame hframe

theorem define (h : A.AllowsStore s) (f : FrameId) (name : String) {v : Value}
    (hv : A.Allows s.objects.size v) : A.AllowsStore (s.define f name v) := by
  refine ⟨h.least, fun g found hfound => ?_, h.properties⟩
  rw [Store.frame?_define] at hfound
  obtain ⟨old, hold, rfl⟩ := Option.map_eq_some_iff.mp hfound
  have hframe := h.frames g old hold
  split
  · exact ⟨hframe.bindings.set name hv, hframe.receiver⟩
  · exact hframe

theorem bindParameters (h : A.AllowsStore s) (f : FrameId) (params : List Parameter)
    {values : List Value} (hvalues : ∀ v ∈ values, A.Allows s.objects.size v) :
    A.AllowsStore (Evaluator.bindParameters s f params values) := by
  induction params generalizing s values with
  | nil => exact h
  | cons param rest ih =>
    cases values with
    | nil => exact ih (h.define f param.name (.of_not_object rfl)) hvalues
    | cons v values =>
      obtain ⟨hv, hvalues⟩ := List.forall_mem_cons.mp hvalues
      exact ih (h.define f param.name hv) hvalues

theorem setProperty (h : A.AllowsStore s) (o : ObjectId) (name : String) {v : Value}
    (hv : A.Allows s.objects.size v) : A.AllowsStore (s.setProperty o name v) := by
  have hsize : (s.setProperty o name v).objects.size = s.objects.size := Array.size_modify ..
  refine ⟨hsize ▸ h.least, fun f frame hframe => hsize ▸ h.frames f frame hframe, fun p => ?_⟩
  rw [hsize, Store.properties_setProperty]
  split
  · exact (h.properties p).set name hv
  · exact h.properties p

/-- With a new object without properties, the same values are there. -/
theorem newObject (h : A.AllowsStore s) {B : Admission} (hleast : B.least ≤ s.objects.size + 1)
    (himp : ∀ v, A.Allows s.objects.size v → B.Allows (s.objects.size + 1) v) :
    B.AllowsStore (s.newObject .empty).2 := by
  have hsize : (s.newObject .empty).2.objects.size = s.objects.size + 1 := Array.size_push ..
  refine ⟨hsize ▸ hleast, fun f frame hframe => ?_, fun o => ?_⟩
  · have hold := h.frames f frame hframe
    rw [hsize]
    exact ⟨hold.bindings.mono himp, fun v hv => himp v (hold.receiver v hv)⟩
  · rw [hsize, Store.properties_newObject_empty]
    exact (h.properties o).mono himp

end AllowsStore

/-! ## What a run keeps -/

variable (A) in
/-- A machine later in a run: no object that is never admitted was written to. -/
structure Kept (m m' : Machine) : Prop where
  store : A.AllowsStore m'.store
  size_le : m.store.objects.size ≤ m'.store.objects.size
  hidden : ∀ o, (∀ n, ¬A.admits n o) → m'.store.properties o = m.store.properties o

/-- Where the objects are the same, it is enough that all values are still allowed. -/
theorem Kept.of_objects {m m' : Machine} (h : A.AllowsStore m'.store)
    (hobjects : m'.store.objects = m.store.objects) : A.Kept m m' :=
  ⟨h, Nat.le_of_eq (congrArg Array.size hobjects.symm),
    fun o _ => Store.properties_congr hobjects o⟩

theorem Kept.refl {m : Machine} (h : A.AllowsStore m.store) : A.Kept m m :=
  .of_objects h rfl

theorem Kept.trans {m m' m'' : Machine} (h : A.Kept m m') (h' : A.Kept m' m'') : A.Kept m m'' :=
  ⟨h'.store, Nat.le_trans h.size_le h'.size_le,
    fun o ho => (h'.hidden o ho).trans (h.hidden o ho)⟩

end Admission

namespace Run

variable {α β : Type} {A : Admission} {n : Nat}

/-- From a store with so many objects at least, where all values are allowed, a run keeps to
an admission, and its value is as wanted for as many objects as there are then. -/
def Heeds (A : Admission) (n : Nat) (x : Run α) (wanted : Nat → α → Prop) : Prop :=
  ∀ m, n ≤ m.store.objects.size → A.AllowsStore m.store →
    match x m with
    | .ok a m' => A.Kept m m' ∧ wanted m'.store.objects.size a
    | .error _ m' => A.Kept m m'

namespace Heeds

variable {x : Run α} {Q : Nat → α → Prop} {R : Nat → β → Prop}

theorem endOf (hx : Heeds A n x Q) {m : Machine} (hn : n ≤ m.store.objects.size)
    (hm : A.AllowsStore m.store) : A.Kept m (endOf x m) := by
  have hresult := hx m hn hm
  cases h : x m with
  | ok a m' =>
    rw [h] at hresult
    rw [endOf_of_ok h]
    exact hresult.1
  | error halt m' =>
    rw [h] at hresult
    rw [endOf_of_error h]
    exact hresult

theorem of_ok (hx : Heeds A n x Q) {m m' : Machine} {a : α} (hn : n ≤ m.store.objects.size)
    (hm : A.AllowsStore m.store) (h : x m = .ok a m') :
    A.Kept m m' ∧ Q m'.store.objects.size a := by
  have hresult := hx m hn hm
  rw [h] at hresult
  exact hresult

theorem pure {a : α} (h : ∀ n', n ≤ n' → Q n' a) : Heeds A n (Pure.pure a) Q :=
  fun _ hn hm => ⟨.refl hm, h _ hn⟩

theorem throw (halt : Halt) : Heeds A n (MonadExcept.throw halt : Run α) Q :=
  fun _ _ hm => .refl hm

theorem bind {f : α → Run β} (hx : Heeds A n x Q)
    (hf : ∀ n' a, n ≤ n' → Q n' a → Heeds A n' (f a) R) : Heeds A n (x >>= f) R := by
  intro m hn hm
  have hresult := hx m hn hm
  cases h : x m with
  | error halt m' =>
    rw [h] at hresult
    rw [bind_of_error h]
    exact hresult
  | ok a m' =>
    rw [h] at hresult
    obtain ⟨hkept, ha⟩ := hresult
    -- the second run begins with as many objects as the first one has left
    have hrest := hf _ a (Nat.le_trans hn hkept.size_le) ha m' (Nat.le_refl _) hkept.store
    rw [bind_of_ok h]
    cases hend : f a m' with
    | ok b m'' =>
      rw [hend] at hrest
      exact ⟨hkept.trans hrest.1, hrest.2⟩
    | error halt m'' =>
      rw [hend] at hrest
      exact hkept.trans hrest

theorem inFrame (hx : Heeds A n x Q) (f : FrameId) : Heeds A n (Run.inFrame f x) Q := by
  intro m hn hm
  have hresult := hx { m with frame := f } hn hm
  cases h : x { m with frame := f } with
  | ok a m' =>
    rw [h] at hresult
    rw [inFrame_of_ok h]
    exact ⟨⟨hresult.1.store, hresult.1.size_le, hresult.1.hidden⟩, hresult.2⟩
  | error halt m' =>
    rw [h] at hresult
    rw [inFrame_of_error h]
    exact ⟨hresult.store, hresult.size_le, hresult.hidden⟩

theorem deeper (hx : Heeds A n x Q) : Heeds A n (Run.deeper x) Q := by
  intro m hn hm
  have hresult := hx { m with depth := m.depth + 1 } hn hm
  cases h : x { m with depth := m.depth + 1 } with
  | ok a m' =>
    rw [h] at hresult
    rw [deeper_of_ok h]
    exact ⟨⟨hresult.1.store, hresult.1.size_le, hresult.1.hidden⟩, hresult.2⟩
  | error halt m' =>
    rw [h] at hresult
    rw [deeper_of_error h]
    exact ⟨hresult.store, hresult.size_le, hresult.hidden⟩

/-! ### What a run does by itself -/

/-- A value that does not depend on the machine. -/
theorem ofExcept {e : Except RuntimeFault α} (h : ∀ a, e = .ok a → ∀ n', n ≤ n' → Q n' a) :
    Heeds A n (Run.ofExcept e) Q := by
  cases e with
  | ok a => exact pure (h a rfl)
  | error fault => exact throw _

theorem get : Heeds A n (MonadState.get : Run Machine) fun _ _ => True :=
  fun _ _ hm => ⟨.refl hm, trivial⟩

theorem frame : Heeds A n Run.frame fun _ _ => True :=
  fun _ _ hm => ⟨.refl hm, trivial⟩

theorem emit (line : String) : Heeds A n (Run.emit line) fun _ _ => True :=
  fun _ _ hm => ⟨.of_objects hm rfl, trivial⟩

theorem ask {question : Store → α}
    (h : ∀ s, A.AllowsStore s → Q s.objects.size (question s)) : Heeds A n (Run.ask question) Q :=
  fun m _ hm => ⟨.refl hm, h m.store hm⟩

/-! Of some values nothing is wanted. -/

theorem ofExcept_any (e : Except RuntimeFault α) :
    Heeds A n (Run.ofExcept e) fun _ _ => True :=
  ofExcept fun _ _ _ _ => trivial

theorem ask_any (question : Store → α) : Heeds A n (Run.ask question) fun _ _ => True :=
  ask fun _ _ => trivial

/-- A change of the frames. -/
theorem change {f : Store → Store} (hobjects : ∀ s, (f s).objects = s.objects)
    (h : ∀ s, n ≤ s.objects.size → A.AllowsStore s → A.AllowsStore (f s)) :
    Heeds A n (Run.change f) fun _ _ => True :=
  fun m hn hm => ⟨.of_objects (h m.store hn hm) (hobjects m.store), trivial⟩

/-- A new frame or function. -/
theorem make {f : Store → α × Store} (hobjects : ∀ s, (f s).2.objects = s.objects)
    (h : ∀ s, n ≤ s.objects.size → A.AllowsStore s → A.AllowsStore (f s).2) :
    Heeds A n (Run.make f) fun _ _ => True :=
  fun m hn hm => ⟨.of_objects (h m.store hn hm) (hobjects m.store), trivial⟩

theorem newObject : Heeds A n (Run.make (·.newObject .empty)) A.admits := by
  intro m _ hm
  have hsize : (m.store.newObject .empty).2.objects.size = m.store.objects.size + 1 :=
    Array.size_push ..
  have hstore : A.AllowsStore (m.store.newObject .empty).2 :=
    hm.newObject (Nat.le_succ_of_le hm.least) fun _ hv => hv.mono (Nat.le_succ _)
  refine ⟨⟨hstore, ?_, fun o _ => m.store.properties_newObject_empty o⟩, ?_⟩
  · show _ ≤ (m.store.newObject .empty).2.objects.size
    rw [hsize]
    exact Nat.le_succ _
  · show A.admits (m.store.newObject .empty).2.objects.size _
    rw [hsize]
    exact A.new hm.least

theorem setProperty {o : ObjectId} (ho : A.admits n o) (name : String) {v : Value}
    (hv : A.Allows n v) : Heeds A n (Run.change (·.setProperty o name v)) fun _ _ => True := by
  intro m hn hm
  refine ⟨⟨hm.setProperty o name (hv.mono hn), ?_, fun p hp => ?_⟩, trivial⟩
  · exact Nat.le_of_eq (Array.size_modify ..).symm
  · show (m.store.setProperty o name v).properties p = m.store.properties p
    rw [Store.properties_setProperty, if_neg]
    rintro ⟨rfl, -⟩
    exact hp n ho

theorem newChild : Heeds A n Run.newChild fun _ _ => True :=
  frame.bind fun _ _ _ _ => make (fun _ => rfl) fun _ _ hs =>
    hs.newFrame (Admission.allowsFrame_empty _ _ Admission.allowsAny_none)

theorem define (name : String) {v : Value} (hv : A.Allows n v) :
    Heeds A n (Run.define name v) fun _ _ => True :=
  frame.bind fun _ f hn _ => change (fun _ => rfl) fun _ hn' hs =>
    hs.define f name (hv.mono (Nat.le_trans hn hn'))

theorem makeClosure (definition : Function) (name? : Option String) :
    Heeds A n (Run.makeClosure definition name?) A.Allows :=
  frame.bind fun _ _ _ _ =>
    (make (fun _ => rfl) fun _ _ hs => ⟨hs.least, hs.frames, hs.properties⟩).bind fun _ _ _ _ =>
      pure fun _ _ => .of_not_object rfl

theorem lookup (name : String) (position : Position) :
    Heeds A n (Run.lookup name position) A.Allows := by
  refine frame.bind fun _ f _ _ =>
    (ask (Q := A.AllowsAny) fun s hs => hs.lookup? f name).bind fun n' found _ hfound => ?_
  cases found with
  | some v => exact pure fun _ hle => (hfound v rfl).mono hle
  | none => exact throw _

theorem receiver (position : Position) : Heeds A n (Run.receiver position) A.Allows := by
  refine frame.bind fun _ f _ _ =>
    (ask (Q := A.AllowsAny) fun s hs => hs.receiver? f).bind fun n' found _ hfound => ?_
  cases found with
  | some v => exact pure fun _ hle => (hfound v rfl).mono hle
  | none => exact throw _

theorem assign (name : String) {v : Value} (hv : A.Allows n v) (position : Position) :
    Heeds A n (Run.assign name v position) fun _ _ => True := by
  refine frame.bind fun _ f hn _ =>
    (ask_any _).bind fun n' owner? hn' _ => ?_
  cases owner? with
  | some owner =>
    exact change (fun _ => rfl) fun _ hn'' hs =>
      hs.define owner name (hv.mono (Nat.le_trans (Nat.le_trans hn hn') hn''))
  | none => exact throw _

theorem property (v : Value) (name : String) (position : Position) :
    Heeds A n (Run.property v name position) A.Allows := by
  refine (ask (Q := fun n' found => ∀ w, found = .ok w → A.Allows n' w) fun s hs w hw => ?_).bind
    fun n' found _ hfound => ofExcept fun w hw _ hle => (hfound w hw).mono hle
  unfold Store.getProperty at hw
  split at hw
  · cases hw
    exact hs.property _ name
  · cases hw

end Heeds

end Run

end TypedScript
