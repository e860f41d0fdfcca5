import TypedScript.Proofs.Agreement

/-!
# Similar runs

Two runs are `Similar` under a discipline and a survey, between two indices, if
they are balanced and agree whenever their machines meet and are in frames that
correspond at the first index, which they do afterwards at the second one. Two runs
that each have a frame of their own are `SimilarIn` it under the like condition on
these frames. What a run does by itself is similar to itself, and runs are put
together in a few ways, each of which has a rule here.
-/

namespace TypedScript

variable {I World : Type} {D : Discipline I World} {S : Survey I}

/-- A frame has a name exactly if it can be looked up. -/
theorem Store.owner?_isSome (s : Store) (f : FrameId) (name : String) :
    (s.owner? f name).isSome = (s.lookup? f name).isSome := by
  have hassign := s.assign?_isSome f name .undefined
  unfold assign? at hassign
  rw [Option.isSome_map] at hassign
  exact hassign

/-- Two balanced runs that agree whenever their machines meet and are in frames
that correspond, which they do afterwards at another index. -/
structure Discipline.Similar (D : Discipline I World) (S : Survey I) {α : Type} (i j : I)
    (x y : Run α) : Prop where
  left : Run.Balanced x
  right : Run.Balanced y
  agree : ∀ w m n, D.Meet S w m n → D.frames w i m.frame n.frame →
    D.Agree S w x m y n fun w' a b => a = b ∧ D.frames w' j m.frame n.frame

namespace Discipline.Similar

open Run

variable {α β : Type} {x y : Run α} {f g : α → Run β} {i j k : I}

theorem bind (hx : D.Similar S i j x y)
    (hf : ∀ a, D.Similar S j k (f a) (g a)) : D.Similar S i k (x >>= f) (y >>= g) where
  left := hx.left.bind fun a => (hf a).left
  right := hx.right.bind fun a => (hf a).right
  agree w m n hmeet hframes := by
    refine (hx.agree w m n hmeet hframes).bind (fun a => (hf a).left) (fun a => (hf a).right) ?_
    intro a b m' n' w' hm hn _ hmeet' hpost
    obtain ⟨rfl, hframes'⟩ := hpost
    rw [← hm, ← hn] at hframes' ⊢
    exact (hf a).agree w' m' n' hmeet' hframes'

/-- Frames that correspond do so later. -/
theorem settle (hD : D.Lawful S) (hx : D.Similar S i j x y) : D.Similar S i i x y where
  left := hx.left
  right := hx.right
  agree w m n hmeet hframes := by
    refine (hx.agree w m n hmeet hframes).mono fun w' a b hle hpost => ?_
    exact ⟨hpost.1, hD.frames_mono hle hframes⟩

theorem pure (a : α) :
    D.Similar S i i (Pure.pure a : Run α) (Pure.pure a) where
  left := .pure a
  right := .pure a
  agree _ _ _ hmeet hframes := .pure hmeet ⟨rfl, hframes⟩

theorem throw {halt : Halt} (h : D.passes halt) :
    D.Similar S i j (MonadExcept.throw halt : Run α) (MonadExcept.throw halt) where
  left := .throw halt
  right := .throw halt
  agree _ _ _ hmeet _ := .throw hmeet h

theorem ofExcept (hD : D.Lawful S) {e : Except RuntimeFault α} (h : FailsOrdinarily e) :
    D.Similar S i i (Run.ofExcept e) (Run.ofExcept e) := by
  cases e with
  | ok a => exact .pure a
  | error fault => exact .throw (hD.fault (h fault rfl))

theorem fail (hD : D.Lawful S) {cause : RuntimeCause} (h : cause.isOrdinary = true)
    (position : Position) :
    D.Similar S i i (Run.fail cause position : Run α) (Run.fail cause position) :=
  have hordinary : (⟨cause, position⟩ : RuntimeFault).cause.isOrdinary = true := h
  .throw (hD.fault hordinary)

/-- A question that has the same answer for machines that meet. -/
theorem ask {question : Store → α}
    (h : ∀ w m n, D.Meet S w m n → question m.store = question n.store) :
    D.Similar S i i (Run.ask question) (Run.ask question) where
  left := .ask question
  right := .ask question
  agree w m n hmeet hframes :=
    Agree.ok (a := question m.store) (b := question n.store) rfl rfl rfl rfl (D.refl w) hmeet
      ⟨h w m n hmeet, hframes⟩

theorem emit (line : String) :
    D.Similar S i i (Run.emit line) (Run.emit line) where
  left := .emit line
  right := .emit line
  agree w m n hmeet hframes := by
    refine Agree.ok (a := ()) (b := ()) rfl rfl rfl rfl (D.refl w) ?_ ⟨rfl, hframes⟩
    exact ⟨hmeet.stores, hmeet.objects, hmeet.closures, hmeet.depth, hmeet.depths,
      congrArg (·.push line) hmeet.output⟩

theorem setProperty (hD : D.Lawful S) (o : ObjectId) (name : String) (value : Value) :
    D.Similar S i i (Run.change (·.setProperty o name value))
      (Run.change (·.setProperty o name value)) where
  left := .change _
  right := .change _
  agree w m n hmeet hframes := by
    refine Agree.ok (a := ()) (b := ()) rfl rfl rfl rfl (D.refl w) ?_ ⟨rfl, hframes⟩
    refine hmeet.of_objects hD ?_ ⟨rfl, rfl⟩ ⟨rfl, rfl⟩
    unfold Store.setProperty
    exact congrArg (·.modify o.index (·.set name value)) hmeet.objects

theorem newObject (hD : D.Lawful S) :
    D.Similar S i i (Run.make (·.newObject .empty)) (Run.make (·.newObject .empty)) where
  left := .make _
  right := .make _
  agree w m n hmeet hframes := by
    refine Agree.ok (a := (m.store.newObject .empty).1) (b := (n.store.newObject .empty).1)
      rfl rfl rfl rfl (D.refl w) ?_ ⟨?_, hframes⟩
    · refine hmeet.of_objects hD ?_ ⟨rfl, rfl⟩ ⟨rfl, rfl⟩
      exact congrArg (·.push .empty) hmeet.objects
    · exact congrArg (ObjectId.mk ·.size) hmeet.objects

/-- A question that may fail, and has the same answer for machines that meet. -/
theorem asked (hD : D.Lawful S) {question : Store → Except RuntimeFault α}
    (hfails : ∀ s, FailsOrdinarily (question s))
    (hsame : ∀ w m n, D.Meet S w m n → question m.store = question n.store) :
    D.Similar S i i (do Run.ofExcept (← Run.ask question))
      (do Run.ofExcept (← Run.ask question)) :=
  have hbalanced : Balanced (do Run.ofExcept (← Run.ask question)) :=
    (Balanced.ask _).bind fun _ => .ofExcept _
  { left := hbalanced
    right := hbalanced
    agree := fun w m n hmeet hframes => by
      refine ((ofExcept hD (hfails m.store)).agree w m n hmeet hframes).congr rfl ?_
      rw [hsame w m n hmeet]
      rfl }

theorem property (hD : D.Lawful S) (v : Value) (name : String) (position : Position) :
    D.Similar S i i (Run.property v name position) (Run.property v name position) :=
  asked hD (fun s => .getProperty s v name position) fun _ _ _ h => h.getProperty v name position

/-- An operator on two values. -/
theorem apply (hD : D.Lawful S) (op : BinaryOp) (a b : Value) (position : Position) :
    D.Similar S i i
      (do Run.ofExcept (← Run.ask (Operation.apply · op a b position)))
      (do Run.ofExcept (← Run.ask (Operation.apply · op a b position))) :=
  asked hD (fun s => .apply s op a b position) fun _ _ _ h => h.apply op a b position

/-! ### Names -/

theorem lookup (hD : D.Lawful S) {name : String} {position : Position}
    (h : S.expr i (.reference name position) = true) :
    D.Similar S i i (Run.lookup name position) (Run.lookup name position) :=
  have hbalanced : Balanced (Run.lookup name position) := by
    refine Balanced.frame.bind fun f => (Balanced.ask _).bind fun value? => ?_
    cases value? with
    | some value => exact .pure value
    | none => exact .throw _
  { left := hbalanced
    right := hbalanced
    agree := fun w m n hmeet hframes => by
      obtain ⟨hsame, hnone⟩ := hD.lookup hmeet.stores hframes h
      cases hfound : m.store.lookup? m.frame name with
      | some value =>
        exact .ok (lookup_of_some hfound position) (lookup_of_some (hsame ▸ hfound) position)
          rfl rfl (D.refl w) hmeet ⟨rfl, hframes⟩
      | none =>
        exact .halt (lookup_of_none hfound position) (lookup_of_none (hsame ▸ hfound) position)
          (hnone hfound) (D.refl w) hmeet }

theorem receiver (hD : D.Lawful S) {position : Position}
    (h : S.expr i (.receiver position) = true) :
    D.Similar S i i (Run.receiver position) (Run.receiver position) :=
  have hbalanced : Balanced (Run.receiver position) := by
    refine Balanced.frame.bind fun f => (Balanced.ask _).bind fun value? => ?_
    cases value? with
    | some value => exact .pure value
    | none => exact .throw _
  { left := hbalanced
    right := hbalanced
    agree := fun w m n hmeet hframes => by
      obtain ⟨hsame, hnone⟩ := hD.receiver hmeet.stores hframes h
      cases hfound : m.store.receiver? m.frame with
      | some value =>
        exact .ok (receiver_of_some hfound position) (receiver_of_some (hsame ▸ hfound) position)
          rfl rfl (D.refl w) hmeet ⟨rfl, hframes⟩
      | none =>
        exact .halt (receiver_of_none hfound position) (receiver_of_none (hsame ▸ hfound) position)
          (hnone hfound) (D.refl w) hmeet }

theorem assign (hD : D.Lawful S) {name : String} {position : Position}
    (h : S.expr i (.reference name position) = true) (value : Value) :
    D.Similar S i i (Run.assign name value position) (Run.assign name value position) :=
  have hbalanced : Balanced (Run.assign name value position) := by
    refine Balanced.frame.bind fun f => (Balanced.ask _).bind fun owner? => ?_
    cases owner? with
    | some owner => exact .change _
    | none => exact .throw _
  { left := hbalanced
    right := hbalanced
    agree := fun w m n hmeet hframes => by
      obtain ⟨hsame, hnone⟩ := hD.lookup hmeet.stores hframes h
      -- a name has an owner where it is found, so it has one on both sides or on none
      have howners :
          (m.store.owner? m.frame name).isSome = (n.store.owner? n.frame name).isSome := by
        rw [Store.owner?_isSome, Store.owner?_isSome, hsame]
      cases hleft : m.store.owner? m.frame name with
      | some owner =>
        rw [hleft] at howners
        obtain ⟨owner', hright⟩ := Option.isSome_iff_exists.mp howners.symm
        obtain ⟨w', hle, hstores⟩ := hD.assign value hmeet.stores hframes hleft hright
        exact .ok (assign_of_some hleft value position) (assign_of_some hright value position)
          rfl rfl hle (hmeet.of_frames hD hle hstores ⟨rfl, rfl⟩ ⟨rfl, rfl⟩)
          ⟨rfl, hD.frames_mono hle hframes⟩
      | none =>
        have hfound : m.store.lookup? m.frame name = none := by
          rw [← Option.isNone_iff_eq_none, ← Option.not_isSome, ← Store.owner?_isSome, hleft]
          rfl
        have hright : n.store.owner? n.frame name = none := by
          rw [← Option.isNone_iff_eq_none, ← Option.not_isSome, ← howners, hleft]
          rfl
        exact .halt (assign_of_none hleft value position) (assign_of_none hright value position)
          (hnone hfound) (D.refl w) hmeet }

theorem define (hD : D.Lawful S) (hopen : S.isOpen i = true) (name : String) (value : Value) :
    D.Similar S i (S.declare i name) (Run.define name value) (Run.define name value) where
  left := Balanced.frame.bind fun f => .change _
  right := Balanced.frame.bind fun f => .change _
  agree w m n hmeet hframes := by
    obtain ⟨w', hle, hstores, hframes'⟩ := hD.define name value hmeet.stores hframes hopen
    exact Agree.ok (a := ()) (b := ()) rfl rfl rfl rfl hle
      (hmeet.of_frames hD hle hstores ⟨rfl, rfl⟩ ⟨rfl, rfl⟩) ⟨rfl, hframes'⟩

theorem makeClosure (hD : D.Lawful S) {definition : Function}
    (h : definition.passes S i = true) (name? : Option String) :
    D.Similar S i i (Run.makeClosure definition name?) (Run.makeClosure definition name?) where
  left := Balanced.frame.bind fun f => (Balanced.make _).bind fun _ => .pure _
  right := Balanced.frame.bind fun f => (Balanced.make _).bind fun _ => .pure _
  agree w m n hmeet hframes := by
    obtain ⟨hid, hmeet'⟩ := hmeet.newClosure hD h hframes name?
    exact Agree.ok rfl rfl rfl rfl (D.refl w) hmeet'
      ⟨congrArg Value.closure hid, hframes⟩

end Discipline.Similar

/-- Two balanced runs, each in a frame of its own, that agree on related values if
these frames correspond. -/
structure Discipline.SimilarIn (D : Discipline I World) (S : Survey I) {α β : Type} (i : I)
    (x : FrameId → Run α) (y : FrameId → Run β) (R : World → α → β → Prop) : Prop where
  left : ∀ f, Run.Balanced (x f)
  right : ∀ g, Run.Balanced (y g)
  agree : ∀ w m n f g, D.Meet S w m n → D.frames w i f g → D.Agree S w (x f) m (y g) n R

namespace Discipline.SimilarIn

open Run

variable {α β γ δ : Type} {x y : FrameId → Run α} {i j : I} {R : World → γ → δ → Prop}

theorem pure {c : γ} {d : δ} (h : ∀ w, R w c d) :
    D.SimilarIn S i (fun _ => Pure.pure c) (fun _ => Pure.pure d) R where
  left _ := .pure c
  right _ := .pure d
  agree w _ _ _ _ hmeet _ := .pure hmeet (h w)

theorem bind (hD : D.Lawful S) {k : α → FrameId → Run γ} {l : α → FrameId → Run δ}
    (h : D.SimilarIn S i x y fun _ a b => a = b) (hkl : ∀ a, D.SimilarIn S i (k a) (l a) R) :
    D.SimilarIn S i (fun f => x f >>= fun a => k a f) (fun g => y g >>= fun a => l a g) R where
  left f := (h.left f).bind fun a => (hkl a).left f
  right g := (h.right g).bind fun a => (hkl a).right g
  agree w m n f g hmeet hfg := by
    refine (h.agree w m n f g hmeet hfg).bind (fun a => (hkl a).left f)
      (fun a => (hkl a).right g) ?_
    intro a b m' n' w' _ _ hle hmeet' heq
    cases heq
    exact (hkl a).agree w' m' n' f g hmeet' (hD.frames_mono hle hfg)

/-- An action in each of the frames. -/
theorem inFrame {x y : Run α} (h : D.Similar S i j x y) :
    D.SimilarIn S i (Run.inFrame · x) (Run.inFrame · y) fun _ a b => a = b where
  left f := h.left.inFrame f
  right g := h.right.inFrame g
  agree w _ _ f g hmeet hfg :=
    ((h.agree w _ _ (hmeet.inFrame f g) hfg).mono fun _ _ _ _ hpost => hpost.1).inFrame

/-- An action in the frames that changes the index comes first. -/
theorem after {x' y' : Run β} (h : D.Similar S i j x' y')
    {x : FrameId → Run γ} {y : FrameId → Run δ} (hxy : D.SimilarIn S j x y R) :
    D.SimilarIn S i (fun f => do let _ ← Run.inFrame f x'; x f)
      (fun g => do let _ ← Run.inFrame g y'; y g) R where
  left f := (h.left.inFrame f).bind fun _ => hxy.left f
  right g := (h.right.inFrame g).bind fun _ => hxy.right g
  agree w m n f g hmeet hfg := by
    refine (h.agree w _ _ (hmeet.inFrame f g) hfg).inFrame.bind (fun _ => hxy.left f)
      (fun _ => hxy.right g) ?_
    intro _ _ m' n' w' _ _ _ hmeet' hpost
    exact hxy.agree w' m' n' f g hmeet' hpost.2

/-- An action in a new frame inside the current one. -/
theorem inChild (hD : D.Lawful S) (h : D.SimilarIn S (S.enter i) x y fun _ a b => a = b) :
    D.Similar S i i (do x (← newChild)) (do y (← newChild)) where
  left := (Balanced.frame.bind fun _ => .make _).bind h.left
  right := (Balanced.frame.bind fun _ => .make _).bind h.right
  agree w m n hmeet hframes := by
    obtain ⟨w', hle, hstores, hframes'⟩ := hD.enter false none hmeet.stores hframes
    have hmeet' := hmeet.of_frames hD hle hstores ⟨rfl, rfl⟩ ⟨rfl, rfl⟩
    have hchild : D.Agree S w newChild m newChild n fun w'' f g => D.frames w'' (S.enter i) f g :=
      .ok rfl rfl rfl rfl hle hmeet' hframes'
    refine (hchild.bind h.left h.right (R := fun _ a b => a = b) ?_).mono
      fun w'' a b hle' heq => ⟨heq, hD.frames_mono hle' hframes⟩
    intro f g m' n' w'' _ _ _ hmeet'' hfg
    exact h.agree w'' m' n' f g hmeet'' hfg

/-- The frames themselves are a result. -/
theorem here :
    D.SimilarIn S i (fun f => Pure.pure (.inr f : Completion ⊕ FrameId))
      (fun g => Pure.pure (.inr g)) fun w => Sum.LiftRel (· = ·) (D.frames w i) where
  left _ := .pure _
  right _ := .pure _
  agree _ _ _ _ _ hmeet hfg := .pure hmeet (.inr hfg)

/-- An action in copies of the frames. -/
theorem fork (hD : D.Lawful S) (hopen : S.isOpen i = true) {x : FrameId → Run γ}
    {y : FrameId → Run δ} (h : D.SimilarIn S i x y R) :
    D.SimilarIn S i (fun f => do x (← make (·.fork f))) (fun g => do y (← make (·.fork g))) R where
  left f := (Balanced.make _).bind h.left
  right g := (Balanced.make _).bind h.right
  agree w m n f g hmeet hfg := by
    obtain ⟨w', hle, hstores, hframes'⟩ := hD.fork hmeet.stores hfg hopen
    have hmeet' := hmeet.of_frames hD hle hstores ⟨rfl, rfl⟩ ⟨rfl, rfl⟩
    have hfork : D.Agree S w (make (·.fork f)) m (make (·.fork g)) n fun w'' f' g' =>
        D.frames w'' i f' g' :=
      .ok rfl rfl rfl rfl hle hmeet' hframes'
    refine hfork.bind h.left h.right ?_
    intro f' g' m₁ n₁ w₁ _ _ _ hmeet₁ hfg'
    exact h.agree w₁ m₁ n₁ f' g' hmeet₁ hfg'

end Discipline.SimilarIn

end TypedScript
