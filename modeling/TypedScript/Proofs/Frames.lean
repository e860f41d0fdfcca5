import TypedScript.Machine

/-!
# Frames in order

In the store of a run each frame has an older parent (`Ordered`). So looking a
name up in a frame is looking it up in the frame itself and, if it is not there,
in the parent (`lookup?_eq`, `owner?_eq`, `receiver?_eq`), with no bound on the
length of the chain. The order is kept by all changes of the store
(`Ordered.newFrame`, `Ordered.fork`, `Ordered.define`), and a change of one frame shows only in that
frame and in younger ones (`owner?_le`, `lookup?_of_frames`).
-/

namespace TypedScript

namespace Store

variable {s : Store}

/-! ## Frames and changes of the store -/

theorem index_lt_of_frame? {f : FrameId} {frame : Frame} (h : s.frame? f = some frame) :
    f.index < s.frames.size := by
  unfold frame? at h
  exact (Array.getElem?_eq_some_iff.mp h).1

theorem frame?_define_of_ne (s : Store) {f g : FrameId} (hne : g ≠ f) (name : String)
    (value : Value) : (s.define f name value).frame? g = s.frame? g := by
  rw [frame?_define]
  cases s.frame? g with
  | none => rfl
  | some frame => rw [Option.map_some, if_neg hne]

theorem frame?_define_self {f : FrameId} {frame : Frame} (hf : s.frame? f = some frame)
    (name : String) (value : Value) :
    (s.define f name value).frame? f =
      some { frame with bindings := frame.bindings.set name value } := by
  rw [frame?_define, hf, Option.map_some, if_pos rfl]

/-- A new frame is found under its name, and all others as before. -/
theorem frame?_newFrame (s : Store) (frame : Frame) (g : FrameId) :
    (s.newFrame frame).2.frame? g = if g = ⟨s.frames.size⟩ then some frame else s.frame? g := by
  obtain ⟨i⟩ := g
  unfold newFrame frame?
  rw [Array.getElem?_push]
  by_cases h : i = s.frames.size <;> simp [h]

/-- The name of a new frame is not in use before. -/
theorem frame?_fresh (s : Store) (frame : Frame) : s.frame? (s.newFrame frame).1 = none := by
  unfold frame? newFrame
  exact Array.getElem?_eq_none (Nat.le_refl _)

theorem frame?_newFrame_self (s : Store) (frame : Frame) :
    (s.newFrame frame).2.frame? (s.newFrame frame).1 = some frame := by
  rw [frame?_newFrame]
  exact if_pos rfl

theorem frame?_newFrame_of_ne (s : Store) {frame : Frame} {g : FrameId}
    (hne : g ≠ (s.newFrame frame).1) : (s.newFrame frame).2.frame? g = s.frame? g := by
  rw [frame?_newFrame]
  exact if_neg hne

/-! ## Order -/

/-- Each frame is younger than its parent. -/
def Ordered (s : Store) : Prop :=
  ∀ f frame parent, s.frame? f = some frame → frame.parent? = some parent → parent.index < f.index

theorem Ordered.newFrame (h : s.Ordered) {frame : Frame}
    (hparent : ∀ parent, frame.parent? = some parent → parent.index < s.frames.size) :
    (s.newFrame frame).2.Ordered := by
  intro f frame' parent hf hp
  rw [frame?_newFrame] at hf
  split at hf
  · next heq =>
    cases hf
    rw [heq]
    exact hparent parent hp
  · exact h f frame' parent hf hp

/-- A copy has the parent of its original, which is older than the original already. -/
theorem Ordered.fork (h : s.Ordered) {f : FrameId} {frame : Frame} (hf : s.frame? f = some frame) :
    (s.fork f).2.Ordered := by
  rw [fork_eq hf]
  exact h.newFrame fun parent hparent =>
    Nat.lt_trans (h f frame parent hf hparent) (index_lt_of_frame? hf)

theorem Ordered.define (h : s.Ordered) (f : FrameId) (name : String) (value : Value) :
    (s.define f name value).Ordered := by
  intro g frame parent hg hp
  rw [frame?_define] at hg
  obtain ⟨old, hold, heq⟩ := Option.map_eq_some_iff.mp hg
  refine h g old parent hold ?_
  rw [← heq] at hp
  split at hp <;> exact hp

/-- Steps enough to reach the oldest frame are as good as more of them. -/
theorem chainUpTo_eq (h : s.Ordered) (steps : Nat) : ∀ steps' f, f.index < steps →
    f.index < steps' → s.chainUpTo steps f = s.chainUpTo steps' f := by
  induction steps with
  | zero => intro _ f hf; exact absurd hf (Nat.not_lt_zero _)
  | succ steps ih =>
    intro steps' f hf hf'
    cases steps' with
    | zero => exact absurd hf' (Nat.not_lt_zero _)
    | succ steps' =>
      unfold chainUpTo
      cases hframe : s.frame? f with
      | none => rfl
      | some frame =>
        dsimp only
        cases hparent : frame.parent? with
        | none => rfl
        | some parent =>
          have hlt := h f frame parent hframe hparent
          dsimp only
          rw [ih steps' parent (by omega) (by omega)]

/-- The chain from a frame is that of its parent behind it. -/
theorem chain_eq (h : s.Ordered) {f : FrameId} {frame : Frame} (hf : s.frame? f = some frame) :
    s.chain f = f :: (match frame.parent? with
      | some parent => s.chain parent
      | none => []) := by
  unfold chain
  rw [chainUpTo, hf]
  dsimp only
  cases hparent : frame.parent? with
  | none => rfl
  | some parent =>
    have hlt := h f frame parent hf hparent
    dsimp only
    rw [chainUpTo_eq h f.index (parent.index + 1) parent hlt (by omega)]

theorem lookup?_eq (h : s.Ordered) {f : FrameId} {frame : Frame} (hf : s.frame? f = some frame)
    (name : String) : s.lookup? f name =
      match frame.bindings.get? name with
      | some value => some value
      | none => frame.parent?.bind fun parent => s.lookup? parent name := by
  unfold lookup?
  rw [chain_eq h hf, List.findSome?_cons]
  have hbinding : s.binding? name f = frame.bindings.get? name := by
    unfold binding?
    rw [hf]
    rfl
  rw [hbinding]
  cases frame.bindings.get? name with
  | some value => rfl
  | none =>
    cases frame.parent? with
    | none => rfl
    | some parent => rfl

theorem owner?_eq (h : s.Ordered) {f : FrameId} {frame : Frame} (hf : s.frame? f = some frame)
    (name : String) : s.owner? f name =
      if (frame.bindings.get? name).isSome then some f
      else frame.parent?.bind fun parent => s.owner? parent name := by
  unfold owner?
  rw [chain_eq h hf, List.find?_cons]
  have hbinding : s.binding? name f = frame.bindings.get? name := by
    unfold binding?
    rw [hf]
    rfl
  rw [hbinding]
  cases frame.bindings.get? name with
  | some value => rfl
  | none =>
    cases frame.parent? with
    | none => rfl
    | some parent => rfl

theorem receiver?_eq (h : s.Ordered) {f : FrameId} {frame : Frame} (hf : s.frame? f = some frame) :
    s.receiver? f = if frame.isCall then frame.receiver?
      else frame.parent?.bind fun parent => s.receiver? parent := by
  unfold receiver?
  rw [chain_eq h hf, List.findSome?_cons, hf]
  dsimp only
  cases frame.isCall with
  | true => rfl
  | false =>
    cases frame.parent? with
    | none => rfl
    | some parent => rfl

theorem index_le_of_mem_chainUpTo (h : s.Ordered) (steps : Nat) :
    ∀ f g, g ∈ s.chainUpTo steps f → g.index ≤ f.index := by
  induction steps with
  | zero => intro f g hg; exact absurd hg List.not_mem_nil
  | succ steps ih =>
    intro f g hg
    unfold chainUpTo at hg
    cases hframe : s.frame? f with
    | none => rw [hframe] at hg; exact absurd hg List.not_mem_nil
    | some frame =>
      rw [hframe] at hg
      dsimp only at hg
      cases hparent : frame.parent? with
      | none =>
        rw [hparent] at hg
        exact Nat.le_of_eq (congrArg FrameId.index (List.mem_singleton.mp hg))
      | some parent =>
        rw [hparent] at hg
        rcases List.mem_cons.mp hg with rfl | hg
        · exact Nat.le_refl _
        · exact Nat.le_trans (ih parent g hg) (Nat.le_of_lt (h f frame parent hframe hparent))

/-- The frame that has a name is no younger than the one where the search
starts. -/
theorem owner?_le (h : s.Ordered) {f g : FrameId} {name : String}
    (hg : s.owner? f name = some g) : g.index ≤ f.index :=
  index_le_of_mem_chainUpTo h _ f g (List.mem_of_find?_eq_some hg)

/-- A look-up depends on the frame where it starts and on older ones only. -/
theorem lookup?_of_frames {s' : Store} (h : s.Ordered) (h' : s'.Ordered) (name : String) :
    ∀ {f : FrameId}, (∀ g, g.index ≤ f.index → s'.frame? g = s.frame? g) →
      s'.lookup? f name = s.lookup? f name := by
  intro f
  induction hindex : f.index using Nat.strongRecOn generalizing f with
  | ind index ih =>
    subst hindex
    intro hframes
    have hsame := hframes f (Nat.le_refl _)
    cases hframe : s.frame? f with
    | none =>
      rw [hframe] at hsame
      unfold lookup? chain chainUpTo
      rw [hframe, hsame]
      rfl
    | some frame =>
      rw [hframe] at hsame
      rw [lookup?_eq h hframe, lookup?_eq h' hsame]
      cases frame.bindings.get? name with
      | some value => rfl
      | none =>
        cases hparent : frame.parent? with
        | none => rfl
        | some parent =>
          have hlt := h f frame parent hframe hparent
          exact ih parent.index hlt rfl fun g hg => hframes g (by omega)

/-- After an assignment the name has the new value, and other names have their old
ones. -/
theorem lookup?_define_owner (h : s.Ordered) {name : String} {g : FrameId} (value : Value)
    (other : String) : ∀ {f : FrameId}, s.owner? f name = some g →
      (s.define g name value).lookup? f other =
        if other = name then some value else s.lookup? f other := by
  intro f
  induction hindex : f.index using Nat.strongRecOn generalizing f with
  | ind index ih =>
    subst hindex
    intro howner
    cases hframe : s.frame? f with
    | none =>
      unfold owner? chain chainUpTo at howner
      rw [hframe] at howner
      cases howner
    | some frame =>
      rw [owner?_eq h hframe] at howner
      rw [lookup?_eq h hframe]
      split at howner
      · next hhas =>
        cases howner
        rw [lookup?_eq (h.define g name value) (frame?_define_self hframe name value)]
        dsimp only
        rw [Record.get?_set]
        by_cases heq : other = name
        · rw [if_pos heq, if_pos heq]
        · rw [if_neg heq, if_neg heq]
          cases frame.bindings.get? other with
          | some _ => rfl
          | none =>
            cases hparent : frame.parent? with
            | none => rfl
            | some parent =>
              -- the parent is older, and the change does not show there
              have hlt := h g frame parent hframe hparent
              refine lookup?_of_frames h (h.define g name value) other fun i hi =>
                frame?_define_of_ne s ?_ name value
              rintro rfl
              omega
      · next hhas =>
        obtain ⟨parent, hparent, howner⟩ := Option.bind_eq_some_iff.mp howner
        have hlt := h f frame parent hframe hparent
        have hne : f ≠ g := by
          rintro rfl
          have := owner?_le h howner
          omega
        rw [lookup?_eq (h.define g name value)
            ((frame?_define_of_ne s hne name value).trans hframe), hparent, Option.bind_some,
          Option.bind_some, ih parent.index hlt rfl howner]
        by_cases heq : other = name
        · subst heq
          simp [Option.not_isSome_iff_eq_none.mp hhas]
        · rw [if_neg heq, if_neg heq]

end Store

/-! ## Machines -/

/-- A program starts with one frame, which holds the built-in object. -/
theorem Machine.frame?_initial {f : FrameId} {frame : Frame}
    (h : Machine.initial.store.frame? f = some frame) :
    frame = ⟨⟨[(Native.log.holder, .object ⟨0⟩)]⟩, none, true, none⟩ := by
  have hmem : frame ∈ Machine.initial.store.frames := Array.mem_of_getElem? h
  have hframes : Machine.initial.store.frames =
      #[⟨⟨[(Native.log.holder, .object ⟨0⟩)]⟩, none, true, none⟩] := rfl
  rw [hframes] at hmem
  exact List.mem_singleton.mp (Array.mem_toList_iff.mpr hmem)

theorem Machine.ordered_initial : Machine.initial.store.Ordered := by
  intro f frame parent hframe hparent
  rw [Machine.frame?_initial hframe] at hparent
  cases hparent

/-- Frames have older parents, and the frame of the machine and those of its functions
exist. -/
structure Machine.WellFormed (m : Machine) : Prop where
  ordered : m.store.Ordered
  frame : (m.store.frame? m.frame).isSome = true
  closures : ∀ id c, m.store.closure? id = some c → (m.store.frame? c.frame).isSome = true

theorem Machine.wellFormed_initial : Machine.initial.WellFormed where
  ordered := Machine.ordered_initial
  frame := rfl
  closures id c hc := by
    have hnone : Machine.initial.store.closure? id = none := Array.getElem?_eq_none (Nat.zero_le _)
    rw [hnone] at hc
    cases hc

end TypedScript
