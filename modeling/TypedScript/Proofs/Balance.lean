import TypedScript.Machine
import TypedScript.Proofs.Sequencing

/-!
# Balanced runs

A run is balanced if it ends in the frame and at the depth where it began and
keeps the lines printed before it, whether it ends with a value, with a fault or
for want of fuel. All that a run does by itself is balanced, and so is what is put
together of balanced runs: an action in another frame or at another depth restores
both.
-/

namespace TypedScript

namespace Run

variable {α β : Type}

/-- The machine that a run has reached when it ends, in whichever way. -/
def endOf (x : Run α) (m : Machine) : Machine :=
  match x m with
  | .ok _ m' => m'
  | .error _ m' => m'

theorem endOf_of_ok {x : Run α} {m m' : Machine} {a : α} (h : x m = .ok a m') :
    endOf x m = m' := by
  unfold endOf
  rw [h]

theorem endOf_of_error {x : Run α} {m m' : Machine} {halt : Halt} (h : x m = .error halt m') :
    endOf x m = m' := by
  unfold endOf
  rw [h]

/-! ## What comes of a look-up -/

theorem lookup_of_some {name : String} {m : Machine} {value : Value}
    (h : m.store.lookup? m.frame name = some value) (position : Position) :
    lookup name position m = .ok value m := by
  have hframe : frame m = .ok m.frame m := rfl
  have hask : ask (·.lookup? m.frame name) m = .ok (some value) m := h ▸ rfl
  unfold lookup
  rw [bind_of_ok hframe, bind_of_ok hask]
  rfl

theorem lookup_of_none {name : String} {m : Machine} (h : m.store.lookup? m.frame name = none)
    (position : Position) :
    lookup name position m = .error (.fault ⟨.unknownVariable name, position⟩) m := by
  have hframe : frame m = .ok m.frame m := rfl
  have hask : ask (·.lookup? m.frame name) m = .ok none m := h ▸ rfl
  unfold lookup
  rw [bind_of_ok hframe, bind_of_ok hask]
  rfl

theorem receiver_of_some {m : Machine} {value : Value}
    (h : m.store.receiver? m.frame = some value) (position : Position) :
    receiver position m = .ok value m := by
  have hframe : frame m = .ok m.frame m := rfl
  have hask : ask (·.receiver? m.frame) m = .ok (some value) m := h ▸ rfl
  unfold receiver
  rw [bind_of_ok hframe, bind_of_ok hask]
  rfl

theorem receiver_of_none {m : Machine} (h : m.store.receiver? m.frame = none)
    (position : Position) :
    receiver position m = .error (.fault ⟨.unknownVariable "this", position⟩) m := by
  have hframe : frame m = .ok m.frame m := rfl
  have hask : ask (·.receiver? m.frame) m = .ok none m := h ▸ rfl
  unfold receiver
  rw [bind_of_ok hframe, bind_of_ok hask]
  rfl

theorem assign_of_some {name : String} {m : Machine} {owner : FrameId}
    (h : m.store.owner? m.frame name = some owner) (value : Value) (position : Position) :
    assign name value position m = .ok () { m with store := m.store.define owner name value } := by
  have hframe : frame m = .ok m.frame m := rfl
  have hask : ask (·.owner? m.frame name) m = .ok (some owner) m := h ▸ rfl
  unfold assign
  rw [bind_of_ok hframe, bind_of_ok hask]
  rfl

theorem assign_of_none {name : String} {m : Machine} (h : m.store.owner? m.frame name = none)
    (value : Value) (position : Position) :
    assign name value position m = .error (.fault ⟨.unknownVariable name, position⟩) m := by
  have hframe : frame m = .ok m.frame m := rfl
  have hask : ask (·.owner? m.frame name) m = .ok none m := h ▸ rfl
  unfold assign
  rw [bind_of_ok hframe, bind_of_ok hask]
  rfl

theorem inFrame_of_ok {f : FrameId} {x : Run α} {m m' : Machine} {a : α}
    (h : x { m with frame := f } = .ok a m') :
    inFrame f x m = .ok a { m' with frame := m.frame } := by
  unfold inFrame
  dsimp only
  rw [h]

theorem inFrame_of_error {f : FrameId} {x : Run α} {m m' : Machine} {halt : Halt}
    (h : x { m with frame := f } = .error halt m') :
    inFrame f x m = .error halt { m' with frame := m.frame } := by
  unfold inFrame
  dsimp only
  rw [h]

theorem deeper_of_ok {x : Run α} {m m' : Machine} {a : α}
    (h : x { m with depth := m.depth + 1 } = .ok a m') :
    deeper x m = .ok a { m' with depth := m'.depth - 1 } := by
  unfold deeper
  rw [h]

theorem deeper_of_error {x : Run α} {m m' : Machine} {halt : Halt}
    (h : x { m with depth := m.depth + 1 } = .error halt m') :
    deeper x m = .error halt { m' with depth := m'.depth - 1 } := by
  unfold deeper
  rw [h]

theorem output_inFrame (f : FrameId) (x : Run α) (m : Machine) :
    (endOf (inFrame f x) m).output = (endOf x { m with frame := f }).output := by
  cases h : x { m with frame := f } with
  | ok a m' => rw [endOf_of_ok h, endOf_of_ok (inFrame_of_ok h)]
  | error halt m' => rw [endOf_of_error h, endOf_of_error (inFrame_of_error h)]

theorem output_deeper (x : Run α) (m : Machine) :
    (endOf (deeper x) m).output = (endOf x { m with depth := m.depth + 1 }).output := by
  cases h : x { m with depth := m.depth + 1 } with
  | ok a m' => rw [endOf_of_ok h, endOf_of_ok (deeper_of_ok h)]
  | error halt m' => rw [endOf_of_error h, endOf_of_error (deeper_of_error h)]

/-- The second machine is in the same frame and at the same depth, and the lines of
the first one are there. -/
structure BalancedAt (m m' : Machine) : Prop where
  frame : m'.frame = m.frame
  depth : m'.depth = m.depth
  output : m.output.toList <+: m'.output.toList

theorem BalancedAt.refl (m : Machine) : BalancedAt m m :=
  ⟨rfl, rfl, List.prefix_refl _⟩

theorem BalancedAt.trans {m m' m'' : Machine} (h : BalancedAt m m') (h' : BalancedAt m' m'') :
    BalancedAt m m'' :=
  ⟨h'.frame.trans h.frame, h'.depth.trans h.depth, h.output.trans h'.output⟩

/-- A run that restores the frame and the depth and keeps the lines, however it
ends. -/
def Balanced (x : Run α) : Prop :=
  ∀ m, BalancedAt m (endOf x m)

namespace Balanced

theorem pure (a : α) : Balanced (Pure.pure a : Run α) :=
  fun m => .refl m

theorem throw (halt : Halt) : Balanced (MonadExcept.throw halt : Run α) :=
  fun m => .refl m

theorem bind {x : Run α} {f : α → Run β} (hx : Balanced x) (hf : ∀ a, Balanced (f a)) :
    Balanced (x >>= f) := by
  intro m
  have hm := hx m
  cases hxm : x m with
  | ok a m' =>
    rw [endOf_of_ok hxm] at hm
    have hend : endOf (x >>= f) m = endOf (f a) m' := by
      unfold endOf
      rw [bind_of_ok hxm]
    rw [hend]
    exact hm.trans (hf a m')
  | error halt m' =>
    rw [endOf_of_error hxm] at hm
    rw [endOf_of_error (bind_of_error hxm)]
    exact hm

theorem ofExcept (e : Except RuntimeFault α) : Balanced (Run.ofExcept e) := by
  cases e with
  | ok a => exact pure a
  | error fault => exact throw _

theorem ask (question : Store → α) : Balanced (Run.ask question) :=
  fun m => .refl m

theorem frame : Balanced Run.frame :=
  fun m => .refl m

theorem get : Balanced (MonadState.get : Run Machine) :=
  fun m => .refl m

theorem change (f : Store → Store) : Balanced (Run.change f) :=
  fun _ => ⟨rfl, rfl, List.prefix_refl _⟩

theorem make (f : Store → α × Store) : Balanced (Run.make f) :=
  fun _ => ⟨rfl, rfl, List.prefix_refl _⟩

theorem emit (line : String) : Balanced (Run.emit line) := by
  refine fun m => ⟨rfl, rfl, ?_⟩
  have hend : (endOf (Run.emit line) m).output = m.output.push line := rfl
  rw [hend, Array.toList_push]
  exact List.prefix_append ..

theorem inFrame (f : FrameId) {x : Run α} (hx : Balanced x) : Balanced (Run.inFrame f x) := by
  intro m
  have hm := hx { m with frame := f }
  cases h : x { m with frame := f } with
  | ok a m' =>
    rw [endOf_of_ok h] at hm
    rw [endOf_of_ok (inFrame_of_ok h)]
    exact ⟨rfl, hm.depth, hm.output⟩
  | error halt m' =>
    rw [endOf_of_error h] at hm
    rw [endOf_of_error (inFrame_of_error h)]
    exact ⟨rfl, hm.depth, hm.output⟩

theorem deeper {x : Run α} (hx : Balanced x) : Balanced (Run.deeper x) := by
  intro m
  have hm := hx { m with depth := m.depth + 1 }
  cases h : x { m with depth := m.depth + 1 } with
  | ok a m' =>
    rw [endOf_of_ok h] at hm
    rw [endOf_of_ok (deeper_of_ok h)]
    exact ⟨hm.frame, Nat.sub_eq_of_eq_add hm.depth, hm.output⟩
  | error halt m' =>
    rw [endOf_of_error h] at hm
    rw [endOf_of_error (deeper_of_error h)]
    exact ⟨hm.frame, Nat.sub_eq_of_eq_add hm.depth, hm.output⟩

end Balanced

/-- An action in the frame where the run already is. -/
theorem inFrame_self {x : Run α} (hx : Balanced x) (m : Machine) : inFrame m.frame x m = x m := by
  have hm := (hx m).frame
  cases h : x m with
  | ok a m' =>
    rw [endOf_of_ok h] at hm
    rw [inFrame_of_ok h, ← hm]
  | error halt m' =>
    rw [endOf_of_error h] at hm
    rw [inFrame_of_error h, ← hm]

/-- Two actions in a frame, one after the other. -/
theorem inFrame_bind (f : FrameId) {x : Run α} (hx : Balanced x) (k : α → Run β) :
    inFrame f (x >>= k) = inFrame f x >>= fun a => inFrame f (k a) := by
  funext m
  have hm := (hx { m with frame := f }).frame
  cases h : x { m with frame := f } with
  | ok a m' =>
    rw [endOf_of_ok h] at hm
    have hm' : { m' with frame := f } = m' := by
      obtain ⟨store, frame, depth, output⟩ := m'
      cases hm
      rfl
    rw [bind_of_ok (inFrame_of_ok h)]
    cases hk : k a m' with
    | ok b m'' =>
      have hk' : k a { m' with frame := f } = .ok b m'' := hm'.symm ▸ hk
      exact (inFrame_of_ok ((bind_of_ok h).trans hk)).trans
        (inFrame_of_ok (m := { m' with frame := m.frame }) hk').symm
    | error halt m'' =>
      have hk' : k a { m' with frame := f } = .error halt m'' := hm'.symm ▸ hk
      exact (inFrame_of_error ((bind_of_ok h).trans hk)).trans
        (inFrame_of_error (m := { m' with frame := m.frame }) hk').symm
  | error halt m' =>
    rw [bind_of_error (inFrame_of_error h), inFrame_of_error (bind_of_error h)]

/-- What comes next only adds lines. -/
theorem output_bind {x : Run α} {f : α → Run β} (hf : ∀ a, Balanced (f a)) (m : Machine) :
    (endOf x m).output.toList <+: (endOf (x >>= f) m).output.toList := by
  cases h : x m with
  | ok a m' =>
    have hend : endOf (x >>= f) m = endOf (f a) m' := by
      unfold endOf
      rw [bind_of_ok h]
    rw [endOf_of_ok h, hend]
    exact (hf a m').output
  | error halt m' =>
    simp only [endOf_of_error h, endOf_of_error (bind_of_error h), List.prefix_refl]

end Run

end TypedScript
