import TypedScript.Machine
import TypedScript.Proofs.Sequencing

/-!
# How runs land

A run from a given machine `Lands` if it ends with a value and a machine that
are as wanted, or with an allowed fault; a run that has too little fuel lands,
as nothing is said of it. Runs are put together in a few ways, and each has a
rule here, so that what a program does can be shown along its text.
-/

namespace TypedScript.Run

variable {α β : Type} {allowed : RuntimeFault → Prop} {m : Machine}

/-- A run that ends as wanted, with an allowed fault, or for want of fuel. -/
def Lands (allowed : RuntimeFault → Prop) (x : Run α) (m : Machine)
    (wanted : α → Machine → Prop) : Prop :=
  match x m with
  | .ok a m' => wanted a m'
  | .error (.fault fault) _ => allowed fault
  | .error .outOfFuel _ => True

theorem lands_outOfFuel {Q : α → Machine → Prop} : Lands allowed (outOfFuel : Run α) m Q :=
  trivial

namespace Lands

theorem mono {x : Run α} {Q Q' : α → Machine → Prop} (h : Lands allowed x m Q)
    (himp : ∀ a m', Q a m' → Q' a m') : Lands allowed x m Q' := by
  unfold Lands at h ⊢
  cases hx : x m with
  | ok a m' => rw [hx] at h; exact himp a m' h
  | error halt m' =>
    rw [hx] at h
    cases halt with
    | fault fault => exact h
    | outOfFuel => trivial

/-- A run that lands where fewer faults are allowed. -/
theorem allow {x : Run α} {Q : α → Machine → Prop} {allowed' : RuntimeFault → Prop}
    (h : Lands allowed x m Q) (himp : ∀ fault, allowed fault → allowed' fault) :
    Lands allowed' x m Q := by
  unfold Lands at h ⊢
  cases hx : x m with
  | ok a m' => rw [hx] at h; exact h
  | error halt m' =>
    rw [hx] at h
    cases halt with
    | fault fault => exact himp fault h
    | outOfFuel => trivial

theorem pure {a : α} {Q : α → Machine → Prop} (h : Q a m) : Lands allowed (Pure.pure a) m Q := h

theorem bind {x : Run α} {f : α → Run β} {Q : α → Machine → Prop} {Q' : β → Machine → Prop}
    (hx : Lands allowed x m Q) (hf : ∀ a m', Q a m' → Lands allowed (f a) m' Q') :
    Lands allowed (x >>= f) m Q' := by
  unfold Lands at hx ⊢
  rw [bind_run]
  cases hxm : x m with
  | ok a m' =>
    rw [hxm] at hx
    exact hf a m' hx
  | error halt m' =>
    rw [hxm] at hx
    cases halt with
    | fault fault => exact hx
    | outOfFuel => trivial

theorem ofExcept {e : Except RuntimeFault α} {Q : α → Machine → Prop}
    (hok : ∀ a, e = .ok a → Q a m) (herror : ∀ fault, e = .error fault → allowed fault) :
    Lands allowed (Run.ofExcept e) m Q := by
  cases e with
  | ok a => exact hok a rfl
  | error fault => exact herror fault rfl

theorem ask {question : Store → α} {Q : α → Machine → Prop} (h : Q (question m.store) m) :
    Lands allowed (Run.ask question) m Q := h

theorem frame {Q : FrameId → Machine → Prop} (h : Q m.frame m) : Lands allowed Run.frame m Q := h

theorem change {f : Store → Store} {Q : Unit → Machine → Prop}
    (h : Q () { m with store := f m.store }) : Lands allowed (Run.change f) m Q := h

theorem make {f : Store → α × Store} {Q : α → Machine → Prop}
    (h : Q (f m.store).1 { m with store := (f m.store).2 }) : Lands allowed (Run.make f) m Q := h

theorem inFrame {f : FrameId} {x : Run α} {Q : α → Machine → Prop}
    (h : Lands allowed x { m with frame := f } fun a m' => Q a { m' with frame := m.frame }) :
    Lands allowed (Run.inFrame f x) m Q := by
  unfold Lands at h ⊢
  unfold Run.inFrame
  dsimp only
  cases hx : x { m with frame := f } with
  | ok a m' => rw [hx] at h; exact h
  | error halt m' =>
    rw [hx] at h
    cases halt with
    | fault fault => exact h
    | outOfFuel => trivial

theorem deeper {x : Run α} {Q : α → Machine → Prop}
    (h : Lands allowed x { m with depth := m.depth + 1 } fun a m' =>
      Q a { m' with depth := m'.depth - 1 }) : Lands allowed (Run.deeper x) m Q := by
  unfold Lands at h ⊢
  unfold Run.deeper
  cases hx : x { m with depth := m.depth + 1 } with
  | ok a m' => rw [hx] at h; exact h
  | error halt m' =>
    rw [hx] at h
    cases halt with
    | fault fault => exact h
    | outOfFuel => trivial

theorem lookup {name : String} {position : Position} {value : Value} {Q : Value → Machine → Prop}
    (hlookup : m.store.lookup? m.frame name = some value) (h : Q value m) :
    Lands allowed (Run.lookup name position) m Q := by
  refine bind (Q := fun f m' => f = m.frame ∧ m = m') (frame ⟨rfl, rfl⟩) ?_
  intro _ _ hpost
  obtain ⟨rfl, rfl⟩ := hpost
  refine bind (Q := fun found m' => found = some value ∧ m = m') (ask ⟨hlookup, rfl⟩) ?_
  intro _ _ hpost
  obtain ⟨rfl, rfl⟩ := hpost
  exact pure h

theorem assign {name : String} {position : Position} {value : Value} {owner : FrameId}
    {Q : Unit → Machine → Prop} (howner : m.store.owner? m.frame name = some owner)
    (h : Q () { m with store := m.store.define owner name value }) :
    Lands allowed (Run.assign name value position) m Q := by
  refine bind (Q := fun f m' => f = m.frame ∧ m = m') (frame ⟨rfl, rfl⟩) ?_
  intro _ _ hpost
  obtain ⟨rfl, rfl⟩ := hpost
  refine bind (Q := fun found m' => found = some owner ∧ m = m') (ask ⟨howner, rfl⟩) ?_
  intro _ _ hpost
  obtain ⟨rfl, rfl⟩ := hpost
  exact change h

end Lands

end TypedScript.Run
