import TypedScript.Proofs.Giving
import TypedScript.Proofs.Soundness

/-!
# What statements give back

Statements `Settle` local scopes if each of their runs, from any machine whose frames
honour these scopes, either comes to the end of the statements in a machine that honours
the scopes after them, or gives back a value of one of some types. A loop may end by a
return in any of its rounds, so its types are those of its body, and a conditional has
the types of both branches.

As with expressions (`Expr.Gives`), this is said of the runs of statements only. There
is one rule for each kind of statement, and loops are by induction on the fuel.
-/

namespace TypedScript

open Run

/-- How a run of statements may end: at their end, in a machine that honours the scopes
after them, or by giving back a value of one of some types. -/
def Surroundings.Ends (O : Surroundings) (m : Machine) (after : List Scope) (given : List Ty) :
    Completion → Machine → Prop
  | .normal, m' => m.Follows m' ∧ O.Houses m' after
  | .gaveBack value, m' => ∃ type ∈ given, Conforms O.table m'.store type value

/-- A run that ends so from each machine that honours the scopes before it. -/
def Run.Settles (O : Surroundings) (x : Run Completion) (locals after : List Scope)
    (given : List Ty) : Prop :=
  ∀ m, O.Houses m locals → Lands IsAnyFault x m (O.Ends m after given)

/-- A statement all of whose runs end so. -/
def Stmt.Settles (O : Surroundings) (s : Stmt) (locals after : List Scope) (given : List Ty) :
    Prop :=
  ∀ limit fuel, Run.Settles O ((evaluator limit fuel).exec s) locals after given

/-- Statements one after the other all of whose runs end so. -/
def rowSettles (O : Surroundings) (statements : List Stmt) (locals after : List Scope)
    (given : List Ty) : Prop :=
  ∀ limit fuel, Run.Settles O ((evaluator limit fuel).execEach statements) locals after given

/-- A block all of whose runs end so, with the scopes around it as they were. -/
def Block.Settles (O : Surroundings) (b : Block) (locals : List Scope) (given : List Ty) : Prop :=
  ∀ limit fuel, Run.Settles O ((evaluator limit fuel).execBlock b) locals locals given

variable {O : Surroundings} {locals after : List Scope} {given given' : List Ty}

namespace Surroundings

variable {m m' : Machine} {f : FrameId}

theorem Ends.mono {completion : Completion} (h : O.Ends m after given completion m')
    (hsub : ∀ type ∈ given, type ∈ given') : O.Ends m after given' completion m' := by
  cases completion with
  | normal => exact h
  | gaveBack value =>
    obtain ⟨type, htype, hconf⟩ := h
    exact ⟨type, hsub type htype, hconf⟩

theorem Ends.after_follows {m₁ : Machine} {completion : Completion} (hfollows : m.Follows m₁)
    (h : O.Ends m₁ after given completion m') : O.Ends m after given completion m' := by
  cases completion with
  | normal => exact ⟨hfollows.trans h.1, h.2⟩
  | gaveBack value => exact h

/-! ## Frames inside the current one -/

/-- A frame in the current one that honours local scopes. -/
structure Opens (O : Surroundings) (m : Machine) (f : FrameId) (locals : List Scope) : Prop where
  ordered : m.store.Ordered
  honours : O.Honours m.store f locals
  parent : ∃ frame, m.store.frame? f = some frame ∧ frame.parent? = some m.frame

theorem Opens.enter (h : O.Opens m f locals) : O.Houses { m with frame := f } locals :=
  ⟨h.ordered, h.honours⟩

/-- After a run inside a frame, the frame still opens from the current one. -/
theorem Opens.leave (h : O.Opens m f locals)
    (hfollows : ({ m with frame := f } : Machine).Follows m') (hm' : O.Houses m' after) :
    m.Follows { m' with frame := m.frame } ∧ O.Opens { m' with frame := m.frame } f after := by
  obtain ⟨frame, hframe, hparent⟩ := h.parent
  obtain ⟨frame', hframe', hparent'⟩ := hfollows.parents f frame hframe
  refine ⟨Machine.Follows.leave hfollows, hm'.ordered, ?_, frame', hframe',
    hparent'.trans hparent⟩
  have hf : m'.frame = f := hfollows.frame
  rw [← hf]
  exact hm'.honours

/-- Around the frame there are the scopes without its own. -/
theorem Opens.houses {scope : Scope} (h : O.Opens m f (scope :: locals)) : O.Houses m locals := by
  obtain ⟨frame, hframe, hparent⟩ := h.parent
  refine ⟨h.ordered, ?_⟩
  cases h.honours with
  | inside hframe' hparent' _ hrest =>
    rw [hframe] at hframe'
    cases hframe'
    rw [hparent] at hparent'
    cases hparent'
    exact hrest

end Surroundings

namespace Run

variable {m : Machine} {f : FrameId}

/-- A new frame inside the current one. -/
theorem newChild_opens (hm : O.Houses m locals) :
    Lands IsAnyFault newChild m fun f m' => m.Follows m' ∧ O.Opens m' f (.empty :: locals) := by
  refine Lands.bind (Q := fun f m' => f = m.frame ∧ m' = m) (Lands.frame ⟨rfl, rfl⟩) ?_
  intro _ m hpost
  obtain ⟨rfl, rfl⟩ := hpost
  have hparent : (⟨.empty, some m.frame, false, none⟩ : Frame).parent? = some m.frame := rfl
  obtain ⟨hordered, hhonours⟩ := hm.honours.child hm.ordered hparent rfl
  exact Lands.make ⟨Machine.follows_newFrame _ _, hordered, hhonours, _,
    m.store.frame?_newFrame_self _, rfl⟩

/-- Statements inside a frame that opens from the current one. -/
theorem inFrame_settles {x : Run Completion} (h : O.Opens m f locals)
    (hx : Run.Settles O x locals after given) :
    Lands IsAnyFault (inFrame f x) m fun completion m' =>
      match completion with
      | .normal => m.Follows m' ∧ O.Opens m' f after
      | .gaveBack value => ∃ type ∈ given, Conforms O.table m'.store type value := by
  refine Lands.inFrame ((hx _ h.enter).mono ?_)
  intro completion m' hpost
  cases completion with
  | normal => exact h.leave hpost.1 hpost.2
  | gaveBack value => exact hpost

/-- An expression inside a frame that opens from the current one. -/
theorem inFrame_houses {α : Type} {x : Run α} (h : O.Opens m f locals)
    (hx : ∀ m, O.Houses m locals → Lands IsAnyFault x m fun _ m' =>
      m.Follows m' ∧ O.Houses m' locals) :
    Lands IsAnyFault (inFrame f x) m fun _ m' => m.Follows m' ∧ O.Opens m' f locals := by
  refine Lands.inFrame ((hx _ h.enter).mono ?_)
  intro _ m' hpost
  exact h.leave hpost.1 hpost.2

end Run

/-! ## Statements in a row -/

theorem rowSettles.nil (locals : List Scope) : rowSettles O [] locals locals [] :=
  fun _ _ m hm => Lands.pure ⟨.refl _ m, hm⟩

theorem rowSettles.cons {s : Stmt} {rest : List Stmt} {between : List Scope}
    (hs : s.Settles O locals between given) (hrest : rowSettles O rest between after given') :
    rowSettles O (s :: rest) locals after (given ++ given') := by
  intro limit fuel m hm
  rw [Evaluator.execEach]
  refine (hs limit fuel m hm).bind ?_
  intro completion m₁ hpost
  cases completion with
  | normal =>
    refine (hrest limit fuel m₁ hpost.2).mono fun completion m₂ hends => ?_
    exact (hends.after_follows hpost.1).mono fun _ htype => List.mem_append_right _ htype
  | gaveBack value =>
    refine Lands.pure ?_
    obtain ⟨type, htype, hconf⟩ := hpost
    exact ⟨type, List.mem_append_left _ htype, hconf⟩

/-- A block has a frame of its own, of which nothing remains in sight. -/
theorem Block.Settles.of_row {b : Block} (hhoist : Evaluator.hoist b.statements = pure ())
    (h : rowSettles O b.statements (.empty :: locals) after given)
    (htail : after.tail = locals) (hne : after ≠ []) : b.Settles O locals given := by
  intro limit fuel m hm
  have hrow : Run.Settles O ((evaluator limit fuel).execStatements b.statements)
      (.empty :: locals) after given := by
    unfold Evaluator.execStatements
    rw [hhoist, pure_bind]
    exact h limit fuel
  refine (newChild_opens hm).bind ?_
  intro f m₁ hpost
  obtain ⟨hfollows₁, hopens⟩ := hpost
  refine (inFrame_settles hopens hrow).mono ?_
  intro completion m₂ hpost
  cases completion with
  | gaveBack value => exact hpost
  | normal =>
    obtain ⟨hfollows₂, hopens₂⟩ := hpost
    cases after with
    | nil => exact absurd rfl hne
    | cons scope rest =>
      have heq : rest = locals := htail
      subst heq
      exact ⟨hfollows₁.trans hfollows₂, hopens₂.houses⟩

/-! ## Rounds of loops -/

/-- How a round of a loop may end: with the loop, or with the frame of the next round. -/
def Surroundings.EndsRound (O : Surroundings) (m : Machine) (scope : Scope) (locals : List Scope)
    (given : List Ty) : Completion ⊕ FrameId → Machine → Prop
  | .inl completion, m' => O.Ends m locals given completion m'
  | .inr next, m' => m.Follows m' ∧ O.Opens m' next (scope :: locals)

section Loops

variable {condition? update? : Option Expr} {body : Block} {scope : Scope}
  (hupdate : ∀ update, update? = some update → ∃ type, update.Gives O (scope :: locals) type)
  (hbody : body.Settles O (scope :: locals) given)

include hupdate hbody in
/-- A round whose condition holds: the next round starts in a copy of its frame. -/
theorem Evaluator.finishRound_ends (limit fuel : Nat) {f : FrameId} {m : Machine}
    (h : O.Opens m f (scope :: locals)) :
    Lands IsAnyFault ((evaluator limit fuel).loopRound f none update? body) m
      (O.EndsRound m scope locals given) := by
  refine (inFrame_settles h (hbody limit fuel)).bind ?_
  intro completion m₁ hpost
  cases completion with
  | gaveBack value => exact Lands.pure hpost
  | normal =>
    obtain ⟨hfollows₁, hopens₁⟩ := hpost
    refine Lands.bind (Q := fun next m₂ => m₁.Follows m₂ ∧ O.Opens m₂ next (scope :: locals))
      (Lands.make ?_) ?_
    · obtain ⟨hordered, hhonours⟩ := hopens₁.honours.fork hopens₁.ordered
      obtain ⟨frame, hframe, hparent⟩ := hopens₁.parent
      rw [Store.fork_eq hframe] at hordered hhonours ⊢
      exact ⟨Machine.follows_newFrame m₁ frame, hordered, hhonours, frame,
        m₁.store.frame?_newFrame_self frame, hparent⟩
    · intro next m₂ hpost
      obtain ⟨hfollows₂, hopens₂⟩ := hpost
      have hfollows := hfollows₁.trans hfollows₂
      cases update? with
      | none => exact Lands.pure ⟨hfollows, hopens₂⟩
      | some update =>
        obtain ⟨type, htype⟩ := hupdate update rfl
        refine (inFrame_houses hopens₂ fun m hm => (htype limit fuel m hm).mono
          fun _ _ hpost => ⟨hpost.1, hpost.2.1⟩).bind ?_
        intro _ m₃ hpost
        exact Lands.pure ⟨hfollows.trans hpost.1, hpost.2⟩

variable (hcondition : ∀ condition, condition? = some condition →
  ∃ type, condition.Gives O (scope :: locals) type)
include hcondition hupdate hbody

/-- One round of a loop with a header. -/
theorem Evaluator.loopRound_ends (limit fuel : Nat) {f : FrameId} {m : Machine}
    (h : O.Opens m f (scope :: locals)) :
    Lands IsAnyFault ((evaluator limit fuel).loopRound f condition? update? body) m
      (O.EndsRound m scope locals given) := by
  cases condition? with
  | none => exact finishRound_ends hupdate hbody limit fuel h
  | some condition =>
    obtain ⟨type, htype⟩ := hcondition condition rfl
    refine (inFrame_houses h fun m hm => htype.condition limit fuel hm).bind ?_
    intro goesOn m₁ hpost
    obtain ⟨hfollows₁, hopens₁⟩ := hpost
    cases goesOn with
    | false => exact Lands.pure ⟨hfollows₁, hopens₁.houses⟩
    | true =>
      refine (finishRound_ends hupdate hbody limit fuel hopens₁).mono ?_
      intro result m₂ hpost
      cases result with
      | inl completion => exact Surroundings.Ends.after_follows hfollows₁ hpost
      | inr next => exact ⟨hfollows₁.trans hpost.1, hpost.2⟩

/-- The rounds of a loop with a header, by induction on the fuel. -/
theorem Evaluator.loop_ends (limit fuel : Nat) : ∀ {f : FrameId} {m : Machine},
    O.Opens m f (scope :: locals) →
      Lands IsAnyFault ((evaluator limit fuel).loop f condition? update? body) m
        (O.Ends m locals given) := by
  induction fuel with
  | zero => exact fun _ => lands_outOfFuel
  | succ fuel ih =>
    intro f m h
    refine (loopRound_ends hupdate hbody hcondition limit fuel h).bind ?_
    intro result m₁ hpost
    cases result with
    | inl completion => exact Lands.pure hpost
    | inr next => exact (ih hpost.2).mono fun _ _ hends => hends.after_follows hpost.1

omit hupdate hcondition hbody in
/-- The rounds of a loop with a condition only, by induction on the fuel. -/
theorem Evaluator.repeatWhile_ends {condition : Expr} {type : Ty}
    (hcondition : condition.Gives O locals type) (hbody : body.Settles O locals given)
    (limit fuel : Nat) :
    Run.Settles O ((evaluator limit fuel).repeatWhile condition body) locals locals given := by
  induction fuel with
  | zero => exact fun _ _ => lands_outOfFuel
  | succ fuel ih =>
    intro m hm
    have hround : Lands IsAnyFault ((evaluator limit fuel).whileRound condition body) m
        fun completion? m' => completion?.elim (m.Follows m' ∧ O.Houses m' locals)
          (O.Ends m locals given · m') := by
      refine (hcondition.condition limit fuel hm).bind ?_
      intro goesOn m₁ hpost
      cases goesOn with
      | false => exact Lands.pure hpost
      | true =>
        refine (hbody limit fuel m₁ hpost.2).bind ?_
        intro completion m₂ hends
        have hends := hends.after_follows hpost.1
        cases completion with
        | normal => exact Lands.pure hends
        | gaveBack value => exact Lands.pure hends
    refine Lands.bind hround ?_
    intro completion? m₁ hpost
    cases completion? with
    | some completion => exact Lands.pure hpost
    | none => exact (ih m₁ hpost.2).mono fun _ _ hends => hends.after_follows hpost.1

end Loops

/-! ## Statements -/

namespace Stmt.Settles

/-- With no fuel a statement does not end, and with some the rule of statements is
used. -/
theorem of_rule {s : Stmt}
    (h : ∀ limit fuel, Run.Settles O ((evaluator limit fuel).execRule s) locals after given) :
    s.Settles O locals after given := by
  intro limit fuel
  cases fuel with
  | zero => exact fun _ _ => lands_outOfFuel
  | succ fuel => exact h limit fuel

theorem declaration {scope : Scope} {value : Expr} (hne : ∀ f, value ≠ .function f)
    {known : Binding} (hplain : O.part.Plain known.type)
    (h : value.Gives O (scope :: locals) known.type) (name : String) (type? : Option TypeExpr)
    (position : Position) :
    (Stmt.variable name type? (some value) position).Settles O (scope :: locals)
      (scope.set name known :: locals) [] := by
  refine of_rule fun limit fuel m hm => ?_
  refine (h.named hne name limit fuel m hm).bind ?_
  intro given m₁ hpost
  obtain ⟨hfollows₁, hm₁, hconf⟩ := hpost
  refine Lands.bind (Q := fun _ m₂ => m₁.Follows m₂ ∧
    O.Houses m₂ (scope.set name known :: locals)) ?_ ?_
  · refine Lands.bind (Q := fun f m' => f = m₁.frame ∧ m' = m₁) (Lands.frame ⟨rfl, rfl⟩) ?_
    intro _ m₁ hpost
    obtain ⟨rfl, rfl⟩ := hpost
    exact Lands.change ⟨Machine.follows_define m₁ m₁.frame name given,
      hm₁.ordered.define m₁.frame name given,
      hm₁.honours.declare hm₁.ordered name hplain hconf⟩
  · intro _ m₂ hpost
    exact Lands.pure ⟨hfollows₁.trans hpost.1, hpost.2⟩

theorem expression {e : Expr} {type : Ty} (h : e.Gives O locals type) (position : Position) :
    (Stmt.expression e position).Settles O locals locals [] := by
  refine of_rule fun limit fuel m hm => ?_
  refine (h limit fuel m hm).bind ?_
  intro value m₁ hpost
  exact Lands.pure ⟨hpost.1, hpost.2.1⟩

theorem giveBack {e : Expr} {type : Ty} (h : e.Gives O locals type) (position : Position) :
    (Stmt.giveBack (some e) position).Settles O locals locals [type] := by
  refine of_rule fun limit fuel m hm => ?_
  refine (h limit fuel m hm).bind ?_
  intro value m₁ hpost
  exact Lands.pure ⟨type, List.mem_singleton_self _, hpost.2.2⟩

theorem giveBackNothing (position : Position) :
    (Stmt.giveBack none position).Settles O locals locals [.void] :=
  of_rule fun _ _ _ _ =>
    Lands.pure ⟨.void, List.mem_singleton_self _, Conforms.void_iff.mpr rfl⟩

theorem branch {condition : Expr} {type : Ty} {body : Block} {otherwise? : Option Stmt}
    (hcondition : condition.Gives O locals type) (hbody : body.Settles O locals given)
    (hotherwise : ∀ otherwise, otherwise? = some otherwise →
      otherwise.Settles O locals locals given') (position : Position) :
    (Stmt.branch condition body otherwise? position).Settles O locals locals
      (given ++ given') := by
  refine of_rule fun limit fuel m hm => ?_
  refine (hcondition.condition limit fuel hm).bind ?_
  intro goesOn m₁ hpost
  obtain ⟨hfollows₁, hm₁⟩ := hpost
  cases goesOn with
  | true =>
    exact (hbody limit fuel m₁ hm₁).mono fun _ _ hends =>
      (hends.after_follows hfollows₁).mono fun _ htype => List.mem_append_left _ htype
  | false =>
    cases otherwise? with
    | none => exact Lands.pure ⟨hfollows₁, hm₁⟩
    | some otherwise =>
      exact (hotherwise otherwise rfl limit fuel m₁ hm₁).mono fun _ _ hends =>
        (hends.after_follows hfollows₁).mono fun _ htype => List.mem_append_right _ htype

theorem block {b : Block} (h : b.Settles O locals given) :
    (Stmt.block b).Settles O locals locals given :=
  of_rule fun limit fuel => h limit fuel

/-- A loop with a header: its variables have a frame, and a scope, of their own. -/
theorem loop {init? : Option Stmt} {condition? update? : Option Expr} {body : Block}
    {scope : Scope}
    (hinit : match init? with
      | some init => init.Settles O (.empty :: locals) (scope :: locals) []
      | none => scope = .empty)
    (hcondition : ∀ condition, condition? = some condition →
      ∃ type, condition.Gives O (scope :: locals) type)
    (hupdate : ∀ update, update? = some update → ∃ type, update.Gives O (scope :: locals) type)
    (hbody : body.Settles O (scope :: locals) given) (position : Position) :
    (Stmt.loop init? condition? update? body position).Settles O locals locals given := by
  refine of_rule fun limit fuel m hm => ?_
  have hloop : ∀ {f m₁}, m.Follows m₁ → O.Opens m₁ f (scope :: locals) →
      Lands IsAnyFault ((evaluator limit fuel).loop f condition? update? body) m₁
        (O.Ends m locals given) := fun hfollows hopens =>
    (Evaluator.loop_ends hupdate hbody hcondition limit fuel hopens).mono
      fun _ _ hends => hends.after_follows hfollows
  refine (newChild_opens hm).bind ?_
  intro f m₁ hpost
  obtain ⟨hfollows₁, hopens₁⟩ := hpost
  cases init? with
  | none =>
    have hinit : scope = .empty := hinit
    subst hinit
    exact hloop hfollows₁ hopens₁
  | some init =>
    have hinit : init.Settles O (.empty :: locals) (scope :: locals) [] := hinit
    refine (inFrame_settles hopens₁ (hinit limit fuel)).bind ?_
    intro completion m₂ hpost
    cases completion with
    | normal => exact hloop (hfollows₁.trans hpost.1) hpost.2
    | gaveBack value =>
      -- what a loop starts with is no return
      obtain ⟨_, htype, _⟩ := hpost
      exact absurd htype List.not_mem_nil

theorem repeatWhile {condition : Expr} {type : Ty} {body : Block}
    (hcondition : condition.Gives O locals type) (hbody : body.Settles O locals given)
    (position : Position) :
    (Stmt.repeatWhile condition body position).Settles O locals locals given :=
  of_rule fun limit fuel => Evaluator.repeatWhile_ends hcondition hbody limit fuel

end Stmt.Settles

end TypedScript
