import TypedScript.Proofs.Expressions

/-!
# Checked first-order programs only fail by dividing by zero

An accepted statement comes to its end and leads to models of the scopes after
it (`evaluator_executes`). A loop with a header runs in copies of one frame, each
of which is a model of the same scope.

Main result: `Program.run_sound`.
-/

namespace TypedScript

variable {table : Table} {s : Store} {scopes : List Scope}

open Run

/-! ## Statements -/

/-- A run of statements that starts in a model of scopes, comes to its end and
leads to a model of others. -/
def Run.LeadsTo (table : Table) (x : Run Completion) (scopes after : List Scope) : Prop :=
  ∀ m, m.Stands table scopes → Lands IsDivisionByZero x m fun completion m' =>
    completion = .normal ∧ m.Follows m' ∧ m'.Stands table after

/-- A frame in the current one that is a model of one more scope. -/
structure Machine.Opens (table : Table) (m : Machine) (f : FrameId) (scopes : List Scope) :
    Prop where
  models : Models table m.store f scopes
  parent : ∃ frame, m.store.frame? f = some frame ∧ frame.parent? = some m.frame

namespace Machine

variable {m m' : Machine} {f : FrameId} {scope : Scope}

theorem Opens.enter (h : m.Opens table f scopes) (hm : m.store.Ordered) :
    ({ m with frame := f } : Machine).Stands table scopes :=
  ⟨hm, h.models⟩

/-- After a run inside a frame, the frame still opens from the current one. -/
theorem Opens.leave {opened : List Scope} (h : m.Opens table f opened)
    (hfollows : ({ m with frame := f } : Machine).Follows m')
    (hm' : m'.Stands table scopes) :
    ({ m' with frame := m.frame } : Machine).Opens table f scopes := by
  obtain ⟨frame, hframe, hparent⟩ := h.parent
  obtain ⟨frame', hframe', hparent'⟩ := hfollows.parents f frame hframe
  refine ⟨?_, frame', hframe', hparent'.trans hparent⟩
  have hf : m'.frame = f := hfollows.frame
  rw [← hf]
  exact hm'.models

theorem Follows.leave (hfollows : ({ m with frame := f } : Machine).Follows m') :
    m.Follows { m' with frame := m.frame } :=
  ⟨rfl, hfollows.parents, hfollows.size, hfollows.kept⟩

/-- Outside the frame there is a model of the scopes without its own. -/
theorem Opens.stands (h : m.Opens table f scopes) (hm : m.store.Ordered) :
    m.Stands table scopes.tail := by
  obtain ⟨frame, hframe, hparent⟩ := h.parent
  cases scopes with
  | nil => cases h.models
  | cons scope rest => exact ⟨hm, (h.models.inside hframe hparent).2.2.2⟩

theorem follows_newFrame (m : Machine) (frame : Frame) :
    m.Follows { m with store := (m.store.newFrame frame).2 } := by
  refine ⟨rfl, fun f frame' hframe => ⟨frame', ?_, rfl⟩, Nat.le_refl _, fun _ _ => rfl⟩
  have hlt := Store.index_lt_of_frame? hframe
  rw [Store.frame?_newFrame, if_neg]
  · exact hframe
  · rintro rfl
    exact absurd hlt (Nat.lt_irrefl _)

end Machine

/-- A new frame inside the current one. -/
theorem Run.newChild_lands (htable : table.AllPlain) {m : Machine} (hm : m.Stands table scopes) :
    Lands IsDivisionByZero newChild m fun f m' =>
      m.Follows m' ∧ m'.store.Ordered ∧ m'.Opens table f (.empty :: scopes) := by
  refine Lands.bind (Q := fun f m' => f = m.frame ∧ m' = m) (Lands.frame ⟨rfl, rfl⟩) ?_
  intro _ m hpost
  obtain ⟨rfl, rfl⟩ := hpost
  obtain ⟨frame, hframe⟩ := hm.models.frame
  refine Lands.make ⟨Machine.follows_newFrame _ _, hm.ordered.newFrame ?_,
    hm.models.child htable hm.ordered, ⟨.empty, some m.frame, false, none⟩, ?_, rfl⟩
  · rintro parent ⟨rfl⟩
    exact Store.index_lt_of_frame? hframe
  · unfold Store.childFrame
    rw [Store.frame?_newFrame]
    exact if_pos rfl

/-- A run inside a frame that opens from the current one. -/
theorem Run.inFrame_lands {α : Type} {m : Machine} {f : FrameId} {opened after : List Scope}
    {x : Run α} {P : α → Prop} (hm : m.store.Ordered) (h : m.Opens table f opened)
    (hx : ∀ m₁, m₁.Stands table opened → Lands IsDivisionByZero x m₁ fun a m' =>
      P a ∧ m₁.Follows m' ∧ m'.Stands table after) :
    Lands IsDivisionByZero (inFrame f x) m fun a m' =>
      P a ∧ m.Follows m' ∧ m'.store.Ordered ∧ m'.Opens table f after := by
  refine Lands.inFrame ((hx _ (h.enter hm)).mono ?_)
  intro a m' hpost
  obtain ⟨ha, hfollows, hm'⟩ := hpost
  exact ⟨ha, hfollows.leave, hm'.ordered, h.leave hfollows hm'⟩

/-- How the parts of first-order statements have to be run: those that are
accepted lead to the scopes after them. -/
structure Evaluator.Executes (table : Table) (go : Evaluator) : Prop where
  exec : ∀ s scopes after, s.isFirstOrder = true → s.Accepted table scopes after →
    LeadsTo table (go.exec s) scopes after
  loop : ∀ f condition? update? body scope scopes m, condition?.all Expr.isFirstOrder = true →
    update?.all Expr.isFirstOrder = true → body.isFirstOrder = true →
      acceptsRound table (scope :: scopes) condition? update? →
        body.Accepted table (scope :: scopes) → m.store.Ordered →
          m.Opens table f (scope :: scopes) →
            Lands IsDivisionByZero (go.loop f condition? update? body) m fun completion m' =>
              completion = .normal ∧ m.Follows m' ∧ m'.Stands table scopes
  repeatWhile : ∀ condition body scopes, condition.isFirstOrder = true →
    body.isFirstOrder = true → condition.IsCondition table scopes → body.Accepted table scopes →
      LeadsTo table (go.repeatWhile condition body) scopes scopes

namespace Evaluator

variable {go : Evaluator}

/-- No function is declared in first-order statements. -/
theorem hoist_eq : ∀ {l : List Stmt}, rowIsFirstOrder l = true → hoist l = pure () := by
  intro l hl
  induction l with
  | nil => rfl
  | cons s rest ih =>
    obtain ⟨hs, hrest⟩ := Bool.and_eq_true_iff.mp hl
    cases s with
    | function definition => unfold Stmt.isFirstOrder at hs; cases hs
    | _ => exact ih hrest

/-- Statements one after the other. -/
theorem execStatements_leads (hexec : go.Executes table) {l : List Stmt}
    (hl : rowIsFirstOrder l = true) {after : List Scope} (h : rowAccepted table scopes l after) :
    LeadsTo table (go.execStatements l) scopes after := by
  unfold execStatements
  rw [hoist_eq hl, pure_bind]
  induction l generalizing scopes with
  | nil =>
    unfold rowAccepted at h
    rw [h]
    exact fun m hm => Lands.pure ⟨rfl, .refl _ m, hm⟩
  | cons s rest ih =>
    unfold rowAccepted at h
    obtain ⟨between, hs, hrest⟩ := h
    obtain ⟨hfirst, hothers⟩ := Bool.and_eq_true_iff.mp hl
    intro m hm
    rw [execEach]
    refine (hexec.exec s scopes between hfirst hs m hm).bind ?_
    intro _ m₁ hpost
    -- an accepted statement gives nothing back, so the row goes on behind it
    obtain ⟨rfl, hfollows₁, hm₁⟩ := hpost
    refine (ih hothers hrest m₁ hm₁).mono ?_
    intro completion m₂ hpost
    obtain ⟨hnormal, hfollows₂, hm₂⟩ := hpost
    exact ⟨hnormal, hfollows₁.trans hfollows₂, hm₂⟩

/-- A block has a frame of its own, of which nothing remains in sight. -/
theorem execBlock_leads (htable : table.AllPlain) (hexec : go.Executes table) {b : Block}
    (hb : b.isFirstOrder = true) (h : b.Accepted table scopes) :
    LeadsTo table (go.execBlock b) scopes scopes := by
  obtain ⟨statements, position⟩ := b
  unfold Block.Accepted at h
  obtain ⟨after, h⟩ := h
  unfold Block.isFirstOrder at hb
  intro m hm
  refine (newChild_lands htable hm).bind ?_
  intro f m₁ hpost
  obtain ⟨hfollows₁, hm₁, hopens⟩ := hpost
  refine (inFrame_lands hm₁ hopens fun m₂ hm₂ =>
    execStatements_leads hexec hb h m₂ hm₂).mono ?_
  intro completion m₃ hpost
  obtain ⟨hnormal, hfollows₃, hm₃, hopens₃⟩ := hpost
  -- the innermost scope goes with the frame, and the row has left the others as they were
  have hstands := hopens₃.stands hm₃
  rw [h.tail] at hstands
  exact ⟨hnormal, hfollows₁.trans hfollows₃, hstands⟩

/-- The declaration of a variable with its value. -/
theorem execVariable_leads (htable : table.AllPlain) (heval : go.Evaluates table) {name : String}
    {type? : Option TypeExpr} {value? : Option Expr} {position : Position} {after : List Scope}
    (hs : (Stmt.variable name type? value? position).isFirstOrder = true)
    (h : (Stmt.variable name type? value? position).Accepted table scopes after) :
    LeadsTo table (go.execRule (.variable name type? value? position)) scopes after := by
  unfold Stmt.Accepted at h
  obtain ⟨value, found, type, rfl, hvalue, htype, scope, rest, rfl, _, rfl⟩ := h
  unfold Stmt.isFirstOrder at hs
  obtain ⟨hs, hfirst⟩ := Bool.and_eq_true_iff.mp hs
  have hname := of_decide_eq_true (Bool.and_eq_true_iff.mp hs).1
  intro m hm
  have hfound := hvalue.plain htable hm.models.knownPlain value hfirst
  unfold execRule
  dsimp only
  refine (evalNamed_lands heval hfirst hvalue name m hm).bind ?_
  intro given m₁ hpost
  obtain ⟨hfollows₁, hm₁, hconf⟩ := hpost
  -- the variable has the written type, which the value fits, or else the type of the value
  have hdeclared : table.Plain type ∧ Conforms table m₁.store type given := by
    cases type? with
    | some written =>
      obtain ⟨_, hplain, effort, hfits⟩ := htype
      exact ⟨hplain, conforms_of_fits htable.isPlainPart hfits hfound hplain hconf⟩
    | none =>
      have htype : type = found := htype
      rw [htype]
      exact ⟨hfound, hconf⟩
  have hmodels : Models table (m₁.store.define m₁.frame name given) m₁.frame
      (scope.set name ⟨type, position, none⟩ :: rest) :=
    hm₁.models.declare htable hm₁.ordered hname rfl hdeclared.1 hdeclared.2
  exact ⟨rfl, hfollows₁.trans (Machine.follows_define m₁ m₁.frame name given),
    hm₁.ordered.define m₁.frame name given, hmodels⟩

/-- A loop starts in a frame of its own. -/
theorem execLoop_leads (htable : table.AllPlain) (hexec : go.Executes table)
    {init? : Option Stmt} {condition? update? : Option Expr} {body : Block} {position : Position}
    {after : List Scope}
    (hs : (Stmt.loop init? condition? update? body position).isFirstOrder = true)
    (h : (Stmt.loop init? condition? update? body position).Accepted table scopes after) :
    LeadsTo table (go.execRule (.loop init? condition? update? body position)) scopes after := by
  intro m hm
  unfold execRule
  dsimp only
  refine (newChild_lands htable hm).bind ?_
  intro f m₁ hpost
  obtain ⟨hfollows₁, hm₁, hopens₁⟩ := hpost
  cases init? with
  | none =>
    unfold Stmt.Accepted at h
    obtain ⟨rfl, hround, hbody⟩ := h
    unfold Stmt.isFirstOrder at hs
    simp only [Bool.and_eq_true] at hs
    obtain ⟨⟨hcondition, hupdate⟩, hfirst⟩ := hs
    refine (hexec.loop f condition? update? body _ _ m₁ hcondition hupdate hfirst hround hbody hm₁
      hopens₁).mono ?_
    intro completion m₂ hpost
    obtain ⟨hnormal, hfollows₂, hm₂⟩ := hpost
    exact ⟨hnormal, hfollows₁.trans hfollows₂, hm₂⟩
  | some init =>
    unfold Stmt.Accepted at h
    obtain ⟨rfl, inner, hinit, hround, hbody⟩ := h
    unfold Stmt.isFirstOrder at hs
    simp only [Bool.and_eq_true] at hs
    obtain ⟨⟨⟨⟨_, hstart⟩, hcondition⟩, hupdate⟩, hfirst⟩ := hs
    refine (inFrame_lands hm₁ hopens₁ (hexec.exec init _ inner hstart hinit)).bind ?_
    intro completion m₂ hpost
    obtain ⟨_, hfollows₂, hm₂, hopens₂⟩ := hpost
    cases inner with
    -- the scope of the loop is still there after its start
    | nil => cases hopens₂.models
    | cons scope rest =>
      have htail : rest = after := hinit.tail
      subst htail
      refine (hexec.loop f condition? update? body scope rest m₂ hcondition hupdate hfirst hround
        hbody hm₂ hopens₂).mono ?_
      intro completion m₃ hpost
      obtain ⟨hnormal, hfollows₃, hm₃⟩ := hpost
      exact ⟨hnormal, (hfollows₁.trans hfollows₂).trans hfollows₃, hm₃⟩

/-- The rule of statements: what is accepted leads to the scopes after it. -/
theorem execRule_leads (htable : table.AllPlain) (heval : go.Evaluates table)
    (hexec : go.Executes table) {s : Stmt} (hs : s.isFirstOrder = true) {after : List Scope}
    (h : s.Accepted table scopes after) : LeadsTo table (go.execRule s) scopes after := by
  cases s with
  | «variable» name type? value? position => exact execVariable_leads htable heval hs h
  | function definition => unfold Stmt.isFirstOrder at hs; cases hs
  | interface declaration =>
    unfold Stmt.Accepted at h
    rw [h]
    exact fun m hm => Lands.pure ⟨rfl, .refl _ m, hm⟩
  | expression e position =>
    unfold Stmt.Accepted at h
    obtain ⟨rfl, type, htype⟩ := h
    unfold Stmt.isFirstOrder at hs
    intro m hm
    refine (heval.typed e after type hs htype m hm).bind ?_
    intro value m₁ hpost
    obtain ⟨hfollows₁, hm₁, _⟩ := hpost
    exact Lands.pure ⟨rfl, hfollows₁, hm₁⟩
  | giveBack value? position => unfold Stmt.Accepted at h; exact absurd h id
  | branch condition body otherwise? position =>
    -- both forms at once: without an `else` there is nothing to say about it
    have hparts : after = scopes ∧ condition.isFirstOrder = true ∧ body.isFirstOrder = true ∧
        condition.IsCondition table scopes ∧ body.Accepted table scopes ∧
        ∀ otherwise, otherwise? = some otherwise →
          otherwise.isFirstOrder = true ∧ otherwise.Accepted table scopes scopes := by
      cases otherwise? with
      | none =>
        unfold Stmt.Accepted at h
        unfold Stmt.isFirstOrder at hs
        obtain ⟨hcondition, hbody⟩ := Bool.and_eq_true_iff.mp hs
        exact ⟨h.1, hcondition, hbody, h.2.1, h.2.2, fun _ heq => (by cases heq)⟩
      | some otherwise =>
        unfold Stmt.Accepted at h
        unfold Stmt.isFirstOrder at hs
        simp only [Bool.and_eq_true] at hs
        obtain ⟨⟨⟨hcondition, hbody⟩, _⟩, hotherwise⟩ := hs
        refine ⟨h.1, hcondition, hbody, h.2.1, h.2.2.1, ?_⟩
        rintro _ ⟨rfl⟩
        exact ⟨hotherwise, h.2.2.2⟩
    obtain ⟨rfl, hcondition, hbody, hc, hb, hotherwise⟩ := hparts
    intro m hm
    refine (evalCondition_lands heval htable hcondition hc m hm).bind ?_
    intro goesOn m₁ hpost
    obtain ⟨hfollows₁, hm₁⟩ := hpost
    -- whichever way is taken, it leads back to the scopes in front of the conditional
    have hafter : ∀ {x : Run Completion}, LeadsTo table x after after →
        Lands IsDivisionByZero x m₁ fun completion m' =>
          completion = .normal ∧ m.Follows m' ∧ m'.Stands table after := by
      intro x hx
      refine (hx m₁ hm₁).mono ?_
      intro completion m₂ hpost
      obtain ⟨hnormal, hfollows₂, hm₂⟩ := hpost
      exact ⟨hnormal, hfollows₁.trans hfollows₂, hm₂⟩
    cases goesOn with
    | true => exact hafter (execBlock_leads htable hexec hbody hb)
    | false =>
      cases otherwise? with
      | none => exact Lands.pure ⟨rfl, hfollows₁, hm₁⟩
      | some otherwise =>
        obtain ⟨hfirst, ho⟩ := hotherwise otherwise rfl
        exact hafter (hexec.exec otherwise after after hfirst ho)
  | block b =>
    unfold Stmt.Accepted at h
    obtain ⟨rfl, h⟩ := h
    unfold Stmt.isFirstOrder at hs
    exact execBlock_leads htable hexec hs h
  | loop init? condition? update? body position => exact execLoop_leads htable hexec hs h
  | repeatWhile condition body position =>
    unfold Stmt.Accepted at h
    obtain ⟨rfl, hc, hb⟩ := h
    unfold Stmt.isFirstOrder at hs
    obtain ⟨hcondition, hbody⟩ := Bool.and_eq_true_iff.mp hs
    exact hexec.repeatWhile condition body after hcondition hbody hc hb

/-- How a round of a loop may end: with the loop, or with the frame of the next
round. -/
def RoundEnds (table : Table) (m : Machine) (scope : Scope) (scopes : List Scope)
    (result : Completion ⊕ FrameId) (m' : Machine) : Prop :=
  m.Follows m' ∧ m'.store.Ordered ∧
    match result with
    | .inl completion => completion = .normal ∧ m'.Stands table scopes
    | .inr next => m'.Opens table next (scope :: scopes)

/-- A round whose condition holds: the next round starts in a copy of its frame. -/
theorem loopRound_lands_of_none (htable : table.AllPlain) (heval : go.Evaluates table)
    (hexec : go.Executes table) {f : FrameId} {update? : Option Expr} {body : Block}
    {scope : Scope} (hupdate : update?.all Expr.isFirstOrder = true)
    (hbody : body.isFirstOrder = true)
    (hround : ∀ update, update? = some update → ∃ type, update.HasType table (scope :: scopes) type)
    (hb : body.Accepted table (scope :: scopes)) {m : Machine} (hm : m.store.Ordered)
    (hopens : m.Opens table f (scope :: scopes)) :
    Lands IsDivisionByZero (go.loopRound f none update? body) m
      (RoundEnds table m scope scopes) := by
  refine (inFrame_lands hm hopens (execBlock_leads htable hexec hbody hb)).bind ?_
  intro _ m₁ hpost
  obtain ⟨rfl, hfollows₁, hm₁, hopens₁⟩ := hpost
  refine Lands.bind (Q := fun next m₂ => m₁.Follows m₂ ∧ m₂.store.Ordered ∧
    m₂.Opens table next (scope :: scopes)) (Lands.make ?_) ?_
  · -- the copy holds what its original holds, and so is a model of the same scopes
    obtain ⟨frame, hframe, hparent⟩ := hopens₁.parent
    have hmodels := hopens₁.models.fork htable hm₁ hframe hparent
    have hordered := hm₁.fork hframe
    rw [Store.fork_eq hframe] at hmodels hordered ⊢
    exact ⟨Machine.follows_newFrame m₁ frame, hordered, hmodels, frame,
      m₁.store.frame?_newFrame_self frame, hparent⟩
  · intro next m₂ hpost
    obtain ⟨hfollows₂, hm₂, hopens₂⟩ := hpost
    have hfollows := hfollows₁.trans hfollows₂
    cases update? with
    | none => exact Lands.pure ⟨hfollows, hm₂, hopens₂⟩
    | some update =>
      obtain ⟨type, htype⟩ := hround update rfl
      have hlands : ∀ m₃, m₃.Stands table (scope :: scopes) →
          Lands IsDivisionByZero (go.eval update) m₃ fun _ m' =>
            True ∧ m₃.Follows m' ∧ m'.Stands table (scope :: scopes) := fun m₃ hm₃ =>
        (heval.typed update _ type hupdate htype m₃ hm₃).mono fun _ _ ⟨hfollows, hm, _⟩ =>
          ⟨trivial, hfollows, hm⟩
      refine (inFrame_lands hm₂ hopens₂ hlands).bind ?_
      intro _ m₃ hpost
      obtain ⟨_, hfollows₃, hm₃, hopens₃⟩ := hpost
      exact Lands.pure ⟨hfollows.trans hfollows₃, hm₃, hopens₃⟩

/-- One round of a loop with a header. -/
theorem loopRound_lands (htable : table.AllPlain) (heval : go.Evaluates table)
    (hexec : go.Executes table) {f : FrameId} {condition? update? : Option Expr} {body : Block}
    {scope : Scope} (hcondition : condition?.all Expr.isFirstOrder = true)
    (hupdate : update?.all Expr.isFirstOrder = true) (hbody : body.isFirstOrder = true)
    (hround : acceptsRound table (scope :: scopes) condition? update?)
    (hb : body.Accepted table (scope :: scopes)) {m : Machine} (hm : m.store.Ordered)
    (hopens : m.Opens table f (scope :: scopes)) :
    Lands IsDivisionByZero (go.loopRound f condition? update? body) m
      (RoundEnds table m scope scopes) := by
  cases condition? with
  | none => exact loopRound_lands_of_none htable heval hexec hupdate hbody hround.2 hb hm hopens
  | some condition =>
    have hlands : ∀ m₁, m₁.Stands table (scope :: scopes) →
        Lands IsDivisionByZero (go.evalCondition condition) m₁ fun _ m' =>
          True ∧ m₁.Follows m' ∧ m'.Stands table (scope :: scopes) := fun m₁ hm₁ =>
      (evalCondition_lands heval htable hcondition (hround.1 condition rfl) m₁ hm₁).mono
        fun _ _ hm => ⟨trivial, hm⟩
    refine (inFrame_lands hm hopens hlands).bind ?_
    intro goesOn m₁ hpost
    obtain ⟨_, hfollows₁, hm₁, hopens₁⟩ := hpost
    cases goesOn with
    | false => exact Lands.pure ⟨hfollows₁, hm₁, rfl, hopens₁.stands hm₁⟩
    | true =>
      refine (loopRound_lands_of_none htable heval hexec hupdate hbody hround.2 hb hm₁
        hopens₁).mono ?_
      intro result m₂ hpost
      obtain ⟨hfollows₂, hends⟩ := hpost
      exact ⟨hfollows₁.trans hfollows₂, hends⟩

/-- One round of a loop with a condition only. -/
theorem whileRound_lands (htable : table.AllPlain) (heval : go.Evaluates table)
    (hexec : go.Executes table) {condition : Expr} {body : Block}
    (hcondition : condition.isFirstOrder = true) (hbody : body.isFirstOrder = true)
    (hc : condition.IsCondition table scopes) (hb : body.Accepted table scopes) {m : Machine}
    (hm : m.Stands table scopes) :
    Lands IsDivisionByZero (go.whileRound condition body) m fun completion? m' =>
      (∀ completion, completion? = some completion → completion = .normal) ∧ m.Follows m' ∧
        m'.Stands table scopes := by
  refine (evalCondition_lands heval htable hcondition hc m hm).bind ?_
  intro goesOn m₁ hpost
  obtain ⟨hfollows₁, hm₁⟩ := hpost
  cases goesOn with
  | false => exact Lands.pure ⟨fun _ heq => (Option.some.inj heq).symm, hfollows₁, hm₁⟩
  | true =>
    refine (execBlock_leads htable hexec hbody hb m₁ hm₁).bind ?_
    intro _ m₂ hpost
    obtain ⟨rfl, hfollows₂, hm₂⟩ := hpost
    exact Lands.pure ⟨fun _ heq => (by cases heq), hfollows₁.trans hfollows₂, hm₂⟩

end Evaluator

/-- The evaluator runs first-order statements as the rules of typing say. -/
theorem evaluator_executes (htable : table.AllPlain) (limit fuel : Nat) :
    (evaluator limit fuel).Executes table := by
  induction fuel with
  | zero =>
    exact ⟨fun _ _ _ _ _ _ _ => lands_outOfFuel, fun _ _ _ _ _ _ _ _ _ _ _ _ _ _ => lands_outOfFuel,
      fun _ _ _ _ _ _ _ _ _ => lands_outOfFuel⟩
  | succ fuel ih =>
    have heval := evaluator_evaluates htable limit fuel
    refine ⟨fun s scopes after hs h => Evaluator.execRule_leads htable heval ih hs h, ?_, ?_⟩
    · intro f condition? update? body scope scopes m hcondition hupdate hbody hround hb hm hopens
      refine (Evaluator.loopRound_lands htable heval ih hcondition hupdate hbody hround hb hm
        hopens).bind ?_
      rintro (completion | next) m₁ ⟨hfollows₁, hm₁, hends⟩
      · exact Lands.pure ⟨hends.1, hfollows₁, hends.2⟩
      · -- the other rounds start where this one has led to, with less fuel
        refine (ih.loop next condition? update? body scope scopes m₁ hcondition hupdate hbody hround
          hb hm₁ hends).mono ?_
        intro completion m₂ hpost
        obtain ⟨hnormal, hfollows₂, hm₂⟩ := hpost
        exact ⟨hnormal, hfollows₁.trans hfollows₂, hm₂⟩
    · intro condition body scopes hcondition hbody hc hb m hm
      refine (Evaluator.whileRound_lands htable heval ih hcondition hbody hc hb hm).bind ?_
      rintro (_ | completion) m₁ ⟨hnormal, hfollows₁, hm₁⟩
      · refine (ih.repeatWhile condition body scopes hcondition hbody hc hb m₁ hm₁).mono ?_
        intro completion m₂ hpost
        obtain ⟨hnormal, hfollows₂, hm₂⟩ := hpost
        exact ⟨hnormal, hfollows₁.trans hfollows₂, hm₂⟩
      · exact Lands.pure ⟨hnormal completion rfl, hfollows₁, hm₁⟩

/-! ## Programs -/

/-- The machine before a program starts stands in a model of what is known
then. -/
theorem Machine.stands_initial (table : Table) :
    Machine.initial.Stands table (.empty :: Knowledge.initial.scopes) where
  ordered := Machine.ordered_initial
  models := by
    have hempty : Agrees table Machine.initial.store .empty
        ⟨[(Native.log.holder, .object ⟨0⟩)]⟩ := by
      refine .empty fun name hname => ?_
      unfold Record.get?
      rw [List.lookup_cons, beq_false_of_ne hname]
      rfl
    exact .outermost (o := ⟨0⟩) rfl rfl hempty rfl rfl rfl

/-- A checked first-order program ends without a fault or by dividing by zero,
if it ends. -/
theorem Program.run_sound {program : Program} (hfirst : program.isFirstOrder = true)
    {effort fuel : Nat} (hcheck : program.check effort fuel = .ok []) {limit steps : Nat}
    {outcome : Outcome} (hrun : program.run limit steps = some outcome) :
    outcome.fault? = none ∨ ∃ position, outcome.fault? = some ⟨.divisionByZero, position⟩ := by
  obtain ⟨htable, after, haccepted⟩ := Program.accepted_of_check hfirst hcheck
  have hleads : Lands IsDivisionByZero (program.exec limit steps) Machine.initial
      fun _ _ => True := by
    refine Lands.bind (Evaluator.execStatements_leads (evaluator_executes htable limit steps) hfirst
      haccepted _ (Machine.stands_initial program.table)) ?_
    exact fun _ _ _ => Lands.pure trivial
  -- the rules allow one fault only; the outcome is read off how the run ends
  unfold Lands at hleads
  unfold Program.run at hrun
  cases hexec : program.exec limit steps Machine.initial with
  | ok u m =>
    rw [hexec] at hrun
    cases hrun
    exact .inl rfl
  | error halt m =>
    rw [hexec] at hrun hleads
    cases halt with
    | outOfFuel => cases hrun
    | fault fault =>
      cases hrun
      obtain ⟨cause, position⟩ := fault
      have hcause : cause = .divisionByZero := hleads
      exact .inr ⟨position, by rw [hcause]⟩

/-- A loop that divides by a number counting down to zero. -/
theorem Program.run_sound_of_countdown : ∃ program outcome,
    Program.ofSource? "interface P \x7b x: number \x7d let p: P = \x7b x: 6 \x7d; let i = 2;
      while (i >= 0) \x7b console.log(p.x / i); i = i - 1; \x7d" = .ok program ∧
    program.isFirstOrder = true ∧ program.check 9 40 = .ok [] ∧
    program.run 128 40 = some outcome ∧
    (outcome.fault? = none ∨ ∃ position, outcome.fault? = some ⟨.divisionByZero, position⟩) := by
  have hread : (Program.ofSource?
      "interface P \x7b x: number \x7d let p: P = \x7b x: 6 \x7d; let i = 2;
      while (i >= 0) \x7b console.log(p.x / i); i = i - 1; \x7d").toOption.any
      (fun program => program.isFirstOrder && (program.check 9 40).toOption.any (·.isEmpty) &&
        (program.run 128 40).isSome) = true := by
    decide +kernel
  obtain ⟨program, hsource, h⟩ := exists_ofSource hread
  simp only [Bool.and_eq_true] at h
  obtain ⟨⟨hfirst, hclean⟩, hends⟩ := h
  obtain ⟨outcome, hrun⟩ := Option.isSome_iff_exists.mp hends
  have hcheck := check_of_isEmpty hclean
  exact ⟨program, outcome, hsource, hfirst, hcheck, hrun, run_sound hfirst hcheck hrun⟩

end TypedScript
