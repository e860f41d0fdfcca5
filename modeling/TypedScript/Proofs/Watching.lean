import TypedScript.Proofs.SimilarPrograms

/-!
# Runs under watch

A `Watch` asks something of the machine at each expression and at each statement,
when its evaluation begins and when it ends with a value. A run under watch follows
the rules of evaluation and is refused where the answer is no. A program `Shows`
only what a watch asks for if being watched changes nothing about its run, whatever
the refusal would be.

If machines that meet under a discipline always give the right answers, a run and
the same run under watch are similar (`evaluator_similar_watched`).
-/

namespace TypedScript

open Run

/-- What is asked of a machine at expressions and at statements. -/
structure Watch where
  expr : Expr → Machine → Bool
  stmt : Stmt → Machine → Bool

/-- Goes on only if something holds of the machine. -/
def Run.ensuring (refusal : Halt) (holds : Machine → Bool) : Run Unit := do
  if holds (← get) then return () else throw refusal

/-- An action before and after which something holds of the machine. -/
def Run.watching {α : Type} (refusal : Halt) (holds : Machine → Bool) (x : Run α) : Run α := do
  ensuring refusal holds
  let a ← x
  ensuring refusal holds
  return a

section Running

variable (W : Watch) (refusal : Halt) (limit : Nat)

mutual

/-- The value of an expression, under watch. -/
def Expr.evalWatched : (fuel : Nat) → Expr → Run Value
  | 0, _ => Run.outOfFuel
  | fuel + 1, e =>
    Run.watching refusal (W.expr e) <| Evaluator.evalRule
      ⟨Expr.evalWatched fuel, Stmt.execWatched fuel, Block.loopWatched fuel,
        Block.repeatWhileWatched fuel⟩ limit e

/-- The effect of a statement, under watch. -/
def Stmt.execWatched : (fuel : Nat) → Stmt → Run Completion
  | 0, _ => Run.outOfFuel
  | fuel + 1, s =>
    Run.watching refusal (W.stmt s) <| Evaluator.execRule
      ⟨Expr.evalWatched fuel, Stmt.execWatched fuel, Block.loopWatched fuel,
        Block.repeatWhileWatched fuel⟩ s

/-- The rounds of a loop with a header, under watch. -/
def Block.loopWatched :
    (fuel : Nat) → FrameId → Option Expr → Option Expr → Block → Run Completion
  | 0, _, _, _, _ => Run.outOfFuel
  | fuel + 1, f, condition?, update?, body => do
    match ← Evaluator.loopRound
        ⟨Expr.evalWatched fuel, Stmt.execWatched fuel, Block.loopWatched fuel,
          Block.repeatWhileWatched fuel⟩
        f condition? update? body with
    | .inl completion => return completion
    | .inr next => Block.loopWatched fuel next condition? update? body

/-- The rounds of a loop with a condition only, under watch. -/
def Block.repeatWhileWatched : (fuel : Nat) → Expr → Block → Run Completion
  | 0, _, _ => Run.outOfFuel
  | fuel + 1, condition, body => do
    match ← Evaluator.whileRound
        ⟨Expr.evalWatched fuel, Stmt.execWatched fuel, Block.loopWatched fuel,
          Block.repeatWhileWatched fuel⟩
        condition body with
    | some completion => return completion
    | none => Block.repeatWhileWatched fuel condition body

end

/-- The evaluator under watch, with a given amount of fuel. -/
def evaluatorWatched (fuel : Nat) : Evaluator :=
  ⟨Expr.evalWatched W refusal limit fuel, Stmt.execWatched W refusal limit fuel,
    Block.loopWatched W refusal limit fuel, Block.repeatWhileWatched W refusal limit fuel⟩

end Running

namespace Program

/-- Runs the statements of a program under watch. -/
def execWatched (W : Watch) (refusal : Halt) (limit fuel : Nat) (program : Program) :
    Run Unit := do
  let _ ← (evaluatorWatched W refusal limit fuel).execStatements program.statements

/-- A run of a program shows only what a watch asks for: it does not matter how a run
is refused that shows anything else. -/
def Shows (W : Watch) (limit fuel : Nat) (program : Program) : Prop :=
  ∀ refusal, program.execWatched W refusal limit fuel Machine.initial =
    program.exec limit fuel Machine.initial

end Program

/-! ## Watched and unwatched runs -/

variable {I World : Type} {D : Discipline I World} {S : Survey I}

section Watching

variable {α : Type} {x y : Run α} {i j : I} {refusal : Halt} {holds : Machine → Bool}

theorem Run.ensuring_of_holds {m : Machine} (h : holds m = true) :
    Run.ensuring refusal holds m = .ok () m := by
  have hget : Run.ensuring refusal holds m =
      (if holds m then pure () else MonadExcept.throw refusal : Run Unit) m := rfl
  rw [hget, if_pos h]
  rfl

theorem Run.Balanced.ensuring : Balanced (Run.ensuring refusal holds) := by
  refine Balanced.get.bind fun m => ?_
  split
  · exact .pure ()
  · exact .throw _

theorem Run.Balanced.watching (hx : Balanced x) : Balanced (Run.watching refusal holds x) :=
  Balanced.ensuring.bind fun _ => hx.bind fun a => Balanced.ensuring.bind fun _ => .pure a

/-- A watch on the second run does not matter if it asks for what always holds. -/
theorem Discipline.Similar.watched (hD : D.Lawful S) (h : D.Similar S i j x y)
    (hholds : ∀ w m n, D.Meet S w m n → D.frames w i m.frame n.frame → holds n = true) :
    D.Similar S i j x (Run.watching refusal holds y) where
  left := h.left
  right := h.right.watching
  agree w m n hmeet hframes := by
    have hagree := h.agree w m n hmeet hframes
    rw [← bind_pure x]
    refine Discipline.Agree.congr (y := do let a ← y; Run.ensuring refusal holds; return a) ?_ rfl
      (bind_of_ok (ensuring_of_holds (hholds w m n hmeet hframes)))
    refine hagree.bind (fun a => .pure a)
      (fun a => Balanced.ensuring.bind fun _ => .pure a) ?_
    intro a b m' n' w' hm hn hle hmeet' hpost
    have hframes' : D.frames w' i m'.frame n'.frame := by
      rw [hm, hn]
      exact hD.frames_mono hle hframes
    exact (Discipline.Agree.pure hmeet' hpost).congr rfl
      (bind_of_ok (ensuring_of_holds (hholds w' m' n' hmeet' hframes')))

end Watching

/-- What machines that meet always answer. -/
structure Watch.Sound (W : Watch) (D : Discipline I World) (S : Survey I) : Prop where
  expr : ∀ {w m n i e}, D.Meet S w m n → D.frames w i m.frame n.frame → e.passes S i = true →
    W.expr e n = true
  stmt : ∀ {w m n i s}, D.Meet S w m n → D.frames w i m.frame n.frame → s.passes S i = true →
    W.stmt s n = true

/-- Whatever is done under watch, the frame and the depth are restored and the lines
remain. -/
theorem evaluatorWatched_balanced (W : Watch) (refusal : Halt) (limit fuel : Nat) :
    (evaluatorWatched W refusal limit fuel).IsBalanced := by
  induction fuel with
  | zero => exact ⟨fun _ => .throw _, fun _ => .throw _, fun _ _ _ _ => .throw _,
      fun _ _ => .throw _⟩
  | succ fuel ih =>
    exact ih.withRules (fun e => (ih.evalRule limit e).watching) fun s =>
      (ih.execRule s).watching

/-- A run and the same run under a sound watch are similar. -/
theorem evaluator_similar_watched (hD : D.Lawful S) {W : Watch} (hW : W.Sound D S) {limit : Nat}
    (hlimits : D.Limits limit limit) (hfuel : D.passes .outOfFuel) (refusal : Halt) (fuel : Nat) :
    Evaluator.Similar D S (evaluator limit fuel) (evaluatorWatched W refusal limit fuel) := by
  induction fuel with
  | zero =>
    have hfuels : D.Fuels 0 0 := .inl ⟨rfl, hfuel⟩
    exact evaluator_similar hD hlimits hfuels
  | succ fuel ih =>
    refine ih.withRules hD (fun h => ?_) (fun h => ?_) (evaluator_balanced limit fuel).execRule
      fun s => ((evaluatorWatched_balanced W refusal limit fuel).execRule s).watching
    · exact (Evaluator.Similar.evalRule hD ih hlimits h).watched hD
        fun _ _ _ hmeet hframes => hW.expr hmeet hframes h
    · exact (Evaluator.Similar.execRule hD ih h).watched hD
        fun _ _ _ hmeet hframes => hW.stmt hmeet hframes h

/-- A program shows what a sound watch asks for. -/
theorem Program.shows_of_sound (hD : D.Lawful S) (hexact : D.IsExact) {W : Watch}
    (hW : W.Sound D S) {limit : Nat} (hlimits : D.Limits limit limit) (hfuel : D.passes .outOfFuel)
    {program : Program} {i : I} (hprogram : rowPasses S i program.statements = true) {w : World}
    (hmeet : D.Meet S w Machine.initial Machine.initial)
    (hframes : D.frames w i Machine.initial.frame Machine.initial.frame) (fuel : Nat) :
    program.Shows W limit fuel := by
  intro refusal
  have hgo := evaluator_similar_watched hD hW hlimits hfuel refusal fuel
  refine hexact.eq_of_agree (agree_of_similar hD hgo hprogram hmeet hframes) ?_ ?_
  · exact (hgo.left _).bind fun _ => .pure _
  · exact (hgo.right _).bind fun _ => .pure _

end TypedScript
