import TypedScript.Execution
import TypedScript.Proofs.SimilarPrograms

/-!
# What every run restores

A machine can be used again after anything was run on it: an expression, a statement,
a block or a row of statements, the rounds of a loop, a call of a value, or a program.
Names are looked up in the frame in which they were before, as many calls are in
progress, and the lines printed before are still there (`Run.Balanced`). This holds
from every machine and however the run ends: at its end, by giving back a value, with
any fault at any depth, or for want of fuel (`evaluation_restores`).
-/

namespace TypedScript

open Run

namespace Evaluator.IsBalanced

variable {go : Evaluator} (hgo : go.IsBalanced)
include hgo

/-- A block leaves the frame of its own. -/
theorem execBlock (b : Block) : Balanced (go.execBlock b) :=
  (Similar.execBlock Discipline.lawful_never hgo.similar_never (i := ())
    (Block.passesAt_nothing b)).left

/-- A call leaves the frame of the function, and is no longer in progress. -/
theorem call (limit : Nat) (f : Value) (receiver? : Option Value) (arguments : List Value)
    (position : Position) : Balanced (go.call limit f receiver? arguments position) :=
  (Similar.call Discipline.lawful_never hgo.similar_never Discipline.limits_never (i := ())
    f receiver? arguments position).left

end Evaluator.IsBalanced

/-- Whatever is run on a machine, and however it ends, the machine is in the same frame
and at the same depth of calls afterwards, and the lines that were there come first. -/
theorem evaluation_restores (limit fuel : Nat) (m : Machine) :
    (∀ e : Expr, BalancedAt m (endOf (e.eval limit fuel) m)) ∧
    (∀ s : Stmt, BalancedAt m (endOf (s.exec limit fuel) m)) ∧
    (∀ b : Block, BalancedAt m (endOf ((evaluator limit fuel).execBlock b) m)) ∧
    (∀ l : List Stmt, BalancedAt m (endOf ((evaluator limit fuel).execStatements l) m)) ∧
    (∀ (f : FrameId) (condition? update? : Option Expr) (body : Block),
      BalancedAt m (endOf (Block.loop limit fuel f condition? update? body) m)) ∧
    (∀ (condition : Expr) (body : Block),
      BalancedAt m (endOf (Block.repeatWhile limit fuel condition body) m)) ∧
    (∀ (f : Value) (receiver? : Option Value) (arguments : List Value) (position : Position),
      BalancedAt m (endOf (f.call limit fuel receiver? arguments position) m)) ∧
    ∀ program : Program, BalancedAt m (endOf (program.exec limit fuel) m) := by
  have hgo : (evaluator limit fuel).IsBalanced := evaluator_balanced limit fuel
  have hrow := Evaluator.balanced_execStatements hgo.exec
  refine ⟨fun e => hgo.eval e m, fun s => hgo.exec s m, fun b => hgo.execBlock b m,
    fun l => hrow l m, fun f condition? update? body => hgo.loop f condition? update? body m,
    fun condition body => hgo.repeatWhile condition body m,
    fun f receiver? arguments position => hgo.call limit f receiver? arguments position m,
    fun program => ?_⟩
  exact ((hrow program.statements).bind fun _ => .pure ()) m

end TypedScript
