import TypedScript.Execution
import TypedScript.Proofs.Frames
import TypedScript.Proofs.Keeping
import TypedScript.Proofs.Sites

/-!
# Checks and runs that keep to notes

`Notes` say of a reference in which scopes its name may be found. A check that
keeps to notes stops where it finds a name in another scope, other than ahead of
its turn, and so does a run, which counts the frames from the current one
outward. Both follow the rules that checks and runs follow anyway. So the notes
that a check keeps to have all that it finds, and a run keeps to them if it finds
nothing else.

The frame of the program is also that of the built-in object, whose scope the
checker has outside that of the program; `Store.sights` tells the two apart.
-/

namespace TypedScript

/-- In which scopes the name of a reference may be found: its name, its place
and the number of the scope from the inside. -/
abbrev Notes := String → Position → Nat → Bool

/-- The name that an expression looks up itself, to read it or to write to it. -/
def Expr.name? : Expr → Option (String × Position)
  | .reference name position => some (name, position)
  | .assign (.reference name position) _ _ _ => some (name, position)
  | .update (.reference name position) _ _ _ => some (name, position)
  | _ => none

/-- Whether an expression finds its name where notes allow it, if it looks one
up. -/
def Notes.allow (notes : Notes) (sights : List (String → Bool)) (e : Expr) : Bool :=
  e.name?.all fun named => (address? sights named.1).all (notes named.1 named.2)

/-- Notes given as a list of lines, columns and numbers of scopes. -/
def Notes.ofList (l : List (Nat × Nat × Nat)) : Notes :=
  fun _ position i => l.contains (position.line, position.column, i)

/-- The notes have all scopes in which the names of the sites may be found. -/
def AllNoted (notes : Notes) (sites : List Site) : Prop :=
  ∀ site ∈ sites, ∀ i ∈ site.candidates, notes site.name site.position i = true

theorem AllNoted.append {notes : Notes} {l l' : List Site} :
    AllNoted notes (l ++ l') ↔ AllNoted notes l ∧ AllNoted notes l' :=
  List.forall_mem_append

/-- The names in the scopes, from the innermost outward. -/
def Knowledge.sights (k : Knowledge) : List (String → Bool) :=
  k.scopes.map fun scope name => scope.has name

/-- Whether a frame has a name, other than that of the built-in object in the
outermost frame. -/
def Frame.sight (frame : Frame) (name : String) : Bool :=
  frame.bindings.has name && (frame.parent?.isSome || name ≠ Native.log.holder)

/-- Whether the frame of a store has a name. -/
def Store.sight (s : Store) (f : FrameId) (name : String) : Bool :=
  (s.frame? f).any fun frame => frame.sight name

/-- The names in the frames from one outward, and outside of them the built-in
object. -/
def Store.sights (s : Store) (f : FrameId) : List (String → Bool) :=
  (s.chain f).map s.sight ++ [fun name => decide (name = Native.log.holder)]

/-- The scope at the address of a name is the one in which the check looks it
up. -/
theorem Knowledge.lookup?_of_address {k : Knowledge} {name : String} {i : Nat}
    (h : address? k.sights name = some i) :
    ∃ scope, k.scopes[i]? = some scope ∧ k.lookup? name = scope.get? name := by
  obtain ⟨scopes, _, _, _, _, _⟩ := k
  unfold sights at h
  unfold lookup?
  dsimp only at h ⊢
  induction scopes generalizing i with
  | nil => cases h
  | cons scope rest ih =>
    rw [List.map_cons] at h
    rw [List.findSome?_cons]
    cases hget : scope.get? name with
    | some binding =>
      rw [address?_of_has (congrArg Option.isSome hget)] at h
      cases h
      exact ⟨scope, rfl, hget.symm⟩
    | none =>
      rw [address?_of_has_not (congrArg Option.isSome hget)] at h
      obtain ⟨j, hj, rfl⟩ := Option.map_eq_some_iff.mp h
      exact ih hj

/-- The frame at the address of a name is the one in which a run looks it up.
Outside of the frames only the name of the built-in object is found. -/
theorem Store.owner?_of_address {s : Store} (hs : s.Ordered) {f : FrameId} {name : String} {i : Nat}
    (h : address? (s.sights f) name = some i) :
    i < (s.chain f).length ∧ s.owner? f name = (s.chain f)[i]? ∨
      i = (s.chain f).length ∧ name = Native.log.holder := by
  -- behind all frames there is one more sight, that of the name of the built-in object
  have houter : ∀ {j : Nat},
      address? [fun other => decide (other = Native.log.holder)] name = some j →
        j = 0 ∧ name = Native.log.holder := by
    intro j hj
    by_cases hname : name = Native.log.holder
    · rw [address?_of_has (decide_eq_true hname)] at hj
      cases hj
      exact ⟨rfl, hname⟩
    · rw [address?_of_has_not (decide_eq_false hname)] at hj
      cases hj
  -- by strong induction on the age of the frame, as parents are older
  induction hindex : f.index using Nat.strongRecOn generalizing f i with
  | ind n ih =>
    unfold sights at h
    cases hframe : s.frame? f with
    | none =>
      have hchain : s.chain f = [] := by
        unfold chain chainUpTo
        rw [hframe]
      rw [hchain] at h ⊢
      exact .inr (houter h)
    | some frame =>
      have hsight : s.sight f name = frame.sight name := by
        unfold sight
        rw [hframe, Option.any_some]
      rw [chain_eq hs hframe] at h ⊢
      rw [owner?_eq hs hframe]
      rw [List.map_cons, List.cons_append] at h
      cases hhas : frame.sight name with
      | true =>
        rw [address?_of_has (hsight.trans hhas)] at h
        cases h
        have hbinding : (frame.bindings.get? name).isSome = true :=
          (Bool.and_eq_true_iff.mp hhas).1
        rw [if_pos hbinding]
        exact .inl ⟨Nat.zero_lt_succ _, rfl⟩
      | false =>
        rw [address?_of_has_not (hsight.trans hhas)] at h
        obtain ⟨j, hj, rfl⟩ := Option.map_eq_some_iff.mp h
        cases hparent : frame.parent? with
        | none =>
          rw [hparent] at hj
          obtain ⟨rfl, hname⟩ := houter hj
          exact .inr ⟨rfl, hname⟩
        | some parent =>
          -- a frame with a parent shows all that it binds, so here the name is not bound
          have hbinding : ¬(frame.bindings.get? name).isSome = true := by
            unfold Frame.sight at hhas
            rw [hparent, Option.isSome_some, Bool.true_or, Bool.and_true] at hhas
            exact fun h => Bool.false_ne_true (hhas.symm.trans h)
          rw [hparent] at hj
          rw [if_neg hbinding, Option.bind_some, List.length_cons]
          have hlt := hs f frame parent hframe hparent
          rcases ih parent.index (hindex ▸ hlt) hj rfl with h | h
          · exact .inl ⟨Nat.succ_lt_succ h.1, h.2⟩
          · exact .inr ⟨congrArg Nat.succ h.1, h.2⟩

section Knot

variable (notes : Notes)

section Checking

/-- An expression that is checked if it finds its name where the notes allow
it. -/
def Check.heeding (e : Expr) (x : Check Ty) : Check Ty := do
  let k ← get
  if k.ahead = 0 && !notes.allow k.sights e then throw .descent else x

variable (table : Table) (effort : Nat)

mutual

/-- The type of an expression, where the notes are kept to. -/
def Expr.typeOfNoted : (fuel : Nat) → Expr → Check Ty
  | 0, _ => throw .descent
  | fuel + 1, e =>
    Check.heeding notes e <| Checker.exprRule
      ⟨table, effort, Expr.typeOfNoted fuel, Stmt.checkNoted fuel, Block.checkAllNoted fuel⟩ e

/-- The check of a statement, where the notes are kept to. -/
def Stmt.checkNoted : (fuel : Nat) → Stmt → Check Unit
  | 0, _ => throw .descent
  | fuel + 1, s =>
    Checker.stmtRule
      ⟨table, effort, Expr.typeOfNoted fuel, Stmt.checkNoted fuel, Block.checkAllNoted fuel⟩ s

/-- The check of statements in a row, where the notes are kept to. -/
def Block.checkAllNoted : (fuel : Nat) → List Stmt → Check Unit
  | 0, _ => throw .descent
  | fuel + 1, statements =>
    Checker.rowRule
      ⟨table, effort, Expr.typeOfNoted fuel, Stmt.checkNoted fuel, Block.checkAllNoted fuel⟩
      statements

end

/-- The checker that keeps to notes, with a given amount of fuel. -/
def checkerNoted (fuel : Nat) : Checker :=
  ⟨table, effort, Expr.typeOfNoted notes table effort fuel,
    Stmt.checkNoted notes table effort fuel, Block.checkAllNoted notes table effort fuel⟩

end Checking

section Running

variable (refusal : Halt)

/-- An expression that is evaluated if it finds its name where the notes allow
it, before and after. -/
def Run.heeding (e : Expr) (x : Run Value) : Run Value := do
  let m ← get
  if notes.allow (m.store.sights m.frame) e then
    let value ← x
    let m ← get
    if notes.allow (m.store.sights m.frame) e then return value else throw refusal
  else throw refusal

variable (limit : Nat)

mutual

/-- The value of an expression, where the notes are kept to. -/
def Expr.evalNoted : (fuel : Nat) → Expr → Run Value
  | 0, _ => Run.outOfFuel
  | fuel + 1, e =>
    Run.heeding notes refusal e <| Evaluator.evalRule
      ⟨Expr.evalNoted fuel, Stmt.execNoted fuel, Block.loopNoted fuel,
        Block.repeatWhileNoted fuel⟩ limit e

/-- The effect of a statement, where the notes are kept to. -/
def Stmt.execNoted : (fuel : Nat) → Stmt → Run Completion
  | 0, _ => Run.outOfFuel
  | fuel + 1, s =>
    Evaluator.execRule
      ⟨Expr.evalNoted fuel, Stmt.execNoted fuel, Block.loopNoted fuel,
        Block.repeatWhileNoted fuel⟩ s

/-- The rounds of a loop with a header, where the notes are kept to. -/
def Block.loopNoted :
    (fuel : Nat) → FrameId → Option Expr → Option Expr → Block → Run Completion
  | 0, _, _, _, _ => Run.outOfFuel
  | fuel + 1, f, condition?, update?, body => do
    match ← Evaluator.loopRound
        ⟨Expr.evalNoted fuel, Stmt.execNoted fuel, Block.loopNoted fuel,
          Block.repeatWhileNoted fuel⟩
        f condition? update? body with
    | .inl completion => return completion
    | .inr next => Block.loopNoted fuel next condition? update? body

/-- The rounds of a loop with a condition only, where the notes are kept to. -/
def Block.repeatWhileNoted : (fuel : Nat) → Expr → Block → Run Completion
  | 0, _, _ => Run.outOfFuel
  | fuel + 1, condition, body => do
    match ← Evaluator.whileRound
        ⟨Expr.evalNoted fuel, Stmt.execNoted fuel, Block.loopNoted fuel,
          Block.repeatWhileNoted fuel⟩
        condition body with
    | some completion => return completion
    | none => Block.repeatWhileNoted fuel condition body

end

/-- The evaluator that keeps to notes, with a given amount of fuel. -/
def evaluatorNoted (fuel : Nat) : Evaluator :=
  ⟨Expr.evalNoted notes refusal limit fuel, Stmt.execNoted notes refusal limit fuel,
    Block.loopNoted notes refusal limit fuel, Block.repeatWhileNoted notes refusal limit fuel⟩

end Running

namespace Program

/-- The check of a program, where the notes are kept to. -/
def checkNoted (effort fuel : Nat) (program : Program) : Except Unfinished (List Diagnostic) :=
  program.checkBy effort (Block.checkAllNoted notes program.table effort fuel program.statements)

/-- Runs the statements of a program, keeping to notes. -/
def execNoted (refusal : Halt) (limit fuel : Nat) (program : Program) : Run Unit := do
  let _ ← (evaluatorNoted notes refusal limit fuel).execStatements program.statements

/-- The check of a program finds all names, other than ahead of its turn, where
the notes allow it: to keep to them changes nothing. -/
def ChecksWithin (effort fuel : Nat) (program : Program) : Prop :=
  program.checkNoted notes effort fuel = program.check effort fuel

/-- A run of a program finds all names where the notes allow it: it does not
matter how a run is refused that does not keep to them. -/
def RunsWithin (limit fuel : Nat) (program : Program) : Prop :=
  ∀ refusal, program.execNoted notes refusal limit fuel Machine.initial =
    program.exec limit fuel Machine.initial

end Program

end Knot

end TypedScript
