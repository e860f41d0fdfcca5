import TypedScript.Execution
import TypedScript.Proofs.FirstOrder
import TypedScript.Proofs.Sequencing
import TypedScript.Proofs.Survey

/-!
# What the grammar builds

A syntax tree may be put together in more ways than a source text can be read. The
grammar has a block or another conditional behind `else`, and a loop begins with a
declaration or an expression (`Stmt.isBuilt`). A parser `Yields` what satisfies a
condition if each of its values does. By induction on the levels of the grammar, all
that it yields passes the survey of these forms, and so does a whole program
(`Program.passes_of_ofSource`).
-/

namespace TypedScript

/-- Whether the parts of a statement have the forms that the grammar has for them. -/
def Stmt.isBuilt : Stmt → Bool
  | .branch _ _ (some otherwise) _ => otherwise.isAlternative
  | .loop init? _ _ _ _ => init?.all Stmt.isLoopStart
  | _ => true

/-- The survey of the forms that the grammar has. -/
def Survey.grammar : Survey Unit where
  expr _ _ := true
  stmt _ s := s.isBuilt
  function _ _ := true
  isOpen _ := true
  declare _ _ := ()
  enter _ := ()

namespace Parser

variable {α β : Type}

/-- All values of a parser satisfy a condition. -/
def Yields (p : Parser α) (P : α → Prop) : Prop :=
  ∀ c a c', p c = .ok a c' → P a

namespace Yields

variable {P : α → Prop} {Q : β → Prop}

theorem pure {a : α} (h : P a) : Yields (Pure.pure a) P := by
  intro c b c' heq
  cases heq
  exact h

theorem throw (fault : ParseFault) : Yields (MonadExcept.throw fault : Parser α) P := by
  intro c a c' h
  cases h

theorem bind {p : Parser α} {f : α → Parser β} (hp : Yields p P)
    (hf : ∀ a, P a → Yields (f a) Q) : Yields (p >>= f) Q := by
  intro c b c'' h
  obtain ⟨a, c', hpc, hfc⟩ := bind_eq_ok.mp h
  exact hf a (hp c a c' hpc) c' b c'' hfc

theorem mono {P' : α → Prop} {p : Parser α} (hp : Yields p P) (himp : ∀ a, P a → P' a) :
    Yields p P' :=
  fun c a c' h => himp a (hp c a c' h)

/-- What comes first does not matter. -/
theorem after {p : Parser α} {f : α → Parser β} (hf : ∀ a, Yields (f a) Q) :
    Yields (p >>= f) Q :=
  bind (P := fun _ => True) (fun _ _ _ _ => trivial) fun a _ => hf a

theorem nested {p : Parser α} (hp : Yields p P) (position : Position) :
    Yields (Parser.nested position p) P := by
  intro c a c' h
  obtain ⟨-, _, hpc, -⟩ := nested_eq_ok h
  exact hp _ _ _ hpc

theorem itemsUntil (closing : Symbol) {item : Parser α} (hitem : Yields item P) (bound : Nat) :
    Yields (Parser.itemsUntil closing item bound) fun l => ∀ a ∈ l, P a := by
  induction bound with
  | zero => exact .throw _
  | succ bound ih =>
    refine .after fun closes => ?_
    split
    · exact .pure fun _ h => absurd h List.not_mem_nil
    · refine hitem.bind fun first hfirst => .after fun t => ?_
      split
      · exact ih.bind fun rest hrest => .pure (List.forall_mem_cons.mpr ⟨hfirst, hrest⟩)
      · split
        · exact .pure fun a ha => List.mem_singleton.mp ha ▸ hfirst
        · exact .throw _

theorem commaSeparated (closing : Symbol) {item : Parser α} (hitem : Yields item P) :
    Yields (Parser.commaSeparated closing item) fun l => ∀ a ∈ l, P a :=
  .after fun _ => itemsUntil closing hitem _

end Yields

end Parser

namespace Grammar

open TypedScript.Parser

/-- A grammar that builds what passes a survey of the forms. -/
structure Builds (g : Grammar) : Prop where
  expression : Yields g.expression fun e => e.passes .grammar () = true
  unary : Yields g.unary fun e => e.passes .grammar () = true
  statement : Yields g.statement fun s => s.passes .grammar () = true
  conditional : ∀ position, Yields (g.conditional position) fun s =>
    s.isAlternative = true ∧ s.passes .grammar () = true

section Rules

variable {g : Grammar} (hg : g.Builds)

/-! ### Expressions -/

theorem operations_builds (accepts : BinaryOp → Bool) {operand : Parser Expr}
    (hoperand : Yields operand fun e => e.passes .grammar () = true) (bound : Nat) :
    ∀ left : Expr, left.passes .grammar () = true →
      Yields (operations accepts operand bound left) fun e => e.passes .grammar () = true := by
  induction bound with
  | zero => exact fun left hleft => .pure hleft
  | succ bound ih =>
    intro left hleft
    refine .after fun ahead? => ?_
    cases ahead? with
    | none => exact .pure hleft
    | some ahead =>
      refine .nested (.after fun _ => hoperand.bind fun right hright => ih _ ?_) _
      rw [Expr.passes, hleft, hright]
      rfl

theorem leftAssociative_builds (accepts : BinaryOp → Bool) {operand : Parser Expr}
    (hoperand : Yields operand fun e => e.passes .grammar () = true) :
    Yields (leftAssociative accepts operand) fun e => e.passes .grammar () = true :=
  hoperand.bind fun left hleft => .after fun _ => operations_builds accepts hoperand _ left hleft

include hg

theorem disjunction_builds : Yields g.disjunction fun e => e.passes .grammar () = true :=
  leftAssociative_builds _ <| leftAssociative_builds _ <| leftAssociative_builds _ <|
    leftAssociative_builds _ <| leftAssociative_builds _ <| leftAssociative_builds _ hg.unary

theorem assignmentRule_builds : Yields g.assignmentRule fun e => e.passes .grammar () = true := by
  refine .after fun position => .nested ((disjunction_builds hg).bind fun target htarget =>
    .after fun t? => ?_) _
  split
  · split
    · split
      · refine .after fun _ => .after fun _ => hg.expression.bind fun value hvalue => .pure ?_
        rw [Expr.passes, htarget, hvalue]
        rfl
      · exact .pure htarget
    · exact .pure htarget
  · exact .pure htarget

theorem statementsUntilBrace_builds (bound : Nat) :
    Yields (g.statementsUntilBrace bound) fun l => rowPasses .grammar () l = true := by
  induction bound with
  | zero => exact .throw _
  | succ bound ih =>
    have hrow : Yields (do
        let first ← g.statement
        return first :: (← g.statementsUntilBrace bound))
        fun l => rowPasses .grammar () l = true := by
      refine hg.statement.bind fun first hfirst => ih.bind fun rest hrest => .pure ?_
      rw [rowPasses, hfirst]
      exact hrest
    refine .after fun closes => ?_
    split
    · exact .pure rfl
    · refine .after fun passes => ?_
      split
      · exact ih
      · refine .after fun t? => ?_
        split
        · split
          · exact .after fun _ => hrow
          · exact hrow
        · exact hrow

theorem block_builds : Yields g.block fun b => b.passesAt .grammar () = true := by
  refine .after fun t => .after fun bound => ?_
  refine (statementsUntilBrace_builds hg _).bind fun l hl => .pure ?_
  rw [Block.passesAt]
  exact hl

theorem function_builds : Yields g.function fun f => f.passes .grammar () = true := by
  refine .after fun t => .after fun name? => .after fun params => .after fun result? => ?_
  refine (block_builds hg).bind fun body hbody => .pure ?_
  rw [Function.passes]
  exact hbody

theorem field_builds : Yields g.field fun field => field.passes .grammar () = true := by
  refine .after fun name => .after fun _ => hg.expression.bind fun value hvalue => .pure ?_
  rw [Field.passes]
  exact hvalue

theorem primary_builds : Yields g.primary fun e => e.passes .grammar () = true := by
  refine .after fun t? => ?_
  split
  · exact .throw _
  · have hliteral : ∀ (value : Literal) (position : Position), Yields (do
        skip
        return Expr.literal value position) fun e => e.passes .grammar () = true :=
      fun value position => .after fun _ => .pure rfl
    dsimp only
    split
    · exact hliteral _ _
    · exact hliteral _ _
    · exact hliteral _ _
    · exact hliteral _ _
    · exact hliteral _ _
    · exact .after fun _ => .pure rfl
    · exact .after fun _ => .pure rfl
    · exact .after fun _ => hg.expression.bind fun inner hinner => .after fun _ => .pure hinner
    · refine .after fun _ => (Yields.commaSeparated _ (field_builds hg)).bind fun fields hfields =>
        .pure ?_
      rw [Expr.passes, fieldsPass_iff.mpr hfields]
      rfl
    · refine (function_builds hg).bind fun f hf => .pure ?_
      rw [Expr.passes, hf]
      rfl
    · exact .throw _

theorem trailers_builds (bound : Nat) : ∀ base : Expr, base.passes .grammar () = true →
    Yields (g.trailers bound base) fun e => e.passes .grammar () = true := by
  induction bound with
  | zero => exact fun base hbase => .pure hbase
  | succ bound ih =>
    intro base hbase
    refine .after fun t? => ?_
    split
    · exact .pure hbase
    · split
      · refine .nested (.after fun _ => (Yields.commaSeparated _ hg.expression).bind
          fun arguments harguments => ih _ ?_) _
        rw [Expr.passes, hbase, eachPasses_iff.mpr harguments]
        rfl
      · refine .nested (.after fun _ => .after fun property => ih _ ?_) _
        rw [Expr.passes, hbase]
        rfl
      · split
        · refine .after fun _ => .after fun _ => .pure ?_
          rw [Expr.passes, hbase]
          rfl
        · exact .pure hbase
      · exact .pure hbase

theorem unaryRule_builds : Yields g.unaryRule fun e => e.passes .grammar () = true := by
  have hprimary : Yields (do
      let base ← g.primary
      g.trailers (← remaining) base) fun e => e.passes .grammar () = true :=
    (primary_builds hg).bind fun base hbase => .after fun _ => trailers_builds hg _ base hbase
  refine .after fun t? => ?_
  split
  · exact .throw _
  · refine .nested ?_ _
    split
    · split
      · refine .after fun _ => hg.unary.bind fun operand hoperand => .pure ?_
        rw [Expr.passes, hoperand]
        rfl
      · refine .after fun _ => hg.unary.bind fun target htarget => .after fun _ => .pure ?_
        rw [Expr.passes, htarget]
        rfl
      · exact hprimary
    · exact hprimary

/-! ### Statements -/

theorem body_builds : Yields g.body fun b => b.passesAt .grammar () = true := by
  refine .after fun opens => ?_
  split
  · exact block_builds hg
  · refine .after fun position => hg.statement.bind fun s hs => .pure ?_
    rw [Block.passesAt, rowPasses, hs]
    rfl

omit hg in
theorem terminated_builds {statement : Parser Stmt}
    (h : Yields statement fun s => s.passes .grammar () = true) :
    Yields (terminated statement) fun s => s.passes .grammar () = true :=
  h.bind fun _ hs => .after fun _ => .pure hs

theorem initialValue_builds : Yields g.initialValue fun value? =>
    optionPasses .grammar () value? = true := by
  refine .after fun assigns => ?_
  split
  · exact hg.expression.bind fun value hvalue => .pure hvalue
  · exact .pure rfl

theorem variableRule_builds : Yields g.variableRule fun s =>
    s.isLoopStart = true ∧ s.passes .grammar () = true := by
  refine .after fun t => .after fun name => .after fun type? => ?_
  refine (initialValue_builds hg).bind fun value? hvalue => .pure ⟨rfl, ?_⟩
  rw [Stmt.passes, hvalue]
  rfl

theorem expressionRule_builds : Yields g.expressionRule fun s =>
    s.isLoopStart = true ∧ s.passes .grammar () = true := by
  refine .after fun position => hg.expression.bind fun e he => .pure ⟨rfl, ?_⟩
  rw [Stmt.passes, he]
  rfl

theorem returnRule_builds : Yields g.returnRule fun s => s.passes .grammar () = true := by
  refine .after fun t => .after fun t? => ?_
  dsimp only
  split
  · exact .pure rfl
  · refine hg.expression.bind fun value hvalue => .pure ?_
    rw [Stmt.passes, optionPasses, hvalue]
    rfl

theorem expressionUnless_builds (sign : Symbol) : Yields (g.expressionUnless sign) fun e? =>
    optionPasses .grammar () e? = true := by
  refine .after fun ends => ?_
  split
  · exact .pure rfl
  · exact hg.expression.bind fun e he => .pure he

theorem loopStart_builds : Yields g.loopStart fun init? =>
    ∀ init, init? = some init → init.isLoopStart = true ∧ init.passes .grammar () = true := by
  refine .after fun ends => ?_
  split
  · exact .pure fun _ heq => by cases heq
  · refine .after fun declares => ?_
    split
    · exact (variableRule_builds hg).bind fun s hs => .pure fun _ heq => by cases heq; exact hs
    · exact (expressionRule_builds hg).bind fun s hs => .pure fun _ heq => by cases heq; exact hs

theorem loopRule_builds : Yields g.loopRule fun s => s.passes .grammar () = true := by
  refine .after fun t => .after fun _ => (loopStart_builds hg).bind fun init? hinit =>
    .after fun _ => (expressionUnless_builds hg _).bind fun condition? hcondition =>
    .after fun _ => (expressionUnless_builds hg _).bind fun update? hupdate =>
    .after fun _ => (body_builds hg).bind fun body hbody => .pure ?_
  cases init? with
  | none =>
    rw [Stmt.passes]
    exact Bool.and_eq_true_iff.mpr ⟨rfl, Bool.and_eq_true_iff.mpr ⟨hcondition,
      Bool.and_eq_true_iff.mpr ⟨hupdate, hbody⟩⟩⟩
  | some init =>
    obtain ⟨hstart, hpasses⟩ := hinit init rfl
    rw [Stmt.passes]
    exact Bool.and_eq_true_iff.mpr ⟨hstart, Bool.and_eq_true_iff.mpr ⟨hpasses,
      Bool.and_eq_true_iff.mpr ⟨hcondition, Bool.and_eq_true_iff.mpr ⟨hupdate, hbody⟩⟩⟩⟩

theorem whileRule_builds : Yields g.whileRule fun s => s.passes .grammar () = true := by
  refine .after fun t => .after fun _ => hg.expression.bind fun condition hcondition =>
    .after fun _ => (body_builds hg).bind fun body hbody => .pure ?_
  rw [Stmt.passes, hcondition, hbody]
  rfl

theorem conditionalRule_builds (position : Position) : Yields (g.conditionalRule position) fun s =>
    s.isAlternative = true ∧ s.passes .grammar () = true := by
  refine .nested (.after fun _ => hg.expression.bind fun condition hcondition => .after fun _ =>
    (body_builds hg).bind fun body hbody => .after fun hasElse => ?_) position
  -- behind `else` stands one more conditional, a block or a statement that becomes one
  have helse : ∀ otherwise : Stmt, otherwise.isAlternative = true →
      otherwise.passes .grammar () = true →
      (Stmt.branch condition body (some otherwise) position).isAlternative = true ∧
        (Stmt.branch condition body (some otherwise) position).passes .grammar () = true := by
    intro otherwise hform hpasses
    refine ⟨rfl, ?_⟩
    rw [Stmt.passes]
    exact Bool.and_eq_true_iff.mpr ⟨hform, Bool.and_eq_true_iff.mpr ⟨hcondition,
      Bool.and_eq_true_iff.mpr ⟨hbody, hpasses⟩⟩⟩
  have hblock : ∀ b : Block, b.passesAt .grammar () = true →
      (Stmt.block b).passes .grammar () = true := by
    intro b hb
    rw [Stmt.passes]
    exact hb
  split
  · refine .after fun t? => ?_
    split
    · split
      · exact .after fun _ => (hg.conditional _).bind fun otherwise hotherwise =>
          .pure (helse otherwise hotherwise.1 hotherwise.2)
      · exact (body_builds hg).bind fun otherwise hotherwise =>
          .pure (helse _ rfl (hblock otherwise hotherwise))
    · exact (body_builds hg).bind fun otherwise hotherwise =>
        .pure (helse _ rfl (hblock otherwise hotherwise))
  · refine .pure ⟨rfl, ?_⟩
    rw [Stmt.passes, hcondition, hbody]
    rfl

theorem statementRule_builds : Yields g.statementRule fun s => s.passes .grammar () = true := by
  have hexpression : Yields (terminated g.expressionRule) fun s => s.passes .grammar () = true :=
    terminated_builds ((expressionRule_builds hg).mono fun _ hs => hs.2)
  refine .after fun t? => ?_
  split
  · exact .throw _
  · refine .nested ?_ _
    split
    · exact terminated_builds ((variableRule_builds hg).mono fun _ hs => hs.2)
    · refine .after fun named => ?_
      split
      · refine terminated_builds ((function_builds hg).bind fun f hf => .pure ?_)
        rw [Stmt.passes, hf]
        rfl
      · exact hexpression
    · exact terminated_builds (returnRule_builds hg)
    · exact .after fun _ => (hg.conditional _).mono fun _ hs => hs.2
    · exact loopRule_builds hg
    · exact whileRule_builds hg
    · refine (block_builds hg).bind fun b hb => .pure ?_
      rw [Stmt.passes]
      exact hb
    · exact .throw _
    · exact .throw _
    · exact hexpression

end Rules

/-! ## Any number of levels -/

theorem upTo_builds (levels : Nat) : (upTo levels).Builds := by
  induction levels with
  | zero =>
    have hnone : ∀ {α : Type} {P : α → Prop}, Yields (outOfLevels : Parser α) P :=
      fun {_ _} => .after fun _ => .throw _
    exact ⟨hnone, hnone, hnone, fun _ => hnone⟩
  | succ levels ih =>
    exact ⟨assignmentRule_builds ih, unaryRule_builds ih, statementRule_builds ih,
      conditionalRule_builds ih⟩

theorem programStatements_builds {g : Grammar} (hg : g.Builds) (bound : Nat) :
    Yields (programStatements g bound) fun l => rowPasses .grammar () l = true := by
  induction bound with
  | zero => exact .pure rfl
  | succ bound ih =>
    refine .after fun t? => ?_
    split
    · exact .pure rfl
    · split
      · exact .pure rfl
      · exact .after fun _ => ih
      · exact .after fun declaration => ih.bind fun rest hrest => .pure hrest
      · exact .after fun _ => ih
      · refine hg.statement.bind fun s hs => ih.bind fun rest hrest => .pure ?_
        rw [rowPasses, hs]
        exact hrest

end Grammar

/-- A program that is read from a source text has the forms of the grammar. -/
theorem Program.passes_of_ofSource {source : String} {program : Program}
    (h : Program.ofSource? source = .ok program) :
    rowPasses .grammar () program.statements = true := by
  unfold ofSource? at h
  split at h
  · cases h
  · next tokens _ =>
    split at h
    · cases h
    · next found hparse =>
      cases h
      unfold ofTokens? Parser.run at hparse
      split at hparse
      · next program c hrun =>
        cases hparse
        have hyields : Parser.Yields Grammar.program fun program =>
            rowPasses .grammar () program.statements = true :=
          .after fun bound => (Grammar.programStatements_builds (Grammar.upTo_builds _) bound).bind
            fun l hl => .pure hl
        exact hyields _ _ _ hrun
      · cases hparse

end TypedScript
