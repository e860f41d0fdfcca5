import TypedScript.Grammar.Statements
import TypedScript.Proofs.Sequencing

/-!
# How many levels a parser keeps open

The steps of a run are noted down with the number of levels that are open before each of
them (`Parser.Passes`). A run can be taken apart into such steps in more than one way, but
only a level that is refused may give the fault that the nesting is too deep.

However it is taken apart, a run that begins with no more than `maxNesting` levels closes
those that it has opened, also if it fails, and keeps within its bounds at every step
(`Parser.Passes.isBalanced`). What remains to be shown is that each parser of the grammar
can be taken apart at all. This is in question only where the recursion of the grammar
ends, as the fault is given there without a level being refused. A parser counts from `n` if
it can be taken apart when `n` levels or more are open (`Parser.CountsFrom`); each level of
the recursion counts from one more than the level above it, so its end is never reached.
-/

namespace TypedScript

namespace Parser

variable {α β : Type}

/-- The place that a run has reached, with a value or a fault. -/
def reached : EStateM.Result ParseFault Cursor α → Cursor
  | .ok _ c => c
  | .error _ c => c

/-- One level is closed behind a run. -/
def closed : EStateM.Result ParseFault Cursor α → EStateM.Result ParseFault Cursor α
  | .ok a c => .ok a { c with depth := c.depth - 1 }
  | .error fault c => .error fault { c with depth := c.depth - 1 }

/-- A step of a run, with the number of levels open before it. -/
inductive Step where
  /-- Tokens are looked at or passed over, or a value or fault is given. -/
  | works (depth : Nat)
  | opens (depth : Nat)
  | refuses (depth : Nat)
  | closes (depth : Nat)

/-- The number of levels open before a step. -/
def Step.depth : Step → Nat
  | .works depth | .opens depth | .refuses depth | .closes depth => depth

/-- A run of a parser goes through these steps to its result. -/
inductive Passes : {α : Type} → Parser α → Cursor → List Step →
    EStateM.Result ParseFault Cursor α → Prop
  | pure {α : Type} (a : α) (c : Cursor) : Passes (Pure.pure a) c [.works c.depth] (.ok a c)
  | throw {α : Type} {fault : ParseFault} (hcause : fault.cause ≠ .tooDeeplyNested)
      (c : Cursor) :
      Passes (MonadExcept.throw fault : Parser α) c [.works c.depth] (.error fault c)
  | look (c : Cursor) : Passes MonadState.get c [.works c.depth] (.ok c c)
  | skip (c : Cursor) :
      Passes Parser.skip c [.works c.depth] (.ok () { c with tokens := c.tokens.tail })
  | bind {α β : Type} {p : Parser α} {f : α → Parser β} {c c' : Cursor} {a : α}
      {steps steps' : List Step} {result : EStateM.Result ParseFault Cursor β} :
      Passes p c steps (.ok a c') → Passes (f a) c' steps' result →
      Passes (p >>= f) c (steps ++ steps') result
  | stop {α β : Type} {p : Parser α} {f : α → Parser β} {c c' : Cursor} {fault : ParseFault}
      {steps : List Step} : Passes p c steps (.error fault c') →
      Passes (p >>= f) c steps (.error fault c')
  | refused {α : Type} {position : Position} {p : Parser α} {c : Cursor} :
      maxNesting ≤ c.depth →
      Passes (nested position p) c [.refuses c.depth] (.error ⟨.tooDeeplyNested, position⟩ c)
  | nested {α : Type} {position : Position} {p : Parser α} {c : Cursor} {steps : List Step}
      {result : EStateM.Result ParseFault Cursor α} : c.depth < maxNesting →
      Passes p { c with depth := c.depth + 1 } steps result →
      Passes (Parser.nested position p) c
        (.opens c.depth :: (steps ++ [.closes (reached result).depth])) (closed result)

/-- From `depth` open levels on, the steps keep between these levels and the limit. Each
level that is closed is one of those opened on the way, and the nesting is said to be too
deep only if all levels are open. -/
structure IsBalanced (depth : Nat) (steps : List Step)
    (result : EStateM.Result ParseFault Cursor α) : Prop where
  restored : (reached result).depth = depth
  within : ∀ s ∈ steps, depth ≤ s.depth ∧ s.depth ≤ maxNesting
  closing : ∀ d, .closes d ∈ steps → depth < d
  refusal : ∀ fault c, result = .error fault c → fault.cause = .tooDeeplyNested →
    .refuses maxNesting ∈ steps

@[simp] theorem reached_closed (result : EStateM.Result ParseFault Cursor α) :
    (reached (closed result)).depth = (reached result).depth - 1 := by
  cases result <;> rfl

namespace Passes

variable {p : Parser α} {c : Cursor} {steps : List Step}
  {result : EStateM.Result ParseFault Cursor α}

/-- The steps end where the parser does. -/
theorem eq_run (h : Passes p c steps result) : p c = result := by
  induction h with
  | pure | throw | look | skip => rfl
  | bind _ _ ihp ihf => exact (bind_of_ok ihp).trans ihf
  | @stop _ _ p f c c' fault _ _ ih =>
    show EStateM.bind p f c = _
    unfold EStateM.bind
    rw [ih]
  | refused hdepth => exact if_pos hdepth
  | @nested _ _ p c _ result hdepth _ ih =>
    unfold Parser.nested
    rw [if_neg (Nat.not_le.mpr hdepth), ih]
    cases result <;> rfl

/-- A run restores the number of open levels and keeps within its bounds. -/
theorem isBalanced (h : Passes p c steps result) (hc : c.depth ≤ maxNesting) :
    IsBalanced c.depth steps result := by
  -- a step that only works is taken at the depth where the run begins and ends
  have hworks : ∀ {γ : Type} {result : EStateM.Result ParseFault Cursor γ} {c : Cursor},
      c.depth ≤ maxNesting → (reached result).depth = c.depth →
      (∀ fault c', result = .error fault c' → fault.cause ≠ .tooDeeplyNested) →
      IsBalanced c.depth [.works c.depth] result := by
    intro γ result c hc hreached hcause
    refine ⟨hreached, fun s hs => ?_, fun d hd => ?_, fun fault c' heq hdeep => ?_⟩
    · rw [List.mem_singleton.mp hs]
      exact ⟨Nat.le_refl _, hc⟩
    · cases List.mem_singleton.mp hd
    · exact absurd hdeep (hcause fault c' heq)
  induction h with
  | pure | look | skip => exact hworks hc rfl nofun
  | throw hcause c =>
    refine hworks hc rfl fun fault' c' heq => ?_
    cases heq
    exact hcause
  | @bind _ _ _ _ c c' _ steps steps' _ _ _ ihp ihf =>
    have hfirst := ihp hc
    have hdepth : c'.depth = c.depth := hfirst.restored
    have hsecond := ihf (hdepth ▸ hc)
    rw [hdepth] at hsecond
    refine ⟨hsecond.restored, fun s hs => ?_, fun d hd => ?_, fun fault c'' heq hdeep => ?_⟩
    · exact (List.mem_append.mp hs).elim (hfirst.within s) (hsecond.within s)
    · exact (List.mem_append.mp hd).elim (hfirst.closing d) (hsecond.closing d)
    · exact List.mem_append_right _ (hsecond.refusal fault c'' heq hdeep)
  | stop _ ih =>
    have hfirst := ih hc
    refine ⟨hfirst.restored, hfirst.within, hfirst.closing, fun fault c' heq hdeep => ?_⟩
    cases heq
    exact hfirst.refusal _ _ rfl hdeep
  | @refused _ _ _ c hdepth =>
    have hlimit : c.depth = maxNesting := Nat.le_antisymm hc hdepth
    refine ⟨rfl, fun s hs => ?_, fun d hd => ?_, fun _ _ _ _ => ?_⟩
    · rw [List.mem_singleton.mp hs]
      exact ⟨Nat.le_refl _, hc⟩
    · cases List.mem_singleton.mp hd
    · rw [hlimit]
      exact List.mem_singleton_self _
  | @nested _ _ _ c steps result hdepth _ ih =>
    have hinner := ih hdepth
    have hrestored : (reached result).depth = c.depth + 1 := hinner.restored
    refine ⟨?_, fun s hs => ?_, fun d hd => ?_, fun fault c' heq hdeep => ?_⟩
    · rw [reached_closed, hrestored]
      rfl
    · rcases List.mem_cons.mp hs with rfl | hs
      · exact ⟨Nat.le_refl _, hc⟩
      · rcases List.mem_append.mp hs with hs | hs
        · obtain ⟨hlow, hhigh⟩ := hinner.within s hs
          exact ⟨Nat.le_of_succ_le hlow, hhigh⟩
        · rw [List.mem_singleton.mp hs, hrestored]
          exact ⟨Nat.le_succ _, hdepth⟩
    · rcases List.mem_cons.mp hd with hd | hd
      · cases hd
      · rcases List.mem_append.mp hd with hd | hd
        · exact Nat.lt_of_succ_lt (hinner.closing d hd)
        · cases List.mem_singleton.mp hd
          rw [hrestored]
          exact Nat.lt_succ_self _
    · cases result with
      | ok => cases heq
      | error fault' c'' =>
        cases heq
        have hrefusal := hinner.refusal fault c'' rfl hdeep
        exact List.mem_cons_of_mem _ (List.mem_append_left _ hrefusal)

end Passes

/-- With `n` levels or more open, each run of the parser can be taken apart into steps. -/
def CountsFrom (n : Nat) (p : Parser α) : Prop :=
  ∀ c : Cursor, n ≤ c.depth → c.depth ≤ maxNesting → ∃ steps, Passes p c steps (p c)

namespace CountsFrom

variable {n m : Nat} {p : Parser α} {f : α → Parser β}

theorem mono (h : CountsFrom n p) (hnm : n ≤ m) : CountsFrom m p :=
  fun c hc => h c (Nat.le_trans hnm hc)

/-- There is no run that more levels are open in than there are. -/
theorem of_limit (hn : maxNesting < n) : CountsFrom n p :=
  fun _ hlow hhigh => absurd hn (Nat.not_lt.mpr (Nat.le_trans hlow hhigh))

theorem pure (a : α) : CountsFrom n (Pure.pure a) :=
  fun c _ _ => ⟨_, .pure a c⟩

theorem throw {fault : ParseFault} (hcause : fault.cause ≠ .tooDeeplyNested) :
    CountsFrom n (MonadExcept.throw fault : Parser α) :=
  fun c _ _ => ⟨_, .throw hcause c⟩

theorem skip : CountsFrom n Parser.skip :=
  fun c _ _ => ⟨_, .skip c⟩

/-- The second parser begins with as many open levels as the first one. -/
theorem bind (hp : CountsFrom n p) (hf : ∀ a, CountsFrom n (f a)) : CountsFrom n (p >>= f) := by
  intro c hlow hhigh
  obtain ⟨steps, hpasses⟩ := hp c hlow hhigh
  have hrestored := (hpasses.isBalanced hhigh).restored
  cases hrun : p c with
  | ok a c' =>
    rw [hrun] at hpasses hrestored
    have hdepth : c'.depth = c.depth := hrestored
    obtain ⟨steps', hpasses'⟩ := hf a c' (hdepth ▸ hlow) (hdepth ▸ hhigh)
    rw [bind_of_ok hrun]
    exact ⟨_, .bind hpasses hpasses'⟩
  | error fault c' =>
    rw [hrun] at hpasses
    have hstop : Passes (p >>= f) c steps (.error fault c') := .stop hpasses
    exact ⟨steps, hstop.eq_run.symm ▸ hstop⟩

theorem map {g : α → β} (hp : CountsFrom n p) :
    CountsFrom n (p >>= fun a => Pure.pure (g a)) :=
  hp.bind fun a => pure (g a)

theorem look {f : Cursor → Parser β} (hf : ∀ c, CountsFrom n (f c)) :
    CountsFrom n (MonadState.get >>= f) :=
  bind (fun c _ _ => ⟨_, .look c⟩) hf

/-- A parser within a level counts from one level more. -/
theorem nested (hp : CountsFrom (n + 1) p) (position : Position) :
    CountsFrom n (Parser.nested position p) := by
  intro c hlow hhigh
  by_cases hdepth : c.depth < maxNesting
  · obtain ⟨steps, hpasses⟩ := hp { c with depth := c.depth + 1 } (Nat.succ_le_succ hlow) hdepth
    have hnested : Passes (Parser.nested position p) c _ _ := .nested hdepth hpasses
    exact ⟨_, hnested.eq_run.symm ▸ hnested⟩
  · have hrefused : Passes (Parser.nested position p) c _ _ := .refused (Nat.le_of_not_lt hdepth)
    exact ⟨_, hrefused.eq_run.symm ▸ hrefused⟩

theorem ite {c : Prop} [Decidable c] {q : Parser α} (hp : CountsFrom n p)
    (hq : CountsFrom n q) : CountsFrom n (if c then p else q) := by
  split
  · exact hp
  · exact hq

/-! ### Single tokens -/

theorem unexpected_ne (t : Token) (expected : String) :
    (t.unexpected expected).cause ≠ .tooDeeplyNested := by
  unfold Token.unexpected
  split <;> exact nofun

theorem peek? : CountsFrom n Parser.peek? :=
  look fun _ => pure _

theorem position : CountsFrom n Parser.position :=
  peek?.map

theorem remaining : CountsFrom n Parser.remaining :=
  look fun _ => pure _

theorem next (expected : String) : CountsFrom n (Parser.next expected) := by
  refine peek?.bind fun t? => ?_
  cases t? with
  | none => exact throw nofun
  | some t => exact skip.bind fun _ => pure t

theorem sees (sign : Symbol) : CountsFrom n (Parser.sees sign) :=
  peek?.map

theorem seesWord (word : Keyword) : CountsFrom n (Parser.seesWord word) :=
  peek?.map

theorem eat (sign : Symbol) : CountsFrom n (Parser.eat sign) :=
  (sees sign).bind fun _ => ite (skip.bind fun _ => pure true) (pure false)

theorem eatWord (word : Keyword) : CountsFrom n (Parser.eatWord word) :=
  (seesWord word).bind fun _ => ite (skip.bind fun _ => pure true) (pure false)

theorem expect (sign : Symbol) (expected : String) : CountsFrom n (Parser.expect sign expected) :=
  (next expected).bind fun t => ite (pure t) (throw (unexpected_ne t _))

theorem expectWord (word : Keyword) : CountsFrom n (Parser.expectWord word) :=
  (next _).bind fun t => ite (pure t) (throw (unexpected_ne t _))

theorem identifier : CountsFrom n Parser.identifier := by
  refine (next _).bind fun t => ?_
  split
  · exact pure _
  · exact throw (unexpected_ne t _)

theorem propertyName : CountsFrom n Parser.propertyName := by
  refine (next _).bind fun t => ?_
  split
  · exact pure _
  · exact pure _
  · exact ite (pure _) (throw (unexpected_ne t _))

/-! ### Rows of items -/

theorem itemsUntil (hp : CountsFrom n p) (closing : Symbol) (bound : Nat) :
    CountsFrom n (Parser.itemsUntil closing p bound) := by
  induction bound with
  | zero => exact throw nofun
  | succ bound ih =>
    refine (eat closing).bind fun _ => ite (pure []) ?_
    refine hp.bind fun _ => (next _).bind fun t => ?_
    exact ite ih.map (ite (pure _) (throw (unexpected_ne t _)))

theorem commaSeparated (hp : CountsFrom n p) (closing : Symbol) :
    CountsFrom n (Parser.commaSeparated closing p) :=
  remaining.bind fun bound => hp.itemsUntil closing (bound + 1)

theorem itemsAfter (hp : CountsFrom n p) (separator : Symbol) (bound : Nat) :
    CountsFrom n (Parser.itemsAfter separator p bound) := by
  induction bound with
  | zero => exact pure []
  | succ bound ih => exact (eat separator).bind fun _ => ite (hp.bind fun _ => ih.map) (pure [])

theorem separatedBy (hp : CountsFrom n p) (separator : Symbol) :
    CountsFrom n (Parser.separatedBy separator p) :=
  hp.bind fun _ => remaining.bind fun bound => (hp.itemsAfter separator bound).map

end CountsFrom

end Parser

namespace Grammar

open TypedScript.Parser

/-! ## Types -/

section Types

variable {n : Nat} {inner : Parser TypeExpr} (hinner : CountsFrom n inner)

include hinner

theorem typeMark_counts : CountsFrom n (typeMark inner) :=
  (CountsFrom.eat .colon).bind fun _ => .ite hinner.map (.pure none)

theorem parameter_counts : CountsFrom n (parameter inner) :=
  CountsFrom.identifier.bind fun _ => (CountsFrom.eat .question).bind fun _ =>
    (typeMark_counts hinner).map

theorem parameters_counts : CountsFrom n (parameters inner) :=
  (CountsFrom.expect _ _).bind fun _ => (parameter_counts hinner).commaSeparated .rightParen

theorem functionType_counts : CountsFrom n (functionType inner) :=
  CountsFrom.position.bind fun _ => (parameters_counts hinner).bind fun _ =>
    (CountsFrom.expect _ _).bind fun _ => hinner.map

theorem member_counts : CountsFrom n (member inner) :=
  CountsFrom.propertyName.bind fun _ => (CountsFrom.eat .question).bind fun _ =>
    (CountsFrom.sees .leftParen).bind fun _ => .ite
      (CountsFrom.position.bind fun _ => (parameters_counts hinner).bind fun _ =>
        (typeMark_counts hinner).map)
      ((CountsFrom.expect _ _).bind fun _ => hinner.map)

theorem membersUntilBrace_counts (bound : Nat) :
    CountsFrom n (membersUntilBrace inner bound) := by
  induction bound with
  | zero => exact .throw nofun
  | succ bound ih =>
    refine (CountsFrom.eat .rightBrace).bind fun _ => .ite (.pure []) ?_
    refine (member_counts hinner).bind fun _ => (CountsFrom.eat .semicolon).bind fun _ => ?_
    exact .ite ih.map ((CountsFrom.eat .comma).bind fun _ => ih.map)

theorem members_counts : CountsFrom n (members inner) :=
  CountsFrom.remaining.bind fun bound => membersUntilBrace_counts hinner (bound + 1)

theorem primaryType_counts : CountsFrom n (primaryType inner) := by
  refine CountsFrom.peek?.bind fun t? => ?_
  split
  · exact .throw nofun
  · next t =>
    split
    · exact CountsFrom.skip.bind fun _ => .pure _
    · exact CountsFrom.skip.bind fun _ => .pure _
    · exact CountsFrom.skip.bind fun _ => .pure _
    · exact CountsFrom.skip.bind fun _ => (members_counts hinner).map
    · have hsees : CountsFrom n seesFunctionType := .look fun _ => .pure _
      exact hsees.bind fun _ => .ite (functionType_counts hinner) (CountsFrom.skip.bind fun _ =>
        hinner.bind fun _ => (CountsFrom.expect _ _).map)
    · exact .throw (CountsFrom.unexpected_ne t _)

theorem intersectionType_counts : CountsFrom n (intersectionType inner) :=
  CountsFrom.position.bind fun _ => ((primaryType_counts hinner).separatedBy .ampersand).map

end Types

theorem unionType_counts {n : Nat} {inner : Parser TypeExpr} (hinner : CountsFrom (n + 1) inner) :
    CountsFrom n (unionType inner) :=
  CountsFrom.position.bind fun position =>
    CountsFrom.nested ((intersectionType_counts hinner).separatedBy .bar).map position

/-- The levels of the grammar and the levels already open are more than there may be. -/
theorem typeUpTo_counts (levels : Nat) : ∀ n, maxNesting < n + levels →
    CountsFrom n (typeUpTo levels) := by
  induction levels with
  | zero => exact fun n hn => .of_limit hn
  | succ levels ih => exact fun n hn => unionType_counts (ih (n + 1) (by omega))

theorem typeExpr_counts (n : Nat) : CountsFrom n typeExpr :=
  typeUpTo_counts _ n (by omega)

/-! ## Expressions -/

/-- Each parser of the grammar counts from `n` levels. -/
structure IsCounted (n : Nat) (g : Grammar) : Prop where
  expression : CountsFrom n g.expression
  unary : CountsFrom n g.unary
  statement : CountsFrom n g.statement
  conditional : ∀ position, CountsFrom n (g.conditional position)

theorem IsCounted.mono {n m : Nat} {g : Grammar} (hg : g.IsCounted n) (hnm : n ≤ m) :
    g.IsCounted m :=
  ⟨hg.expression.mono hnm, hg.unary.mono hnm, hg.statement.mono hnm,
    fun position => (hg.conditional position).mono hnm⟩

section Operators

variable {n : Nat}

theorem operatorAhead?_counts (accepts : BinaryOp → Bool) :
    CountsFrom n (operatorAhead? accepts) := by
  refine CountsFrom.peek?.bind fun t? => ?_
  split
  · split
    · split
      · exact .pure _
      · exact .pure none
    · exact .pure none
  · exact .pure none

/-- Each operator opens one level more, which the operand behind it lies in. -/
theorem operations_counts (accepts : BinaryOp → Bool) {operand : Parser Expr} (bound : Nat) :
    ∀ n left, CountsFrom n operand → CountsFrom n (operations accepts operand bound left) := by
  induction bound with
  | zero => exact fun _ left _ => .pure left
  | succ bound ih =>
    intro n left hoperand
    refine (operatorAhead?_counts accepts).bind fun found? => ?_
    split
    · next _ op position =>
      have hdeeper := hoperand.mono (Nat.le_succ n)
      exact .nested (CountsFrom.skip.bind fun _ => hdeeper.bind fun right =>
        ih (n + 1) (.binary left op right position) hdeeper) position
    · exact .pure left

theorem leftAssociative_counts (accepts : BinaryOp → Bool) {operand : Parser Expr}
    (hoperand : CountsFrom n operand) : CountsFrom n (leftAssociative accepts operand) :=
  hoperand.bind fun left => CountsFrom.remaining.bind fun bound =>
    operations_counts accepts bound n left hoperand

theorem requirePlace_counts (target : Expr) : CountsFrom n (requirePlace target) :=
  .ite (.pure ()) (.throw nofun)

theorem optionalName_counts : CountsFrom n optionalName := by
  refine CountsFrom.peek?.bind fun t? => ?_
  split
  · split
    · exact CountsFrom.skip.bind fun _ => .pure _
    · exact .pure none
  · exact .pure none

end Operators

section Rules

variable {n : Nat} {g : Grammar}

section SameLevel

variable (hg : g.IsCounted n)

include hg

theorem product_counts : CountsFrom n g.product :=
  leftAssociative_counts _ hg.unary

theorem sum_counts : CountsFrom n g.sum :=
  leftAssociative_counts _ (product_counts hg)

theorem relation_counts : CountsFrom n g.relation :=
  leftAssociative_counts _ (sum_counts hg)

theorem equality_counts : CountsFrom n g.equality :=
  leftAssociative_counts _ (relation_counts hg)

theorem conjunction_counts : CountsFrom n g.conjunction :=
  leftAssociative_counts _ (equality_counts hg)

theorem disjunction_counts : CountsFrom n g.disjunction :=
  leftAssociative_counts _ (conjunction_counts hg)

theorem statementsUntilBrace_counts (bound : Nat) :
    CountsFrom n (g.statementsUntilBrace bound) := by
  induction bound with
  | zero => exact .throw nofun
  | succ bound ih =>
    have hrow : CountsFrom n (do
        let first ← g.statement
        return first :: (← g.statementsUntilBrace bound)) :=
      hg.statement.bind fun _ => ih.map
    refine (CountsFrom.eat .rightBrace).bind fun _ => .ite (.pure []) ?_
    refine (CountsFrom.eat .semicolon).bind fun _ => .ite ih ?_
    refine CountsFrom.peek?.bind fun t? => ?_
    split
    · next t =>
      exact .ite ((CountsFrom.throw (CountsFrom.unexpected_ne t _)).bind fun _ => hrow) hrow
    · exact hrow

theorem block_counts : CountsFrom n g.block :=
  (CountsFrom.expect _ _).bind fun _ => CountsFrom.remaining.bind fun bound =>
    (statementsUntilBrace_counts hg (bound + 1)).map

theorem function_counts : CountsFrom n g.function :=
  (CountsFrom.expectWord _).bind fun _ => optionalName_counts.bind fun _ =>
    (parameters_counts (typeExpr_counts n)).bind fun _ =>
    (typeMark_counts (typeExpr_counts n)).bind fun _ => (block_counts hg).map

theorem field_counts : CountsFrom n g.field :=
  CountsFrom.propertyName.bind fun _ => (CountsFrom.expect _ _).bind fun _ => hg.expression.map

theorem primary_counts : CountsFrom n g.primary := by
  refine CountsFrom.peek?.bind fun t? => ?_
  split
  · exact .throw nofun
  · next t =>
    have hleaf : ∀ e : Expr, CountsFrom n (do skip; return e) :=
      fun e => CountsFrom.skip.bind fun _ => .pure e
    dsimp only
    split
    · exact hleaf _
    · exact hleaf _
    · exact hleaf _
    · exact hleaf _
    · exact hleaf _
    · exact hleaf _
    · exact hleaf _
    · exact CountsFrom.skip.bind fun _ => hg.expression.bind fun _ => (CountsFrom.expect _ _).map
    · exact CountsFrom.skip.bind fun _ => ((field_counts hg).commaSeparated _).map
    · exact (function_counts hg).map
    · exact .throw (CountsFrom.unexpected_ne t _)

omit hg in
/-- Calls and properties open one level more, which the trailers behind them lie in. -/
theorem trailers_counts (bound : Nat) :
    ∀ n base, g.IsCounted n → CountsFrom n (g.trailers bound base) := by
  induction bound with
  | zero => exact fun _ base _ => .pure base
  | succ bound ih =>
    intro n base hg
    have hdeeper := hg.mono (Nat.le_succ n)
    refine CountsFrom.peek?.bind fun t? => ?_
    split
    · exact .pure base
    · next t =>
      split
      · exact .nested (CountsFrom.skip.bind fun _ => (hdeeper.expression.commaSeparated _).bind
          fun arguments => ih (n + 1) (.call base arguments t.position) hdeeper) t.position
      · exact .nested (CountsFrom.skip.bind fun _ => CountsFrom.propertyName.bind
          fun ⟨property, position⟩ => ih (n + 1) (.member base property position) hdeeper)
          t.position
      · split
        · exact CountsFrom.skip.bind fun _ => (requirePlace_counts base).bind fun _ => .pure _
        · exact .pure base
      · exact .pure base

theorem body_counts : CountsFrom n g.body :=
  (CountsFrom.sees _).bind fun _ => .ite (block_counts hg)
    (CountsFrom.position.bind fun _ => hg.statement.map)

omit hg in
theorem terminated_counts {statement : Parser Stmt} (h : CountsFrom n statement) :
    CountsFrom n (terminated statement) :=
  h.bind fun _ => (CountsFrom.eat _).map

theorem initialValue_counts : CountsFrom n g.initialValue :=
  (CountsFrom.eat _).bind fun _ => .ite hg.expression.map (.pure none)

theorem variableRule_counts : CountsFrom n g.variableRule :=
  (CountsFrom.expectWord _).bind fun _ => CountsFrom.identifier.bind fun _ =>
    (typeMark_counts (typeExpr_counts n)).bind fun _ => (initialValue_counts hg).map

theorem expressionRule_counts : CountsFrom n g.expressionRule :=
  CountsFrom.position.bind fun _ => hg.expression.map

theorem returnRule_counts : CountsFrom n g.returnRule :=
  (CountsFrom.expectWord _).bind fun _ => CountsFrom.peek?.bind fun _ =>
    .ite (.pure _) hg.expression.map

theorem expressionUnless_counts (sign : Symbol) : CountsFrom n (g.expressionUnless sign) :=
  (CountsFrom.sees _).bind fun _ => .ite (.pure none) hg.expression.map

theorem loopStart_counts : CountsFrom n g.loopStart :=
  (CountsFrom.sees _).bind fun _ => .ite (.pure none) <| (CountsFrom.seesWord _).bind fun _ =>
    .ite (variableRule_counts hg).map (expressionRule_counts hg).map

theorem loopRule_counts : CountsFrom n g.loopRule :=
  (CountsFrom.expectWord _).bind fun _ => (CountsFrom.expect _ _).bind fun _ =>
    (loopStart_counts hg).bind fun _ => (CountsFrom.expect _ _).bind fun _ =>
    (expressionUnless_counts hg _).bind fun _ => (CountsFrom.expect _ _).bind fun _ =>
    (expressionUnless_counts hg _).bind fun _ => (CountsFrom.expect _ _).bind fun _ =>
    (body_counts hg).map

theorem whileRule_counts : CountsFrom n g.whileRule :=
  (CountsFrom.expectWord _).bind fun _ => (CountsFrom.expect _ _).bind fun _ =>
    hg.expression.bind fun _ => (CountsFrom.expect _ _).bind fun _ => (body_counts hg).map

end SameLevel

/-! ### A level of their own -/

variable (hg : g.IsCounted (n + 1))

include hg

theorem assignmentRule_counts : CountsFrom n g.assignmentRule := by
  refine CountsFrom.position.bind fun position => .nested ?_ position
  refine (disjunction_counts hg).bind fun target => CountsFrom.peek?.bind fun t? => ?_
  split
  · split
    · split
      · exact CountsFrom.skip.bind fun _ => (requirePlace_counts target).bind fun _ =>
          hg.expression.map
      · exact .pure target
    · exact .pure target
  · exact .pure target

theorem unaryRule_counts : CountsFrom n g.unaryRule := by
  refine CountsFrom.peek?.bind fun t? => ?_
  split
  · exact .throw nofun
  · next t =>
    have htrailed : CountsFrom (n + 1) (do
        let base ← g.primary
        g.trailers (← remaining) base) :=
      (primary_counts hg).bind fun base => CountsFrom.remaining.bind fun bound =>
        trailers_counts bound (n + 1) base hg
    refine .nested ?_ t.position
    split
    · split
      · exact CountsFrom.skip.bind fun _ => hg.unary.map
      · exact CountsFrom.skip.bind fun _ => hg.unary.bind fun target =>
          (requirePlace_counts target).bind fun _ => .pure _
      · exact htrailed
    · exact htrailed

theorem conditionalRule_counts (position : Position) :
    CountsFrom n (g.conditionalRule position) := by
  refine .nested ((CountsFrom.expect _ _).bind fun _ => hg.expression.bind fun condition =>
    (CountsFrom.expect _ _).bind fun _ => (body_counts hg).bind fun body =>
    (CountsFrom.eatWord _).bind fun _ => .ite (CountsFrom.peek?.bind fun t? => ?_) (.pure _))
    position
  split
  · exact .ite (CountsFrom.skip.bind fun _ => (hg.conditional _).map) (body_counts hg).map
  · exact (body_counts hg).map

theorem statementRule_counts : CountsFrom n g.statementRule := by
  refine CountsFrom.peek?.bind fun t? => ?_
  split
  · exact .throw nofun
  · next t =>
    have hexpression := terminated_counts (expressionRule_counts hg)
    refine .nested ?_ t.position
    split
    · exact terminated_counts (variableRule_counts hg)
    · have hsees : CountsFrom (n + 1) seesNameSecond := by
        refine .look fun c => ?_
        split
        · split
          · exact .pure true
          · exact .pure false
        · exact .pure false
      exact hsees.bind fun _ => .ite (terminated_counts (function_counts hg).map) hexpression
    · exact terminated_counts (returnRule_counts hg)
    · exact CountsFrom.skip.bind fun _ => hg.conditional t.position
    · exact loopRule_counts hg
    · exact whileRule_counts hg
    · exact (block_counts hg).map
    · exact .throw nofun
    · exact .throw nofun
    · exact hexpression

end Rules

/-! ## Any number of levels -/

theorem upTo_isCounted (levels : Nat) : ∀ n, maxNesting < n + levels →
    (upTo levels).IsCounted n := by
  induction levels with
  | zero =>
    exact fun n hn => ⟨.of_limit hn, .of_limit hn, .of_limit hn, fun _ => .of_limit hn⟩
  | succ levels ih =>
    intro n hn
    have hdeeper := ih (n + 1) (by omega)
    exact ⟨assignmentRule_counts hdeeper, unaryRule_counts hdeeper, statementRule_counts hdeeper,
      conditionalRule_counts hdeeper⟩

theorem full_isCounted (n : Nat) : full.IsCounted n :=
  upTo_isCounted _ n (by omega)

/-! ## Programs -/

theorem interface_counts (n : Nat) : CountsFrom n interface := by
  refine (CountsFrom.expectWord _).bind fun word => CountsFrom.identifier.bind fun _ =>
    CountsFrom.peek?.bind fun t? => ?_
  split
  · exact .throw nofun
  · next t =>
    have hmembers : CountsFrom n (members typeExpr) := members_counts (typeExpr_counts n)
    exact CountsFrom.skip.bind fun _ => .ite hmembers.map
      ((CountsFrom.throw (CountsFrom.unexpected_ne t _)).bind fun _ => hmembers.map)

theorem exports_counts (n : Nat) : CountsFrom n exports :=
  (CountsFrom.expectWord _).bind fun _ => (CountsFrom.expect _ _).bind fun _ =>
    (CountsFrom.identifier.commaSeparated _).bind fun _ => (CountsFrom.eat _).map

theorem programStatements_counts {n : Nat} {g : Grammar} (hg : g.IsCounted n) (bound : Nat) :
    CountsFrom n (programStatements g bound) := by
  induction bound with
  | zero => exact .pure []
  | succ bound ih =>
    refine CountsFrom.peek?.bind fun t? => ?_
    split
    · exact .pure []
    · split
      · exact .pure []
      · exact CountsFrom.skip.bind fun _ => ih
      · exact (interface_counts n).bind fun _ => ih.map
      · exact (exports_counts n).bind fun _ => ih
      · exact hg.statement.bind fun _ => ih.map

theorem program_counts (n : Nat) : CountsFrom n program :=
  CountsFrom.remaining.bind fun bound => (programStatements_counts (full_isCounted n) bound).map

/-! ## Entries -/

/-- The parsers of the language, from a whole program down to its parts. -/
inductive IsParser : {α : Type} → Parser α → Prop
  | program : IsParser program
  | interface : IsParser interface
  | exports : IsParser exports
  | statement : IsParser full.statement
  | variable : IsParser full.variableRule
  | giveBack : IsParser full.returnRule
  | conditional (position : Position) : IsParser (full.conditional position)
  | loop : IsParser full.loopRule
  | repeatWhile : IsParser full.whileRule
  | block : IsParser full.block
  | body : IsParser full.body
  | function : IsParser full.function
  | expression : IsParser full.expression
  | disjunction : IsParser full.disjunction
  | conjunction : IsParser full.conjunction
  | equality : IsParser full.equality
  | relation : IsParser full.relation
  | sum : IsParser full.sum
  | product : IsParser full.product
  | unary : IsParser full.unary
  | primary : IsParser full.primary
  | trailers (bound : Nat) (base : Expr) : IsParser (full.trailers bound base)
  | members : IsParser (members typeExpr)
  | parameters : IsParser (parameters typeExpr)
  | primaryType : IsParser (primaryType typeExpr)
  | intersectionType : IsParser (intersectionType typeExpr)
  | type : IsParser typeExpr

theorem IsParser.counts {α : Type} {p : Parser α} (hp : IsParser p) (n : Nat) :
    CountsFrom n p := by
  have hfull := full_isCounted n
  have htype := typeExpr_counts n
  cases hp with
  | program => exact program_counts n
  | interface => exact interface_counts n
  | exports => exact exports_counts n
  | statement => exact hfull.statement
  | «variable» => exact variableRule_counts hfull
  | giveBack => exact returnRule_counts hfull
  | conditional position => exact hfull.conditional position
  | loop => exact loopRule_counts hfull
  | repeatWhile => exact whileRule_counts hfull
  | block => exact block_counts hfull
  | body => exact body_counts hfull
  | function => exact function_counts hfull
  | expression => exact hfull.expression
  | disjunction => exact disjunction_counts hfull
  | conjunction => exact conjunction_counts hfull
  | equality => exact equality_counts hfull
  | relation => exact relation_counts hfull
  | sum => exact sum_counts hfull
  | product => exact product_counts hfull
  | unary => exact hfull.unary
  | primary => exact primary_counts hfull
  | trailers bound base => exact trailers_counts bound n base hfull
  | members => exact members_counts htype
  | parameters => exact parameters_counts htype
  | primaryType => exact primaryType_counts htype
  | intersectionType => exact intersectionType_counts htype
  | type => exact htype

/-- The levels of nesting are balanced. Let any parser of the language begin with no more
levels open than there may be. Whatever comes of it, as many levels are open behind it as
before. It goes through steps of which each keeps between the levels that were open and the
limit; a level is closed only while more levels are open than before; and a fault for too
deep a nesting is given only if a level was refused with all levels open. -/
theorem levels_balanced {α : Type} {p : Parser α} (hp : IsParser p) (c : Cursor)
    (hc : c.depth ≤ maxNesting) :
    (reached (p c)).depth = c.depth ∧ (∃ steps, Passes p c steps (p c)) ∧
      ∀ steps, Passes p c steps (p c) →
        (∀ s ∈ steps, c.depth ≤ s.depth ∧ s.depth ≤ maxNesting) ∧
        (∀ depth, .closes depth ∈ steps → c.depth < depth) ∧
        ∀ fault c', p c = .error fault c' → fault.cause = .tooDeeplyNested →
          .refuses maxNesting ∈ steps := by
  obtain ⟨steps, hsteps⟩ := hp.counts 0 c (Nat.zero_le _) hc
  refine ⟨(hsteps.isBalanced hc).restored, ⟨steps, hsteps⟩, fun steps' hsteps' => ?_⟩
  have hbalanced := hsteps'.isBalanced hc
  exact ⟨hbalanced.within, hbalanced.closing, hbalanced.refusal⟩

/-- With two levels left no expression in parentheses can be read. The two levels that are
taken for the parentheses are given back. -/
theorem levels_balanced_of_refusal :
    let c : Cursor := ⟨[⟨.symbol .leftParen, "(", ⟨1, 1⟩⟩, ⟨.endOfInput, "", ⟨1, 2⟩⟩], 254⟩
    IsParser full.expression ∧ c.depth ≤ maxNesting ∧
      (∃ fault c', full.expression c = .error fault c' ∧ fault.cause = .tooDeeplyNested ∧
        c'.depth = 254) ∧
      ∃ steps, Passes full.expression c steps (full.expression c) ∧
        .refuses maxNesting ∈ steps := by
  intro c
  have hc : c.depth ≤ maxNesting := by decide
  have hrun : full.expression c =
      .error ⟨.tooDeeplyNested, ⟨1, 2⟩⟩ ⟨[⟨.endOfInput, "", ⟨1, 2⟩⟩], 254⟩ := rfl
  obtain ⟨-, ⟨steps, hsteps⟩, hall⟩ := levels_balanced .expression c hc
  exact ⟨.expression, hc, ⟨_, _, hrun, rfl, rfl⟩, steps, hsteps,
    (hall steps hsteps).2.2 _ _ hrun rfl⟩

end Grammar

end TypedScript
