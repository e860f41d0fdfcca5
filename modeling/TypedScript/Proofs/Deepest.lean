import TypedScript.Proofs.Nesting
import TypedScript.Proofs.Operands

/-!
# The deepest trees

The bound on the nesting of a program is attained. An operand is read with two levels less
than the expression around it, and is followed by as many trailers as there are levels, by an
update, and by as many operators of each of the six chains as there are levels below the
first. Each of these is one node more around what stands to its left
(`Grammar.exists_isExpressionAt`). Two levels at a time this leads from a type that holds four
nodes in its one level to a condition that takes all levels but one (`Program.exists_nesting_eq`).
-/

namespace TypedScript

/-- The variable of that name. -/
def Expr.x : Expr :=
  .reference "x" .start

namespace Grammar

open TypedScript.Parser

/-! ## Chains of operators -/

/-- A chain of operators, with one of those that it accepts. -/
structure Rung where
  accepts : BinaryOp → Bool
  op : BinaryOp

/-- The chains around an operand, the loosest one first. -/
def rungs : List Rung :=
  [⟨(· = .or), .or⟩, ⟨(· = .and), .and⟩, ⟨BinaryOp.isEquality, .equal⟩,
   ⟨BinaryOp.isRelational, .less⟩, ⟨fun op => op = .add || op = .subtract, .add⟩,
   ⟨fun op => op = .multiply || op = .divide || op = .modulo, .multiply⟩]

/-- Whether one of the chains accepts an operator. -/
def accepted (rungs : List Rung) (op : BinaryOp) : Bool :=
  rungs.any (·.accepts op)

/-- Whether each chain accepts its operator, and no tighter one does. -/
def areOrdered : List Rung → Bool
  | [] => true
  | rung :: tighter => rung.accepts rung.op && !accepted tighter rung.op && areOrdered tighter

/-- The operands of the loosest of some chains. -/
def chains : List Rung → Parser Expr → Parser Expr
  | [], operand => operand
  | rung :: tighter, operand => leftAssociative rung.accepts (chains tighter operand)

theorem chains_rungs (g : Grammar) : chains rungs g.unary = g.disjunction :=
  rfl

/-- So many operators, each with a variable behind it. -/
def operatorTokens (op : BinaryOp) : Nat → List Token
  | 0 => []
  | n + 1 => .ofSymbol op.symbol :: .x :: operatorTokens op n

/-- The tree of an operand with these operators behind it. -/
def operatorTree (op : BinaryOp) : Nat → Expr → Expr
  | 0, left => left
  | n + 1, left => operatorTree op n (.binary left op .x .start)

theorem operatorTree_nesting (op : BinaryOp) (n : Nat) (left : Expr) :
    (operatorTree op n left).nesting = left.nesting + n := by
  induction n generalizing left with
  | zero => rfl
  | succ n ih =>
    have hx : Expr.x.nesting = 0 := by rw [Expr.x, Expr.nesting]
    rw [operatorTree, ih, Expr.nesting, hx]
    omega

theorem length_operatorTokens (op : BinaryOp) (n : Nat) :
    (operatorTokens op n).length = 2 * n := by
  induction n with
  | zero => rfl
  | succ n ih => rw [operatorTokens, List.length_cons, List.length_cons, ih]; omega

theorem goesOn_operatorTokens {accepts : BinaryOp → Bool} {op : BinaryOp} {rest : List Token}
    (n : Nat) (hop : accepts op = false) (hrest : goesOn accepts rest = false) :
    goesOn accepts (operatorTokens op n ++ rest) = false := by
  cases n with
  | zero => exact hrest
  | succ n => exact (goesOn_operator rfl).trans hop

/-- An operand that reads a variable wherever a level is left reads the operators of its chain
as long as there are levels for all of them and one more for the last variable. -/
theorem operations_operatorTokens {accepts tighter : BinaryOp → Bool} {op : BinaryOp}
    {operand : Parser Expr} {rest : List Token} (haccepts : accepts op = true)
    (hop : tighter op = false) (hrest : goesOn (fun op => accepts op || tighter op) rest = false)
    (hoperand : ∀ depth rest, depth < maxNesting → goesOn tighter rest = false →
      operand ⟨.x :: rest, depth⟩ = .ok .x ⟨rest, depth⟩) (n : Nat) :
    ∀ bound depth left, n ≤ bound → depth + n < maxNesting →
      operations accepts operand bound left ⟨operatorTokens op n ++ rest, depth⟩ =
        .ok (operatorTree op n left) ⟨rest, depth⟩ := by
  induction n with
  | zero =>
    intro bound depth left _ _
    exact operations_of_goesOn bound depth left (goesOn_mono (fun op h => by simp [h]) hrest)
  | succ n ih =>
    intro bound depth left hbound hdepth
    obtain ⟨bound, rfl⟩ : ∃ k, bound = k + 1 := ⟨bound - 1, by omega⟩
    refine (bind_of_ok (operatorAhead?_operator rfl depth haccepts)).trans ?_
    refine nested_of_ok _ (by omega) ?_
    have hbehind : goesOn tighter (operatorTokens op n ++ rest) = false :=
      goesOn_operatorTokens n hop (goesOn_mono (fun op h => by simp [h]) hrest)
    -- the levels stay open until the last variable has been read
    have hright := hoperand (depth + 1) _ (by omega) hbehind
    refine (bind_of_ok hright).trans ?_
    exact ih bound (depth + 1) _ (by omega) (by omega)

/-- The operators of some chains behind an operand, so many of each, from the tightest chain
on. -/
def rungTokens (n : Nat) : List Rung → List Token
  | [] => []
  | rung :: tighter => rungTokens n tighter ++ operatorTokens rung.op n

def rungTree (n : Nat) : List Rung → Expr → Expr
  | [], e => e
  | rung :: tighter, e => operatorTree rung.op n (rungTree n tighter e)

theorem rungTree_nesting (n : Nat) (rs : List Rung) (e : Expr) :
    (rungTree n rs e).nesting = e.nesting + rs.length * n := by
  induction rs with
  | nil => rw [rungTree, List.length_nil, Nat.zero_mul, Nat.add_zero]
  | cons rung tighter ih =>
    rw [rungTree, operatorTree_nesting, ih, List.length_cons, Nat.succ_mul, Nat.add_assoc]

section Chains

variable {operand : Parser Expr} (hx : ∀ depth rest, depth < maxNesting →
  goesOn (fun _ => false) rest = false → operand ⟨.x :: rest, depth⟩ = .ok .x ⟨rest, depth⟩)

include hx

/-- A variable is an operand of every chain. -/
theorem chains_x (rs : List Rung) : ∀ depth rest, depth < maxNesting →
    goesOn (accepted rs) rest = false →
      chains rs operand ⟨.x :: rest, depth⟩ = .ok .x ⟨rest, depth⟩ := by
  induction rs with
  | nil => exact hx
  | cons rung tighter ih =>
    intro depth rest hdepth hrest
    have hfirst := ih depth rest hdepth (goesOn_mono (fun op h => by simp_all [accepted]) hrest)
    rw [chains, leftAssociative, bind_of_ok hfirst]
    exact operations_of_goesOn _ depth .x (goesOn_mono (fun op h => by simp [accepted, h]) hrest)

/-- Each chain has the levels anew. -/
theorem chains_rungTokens {depth n : Nat} {ts : List Token} {e : Expr}
    (hdepth : depth + n < maxNesting) (he : ∀ rest, goesOn (fun _ => false) rest = false →
      operand ⟨ts ++ rest, depth⟩ = .ok e ⟨rest, depth⟩) (rs : List Rung)
    (hrs : areOrdered rs = true) : ∀ rest, goesOn (accepted rs) rest = false →
      chains rs operand ⟨ts ++ (rungTokens n rs ++ rest), depth⟩ =
        .ok (rungTree n rs e) ⟨rest, depth⟩ := by
  induction rs with
  | nil => exact he
  | cons rung tighter ih =>
    intro rest hrest
    simp only [areOrdered, Bool.and_eq_true, Bool.not_eq_true'] at hrs
    obtain ⟨⟨haccepts, hop⟩, htighter⟩ := hrs
    have hbehind : goesOn (accepted tighter) (operatorTokens rung.op n ++ rest) = false :=
      goesOn_operatorTokens n hop (goesOn_mono (fun op h => by simp_all [accepted]) hrest)
    have hfirst := ih htighter _ hbehind
    rw [chains, leftAssociative, rungTokens, List.append_assoc, bind_of_ok hfirst]
    refine operations_operatorTokens haccepts hop
      (goesOn_mono (fun op h => by simpa [accepted] using h) hrest) (chains_x hx tighter) n _ depth
      _ ?_ hdepth
    show n ≤ (operatorTokens rung.op n ++ rest).length
    rw [List.length_append, length_operatorTokens]
    omega

end Chains

/-! ## Operands -/

/-- So many properties. -/
def propertyTokens : Nat → List Token
  | 0 => []
  | n + 1 => .ofSymbol .dot :: .x :: propertyTokens n

def propertyTree : Nat → Expr → Expr
  | 0, base => base
  | n + 1, base => propertyTree n (.member base "x" .start)

theorem propertyTree_nesting (n : Nat) (base : Expr) :
    (propertyTree n base).nesting = base.nesting + n := by
  induction n generalizing base with
  | zero => rfl
  | succ n ih =>
    rw [propertyTree, ih, Expr.nesting]
    omega

theorem propertyTree_isPlace (n : Nat) (base : Expr) :
    (propertyTree (n + 1) base).isPlace = true := by
  induction n generalizing base with
  | zero => rfl
  | succ n ih => exact ih _

theorem length_propertyTokens (n : Nat) : (propertyTokens n).length = 2 * n := by
  induction n with
  | zero => rfl
  | succ n ih => rw [propertyTokens, List.length_cons, List.length_cons, ih]; omega

/-- Properties as long as there are levels for them, and an update, which takes no level. -/
theorem trailers_propertyTokens {g : Grammar} {rest : List Token} (n : Nat) :
    ∀ bound depth base, n < bound → depth + n ≤ maxNesting →
      (propertyTree n base).isPlace = true →
      g.trailers bound base ⟨propertyTokens n ++ .ofSymbol .plusPlus :: rest, depth⟩ =
        .ok (.update (propertyTree n base) .increment false .start) ⟨rest, depth⟩ := by
  induction n with
  | zero =>
    intro bound depth base hbound _ hplace
    obtain ⟨bound, rfl⟩ : ∃ k, bound = k + 1 := ⟨bound - 1, by omega⟩
    exact bind_of_ok (requirePlace_of_isPlace hplace ⟨rest, depth⟩)
  | succ n ih =>
    intro bound depth base hbound hdepth hplace
    obtain ⟨bound, rfl⟩ : ∃ k, bound = k + 1 := ⟨bound - 1, by omega⟩
    refine (nested_of_ok _ (by omega) ?_ : nested .start _ ⟨_ :: _, depth⟩ = _)
    exact ih bound (depth + 1) _ (by omega) (by omega) hplace

/-- With one level left a variable is an operand. -/
theorem unary_x (limit : Nat) {depth : Nat} {rest : List Token} (hdepth : depth < maxNesting)
    (hrest : goesOn (fun _ => false) rest = false) :
    (upTo (limit + 1)).unary ⟨.x :: rest, depth⟩ = .ok .x ⟨rest, depth⟩ := by
  have hprimary : (upTo limit).primary ⟨.x :: rest, depth + 1⟩ = .ok .x ⟨rest, depth + 1⟩ := rfl
  have hrule : nested .start (do
      let base ← (upTo limit).primary
      (upTo limit).trailers (← remaining) base) ⟨.x :: rest, depth⟩ = .ok .x ⟨rest, depth⟩ :=
    nested_of_ok _ hdepth ((bind_of_ok hprimary).trans (trailers_of_goesOn _ _ .x hrest))
  exact hrule

/-- Tokens that begin with a brace or with the word of a function, and that are read as a
primary expression with so many levels left. -/
def IsPrimaryAt (levels : Nat) (ts : List Token) (e : Expr) : Prop :=
  (ts.head? = some (.ofSymbol .leftBrace) ∨ ts.head? = some (.ofKeyword .functionWord)) ∧
  ∀ depth rest, depth + levels = maxNesting →
    (upTo (levels + 1)).primary ⟨ts ++ rest, depth⟩ = .ok e ⟨rest, depth⟩

/-- Tokens that are read as an expression before a closing symbol. -/
def IsExpressionAt (levels : Nat) (ts : List Token) (e : Expr) : Prop :=
  ∀ depth rest closing, closing = Symbol.rightBrace ∨ closing = Symbol.rightParen →
    depth + levels = maxNesting →
      (upTo (levels + 1)).expression ⟨ts ++ .ofSymbol closing :: rest, depth⟩ =
        .ok e ⟨.ofSymbol closing :: rest, depth⟩

/-- An operand with trailers for all the levels that its primary expression leaves. -/
theorem unary_of_isPrimaryAt {n : Nat} {ts : List Token} {e : Expr} (h : IsPrimaryAt (n + 1) ts e)
    {depth : Nat} (hdepth : depth + (n + 2) = maxNesting) (rest : List Token) :
    (upTo (n + 3)).unary
        ⟨ts ++ (propertyTokens (n + 1) ++ .ofSymbol .plusPlus :: rest), depth⟩ =
      .ok (.update (propertyTree (n + 1) e) .increment false .start) ⟨rest, depth⟩ := by
  obtain ⟨hfirst, hprimary⟩ := h
  have hrule : nested .start (do
      let base ← (upTo (n + 2)).primary
      (upTo (n + 2)).trailers (← remaining) base)
        ⟨ts ++ (propertyTokens (n + 1) ++ .ofSymbol .plusPlus :: rest), depth⟩ =
      .ok (.update (propertyTree (n + 1) e) .increment false .start) ⟨rest, depth⟩ := by
    refine nested_of_ok _ (by omega) ((bind_of_ok (hprimary (depth + 1) _ (by omega))).trans ?_)
    refine trailers_propertyTokens (n + 1) _ (depth + 1) e ?_ (by omega) (propertyTree_isPlace n e)
    show n + 1 < (propertyTokens (n + 1) ++ .ofSymbol .plusPlus :: rest).length
    rw [List.length_append, length_propertyTokens]
    omega
  cases ts with
  | nil => rcases hfirst with hfirst | hfirst <;> cases hfirst
  | cons first ts =>
    rcases hfirst with hfirst | hfirst <;> cases hfirst <;> exact hrule

/-- Two levels more for the expression around a primary expression: as many nodes more as
there are trailers, the update, and the operators of six chains. -/
theorem exists_isExpressionAt_of_isPrimaryAt {n : Nat} {ts : List Token} {e : Expr}
    (h : IsPrimaryAt (n + 1) ts e) (he : e.nesting = reach (n + 1) + 1) :
    ∃ ts e, IsExpressionAt (n + 3) ts e ∧ e.nesting = reach (n + 3) := by
  refine ⟨ts ++ (propertyTokens (n + 1) ++ [.ofSymbol .plusPlus]) ++ rungTokens (n + 1) rungs,
    rungTree (n + 1) rungs (.update (propertyTree (n + 1) e) .increment false .start), ?_, ?_⟩
  · intro depth rest closing hclosing hdepth
    have hoperand : ∀ rest, goesOn (fun _ => false) rest = false → (upTo (n + 3)).unary
        ⟨(ts ++ (propertyTokens (n + 1) ++ [.ofSymbol .plusPlus])) ++ rest, depth + 1⟩ =
          .ok (.update (propertyTree (n + 1) e) .increment false .start) ⟨rest, depth + 1⟩ := by
      intro rest _
      rw [List.append_assoc, List.append_assoc]
      exact unary_of_isPrimaryAt h (by omega) rest
    have hend : goesOn (accepted rungs) (.ofSymbol closing :: rest) = false := by
      rcases hclosing with rfl | rfl <;> rfl
    have hroom : depth + 1 + (n + 1) < maxNesting := by omega
    have htarget := chains_rungTokens (fun depth rest => unary_x (n + 2)) hroom hoperand rungs
      (by decide) _ hend
    rw [List.append_assoc _ (rungTokens (n + 1) rungs)]
    rw [chains_rungs] at htarget
    -- the closing symbol is no sign of an assignment
    refine nested_of_ok _ (by omega) ((bind_of_ok htarget).trans ?_)
    rcases hclosing with rfl | rfl <;> rfl
  · -- seven times the trailers or operators, the update, and the node of the primary expression
    rw [rungTree_nesting, Expr.nesting, propertyTree_nesting, he, reach]
    show reach (n + 1) + 1 + (n + 1) + 1 + 6 * (n + 1) = _
    omega

/-- An object literal around an expression. -/
theorem exists_isPrimaryAt_of_isExpressionAt {levels : Nat} {ts : List Token} {e : Expr}
    (h : IsExpressionAt levels ts e) (he : e.nesting = reach levels) :
    ∃ ts e, IsPrimaryAt levels ts e ∧ e.nesting = reach levels + 1 := by
  refine ⟨.ofSymbol .leftBrace :: .x :: .ofSymbol .colon :: (ts ++ [.ofSymbol .rightBrace]),
    .object [⟨"x", e, .start⟩] .start, ⟨.inl rfl, fun depth rest hdepth => ?_⟩, ?_⟩
  · have hvalue := h depth rest .rightBrace (.inl rfl) hdepth
    have hfield : (upTo (levels + 1)).field
        ⟨.x :: .ofSymbol .colon :: (ts ++ .ofSymbol .rightBrace :: rest), depth⟩ =
          .ok ⟨"x", e, .start⟩ ⟨.ofSymbol .rightBrace :: rest, depth⟩ :=
      bind_of_ok hvalue
    have hfields : ∀ bound, itemsUntil .rightBrace (upTo (levels + 1)).field (bound + 1)
        ⟨.x :: .ofSymbol .colon :: (ts ++ .ofSymbol .rightBrace :: rest), depth⟩ =
          .ok [⟨"x", e, .start⟩] ⟨rest, depth⟩ :=
      fun bound => bind_of_ok hfield
    have htokens : ts ++ [.ofSymbol .rightBrace] ++ rest = ts ++ .ofSymbol .rightBrace :: rest :=
      List.append_assoc ..
    simp only [List.cons_append, htokens]
    exact bind_of_ok (hfields _)
  · rw [Expr.nesting, nestingOfFields, nestingOfFields, Field.nesting, he]
    omega

/-- With one level left, a function with a type of four nodes for its parameter. -/
theorem exists_isPrimaryAt_one : ∃ ts e, IsPrimaryAt 1 ts e ∧ e.nesting = reach 1 + 1 := by
  refine ⟨[.ofKeyword .functionWord, .ofSymbol .leftParen, .x, .ofSymbol .colon,
      .ofSymbol .leftBrace, .x, .ofSymbol .leftParen, .ofSymbol .rightParen, .ofSymbol .rightBrace,
      .ofSymbol .ampersand, .x, .ofSymbol .bar, .x, .ofSymbol .rightParen,
      .ofSymbol .leftBrace, .ofSymbol .rightBrace],
    .function ⟨none, [⟨"x", some (.union [.intersection [.object [⟨"x",
      .function [] (.named "any" .start) .start, false, .start⟩] .start, .named "x" .start] .start,
      .named "x" .start] .start), false, .start⟩], none, ⟨[], .start⟩, .start⟩,
    ⟨.inr rfl, fun depth rest hdepth => ?_⟩, rfl⟩
  -- all tokens are known but those of the rest, and no parser looks at these
  obtain rfl : depth = 255 := Nat.succ.inj hdepth
  rfl

theorem exists_isExpressionAt (n : Nat) :
    ∃ ts e, IsExpressionAt (2 * n + 3) ts e ∧ e.nesting = reach (2 * n + 3) := by
  induction n with
  | zero =>
    obtain ⟨ts, e, h, he⟩ := exists_isPrimaryAt_one
    exact exists_isExpressionAt_of_isPrimaryAt h he
  | succ n ih =>
    obtain ⟨ts, e, h, he⟩ := ih
    obtain ⟨ts, e, h, he⟩ := exists_isPrimaryAt_of_isExpressionAt h he
    exact exists_isExpressionAt_of_isPrimaryAt h he

end Grammar

namespace Program

/-- The bound on the nesting of a program is attained by a loop with the deepest condition. -/
theorem exists_nesting_eq : ∃ tokens program,
    Program.ofTokens? tokens = .ok program ∧ program.nesting = 113162 := by
  obtain ⟨ts, e, h, he⟩ := Grammar.exists_isExpressionAt 126
  have hreach : e.nesting = 113161 := he.trans Grammar.reach_below_maxNesting
  have hcondition := h 1 [.ofSymbol .leftBrace, .ofSymbol .rightBrace] .rightParen (.inr rfl) rfl
  let tokens : List Token := .ofKeyword .whileWord :: .ofSymbol .leftParen ::
    (ts ++ [.ofSymbol .rightParen, .ofSymbol .leftBrace, .ofSymbol .rightBrace])
  let loop : Stmt := .repeatWhile e ⟨[], .start⟩ .start
  -- the statement opens one level, which leaves 255 of them for the condition
  have hloop : (Grammar.upTo maxNesting).whileRule ⟨tokens, 1⟩ = .ok loop ⟨[], 1⟩ :=
    bind_of_ok hcondition
  have hstatement : Grammar.full.statement ⟨tokens, 0⟩ = .ok loop ⟨[], 0⟩ :=
    Parser.nested_of_ok .start (by decide) hloop
  have hrow : ∀ bound, Grammar.programStatements Grammar.full (bound + 1) ⟨tokens, 0⟩ =
      .ok [loop] ⟨[], 0⟩ := by
    intro bound
    refine (bind_of_ok hstatement).trans ?_
    cases bound <;> rfl
  have hprogram : Grammar.program ⟨tokens, 0⟩ = .ok ⟨[loop]⟩ ⟨[], 0⟩ :=
    bind_of_ok (hrow _)
  refine ⟨tokens, ⟨[loop]⟩, ?_, ?_⟩
  · unfold ofTokens? Parser.run
    rw [hprogram]
  · show max (loop.nesting) (nestingOfRow []) = 113162
    rw [Stmt.nesting, Block.nesting, nestingOfRow, hreach]
    rfl

theorem exists_ofTokens {tokens : List Token} {p : Program → Bool}
    (h : (Program.ofTokens? tokens).toOption.any p = true) :
    ∃ program, Program.ofTokens? tokens = .ok program ∧ p program = true := by
  cases hprogram : Program.ofTokens? tokens with
  | error fault => rw [hprogram] at h; cases h
  | ok program => rw [hprogram] at h; exact ⟨program, rfl, h⟩

/-- A product of 150 operators has closed its levels when the sum around it opens 150 of its
own: the tree has 300 operators below each other. -/
theorem maxNesting_lt_nesting : ∃ program,
    Program.ofTokens? (.x :: (Grammar.operatorTokens .multiply 150 ++
      Grammar.operatorTokens .add 150)) = .ok program ∧
    maxNesting < program.nesting := by
  have hread : (Program.ofTokens? (.x :: (Grammar.operatorTokens .multiply 150 ++
      Grammar.operatorTokens .add 150))).toOption.any
      (fun program => maxNesting < program.nesting) = true := by
    decide +kernel
  obtain ⟨program, hprogram, h⟩ := exists_ofTokens hread
  exact ⟨program, hprogram, of_decide_eq_true h⟩

end Program

end TypedScript
