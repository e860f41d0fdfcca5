import TypedScript.Grammar.Statements

/-!
# Programs moved elsewhere

A parser carries positions along and never looks at them. So a map on positions that
keeps the start of a text may be applied to the tokens before they are parsed, or to
the tree or fault that comes out (`Parser.Moves`). This is shown for each combinator,
then for each rule over the parsers that lie deeper, and by induction on the levels of
nesting for the whole grammar (`Program.ofTokens?_moved`). With the map that sends all
positions to the start it says that what tokens make up, apart from its positions, does
not depend on theirs (`unplaced_ofTokens?`).
-/

namespace TypedScript

/-! ### Moved trees -/

variable (σ : Position → Position)

/-- A token with its position mapped. -/
def Token.moved (t : Token) : Token :=
  { t with position := σ t.position }

/-- A fault with its position mapped. -/
def Fault.moved {κ : Type} (fault : Fault κ) : Fault κ :=
  { fault with position := σ fault.position }

mutual

/-- A type expression with its positions mapped. -/
def TypeExpr.moved : TypeExpr → TypeExpr
  | .named name position => .named name (σ position)
  | .object members position => .object (movedMembers members) (σ position)
  | .function params result position =>
    .function (movedParameters params) result.moved (σ position)
  | .union members position => .union (movedTypes members) (σ position)
  | .intersection members position => .intersection (movedTypes members) (σ position)

/-- Type expressions with their positions mapped. -/
def movedTypes : List TypeExpr → List TypeExpr
  | [] => []
  | type :: rest => type.moved :: movedTypes rest

/-- A member of an object type with its positions mapped. -/
def Member.moved : Member → Member
  | ⟨name, type, isOptional, position⟩ => ⟨name, type.moved, isOptional, σ position⟩

/-- Members of an object type with their positions mapped. -/
def movedMembers : List Member → List Member
  | [] => []
  | member :: rest => member.moved :: movedMembers rest

/-- A parameter with its positions mapped. -/
def Parameter.moved : Parameter → Parameter
  | ⟨name, none, isOptional, position⟩ => ⟨name, none, isOptional, σ position⟩
  | ⟨name, some type, isOptional, position⟩ => ⟨name, some type.moved, isOptional, σ position⟩

/-- Parameters with their positions mapped. -/
def movedParameters : List Parameter → List Parameter
  | [] => []
  | param :: rest => param.moved :: movedParameters rest

end

/-- An interface with its positions mapped. -/
def Interface.moved (declaration : Interface) : Interface :=
  ⟨declaration.name, declaration.members.map (Member.moved σ), σ declaration.position⟩

mutual

/-- An expression with its positions mapped. -/
def Expr.moved : Expr → Expr
  | .literal value position => .literal value (σ position)
  | .reference name position => .reference name (σ position)
  | .receiver position => .receiver (σ position)
  | .unary op operand position => .unary op operand.moved (σ position)
  | .binary left op right position => .binary left.moved op right.moved (σ position)
  | .assign target op? value position => .assign target.moved op? value.moved (σ position)
  | .update target op isBefore position => .update target.moved op isBefore (σ position)
  | .call callee arguments position => .call callee.moved (movedEach arguments) (σ position)
  | .member object property position => .member object.moved property (σ position)
  | .object fields position => .object (movedFields fields) (σ position)
  | .function definition => .function definition.moved

/-- Expressions with their positions mapped. -/
def movedEach : List Expr → List Expr
  | [] => []
  | e :: rest => e.moved :: movedEach rest

/-- An expression that may be missing, with its positions mapped. -/
def movedOption : Option Expr → Option Expr
  | none => none
  | some e => some e.moved

/-- A property of an object literal with its positions mapped. -/
def Field.moved : Field → Field
  | ⟨name, value, position⟩ => ⟨name, value.moved, σ position⟩

/-- Properties of an object literal with their positions mapped. -/
def movedFields : List Field → List Field
  | [] => []
  | field :: rest => field.moved :: movedFields rest

/-- A function with its positions mapped. -/
def Function.moved : Function → Function
  | ⟨name?, params, result?, body, position⟩ =>
    ⟨name?, params.map (Parameter.moved σ), result?.map (TypeExpr.moved σ), body.moved,
      σ position⟩

/-- A block with its positions mapped. -/
def Block.moved : Block → Block
  | ⟨statements, position⟩ => ⟨movedRow statements, σ position⟩

/-- A statement with its positions mapped. -/
def Stmt.moved : Stmt → Stmt
  | .variable name type? value? position =>
    .variable name (type?.map (TypeExpr.moved σ)) (movedOption value?) (σ position)
  | .function definition => .function definition.moved
  | .interface declaration => .interface (declaration.moved σ)
  | .expression e position => .expression e.moved (σ position)
  | .giveBack value? position => .giveBack (movedOption value?) (σ position)
  | .branch condition body otherwise? position =>
    .branch condition.moved body.moved (movedStmtOption otherwise?) (σ position)
  | .block b => .block b.moved
  | .loop init? condition? update? body position =>
    .loop (movedStmtOption init?) (movedOption condition?) (movedOption update?) body.moved
      (σ position)
  | .repeatWhile condition body position =>
    .repeatWhile condition.moved body.moved (σ position)

/-- A statement that may be missing, with its positions mapped. -/
def movedStmtOption : Option Stmt → Option Stmt
  | none => none
  | some s => some s.moved

/-- Statements with their positions mapped. -/
def movedRow : List Stmt → List Stmt
  | [] => []
  | s :: rest => s.moved :: movedRow rest

end

/-- A program with its positions mapped. -/
def Program.moved (program : Program) : Program :=
  ⟨movedRow σ program.statements⟩

/-- A function that goes through a list item by item maps it. -/
theorem eq_map_of_cons {α β : Type} {f : α → β} {each : List α → List β} (hnil : each [] = [])
    (hcons : ∀ a rest, each (a :: rest) = f a :: each rest) (l : List α) : each l = l.map f := by
  induction l with
  | nil => exact hnil
  | cons a rest ih => rw [hcons, ih, List.map_cons]

theorem movedTypes_eq (types : List TypeExpr) :
    movedTypes σ types = types.map (TypeExpr.moved σ) :=
  eq_map_of_cons rfl (fun _ _ => rfl) types

theorem movedMembers_eq (members : List Member) :
    movedMembers σ members = members.map (Member.moved σ) :=
  eq_map_of_cons rfl (fun _ _ => rfl) members

theorem movedParameters_eq (params : List Parameter) :
    movedParameters σ params = params.map (Parameter.moved σ) :=
  eq_map_of_cons rfl (fun _ _ => rfl) params

theorem movedEach_eq (exprs : List Expr) : movedEach σ exprs = exprs.map (Expr.moved σ) :=
  eq_map_of_cons rfl (fun _ _ => rfl) exprs

theorem movedFields_eq (fields : List Field) :
    movedFields σ fields = fields.map (Field.moved σ) :=
  eq_map_of_cons rfl (fun _ _ => rfl) fields

theorem movedRow_eq (statements : List Stmt) :
    movedRow σ statements = statements.map (Stmt.moved σ) :=
  eq_map_of_cons rfl (fun _ _ => rfl) statements

theorem movedOption_eq (e? : Option Expr) : movedOption σ e? = e?.map (Expr.moved σ) := by
  cases e? <;> rfl

theorem movedStmtOption_eq (s? : Option Stmt) : movedStmtOption σ s? = s?.map (Stmt.moved σ) := by
  cases s? <;> rfl

theorem Parameter.moved_mk (name : String) (type? : Option TypeExpr) (isOptional : Bool)
    (position : Position) :
    Parameter.moved σ ⟨name, type?, isOptional, position⟩ =
      ⟨name, type?.map (TypeExpr.moved σ), isOptional, σ position⟩ := by
  cases type? <;> rfl

theorem Expr.position_moved (e : Expr) : (e.moved σ).position = σ e.position := by
  cases e with
  | function definition => obtain ⟨name?, params, result?, body, position⟩ := definition; rfl
  | _ => rfl

theorem Expr.isPlace_moved (e : Expr) : (e.moved σ).isPlace = e.isPlace := by
  cases e <;> rfl

theorem Token.unexpected_moved (t : Token) (expected : String) :
    (t.unexpected expected).moved σ = (t.moved σ).unexpected expected := by
  obtain ⟨kind, lexeme, position⟩ := t
  cases kind <;> rfl

/-! ### Moved runs of a parser -/

/-- A cursor over moved tokens. -/
def Cursor.moved (c : Cursor) : Cursor :=
  { c with tokens := c.tokens.map (Token.moved σ) }

namespace Parser

variable {α β γ δ : Type}

/-- On moved tokens `q` does what `p` does on the tokens themselves, with `f` applied to
the value. -/
def Moves (f : α → β) (p : Parser α) (q : Parser β) : Prop :=
  ∀ c : Cursor, q (c.moved σ) =
    match p c with
    | .ok a rest => .ok (f a) (rest.moved σ)
    | .error fault rest => .error (fault.moved σ) (rest.moved σ)

namespace Moves

variable {σ} {f : α → β} {p : Parser α} {q : Parser β}

theorem pure {a : α} {b : β} (h : f a = b) : Moves σ f (Pure.pure a) (Pure.pure b) :=
  fun c => congrArg (EStateM.Result.ok · (c.moved σ)) h.symm

theorem throw {fault fault' : ParseFault} (h : fault.moved σ = fault') :
    Moves σ f (MonadExcept.throw fault : Parser α) (MonadExcept.throw fault') :=
  fun c => congrArg (EStateM.Result.error · (c.moved σ)) h.symm

theorem bind {g : γ → δ} {k : α → Parser γ} {k' : β → Parser δ} (h : Moves σ f p q)
    (hk : ∀ a, Moves σ g (k a) (k' (f a))) : Moves σ g (p >>= k) (q >>= k') := by
  intro c
  show EStateM.bind q k' (c.moved σ) = _
  rw [EStateM.bind, h c]
  show _ = match EStateM.bind p k c with
    | .ok a rest => _
    | .error fault rest => _
  rw [EStateM.bind]
  cases p c with
  | ok a rest => exact hk a rest
  | error fault rest => rfl

/-- What a parser gives need not have positions. -/
theorem bind_same {p q : Parser α} {g : γ → δ} {k : α → Parser γ} {k' : α → Parser δ}
    (h : Moves σ (fun a => a) p q) (hk : ∀ a, Moves σ g (k a) (k' a)) :
    Moves σ g (p >>= k) (q >>= k') :=
  h.bind hk

/-- The last part of a rule. -/
theorem map {g : γ → δ} {k : α → γ} {k' : β → δ} (h : Moves σ f p q)
    (hk : ∀ a, g (k a) = k' (f a)) :
    Moves σ g (p >>= fun a => Pure.pure (k a)) (q >>= fun b => Pure.pure (k' b)) :=
  h.bind fun a => pure (hk a)

/-! ### Single tokens -/

theorem peek? : Moves σ (Option.map (Token.moved σ)) Parser.peek? Parser.peek? := by
  intro c
  show EStateM.Result.ok (c.moved σ).tokens.head? (c.moved σ) = _
  rw [Cursor.moved, List.head?_map]
  rfl

theorem remaining : Moves σ (fun n => n) Parser.remaining Parser.remaining := by
  intro c
  show EStateM.Result.ok (c.moved σ).tokens.length (c.moved σ) = _
  rw [Cursor.moved, List.length_map]
  rfl

theorem skip : Moves σ (fun u => u) Parser.skip Parser.skip := by
  intro c
  show EStateM.Result.ok () { c.moved σ with tokens := (c.moved σ).tokens.tail } = _
  rw [Cursor.moved, ← List.map_tail]
  rfl

theorem sees (sign : Symbol) : Moves σ (fun b => b) (Parser.sees sign) (Parser.sees sign) :=
  peek?.map fun o => by cases o <;> rfl

theorem seesWord (word : Keyword) :
    Moves σ (fun b => b) (Parser.seesWord word) (Parser.seesWord word) :=
  peek?.map fun o => by cases o <;> rfl

theorem eat (sign : Symbol) : Moves σ (fun b => b) (Parser.eat sign) (Parser.eat sign) := by
  refine (sees sign).bind_same fun b => ?_
  cases b with
  | true => exact skip.bind fun _ => pure rfl
  | false => exact pure rfl

theorem eatWord (word : Keyword) :
    Moves σ (fun b => b) (Parser.eatWord word) (Parser.eatWord word) := by
  refine (seesWord word).bind_same fun b => ?_
  cases b with
  | true => exact skip.bind fun _ => pure rfl
  | false => exact pure rfl

/-- A level is opened for the one parser as for the other. -/
theorem nested (h : Moves σ f p q) (position : Position) :
    Moves σ f (Parser.nested position p) (Parser.nested (σ position) q) := by
  intro c
  unfold Parser.nested
  have hdeeper : q { c.moved σ with depth := (c.moved σ).depth + 1 } = _ :=
    h { c with depth := c.depth + 1 }
  rw [hdeeper]
  show (if maxNesting ≤ c.depth then _ else _) = _
  split
  · rfl
  · cases p { c with depth := c.depth + 1 } <;> rfl

/-- The choice does not depend on positions. -/
theorem ite {c : Prop} [Decidable c] {p' : Parser α} {q' : Parser β} (h : Moves σ f p q)
    (h' : Moves σ f p' q') : Moves σ f (if c then p else p') (if c then q else q') := by
  split
  · exact h
  · exact h'

section Start

variable (hσ : σ .start = .start)

include hσ

theorem exhausted (expected : String) :
    (Parser.exhausted expected).moved σ = Parser.exhausted expected :=
  congrArg (Fault.mk _) hσ

theorem position : Moves σ σ Parser.position Parser.position :=
  peek?.map fun o => by cases o <;> simp [hσ, Token.moved]

theorem next (expected : String) :
    Moves σ (Token.moved σ) (Parser.next expected) (Parser.next expected) := by
  refine peek?.bind fun o => ?_
  cases o with
  | none => exact throw (exhausted hσ expected)
  | some t => exact skip.bind fun _ => pure rfl

theorem expect (sign : Symbol) (expected : String) :
    Moves σ (Token.moved σ) (Parser.expect sign expected) (Parser.expect sign expected) :=
  (next hσ expected).bind fun t => ite (pure rfl) (throw (t.unexpected_moved σ expected))

theorem expectWord (word : Keyword) :
    Moves σ (Token.moved σ) (Parser.expectWord word) (Parser.expectWord word) :=
  (next hσ _).bind fun t => ite (pure rfl) (throw (t.unexpected_moved σ _))

theorem identifier :
    Moves σ (fun x => (x.1, σ x.2)) Parser.identifier Parser.identifier := by
  refine (next hσ _).bind fun t => ?_
  have hthrow := t.unexpected_moved σ "identifier"
  obtain ⟨kind, lexeme, position⟩ := t
  cases kind with
  | identifier name => exact pure rfl
  | _ => exact throw hthrow

theorem propertyName :
    Moves σ (fun x => (x.1, σ x.2)) Parser.propertyName Parser.propertyName := by
  refine (next hσ _).bind fun t => ?_
  have hthrow := t.unexpected_moved σ "property name"
  obtain ⟨kind, lexeme, position⟩ := t
  cases kind with
  | identifier name => exact pure rfl
  | text value => exact pure rfl
  | _ => exact ite (pure rfl) (throw hthrow)

theorem outOfLevels : Moves σ f (Parser.outOfLevels : Parser α) Parser.outOfLevels :=
  (position hσ).bind fun _ => throw rfl

/-! ### Rows of items -/

theorem itemsUntil (closing : Symbol) (h : Moves σ f p q) (bound : Nat) :
    Moves σ (List.map f) (Parser.itemsUntil closing p bound)
      (Parser.itemsUntil closing q bound) := by
  induction bound with
  | zero => exact throw (exhausted hσ _)
  | succ bound ih =>
    refine (eat closing).bind_same fun closed => ?_
    cases closed with
    | true => exact pure rfl
    | false =>
      refine h.bind fun _ => (next hσ _).bind fun t => ?_
      exact ite (ih.map fun _ => rfl) (ite (pure rfl) (throw (t.unexpected_moved σ _)))

theorem commaSeparated (closing : Symbol) (h : Moves σ f p q) :
    Moves σ (List.map f) (Parser.commaSeparated closing p) (Parser.commaSeparated closing q) :=
  remaining.bind_same fun n => itemsUntil hσ closing h (n + 1)

end Start

theorem itemsAfter (separator : Symbol) (h : Moves σ f p q) (bound : Nat) :
    Moves σ (List.map f) (Parser.itemsAfter separator p bound)
      (Parser.itemsAfter separator q bound) := by
  induction bound with
  | zero => exact pure rfl
  | succ bound ih =>
    refine (eat separator).bind_same fun another => ?_
    cases another with
    | true => exact h.bind fun _ => ih.map fun _ => rfl
    | false => exact pure rfl

theorem separatedBy (separator : Symbol) (h : Moves σ f p q) :
    Moves σ (List.map f) (Parser.separatedBy separator p) (Parser.separatedBy separator q) :=
  h.bind fun _ => remaining.bind_same fun n => (itemsAfter separator h n).map fun _ => rfl

end Moves

end Parser

namespace Grammar

open TypedScript.Parser

/-! ### Types -/

section Types

variable {σ} (hσ : σ .start = .start) {inner : Parser TypeExpr}
  (hinner : Moves σ (TypeExpr.moved σ) inner inner)

theorem closesBeforeArrow_moved (depth : Nat) (ts : List Token) :
    closesBeforeArrow depth (ts.map (Token.moved σ)) = closesBeforeArrow depth ts := by
  induction ts generalizing depth with
  | nil => rfl
  | cons t ts ih =>
    obtain ⟨kind, lexeme, position⟩ := t
    cases kind with
    | symbol sign =>
      cases sign with
      | leftParen => exact ih (depth + 1)
      | rightParen =>
        simp only [List.map_cons, closesBeforeArrow, Token.moved, ih]
        cases ts <;> rfl
      | _ => exact ih depth
    | endOfInput => rfl
    | _ => exact ih depth

theorem seesFunctionType_moves :
    Moves σ (fun b => b) seesFunctionType seesFunctionType := by
  intro c
  show EStateM.Result.ok (closesBeforeArrow 0 (c.moved σ).tokens) (c.moved σ) = _
  rw [Cursor.moved, closesBeforeArrow_moved]
  rfl

theorem collapse_moved {build : List TypeExpr → Position → TypeExpr}
    (hbuild : ∀ types position,
      (build types position).moved σ = build (types.map (TypeExpr.moved σ)) (σ position))
    (types : List TypeExpr) (position : Position) :
    (collapse build types position).moved σ =
      collapse build (types.map (TypeExpr.moved σ)) (σ position) := by
  match types with
  | [] => exact hbuild [] position
  | [only] => rfl
  | first :: second :: rest => exact hbuild (first :: second :: rest) position

include hinner

theorem typeMark_moves :
    Moves σ (Option.map (TypeExpr.moved σ)) (typeMark inner) (typeMark inner) :=
  (Moves.eat .colon).bind_same fun marked => by
    cases marked with
    | true => exact hinner.map fun _ => rfl
    | false => exact .pure rfl

include hσ

theorem parameter_moves : Moves σ (Parameter.moved σ) (parameter inner) (parameter inner) := by
  refine (Moves.identifier hσ).bind fun ⟨name, position⟩ => ?_
  refine (Moves.eat .question).bind_same fun isOptional => ?_
  exact (typeMark_moves hinner).map fun type? => Parameter.moved_mk σ name type? isOptional position

theorem parameters_moves :
    Moves σ (List.map (Parameter.moved σ)) (parameters inner) (parameters inner) :=
  (Moves.expect hσ _ _).bind fun _ => .commaSeparated hσ _ (parameter_moves hσ hinner)

theorem functionType_moves :
    Moves σ (TypeExpr.moved σ) (functionType inner) (functionType inner) := by
  refine (Moves.position hσ).bind fun position => ?_
  refine (parameters_moves hσ hinner).bind fun params => ?_
  refine (Moves.expect hσ _ _).bind fun _ => hinner.map fun result => ?_
  rw [TypeExpr.moved, movedParameters_eq]

theorem member_moves : Moves σ (Member.moved σ) (member inner) (member inner) := by
  refine (Moves.propertyName hσ).bind fun ⟨name, start⟩ => ?_
  refine (Moves.eat .question).bind_same fun isOptional => ?_
  refine (Moves.sees .leftParen).bind_same fun isMethod => ?_
  cases isMethod with
  | true =>
    refine (Moves.position hσ).bind fun position => ?_
    refine (parameters_moves hσ hinner).bind fun params => ?_
    refine (typeMark_moves hinner).map fun result? => ?_
    cases result? <;> simp [Member.moved, TypeExpr.moved, movedParameters_eq]
  | false => exact (Moves.expect hσ _ _).bind fun _ => hinner.map fun _ => rfl

theorem membersUntilBrace_moves (bound : Nat) :
    Moves σ (List.map (Member.moved σ)) (membersUntilBrace inner bound)
      (membersUntilBrace inner bound) := by
  induction bound with
  | zero => exact .throw (Moves.exhausted hσ _)
  | succ bound ih =>
    refine (Moves.eat .rightBrace).bind_same fun closed => ?_
    cases closed with
    | true => exact .pure rfl
    | false =>
      refine (member_moves hσ hinner).bind fun first => ?_
      refine (Moves.eat .semicolon).bind_same fun separated => ?_
      cases separated with
      | true => exact ih.map fun _ => rfl
      | false => exact (Moves.eat .comma).bind_same fun _ => ih.map fun _ => rfl

theorem members_moves :
    Moves σ (List.map (Member.moved σ)) (members inner) (members inner) :=
  Moves.remaining.bind_same fun n => membersUntilBrace_moves hσ hinner (n + 1)

theorem primaryType_moves :
    Moves σ (TypeExpr.moved σ) (primaryType inner) (primaryType inner) := by
  refine Moves.peek?.bind fun o => ?_
  cases o with
  | none => exact .throw (Moves.exhausted hσ _)
  | some t =>
    have hthrow := t.unexpected_moved σ "type"
    obtain ⟨kind, lexeme, position⟩ := t
    cases kind with
    | identifier name => exact Moves.skip.bind fun _ => .pure rfl
    | keyword word =>
      cases word with
      | undefinedWord | nullWord => exact Moves.skip.bind fun _ => .pure rfl
      | _ => exact .throw hthrow
    | symbol sign =>
      cases sign with
      | leftBrace =>
        refine Moves.skip.bind fun _ => (members_moves hσ hinner).map fun members => ?_
        rw [TypeExpr.moved, movedMembers_eq]
        rfl
      | leftParen =>
        refine seesFunctionType_moves.bind_same fun isFunction => ?_
        cases isFunction with
        | true => exact functionType_moves hσ hinner
        | false =>
          refine Moves.skip.bind fun _ => hinner.bind fun _ => ?_
          exact (Moves.expect hσ _ _).bind fun _ => .pure rfl
      | _ => exact .throw hthrow
    | _ => exact .throw hthrow

theorem intersectionType_moves :
    Moves σ (TypeExpr.moved σ) (intersectionType inner) (intersectionType inner) := by
  refine (Moves.position hσ).bind fun position => ?_
  refine (Moves.separatedBy _ (primaryType_moves hσ hinner)).map fun types => ?_
  refine collapse_moved (fun types position => ?_) types position
  rw [TypeExpr.moved, movedTypes_eq]

theorem unionType_moves :
    Moves σ (TypeExpr.moved σ) (unionType inner) (unionType inner) := by
  refine (Moves.position hσ).bind fun position => .nested ?_ position
  refine (Moves.separatedBy _ (intersectionType_moves hσ hinner)).map fun types => ?_
  refine collapse_moved (fun types position => ?_) types position
  rw [TypeExpr.moved, movedTypes_eq]

omit hinner

theorem typeUpTo_moves (levels : Nat) :
    Moves σ (TypeExpr.moved σ) (typeUpTo levels) (typeUpTo levels) := by
  induction levels with
  | zero => exact .outOfLevels hσ
  | succ levels ih => exact unionType_moves hσ ih

theorem typeExpr_moves : Moves σ (TypeExpr.moved σ) typeExpr typeExpr :=
  typeUpTo_moves hσ (maxNesting + 1)

end Types

/-! ### Expressions -/

/-- The parsers that lie one level deeper carry positions along. -/
structure Carries (g : Grammar) : Prop where
  expression : Moves σ (Expr.moved σ) g.expression g.expression
  unary : Moves σ (Expr.moved σ) g.unary g.unary
  statement : Moves σ (Stmt.moved σ) g.statement g.statement
  conditional : ∀ position,
    Moves σ (Stmt.moved σ) (g.conditional position) (g.conditional (σ position))

section Expressions

variable {σ} (hσ : σ .start = .start) {g : Grammar} (hg : g.Carries σ)

theorem requirePlace_moves (target : Expr) :
    Moves σ (fun u => u) (requirePlace target) (requirePlace (target.moved σ)) := by
  unfold requirePlace
  rw [Expr.isPlace_moved]
  exact .ite (.pure rfl) (.throw (congrArg (Fault.mk _) (target.position_moved σ).symm))

theorem operatorAhead?_moves (accepts : BinaryOp → Bool) :
    Moves σ (Option.map fun x => (x.1, σ x.2)) (operatorAhead? accepts)
      (operatorAhead? accepts) := by
  refine Moves.peek?.bind fun o => ?_
  cases o with
  | none => exact .pure rfl
  | some t =>
    obtain ⟨kind, lexeme, position⟩ := t
    cases kind with
    | symbol sign =>
      dsimp only [Option.map_some, Token.moved]
      cases BinaryOp.ofSymbol? sign with
      | none => exact .pure rfl
      | some op =>
        refine .pure ?_
        split <;> rfl
    | _ => exact .pure rfl

theorem operations_moves (accepts : BinaryOp → Bool) {operand : Parser Expr}
    (hoperand : Moves σ (Expr.moved σ) operand operand) (bound : Nat) (left : Expr) :
    Moves σ (Expr.moved σ) (operations accepts operand bound left)
      (operations accepts operand bound (left.moved σ)) := by
  induction bound generalizing left with
  | zero => exact .pure rfl
  | succ bound ih =>
    refine (operatorAhead?_moves accepts).bind fun o => ?_
    cases o with
    | none => exact .pure rfl
    | some ahead =>
      obtain ⟨op, position⟩ := ahead
      refine .nested ?_ position
      exact Moves.skip.bind fun _ => hoperand.bind fun right => ih (.binary left op right position)

theorem leftAssociative_moves (accepts : BinaryOp → Bool) {operand : Parser Expr}
    (hoperand : Moves σ (Expr.moved σ) operand operand) :
    Moves σ (Expr.moved σ) (leftAssociative accepts operand)
      (leftAssociative accepts operand) :=
  hoperand.bind fun left => Moves.remaining.bind_same fun n =>
    operations_moves accepts hoperand n left

include hg

theorem disjunction_moves : Moves σ (Expr.moved σ) g.disjunction g.disjunction :=
  leftAssociative_moves _ <| leftAssociative_moves _ <| leftAssociative_moves _ <|
    leftAssociative_moves _ <| leftAssociative_moves _ <| leftAssociative_moves _ hg.unary

include hσ

theorem assignmentRule_moves : Moves σ (Expr.moved σ) g.assignmentRule g.assignmentRule := by
  refine (Moves.position hσ).bind fun position => .nested ?_ position
  refine (disjunction_moves hg).bind fun target => Moves.peek?.bind fun o => ?_
  cases o with
  | none => exact .pure rfl
  | some t =>
    obtain ⟨kind, lexeme, position⟩ := t
    cases kind with
    | symbol sign =>
      dsimp only [Option.map_some, Token.moved]
      cases assignment? sign with
      | none => exact .pure rfl
      | some op? =>
        refine Moves.skip.bind fun _ => (requirePlace_moves target).bind_same fun _ => ?_
        exact hg.expression.map fun _ => rfl
    | _ => exact .pure rfl

theorem statementsUntilBrace_moves (bound : Nat) :
    Moves σ (List.map (Stmt.moved σ)) (g.statementsUntilBrace bound)
      (g.statementsUntilBrace bound) := by
  induction bound with
  | zero => exact .throw (Moves.exhausted hσ _)
  | succ bound ih =>
    refine (Moves.eat .rightBrace).bind_same fun closed => ?_
    cases closed with
    | true => exact .pure rfl
    | false =>
      refine (Moves.eat .semicolon).bind_same fun separated => ?_
      cases separated with
      | true => exact ih
      | false =>
        have hrest : Moves σ (List.map (Stmt.moved σ))
            (do return (← g.statement) :: (← g.statementsUntilBrace bound))
            (do return (← g.statement) :: (← g.statementsUntilBrace bound)) :=
          hg.statement.bind fun _ => ih.map fun _ => rfl
        refine Moves.peek?.bind fun o => ?_
        cases o with
        | none => exact hrest
        | some t =>
          refine .ite ?_ hrest
          exact (Moves.throw (t.unexpected_moved σ _)).bind_same fun _ => hrest

theorem block_moves : Moves σ (Block.moved σ) g.block g.block := by
  refine (Moves.expect hσ _ _).bind fun t => Moves.remaining.bind_same fun n => ?_
  refine (statementsUntilBrace_moves hσ hg (n + 1)).map fun statements => ?_
  rw [Block.moved, movedRow_eq]
  rfl

omit hσ hg in
theorem optionalName_moves : Moves σ (fun name? => name?) optionalName optionalName := by
  refine Moves.peek?.bind fun o => ?_
  cases o with
  | none => exact .pure rfl
  | some t =>
    obtain ⟨kind, lexeme, position⟩ := t
    cases kind with
    | identifier name => exact Moves.skip.bind fun _ => .pure rfl
    | _ => exact .pure rfl

theorem function_moves : Moves σ (Function.moved σ) g.function g.function := by
  refine (Moves.expectWord hσ _).bind fun t => optionalName_moves.bind_same fun name? => ?_
  refine (parameters_moves hσ (typeExpr_moves hσ)).bind fun params => ?_
  refine (typeMark_moves (typeExpr_moves hσ)).bind fun result? => ?_
  exact (block_moves hσ hg).map fun body => rfl

theorem field_moves : Moves σ (Field.moved σ) g.field g.field := by
  refine (Moves.propertyName hσ).bind fun ⟨name, position⟩ => ?_
  exact (Moves.expect hσ _ _).bind fun _ => hg.expression.map fun _ => rfl

theorem primary_moves : Moves σ (Expr.moved σ) g.primary g.primary := by
  refine Moves.peek?.bind fun o => ?_
  cases o with
  | none => exact .throw (Moves.exhausted hσ _)
  | some t =>
    have hthrow := t.unexpected_moved σ "expression"
    obtain ⟨kind, lexeme, position⟩ := t
    cases kind with
    | number | text | boolean | identifier => exact Moves.skip.bind fun _ => .pure rfl
    | keyword word =>
      cases word with
      | undefinedWord | nullWord | thisWord => exact Moves.skip.bind fun _ => .pure rfl
      | functionWord => exact (function_moves hσ hg).map fun _ => rfl
      | _ => exact .throw hthrow
    | symbol sign =>
      cases sign with
      | leftParen =>
        refine Moves.skip.bind fun _ => hg.expression.bind fun inner => ?_
        exact (Moves.expect hσ _ _).bind fun _ => .pure rfl
      | leftBrace =>
        refine Moves.skip.bind fun _ => ?_
        refine (Moves.commaSeparated hσ _ (field_moves hσ hg)).map fun fields => ?_
        rw [Expr.moved, movedFields_eq]
        rfl
      | _ => exact .throw hthrow
    | _ => exact .throw hthrow

theorem trailers_moves (bound : Nat) (base : Expr) :
    Moves σ (Expr.moved σ) (g.trailers bound base) (g.trailers bound (base.moved σ)) := by
  induction bound generalizing base with
  | zero => exact .pure rfl
  | succ bound ih =>
    refine Moves.peek?.bind fun o => ?_
    cases o with
    | none => exact .pure rfl
    | some t =>
      obtain ⟨kind, lexeme, position⟩ := t
      have hupdate : ∀ op : UpdateOp, Moves σ (Expr.moved σ)
          (do skip; requirePlace base; return .update base op false position)
          (do
            skip
            requirePlace (base.moved σ)
            return .update (base.moved σ) op false (σ position)) := fun op =>
        Moves.skip.bind fun _ => (requirePlace_moves base).bind_same fun _ => .pure rfl
      cases kind with
      | symbol sign =>
        cases sign with
        | leftParen =>
          refine .nested ?_ position
          refine Moves.skip.bind fun _ => ?_
          refine (Moves.commaSeparated hσ _ hg.expression).bind fun arguments => ?_
          have hcall : (Expr.call base arguments position).moved σ =
              .call (base.moved σ) (arguments.map (Expr.moved σ)) (σ position) := by
            rw [Expr.moved, movedEach_eq]
          have hgoOn := ih (.call base arguments position)
          rw [hcall] at hgoOn
          exact hgoOn
        | dot =>
          refine .nested ?_ position
          refine Moves.skip.bind fun _ => (Moves.propertyName hσ).bind fun ⟨name, start⟩ => ?_
          exact ih (.member base name start)
        | plusPlus => exact hupdate .increment
        | minusMinus => exact hupdate .decrement
        | _ => exact .pure rfl
      | _ => exact .pure rfl

theorem unaryRule_moves : Moves σ (Expr.moved σ) g.unaryRule g.unaryRule := by
  refine Moves.peek?.bind fun o => ?_
  cases o with
  | none => exact .throw (Moves.exhausted hσ _)
  | some t =>
    have hoperand : Moves σ (Expr.moved σ)
        (do let base ← g.primary; g.trailers (← remaining) base)
        (do let base ← g.primary; g.trailers (← remaining) base) :=
      (primary_moves hσ hg).bind fun base => Moves.remaining.bind_same fun n =>
        trailers_moves hσ hg n base
    obtain ⟨kind, lexeme, position⟩ := t
    refine .nested ?_ position
    cases kind with
    | symbol sign =>
      dsimp only [Token.moved]
      cases unary? sign with
      | some op => exact Moves.skip.bind fun _ => hg.unary.map fun _ => rfl
      | none =>
        cases update? sign with
        | some op =>
          refine Moves.skip.bind fun _ => hg.unary.bind fun target => ?_
          exact (requirePlace_moves target).bind_same fun _ => .pure rfl
        | none => exact hoperand
    | _ => exact hoperand

end Expressions

/-! ### Statements -/

section Statements

variable {σ} (hσ : σ .start = .start) {g : Grammar} (hg : g.Carries σ)

theorem seesNameSecond_moves : Moves σ (fun b => b) seesNameSecond seesNameSecond := by
  rintro ⟨ts, depth⟩
  match ts with
  | [] => rfl
  | [_] => rfl
  | _ :: ⟨kind, lexeme, position⟩ :: ts => cases kind <;> rfl

theorem terminated_moves {statement : Parser Stmt}
    (h : Moves σ (Stmt.moved σ) statement statement) :
    Moves σ (Stmt.moved σ) (terminated statement) (terminated statement) :=
  h.bind fun _ => (Moves.eat .semicolon).bind_same fun _ => .pure rfl

include hg

theorem initialValue_moves :
    Moves σ (Option.map (Expr.moved σ)) g.initialValue g.initialValue :=
  (Moves.eat .assign).bind_same fun assigned => by
    cases assigned with
    | true => exact hg.expression.map fun _ => rfl
    | false => exact .pure rfl

theorem expressionUnless_moves (sign : Symbol) :
    Moves σ (Option.map (Expr.moved σ)) (g.expressionUnless sign) (g.expressionUnless sign) :=
  (Moves.sees sign).bind_same fun ends => by
    cases ends with
    | true => exact .pure rfl
    | false => exact hg.expression.map fun _ => rfl

include hσ

theorem body_moves : Moves σ (Block.moved σ) g.body g.body := by
  refine (Moves.sees .leftBrace).bind_same fun isBlock => ?_
  cases isBlock with
  | true => exact block_moves hσ hg
  | false => exact (Moves.position hσ).bind fun _ => hg.statement.map fun _ => rfl

theorem variableRule_moves : Moves σ (Stmt.moved σ) g.variableRule g.variableRule := by
  refine (Moves.expectWord hσ _).bind fun t => (Moves.identifier hσ).bind fun ⟨name, _⟩ => ?_
  refine (typeMark_moves (typeExpr_moves hσ)).bind fun type? => ?_
  refine (initialValue_moves hg).map fun value? => ?_
  rw [Stmt.moved, movedOption_eq]
  rfl

theorem expressionRule_moves : Moves σ (Stmt.moved σ) g.expressionRule g.expressionRule :=
  (Moves.position hσ).bind fun _ => hg.expression.map fun _ => rfl

theorem returnRule_moves : Moves σ (Stmt.moved σ) g.returnRule g.returnRule := by
  refine (Moves.expectWord hσ _).bind fun t => Moves.peek?.bind fun o => ?_
  have hends : ((o.map (Token.moved σ)).map fun t =>
      t.kind.isSymbol .semicolon || t.kind.isSymbol .rightBrace || t.kind.isEnd) =
      o.map fun t =>
        t.kind.isSymbol .semicolon || t.kind.isSymbol .rightBrace || t.kind.isEnd := by
    cases o <;> rfl
  rw [hends]
  exact .ite (.pure rfl) (hg.expression.map fun _ => rfl)

theorem loopStart_moves : Moves σ (Option.map (Stmt.moved σ)) g.loopStart g.loopStart := by
  refine (Moves.sees .semicolon).bind_same fun isEmpty => ?_
  cases isEmpty with
  | true => exact .pure rfl
  | false =>
    refine (Moves.seesWord .letWord).bind_same fun declares => ?_
    cases declares with
    | true => exact (variableRule_moves hσ hg).map fun _ => rfl
    | false => exact (expressionRule_moves hσ hg).map fun _ => rfl

theorem loopRule_moves : Moves σ (Stmt.moved σ) g.loopRule g.loopRule := by
  refine (Moves.expectWord hσ _).bind fun t => (Moves.expect hσ _ _).bind fun _ => ?_
  refine (loopStart_moves hσ hg).bind fun init? => (Moves.expect hσ _ _).bind fun _ => ?_
  refine (expressionUnless_moves hg _).bind fun condition? => ?_
  refine (Moves.expect hσ _ _).bind fun _ => ?_
  refine (expressionUnless_moves hg _).bind fun update? => ?_
  refine (Moves.expect hσ _ _).bind fun _ => (body_moves hσ hg).map fun body => ?_
  rw [Stmt.moved, movedStmtOption_eq, movedOption_eq, movedOption_eq]
  rfl

theorem whileRule_moves : Moves σ (Stmt.moved σ) g.whileRule g.whileRule := by
  refine (Moves.expectWord hσ _).bind fun t => (Moves.expect hσ _ _).bind fun _ => ?_
  refine hg.expression.bind fun condition => (Moves.expect hσ _ _).bind fun _ => ?_
  exact (body_moves hσ hg).map fun _ => rfl

theorem conditionalRule_moves (position : Position) :
    Moves σ (Stmt.moved σ) (g.conditionalRule position) (g.conditionalRule (σ position)) := by
  refine .nested ?_ position
  refine (Moves.expect hσ _ _).bind fun _ => hg.expression.bind fun condition => ?_
  refine (Moves.expect hσ _ _).bind fun _ => (body_moves hσ hg).bind fun body => ?_
  refine (Moves.eatWord .elseWord).bind_same fun hasElse => ?_
  cases hasElse with
  | false => exact .pure rfl
  | true =>
    refine Moves.peek?.bind fun o => ?_
    cases o with
    | none => exact (body_moves hσ hg).map fun _ => rfl
    | some t =>
      refine .ite ?_ ((body_moves hσ hg).map fun _ => rfl)
      exact Moves.skip.bind fun _ => (hg.conditional t.position).map fun _ => rfl

theorem statementRule_moves : Moves σ (Stmt.moved σ) g.statementRule g.statementRule := by
  refine Moves.peek?.bind fun o => ?_
  cases o with
  | none => exact .throw (Moves.exhausted hσ _)
  | some t =>
    obtain ⟨kind, lexeme, position⟩ := t
    have hexpression := terminated_moves (expressionRule_moves hσ hg)
    refine .nested ?_ position
    cases kind with
    | keyword word =>
      cases word with
      | letWord => exact terminated_moves (variableRule_moves hσ hg)
      | functionWord =>
        refine seesNameSecond_moves.bind_same fun declares => .ite ?_ hexpression
        exact terminated_moves ((function_moves hσ hg).map fun _ => rfl)
      | returnWord => exact terminated_moves (returnRule_moves hσ hg)
      | ifWord => exact Moves.skip.bind fun _ => hg.conditional position
      | forWord => exact loopRule_moves hσ hg
      | whileWord => exact whileRule_moves hσ hg
      | interfaceWord | exportWord => exact .throw rfl
      | _ => exact hexpression
    | symbol sign =>
      cases sign with
      | leftBrace => exact (block_moves hσ hg).map fun _ => rfl
      | _ => exact hexpression
    | _ => exact hexpression

omit hg

theorem upTo_carries (levels : Nat) : (upTo levels).Carries σ := by
  induction levels with
  | zero =>
    exact ⟨.outOfLevels hσ, .outOfLevels hσ, .outOfLevels hσ, fun _ => .outOfLevels hσ⟩
  | succ levels ih =>
    exact ⟨assignmentRule_moves hσ ih, unaryRule_moves hσ ih, statementRule_moves hσ ih,
      conditionalRule_moves hσ ih⟩

theorem interface_moves : Moves σ (Interface.moved σ) interface interface := by
  refine (Moves.expectWord hσ _).bind fun word => (Moves.identifier hσ).bind fun ⟨name, _⟩ => ?_
  refine Moves.peek?.bind fun o => ?_
  cases o with
  | none => exact .throw rfl
  | some t =>
    have hmembers : Moves σ (Interface.moved σ)
        (do return { name, members := ← members typeExpr, position := word.position })
        (do return { name, members := ← members typeExpr, position := σ word.position }) :=
      (members_moves hσ (typeExpr_moves hσ)).map fun _ => rfl
    refine Moves.skip.bind fun _ => .ite hmembers ?_
    exact (Moves.throw (t.unexpected_moved σ _)).bind_same fun _ => hmembers

theorem exports_moves : Moves σ (fun u => u) exports exports := by
  refine (Moves.expectWord hσ _).bind fun _ => (Moves.expect hσ _ _).bind fun _ => ?_
  refine (Moves.commaSeparated hσ _ (Moves.identifier hσ)).bind fun _ => ?_
  exact (Moves.eat .semicolon).bind_same fun _ => .pure rfl

include hg

theorem programStatements_moves (bound : Nat) :
    Moves σ (List.map (Stmt.moved σ)) (programStatements g bound)
      (programStatements g bound) := by
  induction bound with
  | zero => exact .pure rfl
  | succ bound ih =>
    refine Moves.peek?.bind fun o => ?_
    cases o with
    | none => exact .pure rfl
    | some t =>
      obtain ⟨kind, lexeme, position⟩ := t
      have hstatement : Moves σ (List.map (Stmt.moved σ))
          (do let statement ← g.statement; return statement :: (← programStatements g bound))
          (do let statement ← g.statement; return statement :: (← programStatements g bound)) :=
        hg.statement.bind fun _ => ih.map fun _ => rfl
      cases kind with
      | endOfInput => exact .pure rfl
      | symbol sign =>
        cases sign with
        | semicolon => exact Moves.skip.bind fun _ => ih
        | _ => exact hstatement
      | keyword word =>
        cases word with
        | interfaceWord => exact (interface_moves hσ).bind fun _ => ih.map fun _ => rfl
        | exportWord => exact (exports_moves hσ).bind_same fun _ => ih
        | _ => exact hstatement
      | _ => exact hstatement

omit hg

theorem program_moves : Moves σ (Program.moved σ) program program := by
  refine Moves.remaining.bind_same fun n => ?_
  refine (programStatements_moves hσ (upTo_carries hσ _) n).map fun statements => ?_
  rw [Program.moved, movedRow_eq]

end Statements

end Grammar

/-! ### Programs -/

/-- Tokens moved elsewhere make up the same program or are blamed for the same fault,
moved with them. -/
theorem Program.ofTokens?_moved (hσ : σ .start = .start) (tokens : List Token) :
    Program.ofTokens? (tokens.map (Token.moved σ)) =
      ((Program.ofTokens? tokens).map (Program.moved σ)).mapError (Fault.moved σ) := by
  have hmoves : Grammar.program ⟨tokens.map (Token.moved σ), 0⟩ = _ :=
    Grammar.program_moves hσ ⟨tokens, 0⟩
  unfold Program.ofTokens? Parser.run
  rw [hmoves]
  cases Grammar.program ⟨tokens, 0⟩ <;> rfl

/-- A program or a fault with all its positions forgotten. -/
def unplaced (outcome : Except ParseFault Program) : Except ParseFault Program :=
  (outcome.map (Program.moved fun _ => .start)).mapError (Fault.moved fun _ => .start)

theorem unplaced_ofTokens? (tokens : List Token) :
    unplaced (Program.ofTokens? tokens) =
      Program.ofTokens? (tokens.map (Token.moved fun _ => .start)) :=
  (Program.ofTokens?_moved (fun _ => .start) rfl tokens).symm

end TypedScript
