import TypedScript.Proofs.Levels

/-!
# How deep a tree may be

The nesting of a tree is the largest number of nodes that nest on a path from its root:
operations, updates, assignments, calls, properties, object literals, functions, types that
are no names, and statements with a body. A parser may open `maxNesting` levels inside each
other, but a level does not bound one node. An operator, a call, a property and an update
behind its target are nodes around what was read before they opened a level, or without
opening one: a chain may go on to be the first operand of another chain, which has all the
levels of the first one again. In a type, one level holds up to four nodes.

How often a path leans on a part that was read before is the leaning of the tree. But for
it, a level is open for each node, so that the nesting is at most `maxNesting` more than the
leaning. In any case it is bounded by `reach`, the nesting that can be reached with so many
levels (`Program.nesting_le`).
-/

namespace TypedScript

/-! ## The nesting of a tree -/

mutual

/-- The largest number of nesting nodes on a path through a type. -/
@[simp] def TypeExpr.nesting : TypeExpr → Nat
  | .named _ _ => 0
  | .object members _ => nestingOfMembers members + 1
  | .function params result _ => max (nestingOfParams params) result.nesting + 1
  | .union members _ => nestingOfTypes members + 1
  | .intersection members _ => nestingOfTypes members + 1

@[simp] def nestingOfTypes : List TypeExpr → Nat
  | [] => 0
  | type :: rest => max type.nesting (nestingOfTypes rest)

@[simp] def Member.nesting : Member → Nat
  | ⟨_, type, _, _⟩ => type.nesting

@[simp] def nestingOfMembers : List Member → Nat
  | [] => 0
  | member :: rest => max member.nesting (nestingOfMembers rest)

@[simp] def Parameter.nesting : Parameter → Nat
  | ⟨_, none, _, _⟩ => 0
  | ⟨_, some type, _, _⟩ => type.nesting

@[simp] def nestingOfParams : List Parameter → Nat
  | [] => 0
  | param :: rest => max param.nesting (nestingOfParams rest)

end

/-- The nesting of a type that may be left out. -/
@[simp] def nestingOfType? (type? : Option TypeExpr) : Nat :=
  type?.elim 0 TypeExpr.nesting

mutual

/-- The largest number of nesting nodes on a path through an expression. -/
@[simp] def Expr.nesting : Expr → Nat
  | .literal _ _ => 0
  | .reference _ _ => 0
  | .receiver _ => 0
  | .unary _ operand _ => operand.nesting + 1
  | .binary left _ right _ => max left.nesting right.nesting + 1
  | .assign target _ value _ => max target.nesting value.nesting + 1
  | .update target _ _ _ => target.nesting + 1
  | .call callee arguments _ => max callee.nesting (nestingOfExprs arguments) + 1
  | .member object _ _ => object.nesting + 1
  | .object fields _ => nestingOfFields fields + 1
  | .function definition => definition.nesting + 1

@[simp] def nestingOfExprs : List Expr → Nat
  | [] => 0
  | e :: rest => max e.nesting (nestingOfExprs rest)

@[simp] def nestingOfExpr? : Option Expr → Nat
  | none => 0
  | some e => e.nesting

@[simp] def Field.nesting : Field → Nat
  | ⟨_, value, _⟩ => value.nesting

@[simp] def nestingOfFields : List Field → Nat
  | [] => 0
  | field :: rest => max field.nesting (nestingOfFields rest)

/-- The same for the parts of a function, without the function itself. -/
@[simp] def Function.nesting : Function → Nat
  | ⟨_, params, result?, body, _⟩ =>
    max (max (nestingOfParams params) (nestingOfType? result?)) body.nesting

@[simp] def Block.nesting : Block → Nat
  | ⟨statements, _⟩ => nestingOfRow statements

/-- The largest number of nesting nodes on a path through a statement. -/
@[simp] def Stmt.nesting : Stmt → Nat
  | .variable _ type? value? _ => max (nestingOfType? type?) (nestingOfExpr? value?)
  | .function definition => definition.nesting + 1
  | .interface declaration => nestingOfMembers declaration.members
  | .expression e _ => e.nesting
  | .giveBack value? _ => nestingOfExpr? value?
  | .branch condition body otherwise? _ =>
    max (max condition.nesting body.nesting) (nestingOfStmt? otherwise?) + 1
  | .block b => b.nesting + 1
  | .loop init? condition? update? body _ =>
    max (max (nestingOfStmt? init?) (max (nestingOfExpr? condition?) (nestingOfExpr? update?)))
      body.nesting + 1
  | .repeatWhile condition body _ => max condition.nesting body.nesting + 1

@[simp] def nestingOfStmt? : Option Stmt → Nat
  | none => 0
  | some s => s.nesting

@[simp] def nestingOfRow : List Stmt → Nat
  | [] => 0
  | s :: rest => max s.nesting (nestingOfRow rest)

end

/-- The largest number of nesting nodes on a path through a program. -/
def Program.nesting (program : Program) : Nat :=
  nestingOfRow program.statements

/-! ## How far a tree leans on parts that were read before -/

/-- What a part adds to the leaning of the node around it if the node had no level open while
the part was read. A part that does not nest adds nothing, as the path ends with it. -/
def leanOn (nesting leaning : Nat) : Nat :=
  if nesting = 0 then 0 else leaning + 1

/-- Whether a type is that of a function. -/
def TypeExpr.isFunction : TypeExpr → Bool
  | .function _ _ _ => true
  | _ => false

mutual

/-- The largest number of nodes on a path through a type that share the level of the node
above them: the members of chains, and methods. -/
@[simp] def TypeExpr.leaning : TypeExpr → Nat
  | .named _ _ => 0
  | .object members _ => leaningOfMembers members
  | .function params result _ => max (leaningOfParams params) result.leaning
  | .union members _ => leaningOfChain members
  | .intersection members _ => leaningOfChain members

@[simp] def leaningOfChain : List TypeExpr → Nat
  | [] => 0
  | type :: rest => max (leanOn type.nesting type.leaning) (leaningOfChain rest)

@[simp] def Member.leaning : Member → Nat
  | ⟨_, type, _, _⟩ => if type.isFunction then type.leaning + 1 else type.leaning

@[simp] def leaningOfMembers : List Member → Nat
  | [] => 0
  | member :: rest => max member.leaning (leaningOfMembers rest)

@[simp] def Parameter.leaning : Parameter → Nat
  | ⟨_, none, _, _⟩ => 0
  | ⟨_, some type, _, _⟩ => type.leaning

@[simp] def leaningOfParams : List Parameter → Nat
  | [] => 0
  | param :: rest => max param.leaning (leaningOfParams rest)

end

/-- The leaning of a type that may be left out. -/
@[simp] def leaningOfType? (type? : Option TypeExpr) : Nat :=
  type?.elim 0 TypeExpr.leaning

mutual

/-- The largest number of nodes on a path through an expression that the path enters through
a part read before: the left operand of an operator, what is called, the object of a
property, and the target of an update behind it. -/
@[simp] def Expr.leaning : Expr → Nat
  | .literal _ _ => 0
  | .reference _ _ => 0
  | .receiver _ => 0
  | .unary _ operand _ => operand.leaning
  | .binary left _ right _ => max (leanOn left.nesting left.leaning) right.leaning
  | .assign target _ value _ => max target.leaning value.leaning
  | .update target _ true _ => target.leaning
  | .update target _ false _ => leanOn target.nesting target.leaning
  | .call callee arguments _ =>
    max (leanOn callee.nesting callee.leaning) (leaningOfExprs arguments)
  | .member object _ _ => leanOn object.nesting object.leaning
  | .object fields _ => leaningOfFields fields
  | .function definition => definition.leaning

@[simp] def leaningOfExprs : List Expr → Nat
  | [] => 0
  | e :: rest => max e.leaning (leaningOfExprs rest)

@[simp] def leaningOfExpr? : Option Expr → Nat
  | none => 0
  | some e => e.leaning

@[simp] def Field.leaning : Field → Nat
  | ⟨_, value, _⟩ => value.leaning

@[simp] def leaningOfFields : List Field → Nat
  | [] => 0
  | field :: rest => max field.leaning (leaningOfFields rest)

@[simp] def Function.leaning : Function → Nat
  | ⟨_, params, result?, body, _⟩ =>
    max (max (leaningOfParams params) (leaningOfType? result?)) body.leaning

@[simp] def Block.leaning : Block → Nat
  | ⟨statements, _⟩ => leaningOfRow statements

@[simp] def Stmt.leaning : Stmt → Nat
  | .variable _ type? value? _ => max (leaningOfType? type?) (leaningOfExpr? value?)
  | .function definition => definition.leaning
  | .interface declaration => leaningOfMembers declaration.members
  | .expression e _ => e.leaning
  | .giveBack value? _ => leaningOfExpr? value?
  | .branch condition body otherwise? _ =>
    max (max condition.leaning body.leaning) (leaningOfStmt? otherwise?)
  | .block b => b.leaning
  | .loop init? condition? update? body _ =>
    max (max (leaningOfStmt? init?) (max (leaningOfExpr? condition?) (leaningOfExpr? update?)))
      body.leaning
  | .repeatWhile condition body _ => max condition.leaning body.leaning

@[simp] def leaningOfStmt? : Option Stmt → Nat
  | none => 0
  | some s => s.leaning

@[simp] def leaningOfRow : List Stmt → Nat
  | [] => 0
  | s :: rest => max s.leaning (leaningOfRow rest)

end

/-- The largest number of nodes on a path through a program that the path enters through a
part for which they had no level open. -/
def Program.leaning (program : Program) : Nat :=
  leaningOfRow program.statements

/-! ## Bounds on the nesting -/

/-- A nesting is bounded in any case, and by a number of levels but for the leaning. -/
abbrev Within (bound levels nesting leaning : Nat) : Prop :=
  nesting ≤ bound ∧ nesting ≤ levels + leaning

/-- A node around a part that leans has one level for itself. -/
theorem le_add_leanOn {nesting leaning levels : Nat} (h : nesting ≤ levels + 1 + leaning) :
    nesting ≤ levels + leanOn nesting leaning := by
  unfold leanOn
  split <;> omega

/-- What bounds each member of a list bounds the list. -/
theorem fold_within {α : Type} {f h : α → Nat} {g k : List α → Nat} {bound levels : Nat}
    (hg : g [] = 0) (hgs : ∀ a l, g (a :: l) = max (f a) (g l))
    (hk : k [] = 0) (hks : ∀ a l, k (a :: l) = max (h a) (k l)) {l : List α}
    (hl : ∀ a ∈ l, Within bound levels (f a) (h a)) : Within bound levels (g l) (k l) := by
  induction l with
  | nil => omega
  | cons a l ih =>
    have hfirst := hl a (List.mem_cons_self ..)
    have hrest := ih fun b hb => hl b (List.mem_cons_of_mem a hb)
    rw [hgs, hks]
    omega

section Lists

variable {bound levels : Nat}

theorem nestingOfTypes_within {l : List TypeExpr}
    (h : ∀ type ∈ l, Within bound (levels + 1) type.nesting type.leaning) :
    Within bound levels (nestingOfTypes l) (leaningOfChain l) :=
  fold_within (by simp) (by simp) (by simp) (by simp)
    fun type htype => ⟨(h type htype).1, le_add_leanOn (h type htype).2⟩

theorem nestingOfParams_within {l : List Parameter}
    (h : ∀ param ∈ l, Within bound levels param.nesting param.leaning) :
    Within bound levels (nestingOfParams l) (leaningOfParams l) :=
  fold_within (by simp) (by simp) (by simp) (by simp) h

theorem nestingOfExprs_within {l : List Expr}
    (h : ∀ e ∈ l, Within bound levels e.nesting e.leaning) :
    Within bound levels (nestingOfExprs l) (leaningOfExprs l) :=
  fold_within (by simp) (by simp) (by simp) (by simp) h

theorem nestingOfFields_within {l : List Field}
    (h : ∀ field ∈ l, Within bound levels field.nesting field.leaning) :
    Within bound levels (nestingOfFields l) (leaningOfFields l) :=
  fold_within (by simp) (by simp) (by simp) (by simp) h

end Lists

/-- The nesting of an expression, together with an update or assignment if it is a place. -/
def Expr.extent (e : Expr) : Nat :=
  if e.isPlace then e.nesting + 1 else e.nesting

theorem Expr.nesting_le_extent (e : Expr) : e.nesting ≤ e.extent := by
  unfold extent
  split <;> omega

theorem Expr.extent_le (e : Expr) : e.extent ≤ e.nesting + 1 := by
  unfold extent
  split <;> omega

theorem Expr.nesting_lt_extent {e : Expr} (h : e.isPlace = true) : e.nesting < e.extent := by
  rw [extent, if_pos h]
  omega

theorem Expr.extent_of_not_isPlace {e : Expr} (h : e.isPlace = false) : e.extent = e.nesting := by
  rw [extent, if_neg (by simp [h])]

namespace Grammar

open TypedScript.Parser

/-! ## Types -/

section Types

variable {levels n : Nat} {inner : Parser TypeExpr}
  (hinner : YieldsAt levels inner fun type => Within n levels type.nesting type.leaning)

include hinner

theorem typeMark_yieldsAt : YieldsAt levels (typeMark inner) fun type? =>
    Within n levels (nestingOfType? type?) (leaningOfType? type?) := by
  refine .after (.eat _) fun marked => ?_
  split
  · exact hinner.bind fun _ htype => .pure htype
  · exact .pure ⟨Nat.zero_le _, Nat.zero_le _⟩

theorem parameters_yieldsAt : YieldsAt levels (parameters inner) fun params =>
    Within n levels (nestingOfParams params) (leaningOfParams params) := by
  have hparam : YieldsAt levels (parameter inner) fun param =>
      Within n levels param.nesting param.leaning := by
    refine .after .identifier fun name => .after (.eat _) fun isOptional => ?_
    refine (typeMark_yieldsAt hinner).bind fun type? htype => .pure ?_
    cases type? with
    | none => simp [Within]
    | some type => simpa using htype
  exact .after (.expect _ _) fun _ =>
    (commaSeparated_yieldsAt hparam _).mono fun _ => nestingOfParams_within

theorem functionType_yieldsAt : YieldsAt levels (functionType inner) fun type =>
    Within (n + 1) (levels + 1) type.nesting type.leaning := by
  refine .after .position fun _ => (parameters_yieldsAt hinner).bind fun params hparams =>
    .after (.expect _ _) fun _ => hinner.bind fun result hresult => .pure ?_
  -- the level of the type around it is that of this node
  rw [TypeExpr.nesting, TypeExpr.leaning]
  omega

/-- A method is one level of the tree, though it opens none. -/
theorem member_yieldsAt : YieldsAt levels (member inner) fun member =>
    Within (n + 1) levels member.nesting member.leaning := by
  refine .after .propertyName fun name => .after (.eat _) fun _ => .after (.sees _) fun opens => ?_
  split
  · refine .after .position fun start => (parameters_yieldsAt hinner).bind fun params hparams =>
      (typeMark_yieldsAt hinner).bind fun result? hresult => .pure ?_
    -- a result that is not written is a name
    have hresult' : Within n levels (result?.getD (.named "any" name.2)).nesting
        (result?.getD (.named "any" name.2)).leaning := by
      cases result? with
      | none => simp [Within]
      | some result => exact hresult
    simp only [Member.nesting, Member.leaning, TypeExpr.isFunction, ↓reduceIte, TypeExpr.nesting,
      TypeExpr.leaning]
    omega
  · refine .after (.expect _ _) fun _ => hinner.bind fun type htype => .pure ?_
    rw [Member.nesting, Member.leaning]
    split <;> omega

theorem members_yieldsAt : YieldsAt levels (members inner) fun members =>
    Within (n + 1) levels (nestingOfMembers members) (leaningOfMembers members) := by
  have hbound : ∀ bound, YieldsAt levels (membersUntilBrace inner bound) fun members =>
      Within (n + 1) levels (nestingOfMembers members) (leaningOfMembers members) := by
    intro bound
    induction bound with
    | zero => exact .throw _
    | succ bound ih =>
      have hrest : ∀ first : Member, Within (n + 1) levels first.nesting first.leaning →
          YieldsAt levels (membersUntilBrace inner bound >>= fun rest => pure (first :: rest))
            fun members =>
              Within (n + 1) levels (nestingOfMembers members) (leaningOfMembers members) := by
        refine fun first hfirst => ih.bind fun rest hrest => .pure ?_
        rw [nestingOfMembers, leaningOfMembers]
        omega
      refine .after (.eat _) fun closes => ?_
      split
      · exact .pure (by simp [Within])
      · refine (member_yieldsAt hinner).bind fun first hfirst => .after (.eat _) fun ends => ?_
        split
        · exact hrest first hfirst
        · exact .after (.eat _) fun _ => hrest first hfirst
  exact .after .remaining fun _ => hbound _

theorem primaryType_yieldsAt : YieldsAt levels (primaryType inner) fun type =>
    Within (n + 2) (levels + 1) type.nesting type.leaning := by
  have hnamed : ∀ name position, YieldsAt levels (do
      skip
      return TypeExpr.named name position) fun type =>
        Within (n + 2) (levels + 1) type.nesting type.leaning :=
    fun name position => .after .skip fun _ => .pure (by simp [Within])
  refine .after .peek? fun t? => ?_
  split
  · exact .throw _
  · split
    · exact hnamed _ _
    · exact hnamed _ _
    · exact hnamed _ _
    · refine .after .skip fun _ => (members_yieldsAt hinner).bind fun l hl => .pure ?_
      rw [TypeExpr.nesting, TypeExpr.leaning]
      omega
    · refine .after (.after .get fun _ => .pure trivial) fun isFunction => ?_
      split
      · exact (functionType_yieldsAt hinner).mono fun _ h => by omega
      · exact .after .skip fun _ => hinner.bind fun type htype =>
          .after (.expect _ _) fun _ => .pure (by omega)
    · exact .throw _

omit hinner in
/-- A chain is one node more than its members, and a chain of one is that member. -/
theorem collapse_within {build : List TypeExpr → Position → TypeExpr}
    (hnesting : ∀ l position, (build l position).nesting = nestingOfTypes l + 1)
    (hleaning : ∀ l position, (build l position).leaning = leaningOfChain l) {l : List TypeExpr}
    (hl : ∀ type ∈ l, Within n (levels + 1) type.nesting type.leaning) (position : Position) :
    Within (n + 1) (levels + 1) (collapse build l position).nesting
      (collapse build l position).leaning := by
  have hmany := nestingOfTypes_within hl
  unfold collapse
  split
  · -- the only member stands for the chain, and has its level for itself
    next only =>
    have honly := hl only (List.mem_singleton_self only)
    omega
  · rw [hnesting, hleaning]
    omega

theorem intersectionType_yieldsAt : YieldsAt levels (intersectionType inner) fun type =>
    Within (n + 3) (levels + 1) type.nesting type.leaning :=
  .after .position fun position =>
    (separatedBy_yieldsAt (primaryType_yieldsAt hinner) _).bind fun _ hl =>
      .pure (collapse_within (by simp) (by simp) hl position)

theorem unionType_yieldsAt : YieldsAt (levels + 1) (unionType inner) fun type =>
    Within (n + 4) (levels + 1) type.nesting type.leaning :=
  .after .position fun position => .nested
    ((separatedBy_yieldsAt (intersectionType_yieldsAt hinner) _).bind fun _ hl =>
      .pure (collapse_within (by simp) (by simp) hl position)) position

end Types

theorem typeUpTo_yieldsAt (limit : Nat) : ∀ levels, YieldsAt levels (typeUpTo limit) fun type =>
    Within (4 * levels) levels type.nesting type.leaning := by
  induction limit with
  | zero => exact fun _ => .outOfLevels
  | succ limit ih =>
    intro levels
    cases levels with
    | zero => exact .after .position fun _ => .nested_zero _ _
    | succ levels => exact unionType_yieldsAt (ih levels)

theorem typeExpr_yieldsAt (levels : Nat) : YieldsAt levels typeExpr fun type =>
    Within (4 * levels) levels type.nesting type.leaning :=
  typeUpTo_yieldsAt _ levels

/-! ## Expressions -/

/-- The nesting that can be reached with so many levels left. The first two values are those
of types, with four nodes for each level. An expression opens two levels before its first
operand, of which the parts are read with one more; the trailers of that operand and the six
chains of operators around it have all other levels anew, each in its turn. -/
def reach : Nat → Nat
  | 0 => 0
  | 1 => 4
  | 2 => 8
  | n + 3 => reach (n + 1) + 7 * n + 9

theorem reach_add_four_le (n : Nat) : reach n + 4 ≤ reach (n + 1) := by
  induction n using reach.induct with
  | case1 => decide
  | case2 => decide
  | case3 => decide
  | case4 n ih =>
    rw [reach, reach]
    omega

theorem reach_mono {m n : Nat} (h : m ≤ n) : reach m ≤ reach n := by
  induction h with
  | refl => exact Nat.le_refl _
  | step _ ih => exact Nat.le_trans (Nat.le_add_right_of_le ih) (reach_add_four_le _)

theorem four_mul_le_reach (n : Nat) : 4 * n ≤ reach n := by
  induction n with
  | zero => decide
  | succ n ih => exact Nat.le_trans (Nat.add_le_add_right ih 4) (reach_add_four_le n)

/-- The nesting that an operand of the operators reaches behind so many chains of them. -/
def operandReach (chains levels : Nat) : Nat :=
  reach (levels - 1) + levels + 1 + chains * (levels - 1)

theorem operandReach_le_succ (chains levels : Nat) :
    operandReach chains levels ≤ operandReach chains (levels + 1) := by
  have hreach : reach (levels - 1) ≤ reach levels := reach_mono (Nat.sub_le levels 1)
  have hchains : chains * (levels - 1) ≤ chains * levels :=
    Nat.mul_le_mul_left chains (Nat.sub_le levels 1)
  unfold operandReach
  rw [Nat.add_sub_cancel]
  omega

/-- All six chains of operators are within the reach of an expression. -/
theorem operandReach_six_le {levels : Nat} (h : 0 < levels) :
    operandReach 6 levels ≤ reach (levels + 1) := by
  match levels, h with
  | 1, _ => decide
  | n + 2, _ =>
    unfold operandReach
    rw [reach]
    simp only [Nat.add_succ_sub_one]
    omega

/-- What is read with so many levels left stays within reach, and has a level for each node
but for the leaning. An operand takes a level at least, and if it is a place, an update or
assignment around it is within its bound as well. A conditional has the level of the
statement around it besides its own. -/
structure IsBounded (g : Grammar) : Prop where
  expression : ∀ levels, YieldsAt levels g.expression fun e =>
    Within (reach levels) levels e.nesting e.leaning
  unary : ∀ levels, YieldsAt levels g.unary fun e =>
    0 < levels ∧ e.extent ≤ operandReach 0 levels ∧ e.nesting ≤ levels + e.leaning
  statement : ∀ levels, YieldsAt levels g.statement fun s =>
    Within (reach levels) levels s.nesting s.leaning
  conditional : ∀ position levels, YieldsAt levels (g.conditional position) fun s =>
    Within (reach levels) (levels + 1) s.nesting s.leaning

/-! ### Operators -/

theorem operatorAhead?_yieldsAt (levels : Nat) (accepts : BinaryOp → Bool) :
    YieldsAt levels (operatorAhead? accepts) fun _ => True := by
  refine .after .peek? fun t? => ?_
  split
  · split
    · split
      · exact .pure trivial
      · exact .pure trivial
    · exact .pure trivial
  · exact .pure trivial

theorem requirePlace_yieldsAt (levels : Nat) (target : Expr) :
    YieldsAt levels (requirePlace target) fun _ => target.isPlace = true := by
  unfold requirePlace
  split
  · next hplace => exact .pure hplace
  · exact .throw _

section Operators

variable {operand : Parser Expr} {chains : Nat} (hoperand : ∀ levels, YieldsAt levels operand
  fun e => 0 < levels ∧ e.extent ≤ operandReach chains levels ∧ e.nesting ≤ levels + e.leaning)

include hoperand

/-- Each operator takes one level and is one node more around what stands to its left. Here `n`
bounds what has been read so far. Where the chain began, `most + 1` levels were left. -/
theorem operations_yieldsAt (accepts : BinaryOp → Bool) {most : Nat} (bound : Nat) :
    ∀ (levels n : Nat) (left : Expr), left.extent ≤ n → operandReach chains levels ≤ n →
      left.nesting ≤ most + 1 + left.leaning → levels ≤ most + 1 →
      YieldsAt levels (operations accepts operand bound left) fun e =>
        e.extent ≤ n + (levels - 1) ∧ e.nesting ≤ most + 1 + e.leaning := by
  induction bound with
  | zero => exact fun levels n left hleft _ hlean _ => .pure ⟨Nat.le_add_right_of_le hleft, hlean⟩
  | succ bound ih =>
    intro levels n left hleft hn hlean hlevels
    refine .after (operatorAhead?_yieldsAt _ _) fun ahead? => ?_
    cases ahead? with
    | none => exact .pure ⟨Nat.le_add_right_of_le hleft, hlean⟩
    | some ahead =>
      obtain ⟨op, position⟩ := ahead
      cases levels with
      | zero => exact .nested_zero _ _
      | succ levels =>
        refine .nested (.after .skip fun _ => (hoperand levels).bind fun right hright => ?_) _
        -- the operand to the right is read with less levels than what stands to the left was
        have hle := operandReach_le_succ chains levels
        have hnode : (Expr.binary left op right position).extent ≤ n + 1 := by
          have hleft' := left.nesting_le_extent
          have hright' := right.nesting_le_extent
          rw [Expr.extent_of_not_isPlace rfl, Expr.nesting]
          omega
        -- what stands to the left was read without the level of this operator
        have hlean' : (Expr.binary left op right position).nesting ≤
            most + 1 + (Expr.binary left op right position).leaning := by
          have hleft' := le_add_leanOn hlean
          rw [Expr.nesting, Expr.leaning]
          omega
        exact (ih levels (n + 1) _ hnode (by omega) hlean' (by omega)).mono fun e he =>
          ⟨by omega, he.2⟩

theorem leftAssociative_yieldsAt (accepts : BinaryOp → Bool) (levels : Nat) :
    YieldsAt levels (leftAssociative accepts operand) fun e => 0 < levels ∧
      e.extent ≤ operandReach (chains + 1) levels ∧ e.nesting ≤ levels + e.leaning := by
  refine (hoperand levels).bind fun left hleft => .after .remaining fun _ => ?_
  obtain ⟨hlevels, hextent, hlean⟩ := hleft
  obtain ⟨most, rfl⟩ : ∃ most, levels = most + 1 := ⟨levels - 1, by omega⟩
  refine (operations_yieldsAt hoperand accepts _ (most + 1) _ left hextent (Nat.le_refl _) hlean
    (Nat.le_refl _)).mono fun e he => ⟨hlevels, ?_, he.2⟩
  unfold operandReach at he ⊢
  rw [Nat.succ_mul]
  omega

end Operators

section Rules

variable {g : Grammar} (hg : g.IsBounded)

include hg

theorem disjunction_yieldsAt (levels : Nat) : YieldsAt levels g.disjunction fun e =>
    0 < levels ∧ e.extent ≤ operandReach 6 levels ∧ e.nesting ≤ levels + e.leaning :=
  leftAssociative_yieldsAt (leftAssociative_yieldsAt (leftAssociative_yieldsAt
    (leftAssociative_yieldsAt (leftAssociative_yieldsAt (leftAssociative_yieldsAt
      hg.unary _) _) _) _) _) _ levels

theorem assignmentRule_yieldsAt (levels : Nat) : YieldsAt levels g.assignmentRule fun e =>
    Within (reach levels) levels e.nesting e.leaning := by
  refine .after .position fun _ => ?_
  cases levels with
  | zero => exact .nested_zero _ _
  | succ levels =>
    refine .nested ((disjunction_yieldsAt hg levels).bind fun target htarget =>
      .after .peek? fun t? => ?_) _
    have hle := operandReach_six_le htarget.1
    have halone : YieldsAt levels (pure target : Parser Expr) fun e =>
        Within (reach (levels + 1)) (levels + 1) e.nesting e.leaning := by
      have hextent := target.nesting_le_extent
      exact .pure (by omega)
    split
    · split
      · split
        · refine .after .skip fun _ => (requirePlace_yieldsAt _ _).bind fun _ hplace => ?_
          refine (hg.expression levels).bind fun value hvalue => .pure ?_
          -- the bound on the target has room for the assignment, as the target is a place
          have hplaced := Expr.nesting_lt_extent hplace
          have hdeeper := reach_add_four_le levels
          rw [Expr.nesting, Expr.leaning]
          omega
        · exact halone
      · exact halone
    · exact halone

theorem block_yieldsAt (levels : Nat) : YieldsAt levels g.block fun b =>
    Within (reach levels) levels b.nesting b.leaning := by
  have hrow : ∀ bound, YieldsAt levels (g.statementsUntilBrace bound) fun l =>
      Within (reach levels) levels (nestingOfRow l) (leaningOfRow l) := by
    intro bound
    induction bound with
    | zero => exact .throw _
    | succ bound ih =>
      -- statements side by side do not add up: the row is as deep as the deepest of them
      have hfirst : YieldsAt levels (do
          let first ← g.statement
          return first :: (← g.statementsUntilBrace bound)) fun l =>
            Within (reach levels) levels (nestingOfRow l) (leaningOfRow l) := by
        refine (hg.statement levels).bind fun first hfirst => ih.bind fun rest hrest => .pure ?_
        rw [nestingOfRow, leaningOfRow]
        omega
      refine .after (.eat _) fun closes => ?_
      split
      · exact .pure (by simp [Within])
      · refine .after (.eat _) fun passes => ?_
        split
        · exact ih
        · refine .after .peek? fun t? => ?_
          split
          · split
            · exact .throw_bind _ _
            · exact hfirst
          · exact hfirst
  refine .after (.expect _ _) fun t => .after .remaining fun _ => (hrow _).bind fun l hl => .pure ?_
  rw [Block.nesting, Block.leaning]
  exact hl

theorem function_yieldsAt (levels : Nat) : YieldsAt levels g.function fun f =>
    Within (reach levels) levels f.nesting f.leaning := by
  have hname : YieldsAt levels optionalName fun _ => True := by
    refine .after .peek? fun t? => ?_
    split
    · split
      · exact .after .skip fun _ => .pure trivial
      · exact .pure trivial
    · exact .pure trivial
  refine .after (.expectWord _) fun t => .after hname fun name? => ?_
  refine (parameters_yieldsAt (typeExpr_yieldsAt levels)).bind fun params hparams => ?_
  refine (typeMark_yieldsAt (typeExpr_yieldsAt levels)).bind fun result? hresult => ?_
  refine (block_yieldsAt hg levels).bind fun body hbody => .pure ?_
  -- the annotations are read with the levels that the body has
  have htypes := four_mul_le_reach levels
  rw [Function.nesting, Function.leaning]
  omega

theorem field_yieldsAt (levels : Nat) : YieldsAt levels g.field fun field =>
    Within (reach levels) levels field.nesting field.leaning := by
  refine .after .propertyName fun name => .after (.expect _ _) fun _ =>
    (hg.expression levels).bind fun value hvalue => .pure ?_
  rw [Field.nesting, Field.leaning]
  exact hvalue

theorem primary_yieldsAt (levels : Nat) : YieldsAt levels g.primary fun e =>
    Within (reach levels + 1) (levels + 1) e.nesting e.leaning := by
  have hleaf : ∀ {e : Expr}, e.nesting = 0 → YieldsAt levels (do
      skip
      return e) fun e => Within (reach levels + 1) (levels + 1) e.nesting e.leaning :=
    fun he => .after .skip fun _ => .pure (by omega)
  refine .after .peek? fun t? => ?_
  split
  · exact .throw _
  · dsimp only
    split
    -- five kinds of literals, names and the receiver
    iterate 7
      · exact hleaf (by rw [Expr.nesting])
    · exact .after .skip fun _ => (hg.expression levels).bind fun inner hinner =>
        .after (.expect _ _) fun _ => .pure (by omega)
    · refine .after .skip fun _ => (commaSeparated_yieldsAt (field_yieldsAt hg levels) _).bind
        fun fields hfields => .pure ?_
      have hall := nestingOfFields_within hfields
      rw [Expr.nesting, Expr.leaning]
      omega
    · refine (function_yieldsAt hg levels).bind fun f hf => .pure ?_
      rw [Expr.nesting, Expr.leaning]
      omega
    · exact .throw _

/-- Each call or property takes one level and is one node more around what stands to its
left. An update takes none. -/
theorem trailers_yieldsAt {most : Nat} (bound : Nat) : ∀ (levels n : Nat) (base : Expr),
    base.nesting ≤ n → reach levels ≤ n → base.nesting ≤ most + 1 + base.leaning → levels ≤ most →
    YieldsAt levels (g.trailers bound base) fun e =>
      e.extent ≤ n + levels + 1 ∧ e.nesting ≤ most + 1 + e.leaning := by
  have hnone : ∀ {levels n : Nat} {base : Expr}, base.nesting ≤ n →
      base.nesting ≤ most + 1 + base.leaning →
      YieldsAt levels (pure base : Parser Expr) fun e =>
        e.extent ≤ n + levels + 1 ∧ e.nesting ≤ most + 1 + e.leaning := by
    intro levels n base hbase hlean
    have hle := base.extent_le
    exact .pure ⟨by omega, hlean⟩
  induction bound with
  | zero => exact fun levels n base hbase _ hlean _ => hnone hbase hlean
  | succ bound ih =>
    intro levels n base hbase hn hlean hlevels
    -- what stands to the left was read without the level of this trailer
    have hbase' := le_add_leanOn hlean
    -- one node more and one level less
    have hdeeper : ∀ {levels : Nat} {e : Expr}, e.nesting ≤ n + 1 → reach levels ≤ n →
        e.nesting ≤ most + 1 + e.leaning → levels ≤ most →
        YieldsAt levels (g.trailers bound e) fun e =>
          e.extent ≤ n + (levels + 1) + 1 ∧ e.nesting ≤ most + 1 + e.leaning :=
      fun {levels e} he hn hlean hlevels =>
        (ih levels (n + 1) e he (by omega) hlean hlevels).mono fun _ h => ⟨by omega, h.2⟩
    refine .after .peek? fun t? => ?_
    split
    · exact hnone hbase hlean
    · split
      · cases levels with
        | zero => exact .nested_zero _ _
        | succ levels =>
          have hle := reach_add_four_le levels
          refine .nested (.after .skip fun _ => (commaSeparated_yieldsAt (hg.expression levels)
            _).bind fun arguments harguments => ?_) _
          have hall := nestingOfExprs_within harguments
          refine hdeeper ?_ (by omega) ?_ (by omega)
          · rw [Expr.nesting]
            omega
          · rw [Expr.nesting, Expr.leaning]
            omega
      · cases levels with
        | zero => exact .nested_zero _ _
        | succ levels =>
          have hle := reach_add_four_le levels
          refine .nested (.after .skip fun _ => .after .propertyName fun property => ?_) _
          refine hdeeper ?_ (by omega) ?_ (by omega)
          · rw [Expr.nesting]
            omega
          · rw [Expr.nesting, Expr.leaning]
            omega
      · split
        · -- an update is no place, so nothing more can be put around it
          refine .after .skip fun _ => .after ((requirePlace_yieldsAt _ _).mono fun _ _ => trivial)
            fun _ => .pure ?_
          rw [Expr.extent_of_not_isPlace rfl, Expr.nesting, Expr.leaning]
          omega
        · exact hnone hbase hlean
      · exact hnone hbase hlean

theorem unaryRule_yieldsAt (levels : Nat) : YieldsAt levels g.unaryRule fun e =>
    0 < levels ∧ e.extent ≤ operandReach 0 levels ∧ e.nesting ≤ levels + e.leaning := by
  refine .after .peek? fun t? => ?_
  split
  · exact .throw _
  · cases levels with
    | zero => exact .nested_zero _ _
    | succ levels =>
      have hsame : operandReach 0 (levels + 1) = reach levels + levels + 2 := by
        unfold operandReach
        rw [Nat.add_sub_cancel]
        omega
      have htrailed : YieldsAt levels (do
          let base ← g.primary
          g.trailers (← remaining) base) fun e => 0 < levels + 1 ∧
            e.extent ≤ operandReach 0 (levels + 1) ∧ e.nesting ≤ levels + 1 + e.leaning := by
        refine (primary_yieldsAt hg levels).bind fun base hbase => .after .remaining fun _ => ?_
        exact (trailers_yieldsAt hg _ levels _ base hbase.1 (by omega) hbase.2
          (Nat.le_refl _)).mono fun e he => ⟨by omega, by omega, he.2⟩
      -- a prefix adds one level, and its operand is read with one level less
      have hdeeper : operandReach 0 levels < operandReach 0 (levels + 1) := by
        have hreach : reach (levels - 1) ≤ reach levels := reach_mono (Nat.sub_le levels 1)
        rw [hsame, operandReach]
        omega
      refine .nested ?_ _
      split
      · split
        · refine .after .skip fun _ => (hg.unary levels).bind fun operand hoperand => .pure ?_
          have hle := operand.nesting_le_extent
          rw [Expr.extent_of_not_isPlace rfl, Expr.nesting, Expr.leaning]
          omega
        · refine .after .skip fun _ => (hg.unary levels).bind fun target htarget =>
            .after ((requirePlace_yieldsAt _ _).mono fun _ _ => trivial) fun _ => .pure ?_
          have hle := target.nesting_le_extent
          rw [Expr.extent_of_not_isPlace rfl, Expr.nesting, Expr.leaning]
          omega
        · exact htrailed
      · exact htrailed

/-! ## Statements -/

theorem body_yieldsAt (levels : Nat) : YieldsAt levels g.body fun b =>
    Within (reach levels) levels b.nesting b.leaning := by
  refine .after (.sees _) fun opens => ?_
  split
  · exact block_yieldsAt hg levels
  · refine .after .position fun position => (hg.statement levels).bind fun s hs => .pure ?_
    simpa using hs

theorem variableRule_yieldsAt (levels : Nat) : YieldsAt levels g.variableRule fun s =>
    Within (reach levels) levels s.nesting s.leaning := by
  have hvalue : YieldsAt levels g.initialValue fun value? =>
      Within (reach levels) levels (nestingOfExpr? value?) (leaningOfExpr? value?) := by
    refine .after (.eat _) fun assigns => ?_
    split
    · exact (hg.expression levels).bind fun value hvalue => .pure (by simpa using hvalue)
    · exact .pure (by simp [Within])
  refine .after (.expectWord _) fun t => .after .identifier fun name => ?_
  refine (typeMark_yieldsAt (typeExpr_yieldsAt levels)).bind fun type? htype => ?_
  refine hvalue.bind fun value? hvalue => .pure ?_
  have htypes := four_mul_le_reach levels
  rw [Stmt.nesting, Stmt.leaning]
  omega

theorem expressionRule_yieldsAt (levels : Nat) : YieldsAt levels g.expressionRule fun s =>
    Within (reach levels) levels s.nesting s.leaning :=
  .after .position fun _ => (hg.expression levels).bind fun e he => .pure (by simpa using he)

theorem returnRule_yieldsAt (levels : Nat) : YieldsAt levels g.returnRule fun s =>
    Within (reach levels) levels s.nesting s.leaning := by
  refine .after (.expectWord _) fun t => .after .peek? fun t? => ?_
  dsimp only
  split
  · exact .pure (by simp [Within])
  · exact (hg.expression levels).bind fun value hvalue => .pure (by simpa using hvalue)

theorem expressionUnless_yieldsAt (levels : Nat) (sign : Symbol) :
    YieldsAt levels (g.expressionUnless sign) fun e? =>
      Within (reach levels) levels (nestingOfExpr? e?) (leaningOfExpr? e?) := by
  refine .after (.sees _) fun ends => ?_
  split
  · exact .pure (by simp [Within])
  · exact (hg.expression levels).bind fun e he => .pure (by simpa using he)

theorem loopStart_yieldsAt (levels : Nat) : YieldsAt levels g.loopStart fun init? =>
    Within (reach levels) levels (nestingOfStmt? init?) (leaningOfStmt? init?) := by
  refine .after (.sees _) fun ends => ?_
  split
  · exact .pure (by simp [Within])
  · refine .after (.seesWord _) fun declares => ?_
    split
    · exact (variableRule_yieldsAt hg levels).bind fun s hs => .pure (by simpa using hs)
    · exact (expressionRule_yieldsAt hg levels).bind fun s hs => .pure (by simpa using hs)

theorem loopRule_yieldsAt (levels : Nat) : YieldsAt levels g.loopRule fun s =>
    Within (reach levels + 1) (levels + 1) s.nesting s.leaning := by
  refine .after (.expectWord _) fun t => .after (.expect _ _) fun _ =>
    (loopStart_yieldsAt hg levels).bind fun init? hinit => .after (.expect _ _) fun _ =>
    (expressionUnless_yieldsAt hg levels _).bind fun condition? hcondition =>
    .after (.expect _ _) fun _ =>
      (expressionUnless_yieldsAt hg levels _).bind fun update? hupdate =>
    .after (.expect _ _) fun _ => (body_yieldsAt hg levels).bind fun body hbody => .pure ?_
  rw [Stmt.nesting, Stmt.leaning]
  omega

theorem whileRule_yieldsAt (levels : Nat) : YieldsAt levels g.whileRule fun s =>
    Within (reach levels + 1) (levels + 1) s.nesting s.leaning := by
  refine .after (.expectWord _) fun t => .after (.expect _ _) fun _ =>
    (hg.expression levels).bind fun condition hcondition => .after (.expect _ _) fun _ =>
    (body_yieldsAt hg levels).bind fun body hbody => .pure ?_
  rw [Stmt.nesting, Stmt.leaning]
  omega

theorem conditionalRule_yieldsAt (position : Position) (levels : Nat) :
    YieldsAt levels (g.conditionalRule position) fun s =>
      Within (reach levels) (levels + 1) s.nesting s.leaning := by
  cases levels with
  | zero => exact .nested_zero _ _
  | succ levels =>
    have hdeeper := reach_add_four_le levels
    refine .nested (.after (.expect _ _) fun _ => (hg.expression levels).bind
      fun condition hcondition => .after (.expect _ _) fun _ => (body_yieldsAt hg levels).bind
      fun body hbody => .after (.eatWord _) fun hasElse => ?_) position
    have hwhole : ∀ {otherwise? : Option Stmt},
        Within (reach levels + 1) (levels + 1) (nestingOfStmt? otherwise?)
          (leaningOfStmt? otherwise?) →
        YieldsAt levels (pure (Stmt.branch condition body otherwise? position) : Parser Stmt)
          fun s => Within (reach (levels + 1)) (levels + 1 + 1) s.nesting s.leaning := by
      intro otherwise? hotherwise
      refine .pure ?_
      rw [Stmt.nesting, Stmt.leaning]
      omega
    -- another body is a block of its own below the conditional
    have hbody : YieldsAt levels (do
        let otherwise ← g.body
        return Stmt.branch condition body (some (.block otherwise)) position) fun s =>
          Within (reach (levels + 1)) (levels + 1 + 1) s.nesting s.leaning := by
      refine (body_yieldsAt hg levels).bind fun otherwise hotherwise => hwhole ?_
      rw [nestingOfStmt?, leaningOfStmt?, Stmt.nesting, Stmt.leaning]
      omega
    split
    · refine .after .peek? fun t? => ?_
      split
      · split
        · refine .after .skip fun _ => (hg.conditional _ levels).bind fun otherwise hotherwise =>
            hwhole ?_
          rw [nestingOfStmt?, leaningOfStmt?]
          omega
        · exact hbody
      · exact hbody
    · exact hwhole (by simp [Within])

/-- A statement is one node at most around what is read with the levels below it. -/
theorem statementRule_yieldsAt (levels : Nat) : YieldsAt levels g.statementRule fun s =>
    0 < levels ∧ Within (reach (levels - 1) + 1) levels s.nesting s.leaning := by
  have hsees : ∀ {levels}, YieldsAt levels seesNameSecond fun _ => True := by
    refine .after .get fun c => ?_
    split
    · split
      · exact .pure trivial
      · exact .pure trivial
    · exact .pure trivial
  refine .after .peek? fun t? => ?_
  split
  · exact .throw _
  · cases levels with
    | zero => exact .nested_zero _ _
    | succ levels =>
      rw [Nat.add_sub_cancel]
      refine .nested ?_ _
      have hsimple : ∀ {statement : Parser Stmt}, (YieldsAt levels statement fun s =>
            Within (reach levels + 1) (levels + 1) s.nesting s.leaning) →
          YieldsAt levels (terminated statement) fun s => 0 < levels + 1 ∧
            Within (reach levels + 1) (levels + 1) s.nesting s.leaning :=
        fun h => h.bind fun s hs => .after (.eat _) fun _ => .pure ⟨Nat.succ_pos _, hs⟩
      have hexpression := hsimple ((expressionRule_yieldsAt hg levels).mono fun _ hs => by omega)
      split
      · exact hsimple ((variableRule_yieldsAt hg levels).mono fun _ hs => by omega)
      · refine .after hsees fun named => ?_
        split
        · refine hsimple ((function_yieldsAt hg levels).bind fun f hf => .pure ?_)
          rw [Stmt.nesting, Stmt.leaning]
          omega
        · exact hexpression
      · exact hsimple ((returnRule_yieldsAt hg levels).mono fun _ hs => by omega)
      · exact .after .skip fun _ => (hg.conditional _ levels).mono fun _ hs => by omega
      · exact (loopRule_yieldsAt hg levels).mono fun _ hs => ⟨Nat.succ_pos _, hs⟩
      · exact (whileRule_yieldsAt hg levels).mono fun _ hs => ⟨Nat.succ_pos _, hs⟩
      · refine (block_yieldsAt hg levels).bind fun b hb => .pure ?_
        rw [Stmt.nesting, Stmt.leaning]
        omega
      · exact .throw _
      · exact .throw _
      · exact hexpression

end Rules

/-! ## Any number of levels -/

theorem upTo_isBounded (limit : Nat) : (upTo limit).IsBounded := by
  induction limit with
  | zero =>
    -- without any level nothing is read at all
    exact ⟨fun _ => .outOfLevels, fun _ => .outOfLevels, fun _ => .outOfLevels,
      fun _ _ => .outOfLevels⟩
  | succ limit ih =>
    refine ⟨assignmentRule_yieldsAt ih, unaryRule_yieldsAt ih, fun levels => ?_,
      conditionalRule_yieldsAt ih⟩
    refine (statementRule_yieldsAt ih levels).mono fun s hs => ?_
    have hdeeper := reach_add_four_le (levels - 1)
    rw [Nat.sub_add_cancel hs.1] at hdeeper
    omega

theorem interface_yieldsAt (levels : Nat) : YieldsAt levels interface fun declaration =>
    Within (4 * levels + 1) levels (nestingOfMembers declaration.members)
      (leaningOfMembers declaration.members) := by
  have hmembers := members_yieldsAt (typeExpr_yieldsAt levels)
  refine .after (.expectWord _) fun word => .after .identifier fun name =>
    .after .peek? fun t? => ?_
  split
  · exact .throw _
  · refine .after .skip fun _ => ?_
    split
    · exact hmembers.bind fun l hl => .pure hl
    · exact .throw_bind _ _

theorem reach_below_maxNesting : reach (maxNesting - 1) = 113161 := by
  decide +kernel

/-- The statements of a program are read with all levels left. -/
theorem programStatements_yieldsAt (bound : Nat) :
    YieldsAt maxNesting (programStatements full bound) fun l =>
      Within (reach (maxNesting - 1) + 1) maxNesting (nestingOfRow l) (leaningOfRow l) := by
  induction bound with
  | zero => exact .pure (by simp [Within])
  | succ bound ih =>
    refine .after .peek? fun t? => ?_
    split
    · exact .pure (by simp [Within])
    · split
      · exact .pure (by simp [Within])
      · exact .after .skip fun _ => ih
      · refine (interface_yieldsAt _).bind fun declaration hfirst => ih.bind fun rest hrest =>
          .pure ?_
        -- the members of an interface are types with all levels left
        have htypes : 4 * maxNesting + 1 ≤ reach (maxNesting - 1) + 1 := by
          rw [reach_below_maxNesting]
          decide
        rw [nestingOfRow, leaningOfRow, Stmt.nesting, Stmt.leaning]
        omega
      · refine .after ?_ fun _ => ih
        exact .after (.expectWord _) fun _ => .after (.expect _ _) fun _ =>
          .after ((commaSeparated_yieldsAt .identifier _).mono fun _ _ => trivial) fun _ =>
            .after (.eat _) fun _ => .pure trivial
      · have hstatement := statementRule_yieldsAt (upTo_isBounded maxNesting) maxNesting
        refine hstatement.bind fun first hfirst => ih.bind fun rest hrest => .pure ?_
        rw [nestingOfRow, leaningOfRow]
        omega

end Grammar

/-- A token of a symbol. Where it stands does not matter here. -/
def Token.ofSymbol (sign : Symbol) : Token :=
  ⟨.symbol sign, "", .start⟩

def Token.ofKeyword (word : Keyword) : Token :=
  ⟨.keyword word, "", .start⟩

/-- The token of a name, always the same one. -/
def Token.x : Token :=
  ⟨.identifier "x", "", .start⟩

/-- A program that is read nests no deeper than there are levels, but for its leaning: one that
leans on nothing stays within `maxNesting`. In any case it nests no deeper than 113162 nodes. -/
theorem Program.nesting_le {tokens : List Token} {program : Program}
    (h : Program.ofTokens? tokens = .ok program) :
    program.nesting ≤ maxNesting + program.leaning ∧ program.nesting ≤ 113162 := by
  unfold ofTokens? Parser.run at h
  split at h
  · next found c hrun =>
    cases h
    have hyields : Parser.YieldsAt maxNesting Grammar.program fun program =>
        Within 113162 maxNesting program.nesting program.leaning :=
      .after .remaining fun bound => (Grammar.programStatements_yieldsAt bound).bind
        fun l hl => .pure (by rwa [Grammar.reach_below_maxNesting] at hl)
    -- all levels are left at the first token
    have hwithin := (hyields ⟨tokens, 0⟩ _ c (Nat.zero_add _) hrun).2
    exact hwithin.symm
  · cases h

/-- In `x * x + x` the sum leans on the product, which has closed its level by then. -/
theorem Program.nesting_le_of_sum : ∃ program,
    Program.ofTokens? [.x, .ofSymbol .star, .x, .ofSymbol .plus, .x] = .ok program ∧
    (program.nesting = 2 ∧ program.leaning = 1) ∧
    program.nesting ≤ maxNesting + program.leaning ∧ program.nesting ≤ 113162 := by
  have hread : ofTokens? [.x, .ofSymbol .star, .x, .ofSymbol .plus, .x] = .ok _ := rfl
  exact ⟨_, hread, by decide, nesting_le hread⟩

end TypedScript
