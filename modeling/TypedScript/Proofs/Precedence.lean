import TypedScript.Proofs.Accepting
import TypedScript.Proofs.Functions
import TypedScript.Proofs.Operands

/-!
# Expressions are accepted as the grammar derives them

The grammar gathers operators and trailers from the left, while the parser takes an operand
first and what follows it one after the other. So a derivation is taken apart into its first
operand and the `Operations` behind it, or its primary expression and the `Trailers` behind
that. Each loop of the parser goes on over these, and stops in front of the first token that
binds less tight.

By induction on the levels of nesting the parser accepts every expression without functions
with the tree that the grammar derives (`Grammar.expression_accepts`).
-/

namespace TypedScript

/-! ## The ranks of operators -/

/-- The rank of an operator. -/
def BinaryOp.rank : BinaryOp → Rank
  | .or => .disjunction
  | .and => .conjunction
  | .equal | .notEqual | .strictEqual | .strictNotEqual => .equality
  | .less | .greater | .lessEqual | .greaterEqual => .relation
  | .add | .subtract => .sum
  | .multiply | .divide | .modulo => .product

namespace Rank

theorem accepts_iff {rank : Rank} {op : BinaryOp} : rank.accepts op = true ↔ op.rank = rank := by
  cases rank <;> cases op <;> decide

/-- How tight the operators of a rank bind. -/
def tightness : Rank → Nat
  | .disjunction => 0
  | .conjunction => 1
  | .equality => 2
  | .relation => 3
  | .sum => 4
  | .product => 5

/-- Whether the operators of a rank bind looser than an operator. -/
def isLooserThan (rank : Rank) (op : BinaryOp) : Bool :=
  rank.tightness < op.rank.tightness

/-- Whether an operator has a rank or a tighter one. -/
def isWithin (rank : Rank) (op : BinaryOp) : Bool :=
  rank.tightness ≤ op.rank.tightness

theorem isLooserThan_of_accepts {rank : Rank} {op : BinaryOp} (h : rank.accepts op = true) :
    rank.isLooserThan op = false := by
  simp [isLooserThan, accepts_iff.mp h]

theorem isWithin_of_accepts {rank : Rank} {op : BinaryOp} (h : rank.accepts op = true) :
    rank.isWithin op = true := by
  simp [isWithin, accepts_iff.mp h]

theorem isWithin_of_isLooserThan {rank : Rank} {op : BinaryOp} (h : rank.isLooserThan op = true) :
    rank.isWithin op = true :=
  decide_eq_true (Nat.le_of_lt (of_decide_eq_true h))

theorem tightness_of_next? {rank next : Rank} (h : rank.next? = some next) :
    next.tightness = rank.tightness + 1 := by
  cases rank <;> cases h <;> rfl

theorem exists_next? {rank rank' : Rank} (h : rank.tightness < rank'.tightness) :
    ∃ next, rank.next? = some next := by
  cases rank
  case product => cases rank' <;> exact absurd h (by decide)
  all_goals exact ⟨_, rfl⟩

theorem isLooserThan_of_next? {rank next : Rank} {op : BinaryOp} (h : rank.next? = some next)
    (hop : next.isWithin op = true) : rank.isLooserThan op = true := by
  have hnext := tightness_of_next? h
  have hle : next.tightness ≤ op.rank.tightness := of_decide_eq_true hop
  exact decide_eq_true (by omega)

end Rank

/-! ## First tokens -/

/-- Which symbols may stand at the front of an expression, or of a part of it. -/
def Phrase.mayStartWith (phrase : Phrase) (sign : Symbol) : Bool :=
  match phrase with
  | .trailed | .primary => sign = .leftParen || sign = .leftBrace
  | .expression | .operation _ | .operand _ | .unary =>
    sign = .leftParen || sign = .leftBrace || (Grammar.unary? sign).isSome ||
      (Grammar.update? sign).isSome
  | .field | .function _ => false
  | _ => true

theorem startsIn_false {ts : List Token} : startsIn (fun _ => false) ts = false := by
  unfold startsIn
  split <;> rfl

theorem Derives.startsIn {phrase : Phrase} {ts : List Token} {a : phrase.Tree}
    (h : Derives phrase ts a) : startsIn (fun sign => !phrase.mayStartWith sign) ts = false := by
  induction h with
  | value _ ih => exact ih
  -- a phrase that begins with another one starts as that one does, which is not empty
  | assignment htarget _ _ _ _ ih => exact (startsIn_append _ (htarget.ne_nil rfl)).trans ih
  | oneOperand _ ih => exact ih
  | operation hleft _ _ _ ih => exact (startsIn_append _ (hleft.ne_nil rfl)).trans ih
  | tighter _ _ ih => exact ih
  | tightest _ _ ih => exact ih
  | operator hkind hop => simp [startsIn_symbol hkind, Phrase.mayStartWith, hop]
  | updateBefore hkind hop => simp [startsIn_symbol hkind, Phrase.mayStartWith, hop]
  | updateAfter htarget _ _ _ ih =>
    rw [startsIn_append _ (htarget.ne_nil rfl)]
    exact startsIn_false_mono (by simp +contextual [Phrase.mayStartWith]) ih
  | noUpdate _ ih => exact startsIn_false_mono (by simp +contextual [Phrase.mayStartWith]) ih
  | base _ ih => exact ih
  | call hcallee _ _ ih => exact (startsIn_append _ (hcallee.ne_nil rfl)).trans ih
  | property hobject _ _ ih => exact (startsIn_append _ (hobject.ne_nil rfl)).trans ih
  | literal hvalue =>
    refine startsIn_of_ne fun sign hkind => ?_
    rw [Token.literal?, hkind] at hvalue
    cases hvalue
  | reference hkind => exact startsIn_of_ne fun sign hsign => by rw [hkind] at hsign; cases hsign
  | receiver hkind => exact startsIn_of_ne fun sign hsign => by rw [hkind] at hsign; cases hsign
  | grouped hkind => simp [startsIn_symbol hkind, Phrase.mayStartWith]
  | object hkind => simp [startsIn_symbol hkind, Phrase.mayStartWith]
  | functionValue _ ih => exact startsIn_false_mono (by simp +contextual [Phrase.mayStartWith]) ih
  | field hname => exact startsIn_of_ne (Parser.ne_symbol_of_property? hname)
  | namelessFunction hkind =>
    exact startsIn_of_ne fun sign hsign => by rw [hkind] at hsign; cases hsign
  | namedFunction hkind =>
    exact startsIn_of_ne fun sign hsign => by rw [hkind] at hsign; cases hsign
  | _ => exact startsIn_false

theorem functions_eq_nil_of_mem {e : Expr} {l : List Expr} (h : functionsOfEach l = [])
    (hmem : e ∈ l) : e.functions = [] := by
  induction l with
  | nil => cases hmem
  | cons first rest ih =>
    rw [functionsOfEach, List.append_eq_nil_iff] at h
    rcases List.mem_cons.mp hmem with rfl | hmem
    · exact h.1
    · exact ih h.2 hmem

theorem functions_eq_nil_of_mem_fields {field : Field} {l : List Field}
    (h : functionsOfFields l = []) (hmem : field ∈ l) : field.value.functions = [] := by
  induction l with
  | nil => cases hmem
  | cons first rest ih =>
    rw [functionsOfFields, List.append_eq_nil_iff] at h
    rcases List.mem_cons.mp hmem with rfl | hmem
    · obtain ⟨name, value, position⟩ := field
      rw [Field.functions] at h
      exact h.1
    · exact ih h.2 hmem

namespace Grammar

open TypedScript.Parser

/-- With so many levels to go down, a parser accepts the expressions of a phrase that make no
functions, in front of tokens that do not go on with an operand. It needs less than two levels
for each token. -/
def AcceptsOperands (levels : Nat) (tighter : BinaryOp → Bool) (p : Parser Expr)
    (R : List Token → Expr → Prop) : Prop :=
  ∀ depth ts e rest, maxNesting < depth + levels → R ts e → e.functions = [] →
    goesOn tighter rest = false → Accepts depth (2 * ts.length - 1) (ts ++ rest) p e rest

/-! ## Operators -/

/-- Operators of a rank behind their left operand, each with the operand on its right, and the
expression that they make up. -/
inductive Operations (rank : Rank) : Expr → List Token → Expr → Prop
  | none {left : Expr} : Operations rank left [] left
  | more {t : Token} {op : BinaryOp} {ts us : List Token} {left right e : Expr} :
      rank.accepts op = true → t.kind = .symbol op.symbol → Derives (.operand rank) ts right →
      right.functions = [] → Operations rank (.binary left op right t.position) us e →
      Operations rank left (t :: (ts ++ us)) e

/-- The first operand of a derivation, and the operations behind it up to those that are known
already. -/
theorem exists_operations {rank : Rank} : ∀ {ts us : List Token} {e whole : Expr},
    Derives (.operation rank) ts e → e.functions = [] → Operations rank e us whole →
    ∃ first rest left, ts ++ us = first ++ rest ∧ Derives (.operand rank) first left ∧
      left.functions = [] ∧ Operations rank left rest whole
  | _, _, _, _, .oneOperand h, he, hus => ⟨_, _, _, rfl, h, he, hus⟩
  | _, _, _, _, .operation hleft haccepts hkind hright, he, hus => by
    rw [Expr.functions, List.append_eq_nil_iff] at he
    obtain ⟨first, rest, left, hts, hfirst⟩ :=
      exists_operations hleft he.1 (.more haccepts hkind hright he.2 hus)
    exact ⟨first, rest, left, by simpa using hts, hfirst⟩

section Operators

variable {rank : Rank} {levels : Nat} {operand : Parser Expr}

/-- No operand goes on with the operators of its own rank. -/
theorem Operations.endsOperand {left e : Expr} {ts rest : List Token}
    (h : Operations rank left ts e) (hrest : goesOn rank.isWithin rest = false) :
    goesOn rank.isLooserThan (ts ++ rest) = false := by
  cases h with
  | none => exact goesOn_mono (fun _ => Rank.isWithin_of_isLooserThan) hrest
  | more haccepts hkind =>
    exact (goesOn_operator hkind).trans (Rank.isLooserThan_of_accepts haccepts)

theorem Operations.accepts
    (hoperand : AcceptsOperands levels rank.isLooserThan operand (Derives (.operand rank)))
    {left e : Expr} {ts rest : List Token} (h : Operations rank left ts e)
    (hrest : goesOn rank.isWithin rest = false) :
    ∀ depth bound, maxNesting < depth + levels → ts.length ≤ bound →
      Accepts depth (2 * ts.length) (ts ++ rest) (operations rank.accepts operand bound left) e
        rest := by
  induction h with
  | none =>
    intro depth bound _ _
    exact .inl (operations_of_goesOn bound depth _
      (goesOn_mono (fun _ => Rank.isWithin_of_accepts) hrest))
  | @more t op ts us left right e haccepts hkind hright hfree hus ih =>
    intro depth bound hdepth hbound
    rw [List.length_cons, List.length_append] at hbound ⊢
    obtain ⟨bound, rfl⟩ : ∃ k, bound = k + 1 := ⟨bound - 1, by omega⟩
    have hoperand := hoperand (depth + 1) ts right _ (by omega) hright hfree (hus.endsOperand hrest)
    have hbehind := ih (depth + 1) bound (by omega) (by omega)
    rw [List.cons_append, List.append_assoc]
    refine .bind (.inl (operatorAhead?_operator hkind depth haccepts)) ?_
    -- the level of the operator stays open until all operands have been read
    refine .nested _ (by omega) (.skip ?_)
    exact (hoperand.mono (by omega)).bind (hbehind.mono (by omega))

theorem leftAssociative_accepts (rank : Rank)
    (hoperand : AcceptsOperands levels rank.isLooserThan operand (Derives (.operand rank))) :
    AcceptsOperands levels rank.isWithin (leftAssociative rank.accepts operand)
      (Derives (.operation rank)) := by
  intro depth ts e rest hdepth h he hrest
  obtain ⟨first, us, left, hts, hfirst, hfree, hus⟩ := exists_operations h he .none
  rw [List.append_nil] at hts
  subst hts
  have hpos := List.length_pos_iff.mpr (hfirst.ne_nil rfl)
  have hleft := hoperand depth first left _ hdepth hfirst hfree (hus.endsOperand hrest)
  have hbehind := hus.accepts hoperand hrest depth (us ++ rest).length hdepth (by simp)
  rw [List.append_assoc, List.length_append]
  exact (hleft.mono (by omega)).bind (.remaining (hbehind.mono (by omega)))

/-- The operands of a rank are the operations of the next one. -/
theorem acceptsOperands_of_next? {next : Rank} {p : Parser Expr} (hnext : rank.next? = some next)
    (hp : AcceptsOperands levels next.isWithin p (Derives (.operation next))) :
    AcceptsOperands levels rank.isLooserThan p (Derives (.operand rank)) := by
  intro depth ts e rest hdepth h he hrest
  cases h with
  | tighter hnext' h =>
    cases hnext.symm.trans hnext'
    exact hp depth ts e rest hdepth h he
      (goesOn_mono (fun _ => Rank.isLooserThan_of_next? hnext) hrest)
  | tightest hnone => cases hnext.symm.trans hnone

end Operators

/-! ## Rules -/

/-- Whether an expression goes on with a symbol. -/
def continuesExpression (sign : Symbol) : Bool :=
  sign = .leftParen || sign = .dot || (update? sign).isSome || (BinaryOp.ofSymbol? sign).isSome ||
    (assignment? sign).isSome

theorem goesOn_of_startsIn {accepts : BinaryOp → Bool} {ts : List Token}
    (h : startsIn continuesExpression ts = false) : goesOn accepts ts = false := by
  unfold startsIn at h
  unfold goesOn
  split
  · next sign hkind =>
    rw [hkind] at h
    simp only [continuesExpression, Bool.or_eq_false_iff] at h ⊢
    have hop := Option.isNone_iff_eq_none.mp (Option.isSome_eq_false_iff.mp h.1.2)
    rw [hop]
    exact ⟨h.1.1, rfl⟩
  · rfl

/-- Behind an item of a list no expression goes on. -/
theorem continuesExpression_of_startsIn {closing : Symbol} {rest : List Token}
    (hclosing : closing = .rightParen ∨ closing = .rightBrace)
    (h : startsIn (fun sign => sign = .comma || sign = closing) rest = true) :
    startsIn continuesExpression rest = false := by
  refine startsIn_false_of_true (fun sign hsign => ?_) h
  rcases hclosing with rfl | rfl <;> cases sign <;> first | rfl | cases hsign

/-- The parsers of a grammar accept the expressions that make no functions. -/
structure IsComplete (levels : Nat) (g : Grammar) : Prop where
  expression : ∀ depth ts e rest, maxNesting < depth + levels → Derives .expression ts e →
    e.functions = [] → startsIn continuesExpression rest = false →
    Accepts depth (2 * ts.length) (ts ++ rest) g.expression e rest
  unary : AcceptsOperands levels (fun _ => false) g.unary (Derives .unary)

section Rules

variable {levels : Nat} {g : Grammar} (hg : g.IsComplete levels)

include hg

theorem product_accepts :
    AcceptsOperands levels Rank.product.isWithin g.product (Derives (.operation .product)) := by
  refine leftAssociative_accepts .product fun depth ts e rest hdepth h he hrest => ?_
  cases h with
  | tighter hnext => cases hnext
  | tightest _ h => exact hg.unary depth ts e rest hdepth h he (goesOn_mono (by simp) hrest)

theorem sum_accepts :
    AcceptsOperands levels Rank.sum.isWithin g.sum (Derives (.operation .sum)) :=
  leftAssociative_accepts .sum (acceptsOperands_of_next? rfl (product_accepts hg))

theorem relation_accepts :
    AcceptsOperands levels Rank.relation.isWithin g.relation (Derives (.operation .relation)) :=
  leftAssociative_accepts .relation (acceptsOperands_of_next? rfl (sum_accepts hg))

theorem equality_accepts :
    AcceptsOperands levels Rank.equality.isWithin g.equality (Derives (.operation .equality)) :=
  leftAssociative_accepts .equality (acceptsOperands_of_next? rfl (relation_accepts hg))

theorem conjunction_accepts : AcceptsOperands levels Rank.conjunction.isWithin g.conjunction
    (Derives (.operation .conjunction)) :=
  leftAssociative_accepts .conjunction (acceptsOperands_of_next? rfl (equality_accepts hg))

theorem disjunction_accepts : AcceptsOperands levels Rank.disjunction.isWithin g.disjunction
    (Derives (.operation .disjunction)) :=
  leftAssociative_accepts .disjunction (acceptsOperands_of_next? rfl (conjunction_accepts hg))

theorem assignmentRule_accepts {depth : Nat} {ts rest : List Token} {e : Expr}
    (hdepth : maxNesting < depth + (levels + 1)) (h : Derives .expression ts e)
    (he : e.functions = []) (hrest : startsIn continuesExpression rest = false) :
    Accepts depth (2 * ts.length) (ts ++ rest) g.assignmentRule e rest := by
  have hpos := List.length_pos_iff.mpr (h.ne_nil rfl)
  refine .position (.nested _ (by omega) ?_)
  cases h with
  | value h =>
    have htarget := disjunction_accepts hg (depth + 1) ts e rest (by omega) h he
      (goesOn_of_startsIn hrest)
    refine htarget.bind (.peek? ?_)
    cases rest with
    | nil => exact .pure
    | cons t rest =>
      dsimp only [List.head?_cons]
      split
      · next sign hkind =>
        rw [startsIn_symbol hkind] at hrest
        split
        · next op? hop => simp [continuesExpression, hop] at hrest
        · exact .pure
      · exact .pure
  | @assignment t sign op? ts us target value htarget hplace hkind hop hvalue =>
    rw [Expr.functions, List.append_eq_nil_iff] at he
    have hposTarget := List.length_pos_iff.mpr (htarget.ne_nil rfl)
    have hsign : goesOn Rank.disjunction.isWithin (t :: (us ++ rest)) = false := by
      unfold goesOn
      rw [List.head?_cons, Option.map_some, hkind]
      cases sign <;> first | rfl | cases hop
    have htarget := disjunction_accepts hg (depth + 1) ts target _ (by omega) htarget he.1 hsign
    have hvalue := hg.expression (depth + 1) us value rest (by omega) hvalue he.2 hrest
    rw [List.append_assoc, List.length_append, List.length_cons]
    refine (htarget.mono (by omega)).bind (.peek? ?_)
    dsimp only [List.cons_append, List.head?_cons]
    rw [hkind]
    dsimp only
    rw [hop]
    refine .skip (.bind (.inl (requirePlace_of_isPlace hplace _)) ?_)
    exact (hvalue.mono (by omega)).map

/-! ### Operands -/

theorem arguments_accepts (depth : Nat) {ts : List Token} {l : List Expr}
    (hdepth : maxNesting < depth + levels) (h : Derives (.list .rightParen .expression) ts l)
    (hl : functionsOfEach l = []) (rest : List Token) :
    Accepts depth (2 * ts.length) (ts ++ rest) (commaSeparated .rightParen g.expression) l
      rest := by
  have hitems := h.listing.mono fun us e he hmem hlength => And.intro he (And.intro hmem hlength)
  refine hitems.accepts (by decide) ?_ ?_ rest
  · rintro us e ⟨he, -⟩
    exact ⟨he.ne_nil rfl, startsIn_false_mono (fun sign => by cases sign <;> decide) he.startsIn⟩
  · rintro us e rest ⟨he, hmem, hlength⟩ hrest
    have hfree := functions_eq_nil_of_mem hl hmem
    have hends := continuesExpression_of_startsIn (.inl rfl) hrest
    exact (hg.expression depth us e rest hdepth he hfree hends).mono (by omega)

theorem fields_accepts (depth : Nat) {ts : List Token} {l : List Field}
    (hdepth : maxNesting < depth + levels) (h : Derives (.list .rightBrace .field) ts l)
    (hl : functionsOfFields l = []) (rest : List Token) :
    Accepts depth (2 * ts.length) (ts ++ rest) (commaSeparated .rightBrace g.field) l rest := by
  have hitems := h.listing.mono fun us a ha hmem hlength => And.intro ha (And.intro hmem hlength)
  refine hitems.accepts (by decide) ?_ ?_ rest
  · rintro us field ⟨hfield, -⟩
    exact ⟨hfield.ne_nil rfl,
      startsIn_false_mono (fun sign => by cases sign <;> decide) hfield.startsIn⟩
  · rintro us field rest ⟨hfield, hmem, hlength⟩ hrest
    have hfree := functions_eq_nil_of_mem_fields hl hmem
    have hends := continuesExpression_of_startsIn (.inr rfl) hrest
    cases hfield with
    | @field t colon us name value hname hcolon hvalue =>
      rw [List.length_cons, List.length_cons] at hlength
      have hvalue := hg.expression depth us value rest hdepth hvalue hfree hends
      exact .propertyName hname (.expect hcolon (hvalue.mono (by omega)).map)

/-- What stands behind a primary expression does not matter. -/
theorem primary_accepts (depth : Nat) {ts : List Token} {e : Expr}
    (hdepth : maxNesting < depth + levels) (h : Derives .primary ts e) (he : e.functions = [])
    (rest : List Token) : Accepts depth (2 * ts.length - 2) (ts ++ rest) g.primary e rest := by
  cases h with
  | @literal t value hvalue =>
    refine .peek? ?_
    unfold Token.literal? at hvalue
    dsimp only [List.cons_append, List.head?_cons]
    split at hvalue
    -- the last case is that of the tokens that are no literals
    case h_6 => cases hvalue
    all_goals
      next hkind =>
        cases hvalue
        rw [hkind]
        exact .skip .pure
  | @reference t name hkind =>
    refine .peek? ?_
    dsimp only [List.cons_append, List.head?_cons]
    rw [hkind]
    exact .skip .pure
  | @receiver t hkind =>
    refine .peek? ?_
    dsimp only [List.cons_append, List.head?_cons]
    rw [hkind]
    exact .skip .pure
  | @grouped opening closing ts e hopening h hclosing =>
    -- a closing parenthesis ends the expression between the two
    have hends : startsIn continuesExpression (closing :: rest) = false := by
      rw [startsIn_symbol hclosing]
      decide
    have hinner := hg.expression depth ts e _ hdepth h he hends
    refine .peek? ?_
    dsimp only [List.cons_append, List.head?_cons]
    rw [hopening, List.append_assoc, List.length_cons, List.length_append]
    exact .skip ((hinner.mono (by omega)).bind (.expect hclosing .pure))
  | @object t ts fields hkind h =>
    rw [Expr.functions] at he
    have hfields := fields_accepts hg depth hdepth h he rest
    refine .peek? ?_
    dsimp only [List.cons_append, List.head?_cons]
    rw [hkind]
    exact .skip ((hfields.mono (by rw [List.length_cons]; omega)).map)
  | @functionValue isNamed ts f h =>
    -- there are no functions in the expression
    obtain ⟨name?, params, result?, body, position⟩ := f
    rw [Expr.functions, Function.functions] at he
    cases he

end Rules

/-- Calls and properties behind an expression, and perhaps an update at the end, and the
expression that they make up. -/
inductive Trailers : Expr → List Token → Expr → Prop
  | none {base : Expr} : Trailers base [] base
  | update {t : Token} {sign : Symbol} {op : UpdateOp} {base : Expr} : base.isPlace = true →
      t.kind = .symbol sign → update? sign = some op →
      Trailers base [t] (.update base op false t.position)
  | call {t : Token} {ts us : List Token} {base e : Expr} {arguments : List Expr} :
      t.kind = .symbol .leftParen → Derives (.list .rightParen .expression) ts arguments →
      functionsOfEach arguments = [] → Trailers (.call base arguments t.position) us e →
      Trailers base (t :: (ts ++ us)) e
  | property {dot t : Token} {us : List Token} {base e : Expr} {name : String} :
      dot.kind = .symbol .dot → t.property? = some name →
      Trailers (.member base name t.position) us e → Trailers base (dot :: t :: us) e

/-- The primary expression of a derivation, and the trailers behind it up to those that are
known already. -/
theorem exists_trailers : ∀ {ts us : List Token} {e whole : Expr}, Derives .trailed ts e →
    e.functions = [] → Trailers e us whole →
    ∃ first rest base, ts ++ us = first ++ rest ∧ Derives .primary first base ∧
      base.functions = [] ∧ Trailers base rest whole
  | _, _, _, _, .base h, he, hus => ⟨_, _, _, rfl, h, he, hus⟩
  | _, _, _, _, .call hcallee hkind hl, he, hus => by
    rw [Expr.functions, List.append_eq_nil_iff] at he
    obtain ⟨first, rest, base, hts, hfirst⟩ :=
      exists_trailers hcallee he.1 (.call hkind hl he.2 hus)
    exact ⟨first, rest, base, by simpa using hts, hfirst⟩
  | _, _, _, _, .property hobject hdot hname, he, hus => by
    rw [Expr.functions] at he
    obtain ⟨first, rest, base, hts, hfirst⟩ :=
      exists_trailers hobject he (.property hdot hname hus)
    exact ⟨first, rest, base, by simpa using hts, hfirst⟩

section Rules

variable {levels : Nat} {g : Grammar} (hg : g.IsComplete levels)

include hg

theorem Trailers.accepts {base e : Expr} {ts rest : List Token} (h : Trailers base ts e)
    (hrest : goesOn (fun _ => false) rest = false) :
    ∀ depth bound, maxNesting < depth + levels → ts.length ≤ bound →
      Accepts depth (2 * ts.length) (ts ++ rest) (g.trailers bound base) e rest := by
  induction h with
  | none =>
    intro depth bound _ _
    exact .inl (trailers_of_goesOn bound depth _ hrest)
  | @update t sign op base hplace hkind hop =>
    intro depth bound _ hbound
    rw [List.length_singleton] at hbound
    obtain ⟨bound, rfl⟩ : ∃ k, bound = k + 1 := ⟨bound - 1, by omega⟩
    refine .peek? ?_
    dsimp only [List.cons_append, List.head?_cons]
    rw [hkind]
    -- only two symbols denote an update
    cases sign <;> cases hop
    all_goals exact .skip (.bind (.inl (requirePlace_of_isPlace hplace _)) .pure)
  | @call t ts us base e arguments hkind hl hfree _ ih =>
    intro depth bound hdepth hbound
    rw [List.length_cons, List.length_append] at hbound ⊢
    obtain ⟨bound, rfl⟩ : ∃ k, bound = k + 1 := ⟨bound - 1, by omega⟩
    have harguments := arguments_accepts hg (depth + 1) (by omega) hl hfree (us ++ rest)
    have hbehind := ih (depth + 1) bound (by omega) (by omega)
    rw [List.cons_append, List.append_assoc]
    refine .peek? ?_
    dsimp only [List.head?_cons]
    rw [hkind]
    refine .nested _ (by omega) (.skip ?_)
    exact (harguments.mono (by omega)).bind (hbehind.mono (by omega))
  | @property dot t us base e name hdot hname _ ih =>
    intro depth bound hdepth hbound
    rw [List.length_cons, List.length_cons] at hbound ⊢
    obtain ⟨bound, rfl⟩ : ∃ k, bound = k + 1 := ⟨bound - 1, by omega⟩
    have hbehind := ih (depth + 1) bound (by omega) (by omega)
    refine .peek? ?_
    dsimp only [List.cons_append, List.head?_cons]
    rw [hdot]
    refine .nested _ (by omega) (.skip (.propertyName hname ?_))
    exact hbehind.mono (by omega)

/-- An operand without an operator in front of it. -/
theorem trailed_accepts {depth : Nat} {first ts rest : List Token} {base e : Expr}
    (hdepth : maxNesting < depth + (levels + 1)) (hbase : Derives .primary first base)
    (hfree : base.functions = []) (hts : Trailers base ts e)
    (hrest : goesOn (fun _ => false) rest = false) :
    Accepts depth (2 * (first ++ ts).length - 1) ((first ++ ts) ++ rest) g.unaryRule e rest := by
  have hprimary := primary_accepts hg (depth + 1) (by omega) hbase hfree (ts ++ rest)
  have hbehind := hts.accepts hg hrest (depth + 1) (ts ++ rest).length (by omega) (by simp)
  have hstart := hbase.startsIn
  rw [List.append_assoc, List.length_append]
  cases first with
  | nil => exact absurd rfl (hbase.ne_nil rfl)
  | cons t first =>
    rw [List.length_cons] at hprimary ⊢
    have hboth : Accepts (depth + 1) (2 * (first.length + 1 + ts.length) - 1 - 1)
        (t :: (first ++ (ts ++ rest))) (do
          let base ← g.primary
          g.trailers (← remaining) base) e rest :=
      (hprimary.mono (by omega)).bind (.remaining (hbehind.mono (by omega)))
    refine .peek? ?_
    dsimp only [List.cons_append, List.head?_cons]
    refine .nested _ (by omega) ?_
    split
    · next sign hkind =>
      -- a primary expression begins with a parenthesis or a brace if with a symbol at all
      rw [startsIn_symbol hkind] at hstart
      cases sign <;> first | exact hboth | cases hstart
    · exact hboth

theorem unaryRule_accepts :
    AcceptsOperands (levels + 1) (fun _ => false) g.unaryRule (Derives .unary) := by
  intro depth ts e rest hdepth h he hrest
  have hpos := List.length_pos_iff.mpr (h.ne_nil rfl)
  cases h with
  | @operator t sign op ts e hkind hop h =>
    rw [Expr.functions] at he
    have hoperand := hg.unary (depth + 1) ts e rest (by omega) h he hrest
    rw [List.length_cons] at hpos ⊢
    refine .peek? ?_
    dsimp only [List.cons_append, List.head?_cons]
    refine .nested _ (by omega) ?_
    rw [hkind]
    dsimp only
    rw [hop]
    exact .skip (hoperand.mono (by omega)).map
  | @updateBefore t sign op ts target hkind hop h hplace =>
    rw [Expr.functions] at he
    have hnone : unary? sign = none := by cases sign <;> first | rfl | cases hop
    have htarget := hg.unary (depth + 1) ts target rest (by omega) h he hrest
    rw [List.length_cons] at hpos ⊢
    refine .peek? ?_
    dsimp only [List.cons_append, List.head?_cons]
    refine .nested _ (by omega) ?_
    rw [hkind]
    dsimp only
    rw [hnone, hop]
    exact .skip ((htarget.mono (by omega)).bind
      (.bind (.inl (requirePlace_of_isPlace hplace _)) .pure))
  | @updateAfter t sign op ts target h hplace hkind hop =>
    rw [Expr.functions] at he
    obtain ⟨first, us, base, hts, hbase, hfree, hus⟩ :=
      exists_trailers h he (.update hplace hkind hop)
    rw [hts]
    exact trailed_accepts hg hdepth hbase hfree hus hrest
  | noUpdate h =>
    obtain ⟨first, us, base, hts, hbase, hfree, hus⟩ := exists_trailers h he .none
    rw [List.append_nil] at hts
    rw [hts]
    exact trailed_accepts hg hdepth hbase hfree hus hrest

end Rules

/-! ## Any number of levels -/

theorem upTo_isComplete (levels : Nat) : (upTo levels).IsComplete levels := by
  induction levels with
  | zero =>
    -- without any level the limit is exceeded already
    exact ⟨fun depth _ _ _ hdepth _ _ _ => .outOfLevels (by omega),
      fun depth _ _ _ hdepth _ _ _ => .outOfLevels (by omega)⟩
  | succ levels ih =>
    exact ⟨fun _ _ _ _ => assignmentRule_accepts ih, unaryRule_accepts ih⟩

theorem full_accepts {ts rest : List Token} {e : Expr} (h : Derives .expression ts e)
    (he : e.functions = []) (hrest : startsIn continuesExpression rest = false) (depth : Nat) :
    Accepts depth (2 * ts.length) (ts ++ rest) full.expression e rest :=
  (upTo_isComplete _).expression depth ts e rest (by omega) h he hrest

/-! ## Grouping -/

/-- An operation may stand where one of a looser rank may. -/
theorem operation_of_le {rank : Rank} {ts : List Token} {e : Expr}
    (h : Derives (.operation rank) ts e) {looser : Rank} (hle : looser.tightness ≤ rank.tightness) :
    Derives (.operation looser) ts e := by
  obtain ⟨n, hn⟩ := Nat.exists_eq_add_of_le hle
  clear hle
  induction n generalizing looser with
  | zero =>
    obtain rfl : rank = looser := by cases rank <;> cases looser <;> first | rfl | cases hn
    exact h
  | succ n ih =>
    obtain ⟨next, hnext⟩ := Rank.exists_next? (show looser.tightness < rank.tightness by omega)
    have hstep := Rank.tightness_of_next? hnext
    exact .oneOperand (.tighter hnext (ih (by omega)))

/-- An operation may be an operand of a looser rank. -/
theorem operand_of_lt {rank : Rank} {ts : List Token} {e : Expr}
    (h : Derives (.operation rank) ts e) {looser : Rank} (hlt : looser.tightness < rank.tightness) :
    Derives (.operand looser) ts e := by
  obtain ⟨next, hnext⟩ := Rank.exists_next? hlt
  have hstep := Rank.tightness_of_next? hnext
  exact .tighter hnext (operation_of_le h (by omega))

/-- An expression without operators between operands may be an operand of any of them. -/
theorem operand_of_unary {ts : List Token} {e : Expr} (h : Derives .unary ts e) (rank : Rank) :
    Derives (.operand rank) ts e := by
  have hproduct : Derives (.operand .product) ts e := .tightest rfl h
  cases rank with
  | product => exact hproduct
  | _ => exact operand_of_lt (.oneOperand hproduct) (by decide)

theorem expression_of_unary {ts : List Token} {e : Expr} (h : Derives .unary ts e) :
    Derives .expression ts e :=
  .value (operation_of_le (.oneOperand (operand_of_unary h .product)) (by decide))

/-- Of two operators side by side the tighter one is applied first, and of two that bind
alike the left one. -/
def group (a : Expr) (op₁ : BinaryOp) (position₁ : Position) (b : Expr) (op₂ : BinaryOp)
    (position₂ : Position) (c : Expr) : Expr :=
  if op₁.rank.tightness < op₂.rank.tightness then
    .binary a op₁ (.binary b op₂ c position₂) position₁
  else .binary (.binary a op₁ b position₁) op₂ c position₂

theorem expression_of_group {as bs cs : List Token} {a b c : Expr} (t₁ t₂ : Token)
    (op₁ op₂ : BinaryOp) (ha : Derives .unary as a) (hb : Derives .unary bs b)
    (hc : Derives .unary cs c) (h₁ : t₁.kind = .symbol op₁.symbol)
    (h₂ : t₂.kind = .symbol op₂.symbol) :
    Derives .expression (as ++ t₁ :: (bs ++ t₂ :: cs))
      (group a op₁ t₁.position b op₂ t₂.position c) := by
  have hrank₁ := Rank.accepts_iff.mpr (rfl : op₁.rank = op₁.rank)
  have hrank₂ := Rank.accepts_iff.mpr (rfl : op₂.rank = op₂.rank)
  have hc := operand_of_unary hc op₂.rank
  unfold group
  split
  · next hlt =>
    have hright := Derives.operation (.oneOperand (operand_of_unary hb _)) hrank₂ h₂ hc
    have hleft := Derives.oneOperand (operand_of_unary ha op₁.rank)
    have hwhole := Derives.operation hleft hrank₁ h₁ (operand_of_lt hright hlt)
    exact .value (operation_of_le hwhole (Nat.zero_le _))
  · next hle =>
    have hleft := Derives.operation (.oneOperand (operand_of_unary ha _)) hrank₁ h₁
      (operand_of_unary hb _)
    have hwhole := Derives.operation (operation_of_le hleft (Nat.le_of_not_lt hle)) hrank₂ h₂ hc
    rw [List.append_assoc] at hwhole
    exact .value (operation_of_le hwhole (Nat.zero_le _))

theorem group_functions {a b c : Expr} (ha : a.functions = []) (hb : b.functions = [])
    (hc : c.functions = []) (op₁ op₂ : BinaryOp) (position₁ position₂ : Position) :
    (group a op₁ position₁ b op₂ position₂ c).functions = [] := by
  unfold group
  split <;> simp [Expr.functions, ha, hb, hc]

/-- The parser accepts every expression without functions with the tree that the grammar
derives, in front of any token that does not go on with it. It may fail only where the nesting
becomes too deep, and never with two levels left for each token.

So of two operators the tighter one is applied first, and of two that bind alike the left one;
of two assignments the right one is carried out first; and parentheses around an expression,
wherever one may stand, leave no trace in the tree. -/
theorem expression_accepts :
    (∀ ts rest e depth, Derives .expression ts e → e.functions = [] →
      startsIn continuesExpression rest = false →
      Accepts depth (2 * ts.length) (ts ++ rest) full.expression e rest) ∧
    (∀ as bs cs rest a b c t₁ t₂ op₁ op₂ depth, Derives .unary as a → a.functions = [] →
      Derives .unary bs b → b.functions = [] → Derives .unary cs c → c.functions = [] →
      t₁.kind = .symbol op₁.symbol → t₂.kind = .symbol op₂.symbol →
      startsIn continuesExpression rest = false →
      Accepts depth (2 * (as ++ t₁ :: (bs ++ t₂ :: cs)).length)
        ((as ++ t₁ :: (bs ++ t₂ :: cs)) ++ rest) full.expression
        (group a op₁ t₁.position b op₂ t₂.position c) rest) ∧
    (∀ as bs cs rest a b c t₁ t₂ sign₁ sign₂ op₁? op₂? depth, Derives .unary as a →
      a.functions = [] → a.isPlace = true → Derives .unary bs b → b.functions = [] →
      b.isPlace = true → Derives .expression cs c → c.functions = [] →
      t₁.kind = .symbol sign₁ → assignment? sign₁ = some op₁? →
      t₂.kind = .symbol sign₂ → assignment? sign₂ = some op₂? →
      startsIn continuesExpression rest = false →
      Accepts depth (2 * (as ++ t₁ :: (bs ++ t₂ :: cs)).length)
        ((as ++ t₁ :: (bs ++ t₂ :: cs)) ++ rest) full.expression
        (.assign a op₁? (.assign b op₂? c t₂.position) t₁.position) rest) ∧
    (∀ ts e opening closing, Derives .expression ts e → opening.kind = .symbol .leftParen →
      closing.kind = .symbol .rightParen →
      Derives .primary (opening :: (ts ++ [closing])) e ∧
      ∀ rest depth, e.functions = [] → startsIn continuesExpression rest = false →
        Accepts depth (2 * (opening :: (ts ++ [closing])).length)
          ((opening :: (ts ++ [closing])) ++ rest) full.expression e rest) := by
  refine ⟨fun ts rest e depth h he hrest => full_accepts h he hrest depth, ?_, ?_, ?_⟩
  · intro as bs cs rest a b c t₁ t₂ op₁ op₂ depth ha hfa hb hfb hc hfc h₁ h₂ hrest
    have hwhole := expression_of_group t₁ t₂ op₁ op₂ ha hb hc h₁ h₂
    exact full_accepts hwhole (group_functions hfa hfb hfc ..) hrest depth
  · intro as bs cs rest a b c t₁ t₂ sign₁ sign₂ op₁? op₂? depth ha hfa hpa hb hfb hpb hc hfc h₁ hop₁
      h₂ hop₂ hrest
    have hdisjunction : ∀ {ts e}, Derives .unary ts e → Derives (.operation .disjunction) ts e :=
      fun h => .oneOperand (operand_of_unary h _)
    have hvalue := Derives.assignment (hdisjunction hb) hpb h₂ hop₂ hc
    have hwhole := Derives.assignment (hdisjunction ha) hpa h₁ hop₁ hvalue
    exact full_accepts hwhole (by simp [Expr.functions, hfa, hfb, hfc]) hrest depth
  · intro ts e opening closing h hopening hclosing
    have hgrouped := Derives.grouped hopening h hclosing
    exact ⟨hgrouped, fun rest depth he hrest =>
      full_accepts (expression_of_unary (.noUpdate (.base hgrouped))) he hrest depth⟩

/-- `x = (y) - -z++ * w` is read up to the semicolon, and so is `x - y * z` before a closing
parenthesis. -/
theorem expression_accepts_of_assignment :
    let name (text : String) (column : Nat) : Token := ⟨.identifier text, text, ⟨1, column⟩⟩
    let symbol (sign : Symbol) (column : Nat) : Token := ⟨.symbol sign, sign.spelling, ⟨1, column⟩⟩
    let x := Expr.reference "x" ⟨1, 1⟩
    let y := Expr.reference "y" ⟨1, 6⟩
    let negated := Expr.unary .negate (.update (.reference "z" ⟨1, 12⟩) .increment false ⟨1, 13⟩)
      ⟨1, 11⟩
    let difference := Expr.binary y .subtract (.binary negated .multiply (.reference "w" ⟨1, 18⟩)
      ⟨1, 16⟩) ⟨1, 9⟩
    let used := [name "x" 1, symbol .assign 3, symbol .leftParen 5, name "y" 6,
      symbol .rightParen 7, symbol .minus 9, symbol .minus 11, name "z" 12, symbol .plusPlus 13,
      symbol .star 16, name "w" 18]
    (Derives .expression used (.assign x none difference ⟨1, 3⟩) ∧
      full.expression ⟨used ++ [symbol .semicolon 19], 0⟩ =
        .ok (.assign x none difference ⟨1, 3⟩) ⟨[symbol .semicolon 19], 0⟩) ∧
    full.expression ⟨[name "x" 1, symbol .minus 3, name "y" 6, symbol .star 8, name "z" 12,
        symbol .rightParen 13], 0⟩ =
      .ok (.binary x .subtract (.binary y .multiply (.reference "z" ⟨1, 12⟩) ⟨1, 8⟩) ⟨1, 3⟩)
        ⟨[symbol .rightParen 13], 0⟩ := by
  intro name symbol x y negated difference used
  have hname : ∀ text column, Derives .unary [name text column] (.reference text ⟨1, column⟩) :=
    fun _ _ => .noUpdate (.base (.reference rfl))
  refine ⟨?_, ?_⟩
  · have hy : Derives .primary [symbol .leftParen 5, name "y" 6, symbol .rightParen 7] y :=
      .grouped rfl (expression_of_unary (hname "y" 6)) rfl
    have hz : Derives .unary [name "z" 12, symbol .plusPlus 13] _ :=
      .updateAfter (.base (.reference rfl)) rfl rfl rfl
    have hnegated : Derives .unary [symbol .minus 11, name "z" 12, symbol .plusPlus 13] negated :=
      .operator rfl rfl hz
    have hdifference : Derives .expression _ difference :=
      expression_of_group (symbol .minus 9) (symbol .star 16) .subtract .multiply
        (.noUpdate (.base hy)) hnegated (hname "w" 18) rfl rfl
    have hx := Derives.oneOperand (operand_of_unary (hname "x" 1) .disjunction)
    have hwhole := Derives.assignment (t := symbol .assign 3) hx rfl rfl rfl hdifference
    exact ⟨hwhole, (expression_accepts.1 used _ _ 0 hwhole rfl rfl).eq_ok (by decide)⟩
  · exact (expression_accepts.2.1 [name "x" 1] [name "y" 6] [name "z" 12] [symbol .rightParen 13] _
      _ _ (symbol .minus 3) (symbol .star 8) .subtract .multiply 0 (hname "x" 1) rfl (hname "y" 6)
      rfl (hname "z" 12) rfl rfl rfl rfl).eq_ok (by decide)

end Grammar

end TypedScript
