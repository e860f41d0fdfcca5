import TypedScript.Execution
import TypedScript.Proofs.Reading

/-!
# The grammar reads its phrases

Each parser of the grammar reads the phrase that it is named for, with one lemma for
each rule over the parsers that lie deeper (`Grammar.IsSound`). By induction on the levels
of nesting this holds of the whole grammar (`Grammar.parsers_read`), wherever a parser
begins and however many levels are open. A program is read up to the end marker, if
there is one.
-/

namespace TypedScript

namespace Grammar

open TypedScript.Parser

/-! ## Types -/

section Types

variable {inner : Parser TypeExpr} (hinner : Reads inner (Derives .type))

include hinner

theorem typeMark_reads : Reads (typeMark inner) (Derives (.after .colon .type)) :=
  .of_readsFrom fun _ => .eat
    (fun _ rest _ hkind => (hinner.readsFrom rest).map fun _ _ _ _ h => .behind hkind h)
    (.pure .notBehind)

theorem parameter_reads : Reads (parameter inner) (Derives .parameter) :=
  .of_readsFrom fun _ => .identifier fun _ rest _ _ hname =>
    ((mark_reads .question).readsFrom rest).bind fun _ rest _ _ hmark =>
      ((typeMark_reads hinner).readsFrom rest).map fun _ _ _ _ htype => .parameter hname hmark htype

theorem parameters_reads : Reads (parameters inner) (Derives .parameters) := by
  have hlist : Reads _ (Derives (.list .rightParen .parameter)) :=
    commaSeparated_reads (parameter_reads hinner) .rightParen
  exact .of_readsFrom fun _ => .expect _ fun _ rest _ hkind =>
    (hlist.readsFrom rest).mono fun _ _ h => .parameters hkind h

theorem functionType_reads : Reads (functionType inner) (Derives .primaryType) := by
  refine .of_readsFrom fun ts => .position ?_
  refine ((parameters_reads hinner).readsFrom ts).bind fun used rest params hts hparams => ?_
  cases used with
  | nil => exact absurd rfl (hparams.ne_nil rfl)
  | cons first used =>
    -- the type stands where its first token does
    subst hts
    exact .expect _ fun arrow rest _ harrow => (hinner.readsFrom rest).map fun _ _ _ _ hresult =>
      .functionType hparams harrow hresult

theorem member_reads : Reads (member inner) (Derives .member) := by
  refine .of_readsFrom fun _ => .propertyName fun t rest name _ hname => ?_
  refine ((mark_reads .question).readsFrom rest).bind fun qs rest isOptional _ hmark => ?_
  refine .sees (fun _ _ _ _ => .position ?_) ?_
  · refine ((parameters_reads hinner).readsFrom rest).bind fun used rest params hts hparams => ?_
    cases used with
    | nil => exact absurd rfl (hparams.ne_nil rfl)
    | cons first used =>
      subst hts
      exact ((typeMark_reads hinner).readsFrom rest).map fun _ _ _ _ hresult =>
        .methodMember hname hmark hparams hresult
  · exact .expect _ fun colon rest _ hcolon => (hinner.readsFrom rest).map fun _ _ _ _ htype =>
      .propertyMember hname hmark hcolon htype

theorem membersUntilBrace_reads (bound : Nat) :
    Reads (membersUntilBrace inner bound) (Derives .members) := by
  induction bound with
  | zero => exact .of_readsFrom fun _ => .throw _
  | succ bound ih =>
    refine .of_readsFrom fun ts => .eat (fun _ _ _ hkind => .pure (.lastMember hkind)) ?_
    refine ((member_reads hinner).readsFrom ts).bind fun used rest first _ hfirst => ?_
    refine .eat (fun t rest _ hkind => ?_) ?_
    · exact (ih.readsFrom rest).map fun us _ l _ hl =>
        .memberOf hfirst (.inl rfl) (.marked hkind) hl
    · exact ((mark_reads .comma).readsFrom rest).bind fun ss rest _ _ hmark =>
        (ih.readsFrom rest).map fun us _ l _ hl => .memberOf hfirst (.inr rfl) hmark hl

theorem members_reads : Reads (members inner) (Derives .members) :=
  .of_readsFrom fun ts => .remaining ((membersUntilBrace_reads hinner _).readsFrom ts)

theorem primaryType_reads : Reads (primaryType inner) (Derives .primaryType) := by
  refine .of_readsFrom fun ts => .peek? ?_
  cases ts with
  | nil => exact .throw _
  | cons t rest =>
    dsimp only [List.head?_cons]
    split
    · next name hkind => exact .skip (.pure (.namedType hkind))
    · next hkind => exact .skip (.pure (.absentType (.inl hkind)))
    · next hkind => exact .skip (.pure (.absentType (.inr hkind)))
    · next hkind =>
      exact .skip (((members_reads hinner).readsFrom rest).map fun _ _ _ _ h =>
        .objectType hkind h)
    · next hkind =>
      -- a function type or a type between parentheses: either is a primary type
      refine .seesFunctionType ((functionType_reads hinner).readsFrom _) ?_
      exact .skip ((hinner.readsFrom rest).bind fun _ rest _ _ htype =>
        .expect _ fun _ _ _ hclosing => .pure (.groupedType hkind htype hclosing))
    · exact .throw _

omit hinner in
/-- A chain of one member is that member, and otherwise the chain begins with its first
token. -/
theorem collapse_readsFrom {ts : List Token} {p : Parser (List TypeExpr)}
    {R : List Token → List TypeExpr → Prop} {Q : List Token → TypeExpr → Prop}
    {build : List TypeExpr → Position → TypeExpr} (hp : ReadsFrom ts p R)
    (hused : ∀ used l, R used l → used ≠ [] ∧ l ≠ [])
    (hone : ∀ used a, R used [a] → Q used a)
    (hmany : ∀ t used l, R (t :: used) l → 2 ≤ l.length → Q (t :: used) (build l t.position)) :
    ReadsFrom ts (p >>= fun l => pure (collapse build l (startOf ts))) Q := by
  refine hp.map fun used rest l hts hl => ?_
  obtain ⟨hne, hl'⟩ := hused used l hl
  cases used with
  | nil => exact absurd rfl hne
  | cons t used =>
    subst hts
    match l with
    | [] => exact absurd rfl hl'
    | [a] => exact hone _ a hl
    | a :: b :: l => exact hmany t used _ hl (by simp)

theorem intersectionType_reads : Reads (intersectionType inner) (Derives .intersectionType) := by
  have hchain : Reads _ (Derives (.chain .ampersand .primaryType)) :=
    separatedBy_reads (primaryType_reads hinner) .ampersand
  exact .of_readsFrom fun ts => .position <| collapse_readsFrom (hchain.readsFrom ts)
    (fun _ _ h => ⟨h.ne_nil rfl, h.chain_ne_nil⟩)
    (fun _ _ h => .oneIntersected h.of_chain_singleton)
    fun _ _ _ => .intersection

theorem unionType_reads : Reads (unionType inner) (Derives .type) := by
  have hchain : Reads _ (Derives (.chain .bar .intersectionType)) :=
    separatedBy_reads (intersectionType_reads hinner) .bar
  exact .of_readsFrom fun ts => .position <| .nested (collapse_readsFrom (hchain.readsFrom ts)
    (fun _ _ h => ⟨h.ne_nil rfl, h.chain_ne_nil⟩) (fun _ _ h => .oneType h.of_chain_singleton)
    fun _ _ _ => .union) _

end Types

theorem outOfLevels_reads {α : Type} {R : List Token → α → Prop} :
    Reads (outOfLevels : Parser α) R :=
  .of_readsFrom fun _ => .position (.throw _)

theorem typeUpTo_reads (levels : Nat) : Reads (typeUpTo levels) (Derives .type) := by
  induction levels with
  | zero => exact outOfLevels_reads
  | succ levels ih => exact unionType_reads ih

theorem typeExpr_reads : Reads typeExpr (Derives .type) :=
  typeUpTo_reads _

/-! ## Expressions -/

/-- Each parser of the grammar reads the phrase that it is named for. -/
structure IsSound (g : Grammar) : Prop where
  expression : Reads g.expression (Derives .expression)
  unary : Reads g.unary (Derives .unary)
  statement : Reads g.statement (Derives .statement)
  conditional : ∀ position, Reads (g.conditional position) (Derives (.conditional position))

/-! ### Operators -/

theorem ofSymbol?_eq_some {sign : Symbol} {op : BinaryOp} (h : BinaryOp.ofSymbol? sign = some op) :
    sign = op.symbol := by
  have hsymbol := List.find?_some h
  exact (of_decide_eq_true hsymbol).symm

/-- The next token denotes an accepted operator, and stays where it is. -/
theorem operatorAhead?_readsFrom {β : Type} {ts : List Token} {accepts : BinaryOp → Bool}
    {f : Option (BinaryOp × Position) → Parser β} {Q : List Token → β → Prop}
    (hsome : ∀ t rest op, ts = t :: rest → t.kind = .symbol op.symbol → accepts op = true →
      ReadsFrom ts (f (some (op, t.position))) Q)
    (hnone : ReadsFrom ts (f none) Q) : ReadsFrom ts (operatorAhead? accepts >>= f) Q := by
  unfold operatorAhead?
  rw [bind_assoc]
  refine .peek? ?_
  cases ts with
  | nil => exact hnone
  | cons t rest =>
    dsimp only [List.head?_cons]
    split
    · next sign hkind =>
      split
      · next op hop =>
        rw [ofSymbol?_eq_some hop] at hkind
        rw [pure_bind]
        split
        · next haccepts => exact hsome t rest op rfl hkind haccepts
        · exact hnone
      · exact hnone
    · exact hnone

section Operators

variable {operand : Parser Expr}

theorem operations_reads {rank : Rank} (hoperand : Reads operand (Derives (.operand rank)))
    (bound : Nat) : ∀ {used left}, Derives (.operation rank) used left →
      Reads (operations rank.accepts operand bound left) fun us e =>
        Derives (.operation rank) (used ++ us) e := by
  induction bound with
  | zero =>
    intro used left hleft
    exact .of_readsFrom fun _ => .stop hleft
  | succ bound ih =>
    intro used left hleft
    refine .of_readsFrom fun ts => operatorAhead?_readsFrom (fun t rest op hts hkind haccepts => ?_)
      (.stop hleft)
    subst hts
    refine .nested (.skip ((hoperand.readsFrom rest).bind fun us rest right _ hright => ?_)) _
    -- what has been read so far is the left operand of the next operator
    have hwhole : Derives (.operation rank) (used ++ t :: us) (.binary left op right t.position) :=
      .operation hleft haccepts hkind hright
    exact .goOn ((ih hwhole).readsFrom rest)

theorem leftAssociative_reads (rank : Rank) (hoperand : Reads operand (Derives (.operand rank))) :
    Reads (leftAssociative rank.accepts operand) (Derives (.operation rank)) :=
  .of_readsFrom fun ts => (hoperand.readsFrom ts).bind fun _ rest _ _ hleft =>
    .remaining ((operations_reads hoperand _ (.oneOperand hleft)).readsFrom rest)

end Operators

section Rules

variable {g : Grammar} (hg : g.IsSound)

include hg

theorem product_reads : Reads g.product (Derives (.operation .product)) :=
  leftAssociative_reads .product (hg.unary.mono fun _ _ => .tightest rfl)

theorem sum_reads : Reads g.sum (Derives (.operation .sum)) :=
  leftAssociative_reads .sum ((product_reads hg).mono fun _ _ => .tighter rfl)

theorem relation_reads : Reads g.relation (Derives (.operation .relation)) :=
  leftAssociative_reads .relation ((sum_reads hg).mono fun _ _ => .tighter rfl)

theorem equality_reads : Reads g.equality (Derives (.operation .equality)) :=
  leftAssociative_reads .equality ((relation_reads hg).mono fun _ _ => .tighter rfl)

theorem conjunction_reads : Reads g.conjunction (Derives (.operation .conjunction)) :=
  leftAssociative_reads .conjunction ((equality_reads hg).mono fun _ _ => .tighter rfl)

theorem disjunction_reads : Reads g.disjunction (Derives (.operation .disjunction)) :=
  leftAssociative_reads .disjunction ((conjunction_reads hg).mono fun _ _ => .tighter rfl)

omit hg in
theorem requirePlace_readsFrom {β : Type} {ts : List Token} {target : Expr} {f : Unit → Parser β}
    {Q : List Token → β → Prop} (h : target.isPlace = true → ReadsFrom ts (f ()) Q) :
    ReadsFrom ts (requirePlace target >>= f) Q := by
  unfold requirePlace
  split
  · next hplace => exact h hplace
  · exact .throw_bind _ _

theorem assignmentRule_reads : Reads g.assignmentRule (Derives .expression) := by
  refine .of_readsFrom fun ts => .position <| .nested ?_ _
  refine ((disjunction_reads hg).readsFrom ts).bind fun used rest target _ htarget => .peek? ?_
  -- an expression without an assignment, whether or not it is a place
  have halone : ReadsFrom rest (pure target : Parser Expr) fun us =>
      Derives .expression (used ++ us) :=
    .stop (.value htarget)
  cases rest with
  | nil => exact halone
  | cons t rest =>
    dsimp only [List.head?_cons]
    split
    · next sign hkind =>
      split
      · next op? hop =>
        refine .skip (requirePlace_readsFrom fun hplace => ?_)
        exact (hg.expression.readsFrom rest).map fun _ _ _ _ hvalue =>
          .assignment htarget hplace hkind hop hvalue
      · exact halone
    · exact halone

theorem statementsUntilBrace_reads (bound : Nat) :
    Reads (g.statementsUntilBrace bound) (Derives .statements) := by
  induction bound with
  | zero => exact .of_readsFrom fun _ => .throw _
  | succ bound ih =>
    refine .of_readsFrom fun ts => .eat (fun _ _ _ hkind => .pure (.noStatements hkind)) ?_
    -- a semicolon between two statements means nothing, but it is a token of the block
    refine .eat (fun _ rest _ hkind => (ih.readsFrom rest).mono fun _ _ => .strayInBlock hkind) ?_
    have hrow : ReadsFrom ts (do
        let first ← g.statement
        return first :: (← g.statementsUntilBrace bound)) (Derives .statements) :=
      (hg.statement.readsFrom ts).bind fun _ rest _ _ hfirst =>
        (ih.readsFrom rest).map fun _ _ _ _ hrest => .statementInBlock hfirst hrest
    refine .peek? ?_
    split
    · split
      · exact .throw_bind _ _
      · exact hrow
    · exact hrow

theorem block_reads : Reads g.block (Derives .block) :=
  .of_readsFrom fun _ => .expect _ fun _ rest _ hkind => .remaining <|
    ((statementsUntilBrace_reads hg _).readsFrom rest).map fun _ _ _ _ hl => .block hkind hl

/-- Whether the first token is a name. -/
def startsWithName (ts : List Token) : Bool :=
  match ts.head?.map Token.kind with
  | some (Token.Kind.identifier _) => true
  | _ => false

omit hg in
theorem optionalName_readsFrom {β : Type} {ts : List Token} {f : Option String → Parser β}
    {Q : List Token → β → Prop}
    (hsome : ∀ t rest name, ts = t :: rest → t.kind = .identifier name →
      startsWithName ts = true → ReadsFrom rest (f (some name)) fun us => Q (t :: us))
    (hnone : startsWithName ts = false → ReadsFrom ts (f none) Q) :
    ReadsFrom ts (optionalName >>= f) Q := by
  unfold optionalName
  rw [bind_assoc]
  refine .peek? ?_
  cases ts with
  | nil => exact hnone rfl
  | cons t rest =>
    dsimp only [List.head?_cons]
    unfold startsWithName at hsome hnone
    split
    · next name hkind =>
      exact .skip (f := fun _ => f (some name)) (hsome t rest name rfl hkind (by simp [hkind]))
    · next hkind =>
      refine hnone ?_
      simp only [List.head?_cons, Option.map_some]
      split
      · next name heq => exact absurd (Option.some.inj heq) (hkind name)
      · rfl

/-- The name of a function is the token behind the first word, if that is a name. -/
theorem function_readsFrom (word : Token) (rest : List Token) :
    ReadsFrom (word :: rest) g.function (Derives (.function (startsWithName rest))) := by
  refine .expectWord fun t rest' hts hkind => ?_
  cases hts
  -- the parts from the parameters on are the same with a name as without one
  have hparts : ∀ {ts : List Token} {name? : Option String} {Q : List Token → Function → Prop},
      (∀ ps rs bs params result? body, Derives .parameters ps params →
        Derives (.after .colon .type) rs result? → Derives .block bs body →
        Q (ps ++ (rs ++ bs)) ⟨name?, params, result?, body, word.position⟩) →
      ReadsFrom ts (do
        let params ← parameters typeExpr
        let result? ← typeMark typeExpr
        let body ← g.block
        return { name?, params, result?, body, position := word.position }) Q :=
    fun hQ => ((parameters_reads typeExpr_reads).readsFrom _).bind fun _ _ _ _ hparams =>
      ((typeMark_reads typeExpr_reads).readsFrom _).bind fun _ _ _ _ hresult =>
        ((block_reads hg).readsFrom _).map fun _ _ _ _ hbody => hQ _ _ _ _ _ _ hparams hresult hbody
  refine optionalName_readsFrom (fun t rest' name _ hname hstarts => hparts ?_)
    (fun hstarts => hparts ?_)
  · rw [hstarts]
    exact fun _ _ _ _ _ _ => .namedFunction hkind hname
  · rw [hstarts]
    exact fun _ _ _ _ _ _ => .namelessFunction hkind

theorem function_reads :
    Reads g.function fun used f => ∃ isNamed, Derives (.function isNamed) used f := by
  refine .of_readsFrom fun ts => ?_
  cases ts with
  | nil => exact fun depth a c hp => by cases hp
  | cons word rest => exact (function_readsFrom hg word rest).mono fun _ _ h => ⟨_, h⟩

theorem field_reads : Reads g.field (Derives .field) :=
  .of_readsFrom fun _ => .propertyName fun _ _ _ _ hname => .expect _ fun _ rest _ hcolon =>
    (hg.expression.readsFrom rest).map fun _ _ _ _ hvalue => .field hname hcolon hvalue

theorem primary_reads : Reads g.primary (Derives .primary) := by
  refine .of_readsFrom fun ts => .peek? ?_
  cases ts with
  | nil => exact .throw _
  | cons t rest =>
    -- five kinds of tokens are literals
    have hliteral : ∀ value, t.literal? = some value → ReadsFrom (t :: rest) (do
        skip
        return Expr.literal value t.position) (Derives .primary) :=
      fun value hvalue => .skip (.pure (.literal hvalue))
    have hfields : Reads _ (Derives (.list .rightBrace .field)) :=
      commaSeparated_reads (field_reads hg) .rightBrace
    unfold Token.literal? at hliteral
    dsimp only [List.head?_cons]
    split
    · next value hkind => exact hliteral _ (by rw [hkind])
    · next value hkind => exact hliteral _ (by rw [hkind])
    · next value hkind => exact hliteral _ (by rw [hkind])
    · next hkind => exact hliteral _ (by rw [hkind])
    · next hkind => exact hliteral _ (by rw [hkind])
    · next name hkind => exact .skip (.pure (.reference hkind))
    · next hkind => exact .skip (.pure (.receiver hkind))
    · next hkind =>
      exact .skip ((hg.expression.readsFrom rest).bind fun _ _ _ _ hinner =>
        .expect _ fun _ _ _ hclosing => .pure (.grouped hkind hinner hclosing))
    · next hkind =>
      exact .skip ((hfields.readsFrom rest).map fun _ _ _ _ hl => .object hkind hl)
    · exact (function_readsFrom hg t rest).map fun _ _ _ _ hf => .functionValue hf
    · exact .throw _

theorem trailers_reads (bound : Nat) : ∀ {used base}, Derives .trailed used base →
    Reads (g.trailers bound base) fun us e => Derives .unary (used ++ us) e := by
  -- an operand may end behind any of its trailers
  have hnone : ∀ {ts used base}, Derives .trailed used base →
      ReadsFrom ts (pure base : Parser Expr) fun us => Derives .unary (used ++ us) :=
    fun hbase => .stop (.noUpdate hbase)
  have harguments : Reads _ (Derives (.list .rightParen .expression)) :=
    commaSeparated_reads hg.expression .rightParen
  induction bound with
  | zero => exact fun hbase => .of_readsFrom fun _ => hnone hbase
  | succ bound ih =>
    intro used base hbase
    refine .of_readsFrom fun ts => .peek? ?_
    cases ts with
    | nil => exact hnone hbase
    | cons t rest =>
      dsimp only [List.head?_cons]
      split
      · next hkind =>
        refine .nested (.skip ((harguments.readsFrom rest).bind
          fun us rest arguments _ hl => ?_)) _
        have hcall : Derives .trailed (used ++ t :: us) (.call base arguments t.position) :=
          .call hbase hkind hl
        exact .goOn ((ih hcall).readsFrom rest)
      · next hkind =>
        refine .nested (.skip (.propertyName fun t' rest name _ hname => ?_)) _
        have hproperty : Derives .trailed (used ++ [t, t']) (.member base name t'.position) :=
          .property hbase hkind hname
        exact .goOn ((ih hproperty).readsFrom rest)
      · next sign _ _ hkind =>
        split
        · next op hop =>
          exact .skip (requirePlace_readsFrom fun hplace =>
            .pure (.updateAfter hbase hplace hkind hop))
        · exact hnone hbase
      · exact hnone hbase

theorem unaryRule_reads : Reads g.unaryRule (Derives .unary) := by
  refine .of_readsFrom fun ts => .peek? ?_
  cases ts with
  | nil => exact .throw _
  | cons t rest =>
    have htrailed : ReadsFrom (t :: rest) (do
        let base ← g.primary
        g.trailers (← remaining) base) (Derives .unary) :=
      ((primary_reads hg).readsFrom _).bind fun _ rest _ _ hbase =>
        .remaining ((trailers_reads hg _ (.base hbase)).readsFrom rest)
    refine .nested ?_ _
    split
    · next sign hkind =>
      split
      · next op hop =>
        exact .skip ((hg.unary.readsFrom rest).map fun _ _ _ _ he => .operator hkind hop he)
      · next op _ hop =>
        exact .skip ((hg.unary.readsFrom rest).bind fun us _ _ _ htarget =>
          requirePlace_readsFrom fun hplace =>
            .pure ((List.append_nil us).symm ▸ .updateBefore hkind hop htarget hplace))
      · exact htrailed
    · exact htrailed

/-! ## Statements -/

theorem body_reads : Reads g.body (Derives .body) := by
  refine .of_readsFrom fun ts => .sees
    (fun _ _ _ _ => ((block_reads hg).readsFrom ts).mono fun _ _ => .bodyBlock) (.position ?_)
  -- the position of the block was read ahead of its statement, which has a first token
  refine (hg.statement.readsFrom ts).map fun used rest s hts hs => ?_
  cases used with
  | nil => exact absurd rfl (hs.ne_nil rfl)
  | cons t used =>
    subst hts
    exact .bodyStatement hs

omit hg in
theorem terminated_readsFrom {ts : List Token} {statement : Parser Stmt}
    (h : ReadsFrom ts statement (Derives .simple)) :
    ReadsFrom ts (terminated statement) (Derives .statement) :=
  h.bind fun _ rest _ _ hs =>
    ((mark_reads .semicolon).readsFrom rest).map fun _ _ _ _ hmark => .ended hs hmark

theorem initialValue_reads : Reads g.initialValue (Derives (.after .assign .expression)) :=
  .of_readsFrom fun _ => .eat
    (fun _ rest _ hkind => (hg.expression.readsFrom rest).map fun _ _ _ _ h => .behind hkind h)
    (.pure .notBehind)

theorem variableRule_reads : Reads g.variableRule (Derives .variable) :=
  .of_readsFrom fun _ => .expectWord fun _ _ _ hkind => .identifier fun _ rest _ _ hname =>
    ((typeMark_reads typeExpr_reads).readsFrom rest).bind fun _ rest _ _ htype =>
      ((initialValue_reads hg).readsFrom rest).map fun _ _ _ _ hvalue =>
        .variable hkind hname htype hvalue

/-- An expression that stands for a statement begins with its first token. -/
theorem expressionRule_readsFrom {ts : List Token} {Q : List Token → Stmt → Prop}
    (h : ∀ t used e, Derives .expression (t :: used) e → Q (t :: used) (.expression e t.position)) :
    ReadsFrom ts g.expressionRule Q := by
  refine .position ((hg.expression.readsFrom ts).map fun used rest e hts he => ?_)
  cases used with
  | nil => exact absurd rfl (he.ne_nil rfl)
  | cons t used =>
    subst hts
    exact h t used e he

theorem returnRule_reads : Reads g.returnRule (Derives .simple) := by
  refine .of_readsFrom fun _ => .expectWord fun _ rest _ hkind => .peek? ?_
  dsimp only
  split
  · exact .pure (.giveBack hkind .leftOut)
  · exact (hg.expression.readsFrom rest).map fun _ _ _ _ h => .giveBack hkind (.given h)

theorem expressionUnless_reads (sign : Symbol) :
    Reads (g.expressionUnless sign) (Derives (.optional .expression)) :=
  .of_readsFrom fun ts => .sees (fun _ _ _ _ => .pure .leftOut)
    ((hg.expression.readsFrom ts).map fun _ _ _ _ h => .given h)

theorem loopStart_reads : Reads g.loopStart (Derives .loopStart) :=
  .of_readsFrom fun ts => .sees (fun _ _ _ _ => .pure .noStart) <| .seesWord
    (fun _ _ _ _ => ((variableRule_reads hg).readsFrom ts).map fun _ _ _ _ => .startVariable) <|
    (expressionRule_readsFrom hg (Q := fun used s => Derives .loopStart used (some s))
      fun _ _ _ => .startExpression).map fun _ _ _ _ h => h

theorem loopRule_reads : Reads g.loopRule (Derives .statement) :=
  .of_readsFrom fun _ => .expectWord fun _ _ _ hkind => .expect _ fun _ rest _ hopening =>
    ((loopStart_reads hg).readsFrom rest).bind fun _ _ _ _ hinit =>
    .expect _ fun _ rest _ hfirst =>
    ((expressionUnless_reads hg _).readsFrom rest).bind fun _ _ _ _ hcondition =>
    .expect _ fun _ rest _ hsecond =>
    ((expressionUnless_reads hg _).readsFrom rest).bind fun _ _ _ _ hupdate =>
    .expect _ fun _ rest _ hclosing =>
    ((body_reads hg).readsFrom rest).map fun _ _ _ _ hbody =>
      .loop hkind hopening hinit hfirst hcondition hsecond hupdate hclosing hbody

theorem whileRule_reads : Reads g.whileRule (Derives .statement) :=
  .of_readsFrom fun _ => .expectWord fun _ _ _ hkind => .expect _ fun _ rest _ hopening =>
    (hg.expression.readsFrom rest).bind fun _ _ _ _ hcondition =>
    .expect _ fun _ rest _ hclosing =>
    ((body_reads hg).readsFrom rest).map fun _ _ _ _ hbody =>
      .repeatWhile hkind hopening hcondition hclosing hbody

theorem conditionalRule_reads (position : Position) :
    Reads (g.conditionalRule position) (Derives (.conditional position)) := by
  refine .of_readsFrom fun _ => .nested (.expect _ fun opening rest _ hopening => ?_) _
  refine (hg.expression.readsFrom rest).bind fun cs _ condition _ hcondition => ?_
  refine .expect _ fun closing rest _ hclosing => ?_
  refine ((body_reads hg).readsFrom rest).bind fun bs _ body _ hbody => ?_
  -- what stands behind `else` decides only about the last part
  have hwhole : ∀ {os otherwise?}, Derives .alternative os otherwise? →
      Derives (.conditional position) (opening :: (cs ++ closing :: (bs ++ os)))
        (.branch condition body otherwise? position) :=
    .conditional hopening hcondition hclosing hbody
  refine .eatWord (fun elseWord rest _ helse => .peek? ?_) (.pure (hwhole .noAlternative))
  split
  · next t hpeek =>
    split
    · next hif =>
      cases rest with
      | nil => cases hpeek
      | cons t' rest =>
        cases hpeek
        exact .skip (((hg.conditional _).readsFrom rest).map fun _ _ _ _ hs =>
          hwhole (.otherConditional helse (ReadsFrom.isKeyword_iff.mp hif) hs))
    · exact ((body_reads hg).readsFrom rest).map fun _ _ _ _ hb => hwhole (.otherBody helse hb)
  · exact ((body_reads hg).readsFrom rest).map fun _ _ _ _ hb => hwhole (.otherBody helse hb)

omit hg in
theorem seesNameSecond_readsFrom {β : Type} {t : Token} {rest : List Token}
    {f : Bool → Parser β} {Q : List Token → β → Prop}
    (h : ReadsFrom (t :: rest) (f (startsWithName rest)) Q) :
    ReadsFrom (t :: rest) (seesNameSecond >>= f) Q := by
  intro depth
  have hsees : (seesNameSecond >>= f) ⟨t :: rest, depth⟩ =
      f (startsWithName rest) ⟨t :: rest, depth⟩ := by
    cases rest with
    | nil => rfl
    | cons t' rest =>
      obtain ⟨kind, lexeme, position⟩ := t'
      cases kind <;> rfl
  rw [hsees]
  exact h depth

theorem statementRule_reads : Reads g.statementRule (Derives .statement) := by
  refine .of_readsFrom fun ts => .peek? ?_
  cases ts with
  | nil => exact .throw _
  | cons t rest =>
    have hexpression : ReadsFrom (t :: rest) (terminated g.expressionRule) (Derives .statement) :=
      terminated_readsFrom (expressionRule_readsFrom hg fun _ _ _ => .expressionAlone)
    refine .nested ?_ _
    split
    · exact terminated_readsFrom
        (((variableRule_reads hg).readsFrom _).mono fun _ _ => .variableAlone)
    · -- with a name it is a declaration, without one the first operand of an expression
      refine seesNameSecond_readsFrom ?_
      have hfunction := function_readsFrom hg t rest
      split
      · next hnamed =>
        rw [hnamed] at hfunction
        exact terminated_readsFrom (hfunction.map fun _ _ _ _ => .functionAlone)
      · exact hexpression
    · exact terminated_readsFrom ((returnRule_reads hg).readsFrom _)
    · next hkind =>
      exact .skip (((hg.conditional _).readsFrom rest).mono fun _ _ => .branch hkind)
    · exact (loopRule_reads hg).readsFrom _
    · exact (whileRule_reads hg).readsFrom _
    · exact ((block_reads hg).readsFrom _).map fun _ _ _ _ => .blockAlone
    · exact .throw _
    · exact .throw _
    · exact hexpression

end Rules

/-! ## Any number of levels -/

theorem upTo_isSound (levels : Nat) : (upTo levels).IsSound := by
  induction levels with
  | zero =>
    -- without any level no parser gives a value
    exact ⟨outOfLevels_reads, outOfLevels_reads, outOfLevels_reads, fun _ => outOfLevels_reads⟩
  | succ levels ih =>
    exact ⟨assignmentRule_reads ih, unaryRule_reads ih, statementRule_reads ih,
      conditionalRule_reads ih⟩

theorem full_isSound : full.IsSound :=
  upTo_isSound _

/-! ## Programs -/

theorem interface_reads : Reads interface (Derives .interface) := by
  refine .of_readsFrom fun _ => .expectWord fun word _ _ hkind =>
    .identifier fun t rest name _ hname => .peek? ?_
  cases rest with
  | nil => exact .throw _
  | cons opening rest =>
    refine .skip ?_
    split
    · next hopening =>
      exact ((members_reads typeExpr_reads).readsFrom rest).map fun _ _ _ _ hl =>
        .interface hkind hname (ReadsFrom.isSymbol_iff.mp hopening) hl
    · exact .throw_bind _ _

theorem exports_reads : Reads exports (Derives .exports) := by
  have hname : Reads identifier (Derives .name) := by
    refine .of_readsFrom fun ts => ?_
    rw [← bind_pure identifier]
    exact .identifier fun _ _ _ _ hkind => .pure (.name hkind)
  have hnames : Reads _ (Derives (.list .rightBrace .name)) :=
    commaSeparated_reads hname .rightBrace
  exact .of_readsFrom fun _ => .expectWord fun _ _ _ hkind => .expect _ fun _ rest _ hopening =>
    (hnames.readsFrom rest).bind fun _ rest _ _ hl =>
      ((mark_reads .semicolon).readsFrom rest).map fun _ _ _ _ hmark =>
        .exports hkind hopening hl hmark

/-- No token is left but the end marker and what stands behind it. -/
def isAtEnd (ts : List Token) : Bool :=
  ts.head?.all (·.kind.isEnd)

/-- The statements of a program reach the end if the bound is large enough for it: every
item takes a token. -/
theorem programStatements_readsFrom {g : Grammar} (hg : g.IsSound) (bound : Nat) :
    ∀ ts : List Token, ts.length ≤ bound → ReadsFrom ts (programStatements g bound) fun used l =>
      Derives .items used l ∧ ∀ rest, ts = used ++ rest → isAtEnd rest = true := by
  have hend : ∀ {ts : List Token}, isAtEnd ts = true →
      ReadsFrom ts (pure [] : Parser (List Stmt)) fun used l =>
        Derives .items used l ∧ ∀ rest, ts = used ++ rest → isAtEnd rest = true :=
    fun {ts} hends => .pure ⟨.noItems, fun rest (hts : ts = rest) => hts ▸ hends⟩
  induction bound with
  | zero =>
    intro ts hlength
    cases ts with
    | nil => exact hend rfl
    | cons t rest => simp at hlength
  | succ bound ih =>
    intro ts hlength
    -- behind an item that takes a token, the bound is large enough for the rest
    have hrest : ∀ {first rest : List Token}, first ≠ [] → ts = first ++ rest →
        ReadsFrom rest (programStatements g bound) fun us l => Derives .items us l ∧
          ∀ left, ts = (first ++ us) ++ left → isAtEnd left = true := by
      intro first rest hfirst hts
      have hshorter : rest.length ≤ bound := by
        have hpos := List.length_pos_iff.mpr hfirst
        rw [hts, List.length_append] at hlength
        omega
      refine (ih rest hshorter).mono fun us l hl => ⟨hl.1, fun left hleft => hl.2 left ?_⟩
      rw [hts, List.append_assoc] at hleft
      exact List.append_cancel_left hleft
    refine .peek? ?_
    cases ts with
    | nil => exact hend rfl
    | cons t rest =>
      dsimp only [List.head?_cons]
      split
      · next hkind => exact hend (by simp [isAtEnd, hkind, Token.Kind.isEnd])
      · next hkind =>
        have hbehind := hrest (List.cons_ne_nil t []) (List.singleton_append ..).symm
        exact .skip (hbehind.mono fun us l hl => ⟨.stray hkind hl.1, hl.2⟩)
      · refine (interface_reads.readsFrom _).bind fun used rest declaration hts hfirst => ?_
        exact (hrest (hfirst.ne_nil rfl) hts).map fun us _ l _ hl =>
          ⟨.interfaceItem hfirst hl.1, hl.2⟩
      · refine (exports_reads.readsFrom _).bind fun used rest _ hts hfirst => ?_
        exact (hrest (hfirst.ne_nil rfl) hts).mono fun us l hl => ⟨.exportsItem hfirst hl.1, hl.2⟩
      · refine (hg.statement.readsFrom _).bind fun used rest s hts hfirst => ?_
        exact (hrest (hfirst.ne_nil rfl) hts).map fun us _ l _ hl =>
          ⟨.statementItem hfirst hl.1, hl.2⟩

/-- A program is read to the end. -/
theorem program_readsFrom (ts : List Token) : ReadsFrom ts program fun used tree =>
    Derives .program used tree ∧ ∀ rest, ts = used ++ rest → isAtEnd rest = true :=
  .remaining ((programStatements_readsFrom full_isSound _ ts (Nat.le_refl _)).map
    fun _ _ _ _ hl => ⟨.program hl.1, hl.2⟩)

/-- Every parser of the language is sound: where it gives a tree, the tokens that it has
taken from the front, all of them and in their order, make up the phrase and mean the tree.
Of a program no token is left but the end marker and what stands behind it. -/
theorem parsers_read :
    (∀ ts, ReadsFrom ts program fun used tree =>
      Derives .program used tree ∧ ∀ rest, ts = used ++ rest → isAtEnd rest = true) ∧
    Reads interface (Derives .interface) ∧
    Reads exports (Derives .exports) ∧
    Reads full.statement (Derives .statement) ∧
    Reads full.variableRule (Derives .variable) ∧
    Reads full.returnRule (Derives .simple) ∧
    (∀ position, Reads (full.conditional position) (Derives (.conditional position))) ∧
    Reads full.loopRule (Derives .statement) ∧
    Reads full.whileRule (Derives .statement) ∧
    Reads full.block (Derives .block) ∧
    Reads full.body (Derives .body) ∧
    (Reads full.function fun used f => ∃ isNamed, Derives (.function isNamed) used f) ∧
    Reads full.expression (Derives .expression) ∧
    Reads full.disjunction (Derives (.operation .disjunction)) ∧
    Reads full.conjunction (Derives (.operation .conjunction)) ∧
    Reads full.equality (Derives (.operation .equality)) ∧
    Reads full.relation (Derives (.operation .relation)) ∧
    Reads full.sum (Derives (.operation .sum)) ∧
    Reads full.product (Derives (.operation .product)) ∧
    Reads full.unary (Derives .unary) ∧
    (∀ bound used base, Derives .trailed used base →
      Reads (full.trailers bound base) fun us tree => Derives .unary (used ++ us) tree) ∧
    Reads full.primary (Derives .primary) ∧
    Reads (members typeExpr) (Derives .members) ∧
    Reads (parameters typeExpr) (Derives .parameters) ∧
    Reads (primaryType typeExpr) (Derives .primaryType) ∧
    Reads (intersectionType typeExpr) (Derives .intersectionType) ∧
    Reads typeExpr (Derives .type) :=
  have hfull := full_isSound
  ⟨program_readsFrom, interface_reads, exports_reads, hfull.statement, variableRule_reads hfull,
    returnRule_reads hfull, hfull.conditional, loopRule_reads hfull, whileRule_reads hfull,
    block_reads hfull, body_reads hfull, function_reads hfull, hfull.expression,
    disjunction_reads hfull, conjunction_reads hfull, equality_reads hfull, relation_reads hfull,
    sum_reads hfull, product_reads hfull, hfull.unary, fun bound _ _ => trailers_reads hfull bound,
    primary_reads hfull, members_reads typeExpr_reads, parameters_reads typeExpr_reads,
    primaryType_reads typeExpr_reads, intersectionType_reads typeExpr_reads, typeExpr_reads⟩

/-- Of a conditional with another one behind `else`, all tokens but the end marker are
read. -/
theorem parsers_read_of_else_if : ∃ tokens tree c used,
    Token.ofSource? "if (a) b; else if (c) {; d++ }" = .ok tokens ∧
    program ⟨tokens, 0⟩ = .ok tree c ∧ tokens = used ++ c.tokens ∧ used.length = 16 ∧
    Derives .program used tree := by
  have hread : (Token.ofSource? "if (a) b; else if (c) {; d++ }").toOption.any
      (fun tokens => match program ⟨tokens, 0⟩ with
        | .ok _ c => tokens.length = 17 && c.tokens.length = 1
        | .error _ _ => false) = true := by
    decide +kernel
  cases htokens : Token.ofSource? "if (a) b; else if (c) {; d++ }" with
  | error fault => rw [htokens] at hread; cases hread
  | ok tokens =>
    rw [htokens] at hread
    cases htree : program ⟨tokens, 0⟩ with
    | error fault c => simp [Except.toOption, htree] at hread
    | ok tree c =>
      obtain ⟨hlength, hleft⟩ : tokens.length = 17 ∧ c.tokens.length = 1 := by
        simpa [Except.toOption, htree] using hread
      obtain ⟨used, hused, hderives, -⟩ := parsers_read.1 tokens 0 tree c htree
      have hsum := congrArg List.length hused
      rw [List.length_append] at hsum
      exact ⟨tokens, tree, c, used, rfl, htree, hused, by omega, hderives⟩

end Grammar

end TypedScript
