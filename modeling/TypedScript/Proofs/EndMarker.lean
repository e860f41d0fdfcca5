import TypedScript.Proofs.Moving
import TypedScript.Proofs.Recognizing
import TypedScript.Proofs.Stopping

/-!
# Parsing stops at the end marker

Each rule of the grammar stops in front of the end marker or blames a token, provided that
the parsers that lie deeper do (`Grammar.IsStopping`). By induction on the levels of
nesting this holds of the whole grammar. That the items of each loop take a token is known
from what they read.

Where a fault stands is a matter of the tokens alone. There is one position that parsers
know of without a token, the start of a text. But the tokens can be moved away from it
before they are parsed, and a fault that is blamed on a token moves along with it. So the
parsers behave on all lists of tokens as if there were no such position
(`Grammar.stops_at_marker`).
-/

namespace TypedScript

namespace Grammar

open TypedScript.Parser

variable {all extra : List Token}

/-- What reads a phrase that is never empty takes a token. -/
theorem consumes_of_reads (phrase : Phrase) {p : Parser phrase.Tree}
    (h : Reads p (Derives phrase)) (hphrase : phrase.mayBeEmpty = false) : Consumes p :=
  h.consumes fun _ _ hderives => hderives.ne_nil hphrase

/-! ## Types -/

/-- The search for the closing parenthesis ends at the end marker. -/
theorem closesBeforeArrow_append {ts : List Token} (hts : EndsOnce ts) :
    ∀ depth, closesBeforeArrow depth (ts ++ extra) = closesBeforeArrow depth ts := by
  induction hts with
  | @last t hend =>
    intro depth
    have hkind := isEnd_eq_true_iff.mp hend
    simp only [List.singleton_append, closesBeforeArrow, hkind]
  | @cons t rest _ hrest ih =>
    intro depth
    simp only [List.cons_append, closesBeforeArrow, ih]
    -- behind a parenthesis there is at least the marker
    cases hrest <;> rfl

theorem seesFunctionType_stopsFrom {β : Type} {ts : List Token} {f f' : Bool → Parser β}
    {R : β → Prop} (h : ∀ b, StopsFrom all extra ts (f b) (f' b) R) :
    StopsFrom all extra ts (seesFunctionType >>= f) (seesFunctionType >>= f') R := by
  intro hts depth
  show StopsWith all extra ts R (f (closesBeforeArrow 0 ts) ⟨ts, depth⟩)
    (f' (closesBeforeArrow 0 (ts ++ extra)) ⟨ts ++ extra, depth⟩)
  rw [closesBeforeArrow_append hts.endsOnce]
  exact h _ hts depth

section Types

variable {inner : Parser TypeExpr} (hinner : Stops all extra inner fun _ => True)
  (hreads : Reads inner (Derives .type))

section Parts

include hinner

theorem typeMark_stops : Stops all extra (typeMark inner) fun _ => True :=
  fun _ => .eat (fun _ rest _ => (hinner rest).map fun _ _ => trivial) (.pure trivial)

theorem parameter_stops : Stops all extra (parameter inner) fun _ => True :=
  fun _ => .identifier fun _ _ _ _ _ => (StopsFrom.mark .question).bind fun rest _ _ _ =>
    (typeMark_stops hinner rest).map fun _ _ => trivial

end Parts

include hinner hreads

theorem parameters_stops : Stops all extra (parameters inner) fun _ => True :=
  fun _ => .expect _ fun _ rest _ _ => commaSeparated_stops (parameter_stops hinner)
    (consumes_of_reads .parameter (parameter_reads hreads) rfl) .rightParen rest

theorem functionType_stops : Stops all extra (functionType inner) fun _ => True :=
  fun ts => .position fun _ _ => (parameters_stops hinner hreads ts).bind fun _ _ _ _ =>
    .expect _ fun _ rest _ _ => (hinner rest).map fun _ _ => trivial

theorem member_stops : Stops all extra (member inner) fun _ => True := by
  refine fun ts => .propertyName fun t rest name _ _ => (StopsFrom.mark .question).bind
    fun rest isOptional _ _ => .sees fun t' _ _ => ?_
  split
  · refine .position fun _ _ => (parameters_stops hinner hreads rest).bind fun rest _ _ _ => ?_
    exact (typeMark_stops hinner rest).map fun _ _ => trivial
  · exact .expect _ fun _ rest _ _ => (hinner rest).map fun _ _ => trivial

theorem membersUntilBrace_stops (bound : Nat) : ∀ bound' ts, ts.length < bound →
    ts.length < bound' → StopsFrom all extra ts (membersUntilBrace inner bound)
      (membersUntilBrace inner bound') fun _ => True := by
  induction bound with
  | zero => exact fun _ _ hbound => absurd hbound (Nat.not_lt_zero _)
  | succ bound ih =>
    intro bound' ts hbound hbound'
    cases bound' with
    | zero => exact absurd hbound' (Nat.not_lt_zero _)
    | succ bound' =>
      refine .eat (fun _ _ _ => .pure trivial) ?_
      refine (member_stops hinner hreads ts).bind_consuming
        (consumes_of_reads .member (member_reads hreads) rfl) fun rest first hrest _ => ?_
      -- with or without a separator there are fewer tokens than before the member
      have hgoOn : ∀ left : List Token, left.length ≤ rest.length → StopsFrom all extra left
          (do return first :: (← membersUntilBrace inner bound))
          (do return first :: (← membersUntilBrace inner bound')) fun _ => True :=
        fun left hleft => (ih bound' left (by omega) (by omega)).map fun _ _ => trivial
      refine .eat (fun t left hleft => ?_) ((StopsFrom.mark .comma).bind fun left _ hsuffix _ =>
        hgoOn left hsuffix.length_le)
      subst hleft
      exact hgoOn left (by simp)

theorem members_stops : Stops all extra (members inner) fun _ => True :=
  fun ts => .remaining <| membersUntilBrace_stops hinner hreads _ _ ts (Nat.lt_succ_self _)
    (by rw [List.length_append]; omega)

theorem primaryType_stops : Stops all extra (primaryType inner) fun _ => True := by
  refine fun ts => .peek? fun t rest hts ht => ?_
  subst hts
  have hskip : ∀ {f f' : Unit → Parser TypeExpr}, t.kind ≠ .endOfInput →
      StopsFrom all extra rest (f ()) (f' ()) (fun _ => True) →
      StopsFrom all extra (t :: rest) (skip >>= f) (skip >>= f') fun _ => True :=
    fun hkind => .skip (Bool.eq_false_iff.mpr fun hend => hkind (isEnd_eq_true_iff.mp hend))
  dsimp only
  split
  · next hkind => exact hskip (by simp [hkind]) (.pure trivial)
  · next hkind => exact hskip (by simp [hkind]) (.pure trivial)
  · next hkind => exact hskip (by simp [hkind]) (.pure trivial)
  · next hkind =>
    exact hskip (by simp [hkind]) ((members_stops hinner hreads rest).map fun _ _ => trivial)
  · next hkind =>
    refine seesFunctionType_stopsFrom fun isFunction => ?_
    split
    · exact functionType_stops hinner hreads _
    · exact hskip (by simp [hkind]) ((hinner rest).bind fun _ _ _ _ =>
        .expect _ fun _ _ _ _ => .pure trivial)
  · exact .throw (blames_unexpected ht _)

theorem intersectionType_stops : Stops all extra (intersectionType inner) fun _ => True :=
  fun ts => .position fun _ _ =>
    (separatedBy_stops (primaryType_stops hinner hreads) .ampersand ts).map fun _ _ => trivial

theorem unionType_stops : Stops all extra (unionType inner) fun _ => True :=
  fun ts => .position fun t ht => .nested
    ((separatedBy_stops (intersectionType_stops hinner hreads) .bar ts).map fun _ _ => trivial)
    ⟨t, ht, rfl⟩

end Types

theorem typeUpTo_stops (levels : Nat) : Stops all extra (typeUpTo levels) fun _ => True := by
  induction levels with
  | zero => exact fun _ => .outOfLevels
  | succ levels ih => exact unionType_stops ih (typeUpTo_reads levels)

theorem typeExpr_stops : Stops all extra typeExpr fun _ => True :=
  typeUpTo_stops _

/-! ## Expressions -/

/-- The expression is blamed at a token. -/
def StandsAt (all : List Token) (e : Expr) : Prop :=
  StandsInside all e.position

/-- Each parser of the grammar stops in front of the end marker. -/
structure IsStopping (all extra : List Token) (g : Grammar) : Prop where
  isSound : g.IsSound
  expression : Stops all extra g.expression (StandsAt all)
  unary : Stops all extra g.unary (StandsAt all)
  statement : Stops all extra g.statement fun _ => True
  conditional : ∀ position, StandsInside all position →
    Stops all extra (g.conditional position) fun _ => True

theorem operatorAhead?_stopsFrom {β : Type} {ts : List Token} {accepts : BinaryOp → Bool}
    {f f' : Option (BinaryOp × Position) → Parser β} {R : β → Prop}
    (hsome : ∀ t rest op, ts = t :: rest → t ∈ all → t.kind.isEnd = false →
      StopsFrom all extra ts (f (some (op, t.position))) (f' (some (op, t.position))) R)
    (hnone : StopsFrom all extra ts (f none) (f' none) R) :
    StopsFrom all extra ts (operatorAhead? accepts >>= f) (operatorAhead? accepts >>= f') R := by
  unfold operatorAhead?
  rw [bind_assoc, bind_assoc]
  refine .peek? fun t rest hts ht => ?_
  dsimp only
  split
  · next sign hkind =>
    split
    · next op _ =>
      rw [pure_bind, pure_bind]
      split
      · exact hsome t rest op hts ht (StopsFrom.isEnd_of_symbol hkind)
      · exact hnone
    · exact hnone
  · exact hnone

section Operators

variable {operand : Parser Expr} (hoperand : Stops all extra operand (StandsAt all))

include hoperand

theorem operations_stops (accepts : BinaryOp → Bool) (bound : Nat) : ∀ bound' ts left,
    ts.length ≤ bound → ts.length ≤ bound' → StandsAt all left →
      StopsFrom all extra ts (operations accepts operand bound left)
        (operations accepts operand bound' left) (StandsAt all) := by
  induction bound with
  | zero => exact fun _ ts _ hbound _ _ hts => absurd hts.length_pos (by omega)
  | succ bound ih =>
    intro bound' ts left hbound hbound' hleft
    cases bound' with
    | zero => exact fun hts => absurd hts.length_pos (by omega)
    | succ bound' =>
      refine operatorAhead?_stopsFrom (fun t rest op hts ht hend => ?_) (.pure hleft)
      subst hts
      simp only [List.length_cons] at hbound hbound'
      refine .nested (.skip hend ((hoperand rest).bind fun left' _ hsuffix _ => ?_)) ⟨t, ht, rfl⟩
      have hshorter := hsuffix.length_le
      exact ih bound' left' _ (by omega) (by omega) ⟨t, ht, hend, rfl⟩

theorem leftAssociative_stops (accepts : BinaryOp → Bool) :
    Stops all extra (leftAssociative accepts operand) (StandsAt all) :=
  fun ts => (hoperand ts).bind fun rest left _ hleft => .remaining <|
    operations_stops hoperand accepts _ _ rest left (Nat.le_refl _)
      (by rw [List.length_append]; omega) hleft

end Operators

section Rules

variable {g : Grammar} (hg : g.IsStopping all extra)

include hg

theorem disjunction_stops : Stops all extra g.disjunction (StandsAt all) :=
  leftAssociative_stops (leftAssociative_stops (leftAssociative_stops (leftAssociative_stops
    (leftAssociative_stops (leftAssociative_stops hg.unary _) _) _) _) _) _

omit hg in
theorem requirePlace_stopsFrom {β : Type} {ts : List Token} {target : Expr}
    {f f' : Unit → Parser β} {R : β → Prop} (htarget : StandsAt all target)
    (h : StopsFrom all extra ts (f ()) (f' ()) R) :
    StopsFrom all extra ts (requirePlace target >>= f) (requirePlace target >>= f') R := by
  unfold requirePlace
  split
  · exact h
  · exact .throw_bind (blames_of_stands htarget nofun)

theorem assignmentRule_stops : Stops all extra g.assignmentRule (StandsAt all) := by
  refine fun ts => .position fun first hfirst => .nested ?_ ⟨first, hfirst, rfl⟩
  refine (disjunction_stops hg ts).bind fun rest target _ htarget => ?_
  refine .peek? fun t rest hts ht => ?_
  subst hts
  dsimp only
  split
  · next sign hkind =>
    split
    · next op? _ =>
      have hend := StopsFrom.isEnd_of_symbol hkind
      refine .skip hend (requirePlace_stopsFrom htarget ?_)
      exact (hg.expression rest).map fun _ _ => ⟨t, ht, hend, rfl⟩
    · exact .pure htarget
  · exact .pure htarget

theorem statementsUntilBrace_stops (bound : Nat) : ∀ bound' ts, ts.length < bound →
    ts.length < bound' → StopsFrom all extra ts (g.statementsUntilBrace bound)
      (g.statementsUntilBrace bound') fun _ => True := by
  induction bound with
  | zero => exact fun _ _ hbound => absurd hbound (Nat.not_lt_zero _)
  | succ bound ih =>
    intro bound' ts hbound hbound'
    cases bound' with
    | zero => exact absurd hbound' (Nat.not_lt_zero _)
    | succ bound' =>
      refine .eat (fun _ _ _ => .pure trivial) (.eat (fun t rest hts => ?_) ?_)
      · subst hts
        simp only [List.length_cons] at hbound hbound'
        exact ih bound' rest (by omega) (by omega)
      · refine .peek? fun t rest hts ht => ?_
        dsimp only
        split
        · exact .throw_bind (blames_unexpected ht _)
        · refine (hg.statement ts).bind_consuming
            (consumes_of_reads .statement hg.isSound.statement rfl) fun left first hleft _ => ?_
          exact (ih bound' left (by omega) (by omega)).map fun _ _ => trivial

theorem block_stops : Stops all extra g.block fun _ => True :=
  fun _ => .expect _ fun _ rest _ _ => .remaining <|
    (statementsUntilBrace_stops hg _ _ rest (Nat.lt_succ_self _)
      (by rw [List.length_append]; omega)).map fun _ _ => trivial

omit hg in
theorem optionalName_stops : Stops all extra optionalName fun _ => True := by
  refine fun ts => .peek? fun t rest hts _ => ?_
  subst hts
  dsimp only
  split
  · next hkind => exact .skip (StopsFrom.isEnd_of_identifier hkind) (.pure trivial)
  · exact .pure trivial

theorem function_stops : Stops all extra g.function fun f => StandsInside all f.position :=
  fun _ => .expectWord fun _ rest _ hword => (optionalName_stops rest).bind fun rest _ _ _ =>
    (parameters_stops typeExpr_stops typeExpr_reads rest).bind fun rest _ _ _ =>
    (typeMark_stops typeExpr_stops rest).bind fun rest _ _ _ =>
    (block_stops hg rest).map fun _ _ => hword

theorem field_stops : Stops all extra g.field fun _ => True :=
  fun _ => .propertyName fun _ _ _ _ _ => .expect _ fun _ rest _ _ =>
    (hg.expression rest).map fun _ _ => trivial

theorem primary_stops : Stops all extra g.primary (StandsAt all) := by
  refine fun ts => .peek? fun t rest hts ht => ?_
  subst hts
  cases hend : t.kind.isEnd with
  | true =>
    dsimp only
    rw [isEnd_eq_true_iff.mp hend]
    exact .throw (blames_unexpected ht _)
  | false =>
    have hstands : StandsInside all t.position := ⟨t, ht, hend, rfl⟩
    have hleaf : ∀ {e : Expr}, e.position = t.position → StopsFrom all extra (t :: rest)
        (do skip; return e) (do skip; return e) (StandsAt all) :=
      fun he => .skip hend (.pure (by rwa [StandsAt, he]))
    have hfields := commaSeparated_stops (field_stops hg)
      (consumes_of_reads .field (field_reads hg.isSound) rfl) .rightBrace rest
    dsimp only
    split
    · exact hleaf rfl
    · exact hleaf rfl
    · exact hleaf rfl
    · exact hleaf rfl
    · exact hleaf rfl
    · exact hleaf rfl
    · exact hleaf rfl
    · exact .skip hend ((hg.expression rest).bind fun _ _ _ hinner =>
        .expect _ fun _ _ _ _ => .pure hinner)
    · exact .skip hend (hfields.map fun _ _ => hstands)
    · exact (function_stops hg _).map fun _ hposition => hposition
    · exact .throw (blames_unexpected ht _)

theorem trailers_stops (bound : Nat) : ∀ bound' ts base, ts.length ≤ bound →
    ts.length ≤ bound' → StandsAt all base →
      StopsFrom all extra ts (g.trailers bound base) (g.trailers bound' base) (StandsAt all) := by
  induction bound with
  -- there is the marker at least, so the bound is not used up
  | zero => exact fun _ ts _ hbound _ _ hts => absurd hts.length_pos (by omega)
  | succ bound ih =>
    intro bound' ts base hbound hbound' hbase
    cases bound' with
    | zero => exact fun hts => absurd hts.length_pos (by omega)
    | succ bound' =>
      refine .peek? fun t rest hts ht => ?_
      subst hts
      simp only [List.length_cons] at hbound hbound'
      dsimp only
      split
      · next hkind =>
        have hend := StopsFrom.isEnd_of_symbol hkind
        refine .nested (.skip hend ?_) ⟨t, ht, rfl⟩
        refine (commaSeparated_stops hg.expression
          (consumes_of_reads .expression hg.isSound.expression rfl) .rightParen rest).bind
          fun left _ hsuffix _ => ?_
        have hshorter := hsuffix.length_le
        exact ih bound' left _ (by omega) (by omega) ⟨t, ht, hend, rfl⟩
      · next hkind =>
        refine .nested (.skip (StopsFrom.isEnd_of_symbol hkind) (.propertyName
          fun t' left name hleft hname => ?_)) ⟨t, ht, rfl⟩
        subst hleft
        simp only [List.length_cons] at hbound hbound'
        exact ih bound' left _ (by omega) (by omega) hname
      · next sign _ _ hkind =>
        split
        · have hend := StopsFrom.isEnd_of_symbol hkind
          exact .skip hend (requirePlace_stopsFrom hbase (.pure ⟨t, ht, hend, rfl⟩))
        · exact .pure hbase
      · exact .pure hbase

theorem unaryRule_stops : Stops all extra g.unaryRule (StandsAt all) := by
  refine fun ts => .peek? fun t rest hts ht => ?_
  subst hts
  have htrailed : StopsFrom all extra (t :: rest)
      (do let base ← g.primary; g.trailers (← remaining) base)
      (do let base ← g.primary; g.trailers (← remaining) base) (StandsAt all) :=
    (primary_stops hg _).bind fun left base _ hbase => .remaining <|
      trailers_stops hg _ _ left base (Nat.le_refl _) (by rw [List.length_append]; omega) hbase
  refine .nested ?_ ⟨t, ht, rfl⟩
  split
  · next sign hkind =>
    have hend := StopsFrom.isEnd_of_symbol hkind
    have hstands : StandsInside all t.position := ⟨t, ht, hend, rfl⟩
    split
    · exact .skip hend ((hg.unary rest).map fun _ _ => hstands)
    · exact .skip hend ((hg.unary rest).bind fun _ _ _ htarget =>
        requirePlace_stopsFrom htarget (.pure hstands))
    · exact htrailed
  · exact htrailed

/-! ## Statements -/

theorem body_stops : Stops all extra g.body fun _ => True := by
  refine fun ts => .sees fun t _ _ => ?_
  split
  · exact block_stops hg ts
  · exact .position fun _ _ => (hg.statement ts).map fun _ _ => trivial

omit hg in
theorem terminated_stopsFrom {ts : List Token} {statement : Parser Stmt} {Q : Stmt → Prop}
    (h : StopsFrom all extra ts statement statement Q) :
    StopsFrom all extra ts (terminated statement) (terminated statement) fun _ => True :=
  h.bind fun _ _ _ _ => (StopsFrom.mark .semicolon).map fun _ _ => trivial

theorem initialValue_stops : Stops all extra g.initialValue fun _ => True :=
  fun _ => .eat (fun _ rest _ => (hg.expression rest).map fun _ _ => trivial) (.pure trivial)

theorem variableRule_stops : Stops all extra g.variableRule fun _ => True :=
  fun _ => .expectWord fun _ _ _ _ => .identifier fun _ rest _ _ _ =>
    (typeMark_stops typeExpr_stops rest).bind fun rest _ _ _ =>
    (initialValue_stops hg rest).map fun _ _ => trivial

theorem expressionRule_stops : Stops all extra g.expressionRule fun _ => True :=
  fun ts => .position fun _ _ => (hg.expression ts).map fun _ _ => trivial

theorem returnRule_stops : Stops all extra g.returnRule fun _ => True := by
  refine fun _ => .expectWord fun _ rest _ _ => .peek? fun t _ _ _ => ?_
  dsimp only
  split
  · exact .pure trivial
  · exact (hg.expression rest).map fun _ _ => trivial

theorem expressionUnless_stops (sign : Symbol) :
    Stops all extra (g.expressionUnless sign) fun _ => True := by
  refine fun ts => .sees fun _ _ _ => ?_
  split
  · exact .pure trivial
  · exact (hg.expression ts).map fun _ _ => trivial

theorem loopStart_stops : Stops all extra g.loopStart fun _ => True := by
  refine fun ts => .sees fun _ _ _ => ?_
  split
  · exact .pure trivial
  · refine .seesWord fun _ _ _ => ?_
    split
    · exact (variableRule_stops hg ts).map fun _ _ => trivial
    · exact (expressionRule_stops hg ts).map fun _ _ => trivial

theorem loopRule_stops : Stops all extra g.loopRule fun _ => True :=
  fun _ => .expectWord fun _ _ _ _ => .expect _ fun _ rest _ _ =>
    (loopStart_stops hg rest).bind fun _ _ _ _ => .expect _ fun _ rest _ _ =>
    (expressionUnless_stops hg _ rest).bind fun _ _ _ _ => .expect _ fun _ rest _ _ =>
    (expressionUnless_stops hg _ rest).bind fun _ _ _ _ => .expect _ fun _ rest _ _ =>
    (body_stops hg rest).map fun _ _ => trivial

theorem whileRule_stops : Stops all extra g.whileRule fun _ => True :=
  fun _ => .expectWord fun _ _ _ _ => .expect _ fun _ rest _ _ =>
    (hg.expression rest).bind fun _ _ _ _ => .expect _ fun _ rest _ _ =>
    (body_stops hg rest).map fun _ _ => trivial

theorem conditionalRule_stops {position : Position} (hposition : StandsInside all position) :
    Stops all extra (g.conditionalRule position) fun _ => True := by
  obtain ⟨first, hfirst, -, hplace⟩ := hposition
  refine fun _ => .nested (.expect _ fun _ rest _ _ => ?_) ⟨first, hfirst, hplace⟩
  refine (hg.expression rest).bind fun _ _ _ _ => .expect _ fun _ rest _ _ => ?_
  refine (body_stops hg rest).bind fun _ _ _ _ => .eatWord (fun _ rest _ => ?_) (.pure trivial)
  refine .peek? fun t left hleft ht => ?_
  dsimp only
  split
  · next hif =>
    subst hleft
    have hend := StopsFrom.isEnd_of_keyword (ReadsFrom.isKeyword_iff.mp hif)
    exact .skip hend ((hg.conditional t.position ⟨t, ht, hend, rfl⟩ left).map fun _ _ => trivial)
  · exact (body_stops hg rest).map fun _ _ => trivial

omit hg in
theorem seesNameSecond_stopsFrom {β : Type} {t : Token} {rest : List Token}
    {f f' : Bool → Parser β} {R : β → Prop} (hend : t.kind.isEnd = false)
    (h : ∀ b, StopsFrom all extra (t :: rest) (f b) (f' b) R) :
    StopsFrom all extra (t :: rest) (seesNameSecond >>= f) (seesNameSecond >>= f') R := by
  intro hts depth
  obtain ⟨second, others, rfl, -⟩ := (hts.tail hend).cases_on
  obtain ⟨kind, lexeme, position⟩ := second
  cases kind <;> exact h _ hts depth

theorem statementRule_stops : Stops all extra g.statementRule fun _ => True := by
  refine fun ts => .peek? fun t rest hts ht => ?_
  subst hts
  have hexpression := terminated_stopsFrom (expressionRule_stops hg (t :: rest))
  refine .nested ?_ ⟨t, ht, rfl⟩
  split
  · exact terminated_stopsFrom (variableRule_stops hg _)
  · next hkind =>
    refine seesNameSecond_stopsFrom (StopsFrom.isEnd_of_keyword hkind) fun isNamed => ?_
    split
    · have hfunction : StopsFrom all extra (t :: rest) (do return .function (← g.function))
          (do return .function (← g.function)) fun _ : Stmt => True :=
        (function_stops hg _).map fun _ _ => trivial
      exact terminated_stopsFrom hfunction
    · exact hexpression
  · exact terminated_stopsFrom (returnRule_stops hg _)
  · next hkind =>
    have hend := StopsFrom.isEnd_of_keyword hkind
    exact .skip hend (hg.conditional t.position ⟨t, ht, hend, rfl⟩ rest)
  · exact loopRule_stops hg _
  · exact whileRule_stops hg _
  · exact (block_stops hg _).map fun _ _ => trivial
  · next hkind =>
    exact .throw (blames_of_stands ⟨t, ht, StopsFrom.isEnd_of_keyword hkind, rfl⟩ nofun)
  · next hkind =>
    exact .throw (blames_of_stands ⟨t, ht, StopsFrom.isEnd_of_keyword hkind, rfl⟩ nofun)
  · exact hexpression

end Rules

/-! ## Any number of levels -/

theorem upTo_isStopping (levels : Nat) : (upTo levels).IsStopping all extra := by
  induction levels with
  | zero =>
    exact ⟨upTo_isSound 0, fun _ => .outOfLevels, fun _ => .outOfLevels, fun _ => .outOfLevels,
      fun _ _ _ => .outOfLevels⟩
  | succ levels ih =>
    exact ⟨upTo_isSound _, assignmentRule_stops ih, unaryRule_stops ih, statementRule_stops ih,
      fun _ => conditionalRule_stops ih⟩

/-! ## Programs -/

theorem interface_stops : Stops all extra interface fun _ => True := by
  refine fun _ => .expectWord fun word _ _ _ => .identifier fun _ rest _ _ _ => ?_
  refine .peek? fun t left hleft ht => ?_
  subst hleft
  cases hopening : t.kind.isSymbol .leftBrace with
  | true =>
    simp only [hopening]
    exact .skip (StopsFrom.isEnd_of_symbol (ReadsFrom.isSymbol_iff.mp hopening))
      ((members_stops typeExpr_stops typeExpr_reads left).map fun _ _ => trivial)
  | false =>
    -- the run ends here, even if the token is the end marker
    simp only [hopening]
    exact fun _ _ => .error (blames_unexpected ht _)

theorem exports_stops : Stops all extra exports fun _ => True := by
  have hname : Stops all extra identifier fun _ => True := by
    intro ts
    rw [← bind_pure identifier]
    exact .identifier fun _ _ _ _ _ => .pure trivial
  have hreads : Reads identifier fun used _ => used ≠ [] := by
    refine .of_readsFrom fun ts => ?_
    rw [← bind_pure identifier]
    exact .identifier fun _ _ _ _ _ => .pure (List.cons_ne_nil _ _)
  exact fun _ => .expectWord fun _ _ _ _ => .expect _ fun _ rest _ _ =>
    (commaSeparated_stops hname (hreads.consumes fun _ _ h => h) .rightBrace rest).bind
      fun _ _ _ _ => (StopsFrom.mark .semicolon).map fun _ _ => trivial

theorem programStatements_stops {g : Grammar} (hg : g.IsStopping all extra) (bound : Nat) :
    ∀ bound' ts, ts.length ≤ bound → ts.length ≤ bound' →
      StopsFrom all extra ts (programStatements g bound) (programStatements g bound')
        fun _ => True := by
  induction bound with
  | zero => exact fun _ ts hbound _ hts => absurd hts.length_pos (by omega)
  | succ bound ih =>
    intro bound' ts hbound hbound'
    cases bound' with
    | zero => exact fun hts => absurd hts.length_pos (by omega)
    | succ bound' =>
      have hgoOn : ∀ left : List Token, left.length < ts.length →
          StopsFrom all extra left (programStatements g bound) (programStatements g bound')
            fun _ => True :=
        fun left hleft => ih bound' left (by omega) (by omega)
      refine .peek? fun t rest hts ht => ?_
      subst hts
      dsimp only
      split
      · exact .pure trivial
      · next hkind => exact .skip (StopsFrom.isEnd_of_symbol hkind) (hgoOn rest (by simp))
      · exact (interface_stops _).bind_consuming (consumes_of_reads .interface interface_reads rfl)
          fun left _ hleft _ => (hgoOn left hleft).map fun _ _ => trivial
      · exact (exports_stops _).bind_consuming (consumes_of_reads .exports exports_reads rfl)
          fun left _ hleft _ => hgoOn left hleft
      · exact (hg.statement _).bind_consuming
          (consumes_of_reads .statement hg.isSound.statement rfl)
          fun left _ hleft _ => (hgoOn left hleft).map fun _ _ => trivial

theorem program_stops : Stops all extra program fun _ => True :=
  fun ts => .remaining <| (programStatements_stops (upTo_isStopping _) _ _ ts (Nat.le_refl _)
    (by rw [List.length_append]; omega)).map fun _ _ => trivial

/-! ## Faults that move with their tokens -/

section Away

variable (σ : Position → Position)

/-- Some place that is not the start of a text, and another one for each position. -/
def away (position : Position) : Position :=
  ⟨position.line + 2, position.column⟩

/-- Positions are mapped from where they have been moved to. -/
def fromAway (position : Position) : Position :=
  if position.line < 2 then position else σ ⟨position.line - 2, position.column⟩

@[simp] theorem fromAway_away (position : Position) : fromAway σ (away position) = σ position :=
  if_neg (Nat.not_lt.mpr (Nat.le_add_left 2 position.line))

/-- No token that has been moved away stands at the start, so it may be mapped to itself. -/
theorem fromAway_start : fromAway σ .start = .start :=
  if_pos (by decide)

theorem map_moved_away (tokens : List Token) :
    (tokens.map (Token.moved away)).map (Token.moved (fromAway σ)) =
      tokens.map (Token.moved σ) := by
  rw [List.map_map]
  refine List.map_congr_left fun t _ => ?_
  show { t with position := fromAway σ (away t.position) } = t.moved σ
  rw [fromAway_away]
  rfl

end Away

theorem EndsOnce.moved {tokens : List Token} (h : EndsOnce tokens) (σ : Position → Position) :
    EndsOnce (tokens.map (Token.moved σ)) := by
  induction h with
  | last hend => exact .last hend
  | cons hend _ ih => exact .cons hend ih

/-! ## Entries -/

/-- The parsers that are called on tokens of their own. What they are called for may be a
whole program, or else a phrase. -/
inductive IsEntry : (isWhole : Bool) → {α : Type} → Parser α → Prop
  | program : IsEntry true program
  | expression : IsEntry false full.expression
  | statement : IsEntry false full.statement
  | block : IsEntry false full.block
  | function : IsEntry false full.function
  | interface : IsEntry false interface
  | type : IsEntry false typeExpr

namespace IsEntry

variable {isWhole : Bool} {α : Type} {p : Parser α} {tokens : List Token} {depth : Nat}

theorem stops (hp : IsEntry isWhole p) (all : List Token) :
    ∃ Q, ∀ extra, Stops all extra p Q := by
  have hfull : ∀ extra, full.IsStopping all extra := fun _ => upTo_isStopping _
  cases hp with
  | program => exact ⟨_, fun _ => program_stops⟩
  | expression => exact ⟨_, fun extra => (hfull extra).expression⟩
  | statement => exact ⟨_, fun extra => (hfull extra).statement⟩
  | block => exact ⟨_, fun extra => block_stops (hfull extra)⟩
  | function => exact ⟨_, fun extra => function_stops (hfull extra)⟩
  | interface => exact ⟨_, fun _ => interface_stops⟩
  | type => exact ⟨_, fun _ => typeExpr_stops⟩

/-- A phrase has a token, and a program leaves none but the marker. -/
theorem takes (hp : IsEntry isWhole p) :
    Reads p fun used _ => isWhole = false → used ≠ [] := by
  cases hp with
  | program => exact fun c a c' h =>
      have ⟨used, hused, _⟩ := program_readsFrom c.tokens c.depth a c' h
      ⟨used, hused, nofun⟩
  | expression => exact full_isSound.expression.mono fun _ _ h _ => h.ne_nil rfl
  | statement => exact full_isSound.statement.mono fun _ _ h _ => h.ne_nil rfl
  | block => exact (block_reads full_isSound).mono fun _ _ h _ => h.ne_nil rfl
  | function => exact (function_reads full_isSound).mono fun _ _ ⟨_, h⟩ _ => h.ne_nil rfl
  | interface => exact interface_reads.mono fun _ _ h _ => h.ne_nil rfl
  | type => exact typeExpr_reads.mono fun _ _ h _ => h.ne_nil rfl

theorem isAtEnd (hp : IsEntry true p) {a : α} {c : Cursor} (h : p ⟨tokens, depth⟩ = .ok a c) :
    Grammar.isAtEnd c.tokens = true := by
  cases hp with
  | program =>
    obtain ⟨used, hused, -, hend⟩ := program_readsFrom tokens depth a c h
    exact hend _ hused

theorem moves (hp : IsEntry isWhole p) {σ : Position → Position} (hσ : σ .start = .start) :
    ∃ f, Moves σ f p p := by
  have hfull : full.Carries σ := upTo_carries hσ _
  cases hp with
  | program => exact ⟨_, program_moves hσ⟩
  | expression => exact ⟨_, hfull.expression⟩
  | statement => exact ⟨_, hfull.statement⟩
  | block => exact ⟨_, block_moves hσ hfull⟩
  | function => exact ⟨_, function_moves hσ hfull⟩
  | interface => exact ⟨_, interface_moves hσ⟩
  | type => exact ⟨_, typeExpr_moves hσ⟩

/-- A fault moves with the tokens, wherever the start of the text is moved to. -/
theorem error_moved (hp : IsEntry isWhole p) (htokens : EndsOnce tokens) {fault : ParseFault}
    {c : Cursor} (h : p ⟨tokens, depth⟩ = .error fault c) (σ : Position → Position) :
    ∃ c', p ⟨tokens.map (Token.moved σ), depth⟩ = .error (fault.moved σ) c' := by
  obtain ⟨Q, hstops⟩ := hp.stops (tokens.map (Token.moved away))
  have hrun := hstops [] _ ⟨EndsOnce.moved htokens away, List.suffix_refl _⟩ depth
  have hid : tokens.map (Token.moved id) = tokens := List.map_id tokens
  -- the tokens that are moved away are those that all the others are moved from
  cases haway : p ⟨tokens.map (Token.moved away), depth⟩ with
  | ok a rest =>
    obtain ⟨f, hmoves⟩ := hp.moves (fromAway_start id)
    have hback := hmoves ⟨tokens.map (Token.moved away), depth⟩
    rw [Cursor.moved, map_moved_away, hid, h, haway] at hback
    cases hback
  | error fault' rest =>
    have hmoved : ∀ σ, p ⟨tokens.map (Token.moved σ), depth⟩ =
        .error (fault'.moved (fromAway σ)) (rest.moved (fromAway σ)) := by
      intro σ
      obtain ⟨f, hmoves⟩ := hp.moves (fromAway_start σ)
      have hmoved := hmoves ⟨tokens.map (Token.moved away), depth⟩
      rw [Cursor.moved, map_moved_away, haway] at hmoved
      exact hmoved
    have hback := hmoved id
    rw [hid, h] at hback
    cases hback
    rw [haway] at hrun
    rw [hmoved σ]
    generalize p ⟨tokens.map (Token.moved away) ++ [], depth⟩ = beside at hrun
    cases hrun with
    | error hblames =>
      obtain ⟨t, ht, hplace, -, -⟩ := hblames
      obtain ⟨t', -, rfl⟩ := List.mem_map.mp ht
      refine ⟨_, congrArg (EStateM.Result.error · _) ?_⟩
      -- the fault stands at a token that has been moved away
      have hposition : fault'.position = away t'.position := hplace
      simp [Fault.moved, hposition]

end IsEntry

/-- Parsing stops at the end marker. Let a list of tokens end with its only end marker, and
let any number of levels be open. If a parser gives a value, the tokens left over are an
end of the list, with the marker; of a program only the marker is left, and for anything
else a token was taken. If it gives a fault, this is put down to a token of the list. The
input is said to end at the marker only, and all that is put down to the marker is the end
of the input or a level too many.

What stands behind the marker changes nothing, though the loops are allowed more rounds
with it; so each loop ends by itself. And a fault moves with the tokens, wherever the start
of the text is moved to; so no fault stands there for want of a token. -/
theorem stops_at_marker {isWhole : Bool} {α : Type} {p : Parser α} (hp : IsEntry isWhole p)
    {tokens : List Token} (htokens : EndsOnce tokens) (depth : Nat) :
    match p ⟨tokens, depth⟩ with
    | .ok a c =>
      (∃ used, tokens = used ++ c.tokens ∧ EndsOnce c.tokens ∧
        if isWhole then c.tokens.length = 1 else used ≠ []) ∧
      ∀ extra, p ⟨tokens ++ extra, depth⟩ = .ok a ⟨c.tokens ++ extra, c.depth⟩
    | .error fault c =>
      (∃ t ∈ tokens, ParseFault.IsBlamedOn fault t) ∧
      (∀ extra, p ⟨tokens ++ extra, depth⟩ = .error fault ⟨c.tokens ++ extra, c.depth⟩) ∧
      ∀ σ, ∃ c', p ⟨tokens.map (Token.moved σ), depth⟩ = .error (fault.moved σ) c' := by
  obtain ⟨Q, hstops⟩ := hp.stops tokens
  have hrun := fun extra => hstops extra tokens ⟨htokens, List.suffix_refl _⟩ depth
  cases h : p ⟨tokens, depth⟩ with
  | ok a c =>
    rw [h] at hrun
    have hextra : ∀ extra, p ⟨tokens ++ extra, depth⟩ = .ok a ⟨c.tokens ++ extra, c.depth⟩ := by
      intro extra
      have hextra := hrun extra
      generalize p ⟨tokens ++ extra, depth⟩ = result at hextra
      cases hextra
      rfl
    have hends : EndsOnce c.tokens := by
      have hextra := hrun []
      generalize p ⟨tokens ++ [], depth⟩ = result at hextra
      cases hextra
      assumption
    obtain ⟨used, hused, htakes⟩ := hp.takes _ a c h
    refine ⟨⟨used, hused, hends, ?_⟩, hextra⟩
    cases isWhole with
    | false => exact htakes rfl
    | true =>
      have hatEnd := hp.isAtEnd h
      generalize c.tokens = left at hends hatEnd ⊢
      cases hends with
      | last => rfl
      | cons hend _ =>
        rw [Grammar.isAtEnd, List.head?_cons, Option.all_some, hend] at hatEnd
        cases hatEnd
  | error fault c =>
    rw [h] at hrun
    have hextra : ∀ extra, Blames tokens fault ∧
        p ⟨tokens ++ extra, depth⟩ = .error fault ⟨c.tokens ++ extra, c.depth⟩ := by
      intro extra
      have hextra := hrun extra
      generalize p ⟨tokens ++ extra, depth⟩ = result at hextra
      cases hextra with
      | error hblames => exact ⟨hblames, rfl⟩
    exact ⟨(hextra []).1, fun extra => (hextra extra).2, hp.error_moved htokens h⟩

/-- Behind an open parenthesis the end of the input is put down to the marker. -/
theorem stops_at_marker_of_open_paren :
    let marker : Token := ⟨.endOfInput, "", ⟨1, 2⟩⟩
    let tokens : List Token := [⟨.symbol .leftParen, "(", ⟨1, 1⟩⟩, marker]
    IsEntry false full.expression ∧ EndsOnce tokens ∧
      ∃ fault, full.expression ⟨tokens, 0⟩ = .error fault ⟨[marker], 0⟩ ∧
        (∃ t ∈ tokens, ParseFault.IsBlamedOn fault t) ∧
        (∀ extra, full.expression ⟨tokens ++ extra, 0⟩ = .error fault ⟨[marker] ++ extra, 0⟩) ∧
        ∀ σ, ∃ c', full.expression ⟨tokens.map (Token.moved σ), 0⟩ =
          .error (fault.moved σ) c' := by
  intro marker tokens
  have hends : EndsOnce tokens := .cons rfl (.last rfl)
  have hrun : full.expression ⟨tokens, 0⟩ =
      .error ⟨.endOfInput "expression", ⟨1, 2⟩⟩ ⟨[marker], 0⟩ := rfl
  have hstops := stops_at_marker .expression hends 0
  rw [hrun] at hstops
  exact ⟨.expression, hends, _, hrun, hstops⟩

/-- The end marker may be blamed for something else than the end of the input. Of 128
parentheses each opens two levels, so that no level is left for the expression that is
missing behind them. -/
theorem tooDeeplyNested_at_marker :
    let marker : Token := ⟨.endOfInput, "", ⟨1, 129⟩⟩
    let tokens : List Token :=
      (List.range 128).map (fun i => ⟨.symbol .leftParen, "(", ⟨1, i + 1⟩⟩) ++ [marker]
    EndsOnce tokens ∧
      ¬∀ fault rest, full.expression.run tokens = (.error fault, rest) →
        fault.position = marker.position → ∃ expected, fault.cause = .endOfInput expected := by
  intro marker tokens
  have hends : EndsOnce tokens := by
    refine endsOnce_iff.mpr ⟨_, marker, rfl, rfl, fun t ht => ?_⟩
    obtain ⟨i, -, rfl⟩ := List.mem_map.mp ht
    exact nofun
  have hrun : (match full.expression.run tokens with
      | (.error ⟨.tooDeeplyNested, position⟩, _) => decide (position = marker.position)
      | _ => false) = true := by
    decide +kernel
  refine ⟨hends, fun hall => ?_⟩
  split at hrun
  · next position rest heq =>
    obtain ⟨expected, hcause⟩ := hall _ rest heq (of_decide_eq_true hrun)
    cases hcause
  · cases hrun

end Grammar

end TypedScript
