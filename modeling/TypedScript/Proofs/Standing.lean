import TypedScript.Proofs.Functions
import TypedScript.Proofs.Layout
import TypedScript.Proofs.Recognizing
import TypedScript.Proofs.References

/-!
# Where references and functions stand

Each reference of a program that was read from a source is one of its names, at the
position of that name, and each function stands at the position of its first word
(`Derives.references_from`, `Derives.functions_from`). Tokens stand one behind the other,
so no two references have one position and no two functions have
(`Program.nodup_references`, `Program.nodup_functions`).
-/

namespace TypedScript

/-! ## What tokens offer -/

/-- The name that a token mentions, with its position. -/
def Token.mention? (t : Token) : Option (String × Position) :=
  match t.kind with
  | .identifier name => some (name, t.position)
  | _ => none

/-- Where a function begins, if a token is its first word. -/
def Token.functionStart? (t : Token) : Option Position :=
  match t.kind with
  | .keyword .functionWord => some t.position
  | _ => none

/-- Things in a row, what is seen of which is offered by tokens in this order, perhaps with
others between them. -/
def From {α β : Type} (offer : Token → Option β) (see : α → β) (ts : List Token) (l : List α) :
    Prop :=
  (l.map see).Sublist (ts.filterMap offer)

namespace From

variable {α β : Type} {offer : Token → Option β} {see : α → β} {t : Token} {ts us : List Token}
  {l l' : List α}

theorem nil : From offer see ts [] :=
  List.nil_sublist _

theorem skip (h : From offer see ts l) : From offer see (t :: ts) l :=
  h.trans ((List.sublist_cons_self t ts).filterMap offer)

theorem take {a : α} (ht : offer t = some (see a)) (h : From offer see ts l) :
    From offer see (t :: ts) (a :: l) := by
  unfold From
  rw [List.filterMap_cons_some ht]
  exact h.cons_cons (see a)

theorem append (h : From offer see ts l) (h' : From offer see us l') :
    From offer see (ts ++ us) (l ++ l') := by
  unfold From
  rw [List.filterMap_append, List.map_append]
  exact List.Sublist.append h h'

theorem left (h : From offer see ts l) : From offer see (ts ++ us) l := by
  have hnil : From offer see us ([] : List α) := nil
  have happend := h.append hnil
  rwa [List.append_nil] at happend

theorem right (h : From offer see us l) : From offer see (ts ++ us) l := by
  have hnil : From offer see ts ([] : List α) := nil
  exact hnil.append h

theorem alone (h : From offer see ts l) : From offer see ts (l ++ []) := by
  rwa [List.append_nil]

end From

/-! ## References -/

theorem referencesOfRow_cons (s : Stmt) (rest : List Stmt) :
    referencesOfRow (s :: rest) = referencesOfRow [s] ++ referencesOfRow rest := by
  cases s <;> simp [referencesOfRow]

/-- The references in what a phrase means. -/
def Phrase.references : (phrase : Phrase) → phrase.Tree → List (String × Position)
  | .optional part, a? | .after _ part, a? => a?.elim [] part.references
  | .chain _ part, l | .list _ part, l => l.flatMap part.references
  | .expression, e | .operation _, e | .operand _, e | .unary, e | .trailed, e | .primary, e =>
    e.references
  | .field, a => a.references
  | .function _, f => f.references
  | .simple, s | .statement, s => referencesOfRow [s]
  | .variable, s | .conditional _, s => s.references
  | .alternative, s? | .loopStart, s? => s?.elim [] Stmt.references
  | .statements, l | .items, l => referencesOfRow l
  | .block, b | .body, b => b.references
  | .program, whole => whole.references
  | _, _ => []

theorem referencesOfEach_eq (l : List Expr) : referencesOfEach l = l.flatMap Expr.references := by
  induction l with
  | nil => rfl
  | cons e rest ih => rw [referencesOfEach, ih, List.flatMap_cons]

theorem referencesOfFields_eq (l : List Field) :
    referencesOfFields l = l.flatMap Field.references := by
  induction l with
  | nil => rfl
  | cons a rest ih => rw [referencesOfFields, ih, List.flatMap_cons]

theorem referencesOfOption_eq (e? : Option Expr) :
    referencesOfOption e? = e?.elim [] Expr.references := by
  cases e? <;> rfl

theorem Stmt.references_loop (init? : Option Stmt) (condition? update? : Option Expr)
    (body : Block) (position : Position) :
    (Stmt.loop init? condition? update? body position).references =
      init?.elim [] Stmt.references ++ (condition?.elim [] Expr.references ++
        (update?.elim [] Expr.references ++ body.references)) := by
  cases init? <;> rw [Stmt.references, referencesOfOption_eq, referencesOfOption_eq] <;> rfl

/-- The references of a phrase are names that its tokens mention. -/
theorem Derives.references_from {phrase : Phrase} {ts : List Token} {a : phrase.Tree}
    (h : Derives phrase ts a) : From Token.mention? id ts (phrase.references a) := by
  induction h with
  | unmarked | marked | leftOut | notBehind | closed => exact .nil
  | given _ ih => exact ih
  | behind _ _ ih => exact ih.skip
  | lastOfChain _ ih => exact ih.alone
  | chained _ _ _ ih ih' | listed _ _ _ ih ih' => exact ih.append ih'.skip
  | lastOfList _ _ ih => exact ih.append .nil
  -- types mention no variables
  | oneType | union | oneIntersected | intersection | namedType | absentType | objectType
  | functionType | groupedType | propertyMember | methodMember | lastMember | memberOf
  | parameter | parameters => exact .nil
  | value _ ih | oneOperand _ ih | tighter _ _ ih | tightest _ _ ih | noUpdate _ ih | base _ ih =>
    exact ih
  | assignment _ _ _ _ _ ih ih' | operation _ _ _ _ ih ih' => exact ih.append ih'.skip
  | operator _ _ _ ih | updateBefore _ _ _ _ ih => exact ih.skip
  | updateAfter _ _ _ _ ih | property _ _ _ ih => exact ih.left
  | call _ _ _ ih ih' =>
    show From _ _ _ (_ ++ referencesOfEach _)
    rw [referencesOfEach_eq]
    exact ih.append ih'.skip
  | literal | receiver => exact .nil
  -- the one phrase that adds a reference of its own, at its only token
  | @reference t name ht =>
    have hmention : t.mention? = some (name, t.position) := by unfold Token.mention?; rw [ht]
    exact .take hmention .nil
  | grouped _ _ _ ih => exact ih.left.skip
  | object _ _ ih =>
    show From _ _ _ (referencesOfFields _)
    rw [referencesOfFields_eq]
    exact ih.skip
  | functionValue _ ih => exact ih
  | field _ _ _ ih => exact ih.skip.skip
  | namelessFunction _ _ _ _ _ _ ih => exact ih.right.right.skip
  | namedFunction _ _ _ _ _ _ _ ih => exact ih.right.right.skip.skip
  | «variable» _ _ _ _ _ ih =>
    show From _ _ _ (referencesOfOption _)
    rw [referencesOfOption_eq]
    exact ih.right.skip.skip
  -- a phrase of statements gives a list of them, whose references end with an empty row
  | variableAlone h ih => cases h; exact ih.alone
  | functionAlone _ ih => exact ih.alone
  | giveBack _ _ ih =>
    show From _ _ _ (referencesOfOption _ ++ [])
    rw [referencesOfOption_eq]
    exact ih.skip.alone
  | expressionAlone _ ih => exact ih.alone
  | ended _ _ ih => exact ih.left
  | branch _ h ih => cases h; exact ih.skip.alone
  | blockAlone _ ih => exact ih.alone
  | loop _ _ _ _ _ _ _ _ _ hinit hcondition hupdate hbody =>
    show From _ _ _ (Stmt.references _ ++ [])
    rw [Stmt.references_loop]
    exact (hinit.append
      (hcondition.append (hupdate.append hbody.skip).skip).skip).skip.skip.alone
  | repeatWhile _ _ _ _ _ ih ih' => exact (ih.append ih'.skip).skip.skip.alone
  | noStart | noAlternative => exact .nil
  | startVariable _ ih | startExpression _ ih => exact ih
  | @conditional _ _ _ _ _ _ _ _ otherwise? _ _ _ _ _ hcondition hbody hotherwise =>
    cases otherwise? with
    | none => exact (hcondition.append hbody.left.skip).skip
    | some otherwise => exact (hcondition.append (hbody.append hotherwise).skip).skip
  | otherConditional _ _ _ ih => exact ih.skip.skip
  | otherBody _ _ ih => exact ih.skip
  | block _ _ ih => exact ih.skip
  | noStatements => exact .nil
  | strayInBlock _ _ ih | stray _ _ ih => exact ih.skip
  | statementInBlock _ _ ih ih' | statementItem _ _ ih ih' =>
    show From _ _ _ (referencesOfRow (_ :: _))
    rw [referencesOfRow_cons]
    exact ih.append ih'
  | bodyBlock _ ih => exact ih
  | bodyStatement _ ih => exact ih
  | name | interface | exports | noItems => exact .nil
  | interfaceItem _ _ _ ih | exportsItem _ _ _ ih => exact ih.right
  | program _ ih => exact ih

/-! ## Functions -/

/-- The functions in what a phrase means. -/
def Phrase.functions : (phrase : Phrase) → phrase.Tree → List Function
  | .optional part, a? | .after _ part, a? => a?.elim [] part.functions
  | .chain _ part, l | .list _ part, l => l.flatMap part.functions
  | .expression, e | .operation _, e | .operand _, e | .unary, e | .trailed, e | .primary, e =>
    e.functions
  | .field, a => a.functions
  | .function _, f => f.functions
  | .variable, s | .simple, s | .statement, s | .conditional _, s => s.functions
  | .alternative, s? | .loopStart, s? => s?.elim [] Stmt.functions
  | .statements, l | .items, l => functionsOfRow l
  | .block, b | .body, b => b.functions
  | .program, whole => whole.functions
  | _, _ => []

theorem functionsOfEach_eq (l : List Expr) : functionsOfEach l = l.flatMap Expr.functions := by
  induction l with
  | nil => rfl
  | cons e rest ih => rw [functionsOfEach, ih, List.flatMap_cons]

theorem functionsOfFields_eq (l : List Field) :
    functionsOfFields l = l.flatMap Field.functions := by
  induction l with
  | nil => rfl
  | cons a rest ih => rw [functionsOfFields, ih, List.flatMap_cons]

theorem functionsOfOption_eq (e? : Option Expr) :
    functionsOfOption e? = e?.elim [] Expr.functions := by
  cases e? <;> rfl

theorem Stmt.functions_loop (init? : Option Stmt) (condition? update? : Option Expr)
    (body : Block) (position : Position) :
    (Stmt.loop init? condition? update? body position).functions =
      init?.elim [] Stmt.functions ++ (condition?.elim [] Expr.functions ++
        (update?.elim [] Expr.functions ++ body.functions)) := by
  cases init? <;> rw [Stmt.functions, functionsOfOption_eq, functionsOfOption_eq] <;> rfl

theorem Token.functionStart?_of_kind {t : Token} (h : t.kind = .keyword .functionWord) :
    t.functionStart? = some t.position := by
  unfold functionStart?
  rw [h]

/-- The functions of a phrase stand at words among its tokens. -/
theorem Derives.functions_from {phrase : Phrase} {ts : List Token} {a : phrase.Tree}
    (h : Derives phrase ts a) :
    From Token.functionStart? Function.position ts (phrase.functions a) := by
  induction h with
  | unmarked | marked | leftOut | notBehind | closed => exact .nil
  | given _ ih => exact ih
  | behind _ _ ih => exact ih.skip
  | lastOfChain _ ih => exact ih.alone
  | chained _ _ _ ih ih' | listed _ _ _ ih ih' => exact ih.append ih'.skip
  | lastOfList _ _ ih => exact ih.append .nil
  | oneType | union | oneIntersected | intersection | namedType | absentType | objectType
  | functionType | groupedType | propertyMember | methodMember | lastMember | memberOf
  | parameter | parameters => exact .nil
  | value _ ih | oneOperand _ ih | tighter _ _ ih | tightest _ _ ih | noUpdate _ ih | base _ ih =>
    exact ih
  | assignment _ _ _ _ _ ih ih' | operation _ _ _ _ ih ih' => exact ih.append ih'.skip
  | operator _ _ _ ih | updateBefore _ _ _ _ ih => exact ih.skip
  | updateAfter _ _ _ _ ih | property _ _ _ ih => exact ih.left
  | call _ _ _ ih ih' =>
    show From _ _ _ (_ ++ functionsOfEach _)
    rw [functionsOfEach_eq]
    exact ih.append ih'.skip
  | literal | receiver | reference => exact .nil
  | grouped _ _ _ ih => exact ih.left.skip
  | object _ _ ih =>
    show From _ _ _ (functionsOfFields _)
    rw [functionsOfFields_eq]
    exact ih.skip
  | functionValue _ ih => exact ih
  | field _ _ _ ih => exact ih.skip.skip
  -- a function stands at its first word, and the functions within it at words of its body
  | namelessFunction hword _ _ _ _ _ ih =>
    exact .take (Token.functionStart?_of_kind hword) ih.right.right
  | namedFunction hword _ _ _ _ _ _ ih =>
    exact .take (Token.functionStart?_of_kind hword) ih.right.right.skip
  | «variable» _ _ _ _ _ ih =>
    show From _ _ _ (functionsOfOption _)
    rw [functionsOfOption_eq]
    exact ih.right.skip.skip
  | variableAlone _ ih | functionAlone _ ih | expressionAlone _ ih => exact ih
  | giveBack _ _ ih =>
    show From _ _ _ (functionsOfOption _)
    rw [functionsOfOption_eq]
    exact ih.skip
  | ended _ _ ih => exact ih.left
  | branch _ _ ih => exact ih.skip
  | blockAlone _ ih => exact ih
  | loop _ _ _ _ _ _ _ _ _ hinit hcondition hupdate hbody =>
    show From _ _ _ (Stmt.functions _)
    rw [Stmt.functions_loop]
    exact (hinit.append
      (hcondition.append (hupdate.append hbody.skip).skip).skip).skip.skip
  | repeatWhile _ _ _ _ _ ih ih' => exact (ih.append ih'.skip).skip.skip
  | noStart | noAlternative => exact .nil
  | startVariable _ ih | startExpression _ ih => exact ih
  | @conditional _ _ _ _ _ _ _ _ otherwise? _ _ _ _ _ hcondition hbody hotherwise =>
    cases otherwise? with
    | none => exact (hcondition.append hbody.left.skip).skip
    | some otherwise => exact (hcondition.append (hbody.append hotherwise).skip).skip
  | otherConditional _ _ _ ih => exact ih.skip.skip
  | otherBody _ _ ih => exact ih.skip
  | block _ _ ih => exact ih.skip
  | noStatements => exact .nil
  | strayInBlock _ _ ih | stray _ _ ih => exact ih.skip
  | statementInBlock _ _ ih ih' | statementItem _ _ ih ih' => exact ih.append ih'
  | bodyBlock _ ih => exact ih
  | bodyStatement _ ih => exact ih.alone
  | name | interface | exports | noItems => exact .nil
  | interfaceItem _ _ _ ih | exportsItem _ _ _ ih => exact ih.right
  | program _ ih => exact ih

/-! ## Positions of tokens -/

/-- What stands behind a token is further on, since no token is empty. -/
theorem Token.IsRead.isBefore {t : Token} (h : t.IsRead) {before : List Char}
    (hposition : t.position = .behind before) :
    t.position.IsBefore (.behind (before ++ t.lexeme.toList)) := by
  obtain ⟨p, -, -, hmatches, -⟩ := h
  rw [Position.behind_append, ← hposition]
  exact .advance_of_ne_nil _ hmatches.ne_nil

namespace LaidOut

variable {rest before text : List Char} {ts : List Token}

/-- What is laid out behind a text does not stand before its end. -/
theorem behind_isBefore (h : LaidOut rest before ts text) : ∀ t ∈ ts,
    Position.behind before = t.position ∨ (Position.behind before).IsBefore t.position := by
  induction h with
  | gap => exact fun _ ht => absurd ht List.not_mem_nil
  | @token before gap text t ts _ hread hposition _ ih =>
    have hfirst := Position.IsBefore.advance (.behind before) gap
    rw [← Position.behind_append, ← hposition] at hfirst
    refine List.forall_mem_cons.mpr ⟨hfirst, fun u hu => ?_⟩
    -- Behind the first token stands what is further on than it, so a gap is enough.
    have hnext := (hread.isBefore hposition).of_or (ih u hu)
    rcases hfirst with heq | hfirst
    · exact .inr (heq ▸ hnext)
    · exact .inr (hfirst.trans hnext)

/-- Tokens stand one behind the other. -/
theorem pairwise (h : LaidOut rest before ts text) :
    ts.Pairwise fun t u => t.position.IsBefore u.position := by
  induction h with
  | gap => exact .nil
  | token _ hread hposition htail ih =>
    exact .cons (fun u hu => (hread.isBefore hposition).of_or (htail.behind_isBefore u hu)) ih

end LaidOut

/-- A name is no reserved word. -/
theorem Token.IsRead.ofSpelling?_eq_none {t : Token} (h : t.IsRead) {name : String}
    (hkind : t.kind = .identifier name) : Keyword.ofSpelling? name = none := by
  obtain ⟨p, -, hp, -, hread⟩ := h
  rw [hkind] at hread
  cases p with
  | number | closedText | symbol | lineComment | blockComment | lineFeed | blanks | openText =>
    cases hread
  | word =>
    unfold Pattern.kind Pattern.wordKind at hread
    dsimp only at hread
    split at hread
    · cases hread
    · split at hread
      · cases hread
      · split at hread
        · cases hread
        · next hnone =>
          cases hread
          exact hnone

/-! ## Programs from sources -/

/-- Things that tokens offer, each at its position, have different positions. -/
theorem From.nodup {α β : Type} {offer : Token → Option β} {see : α → β} {ts : List Token}
    {l : List α} (h : From offer see ts l) (place : β → Position)
    (hplace : ∀ t b, offer t = some b → place b = t.position)
    (hts : ts.Pairwise fun t u => t.position.IsBefore u.position) :
    (l.map fun a => place (see a)).Nodup := by
  have hoffered : (ts.filterMap offer).Pairwise fun b b' => place b ≠ place b' := by
    refine List.Pairwise.filterMap offer (fun t u htu b hb b' hb' => ?_) hts
    rw [hplace t b hb, hplace u b' hb']
    exact htu.ne
  have hseen := (List.Pairwise.sublist h hoffered).map place fun _ _ hne => hne
  rwa [List.map_map] at hseen

namespace Program

/-- A program is what the tokens mean that are read for it. -/
theorem derives_of_ofTokens? {tokens : List Token} {program : Program}
    (h : ofTokens? tokens = .ok program) :
    ∃ used rest, tokens = used ++ rest ∧ Derives .program used program := by
  unfold ofTokens? Parser.run at h
  cases hparse : Grammar.program ⟨tokens, 0⟩ with
  | error fault c =>
    rw [hparse] at h
    cases h
  | ok tree c =>
    rw [hparse] at h
    cases h
    obtain ⟨used, hused, hderives, -⟩ := Grammar.program_readsFrom _ _ _ _ hparse
    exact ⟨used, c.tokens, hused, hderives⟩

variable {source : String} {program : Program}

/-- What is seen in a program that was read from a source is offered by tokens that stand
one behind the other, if the end marker offers nothing. -/
theorem from_of_ofSource? {α β : Type} {offer : Token → Option β} {see : α → β} {l : List α}
    (h : ofSource? source = .ok program)
    (hfrom : ∀ used, Derives .program used program → From offer see used l)
    (hmarker : ∀ position, offer ⟨.endOfInput, "", position⟩ = none) :
    ∃ ts, (∀ t ∈ ts, t.IsRead) ∧ (ts.Pairwise fun t u => t.position.IsBefore u.position) ∧
      From offer see ts l := by
  have hstart : Position.start = .behind [] := rfl
  obtain ⟨ts, last, text, rest, hitems, -, hlaid, hend⟩ :=
    (scans source.toList .start).laidOut hstart
  refine ⟨ts, hlaid.isRead, hlaid.pairwise, ?_⟩
  unfold ofSource? at h
  rw [Token.ofSource?, hitems, mapM_ok_append] at h
  cases hend with
  | unexpectedCharacter | unterminatedText => cases h
  | endOfInput =>
    dsimp only [Except.map] at h
    split at h
    · cases h
    · next tree htree =>
      cases h
      -- What is not used offers something at most, and the end marker nothing.
      obtain ⟨used, rest, hused, hderives⟩ := derives_of_ofTokens? htree
      have hall : From offer see (used ++ rest) l := (hfrom used hderives).left
      unfold From at hall ⊢
      rw [← hused, List.filterMap_append, List.filterMap_cons_none (hmarker _)] at hall
      rwa [List.filterMap_nil, List.append_nil] at hall

/-- No two references in a program that was read from a source have one position. -/
theorem nodup_references (h : ofSource? source = .ok program) :
    (program.references.map (·.2)).Nodup := by
  obtain ⟨ts, -, hts, hfrom⟩ := from_of_ofSource? h
    (fun used hused => hused.references_from) fun _ => rfl
  refine hfrom.nodup Prod.snd (fun t b hb => ?_) hts
  unfold Token.mention? at hb
  split at hb <;> cases hb
  rfl

/-- The references in a program that was read from a source have no reserved words for
names. -/
theorem ofSpelling?_of_mem_references (h : ofSource? source = .ok program) {name : String}
    {position : Position} (hmem : (name, position) ∈ program.references) :
    Keyword.ofSpelling? name = none := by
  obtain ⟨ts, hread, -, hfrom⟩ := from_of_ofSource? h
    (fun used hused => hused.references_from) fun _ => rfl
  rw [Phrase.references, From, List.map_id] at hfrom
  obtain ⟨t, ht, hmention⟩ := List.mem_filterMap.mp (hfrom.subset hmem)
  unfold Token.mention? at hmention
  split at hmention
  · next other hkind =>
    cases hmention
    exact (hread t ht).ofSpelling?_eq_none hkind
  · cases hmention

/-- No two functions in a program that was read from a source have one position. -/
theorem nodup_functions (h : ofSource? source = .ok program) :
    (program.functions.map Function.position).Nodup := by
  obtain ⟨ts, -, hts, hfrom⟩ := from_of_ofSource? h
    (fun used hused => hused.functions_from) fun _ => rfl
  refine hfrom.nodup id (fun t b hb => ?_) hts
  unfold Token.functionStart? at hb
  split at hb <;> cases hb
  rfl

end Program

end TypedScript
