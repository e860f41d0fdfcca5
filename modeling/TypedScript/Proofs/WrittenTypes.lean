import TypedScript.Proofs.FirstOrderCheck
import TypedScript.Proofs.NormalTypes
import TypedScript.Proofs.Standing

/-!
# What a program writes

A program writes types behind its variables, parameters and results and in its interfaces.
In the grammar a chain of one type is that type, so by induction on the derivation of a
program all types in it are built of chains of two members or more (`Derives.isFormed`).
They denote normal types therefore, and the table of the program is normal
(`Program.allNormal_table`, `Program.passes_normal`).

The same induction says what else holds of the tree of a program by the grammar alone, and
need not be asked for when the program runs: what is assigned to is a place, declared
functions have names, and interfaces stand at the top level (`Survey.formed`).
-/

namespace TypedScript

/-! ## Annotations -/

/-- The types that are written for the parameters and the result of a function. -/
def Function.annotations (f : Function) : List TypeExpr :=
  f.params.filterMap (·.type?) ++ f.result?.toList

/-- The types that are written in a statement itself. -/
def Stmt.annotations : Stmt → List TypeExpr
  | .variable _ type? _ _ => type?.toList
  | .interface declaration => declaration.members.map (·.type)
  | _ => []

/-- The survey that asks something of each written type. -/
def Survey.ofAnnotations (P : TypeExpr → Bool) : Survey Unit where
  expr _ _ := true
  stmt _ s := s.annotations.all P
  function _ f := f.annotations.all P
  isOpen _ := true
  declare _ _ := ()
  enter _ := ()

/-- The survey of types that are built as the grammar has it. -/
abbrev Survey.built : Survey Unit :=
  .ofAnnotations TypeExpr.isBuilt

section Annotations

variable {P : TypeExpr → Bool}

theorem Function.annotations_all {f : Function} : f.annotations.all P = true ↔
    (∀ param ∈ f.params, ∀ type, param.type? = some type → P type = true) ∧
      ∀ type, f.result? = some type → P type = true := by
  unfold annotations
  rw [List.all_append, Bool.and_eq_true, List.all_eq_true, List.all_eq_true]
  simp only [List.mem_filterMap, Option.mem_toList]
  exact and_congr_left fun _ => ⟨fun h param hparam type htype => h type ⟨param, hparam, htype⟩,
    fun h type ⟨param, hparam, htype⟩ => h param hparam type htype⟩

/-- If what is asked of each written type implies something else, that may be asked. -/
theorem Survey.refines_ofAnnotations {Q : TypeExpr → Bool}
    (h : ∀ type, P type = true → Q type = true) :
    (Survey.ofAnnotations P).Refines (.ofAnnotations Q) (fun _ _ => True) fun _ _ => True where
  loosen _ := trivial
  expr _ _ := rfl
  stmt _ hs := List.all_eq_true.mpr fun type htype => h type (List.all_eq_true.mp hs type htype)
  function _ hf := List.all_eq_true.mpr fun type htype =>
    h type (List.all_eq_true.mp hf type htype)
  isOpen _ _ := rfl
  declare _ _ := trivial
  enter _ := trivial

end Annotations

/-! ## What the grammar builds -/

section Parts

variable {p : TypeExpr → Bool}

theorem all_partsOfEach (types : List TypeExpr) :
    (partsOfEach types).all p = types.all fun type => type.parts.all p := by
  induction types with
  | nil => rfl
  | cons type rest ih => rw [partsOfEach, List.all_append, List.all_cons, ih]

theorem all_partsOfMembers (members : List Member) :
    (partsOfMembers members).all p = members.all fun m => m.type.parts.all p := by
  induction members with
  | nil => rfl
  | cons m rest ih =>
    obtain ⟨_, type, _, _⟩ := m
    rw [partsOfMembers, List.all_append, List.all_cons, ih, Member.parts]

theorem all_partsOfParams (params : List Parameter) :
    (partsOfParams params).all p =
      params.all fun param => param.type?.all fun type => type.parts.all p := by
  induction params with
  | nil => rfl
  | cons param rest ih =>
    rw [partsOfParams, List.all_append, List.all_cons, ih]
    obtain ⟨_, _ | type, _, _⟩ := param <;> rfl

end Parts

namespace TypeExpr

variable {types : List TypeExpr} {position : Position}

theorem isBuilt_object {members : List Member} :
    (object members position).isBuilt = true ↔ ∀ m ∈ members, m.type.isBuilt = true := by
  unfold isBuilt
  rw [parts, List.all_cons, all_partsOfMembers]
  simp [isChain]

theorem isBuilt_function {params : List Parameter} {result : TypeExpr} :
    (function params result position).isBuilt = true ↔
      (∀ param ∈ params, ∀ type, param.type? = some type → type.isBuilt = true) ∧
        result.isBuilt = true := by
  unfold isBuilt
  rw [parts, List.all_cons, List.all_append, all_partsOfParams]
  simp [isChain, Option.all_eq_true]

theorem isBuilt_union : (union types position).isBuilt = true ↔
    2 ≤ types.length ∧ ∀ type ∈ types, type.isBuilt = true := by
  unfold isBuilt
  rw [parts, List.all_cons, all_partsOfEach]
  simp [isChain]

theorem isBuilt_intersection : (intersection types position).isBuilt = true ↔
    2 ≤ types.length ∧ ∀ type ∈ types, type.isBuilt = true := by
  unfold isBuilt
  rw [parts, List.all_cons, all_partsOfEach]
  simp [isChain]

end TypeExpr

/-- The operators that an assignment may compute with. -/
def BinaryOp.isCompound (op : BinaryOp) : Bool :=
  op = .add || op = .subtract || op = .multiply || op = .divide

/-- Whether an expression is one that the grammar makes, apart from its parts: what is
assigned to or updated is a place, and an assignment computes with one of four operators. -/
def Expr.isFormed : Expr → Bool
  | .assign target op? _ _ => target.isPlace && op?.all BinaryOp.isCompound
  | .update target _ _ _ => target.isPlace
  | _ => true

/-- Whether a statement below the top level is one that the grammar makes, apart from its
parts: a declared function has a name, and no interface is declared. -/
def Stmt.isFormed : Stmt → Bool
  | .function definition => definition.name?.isSome
  | .interface _ => false
  | _ => true

/-- The survey of all that the grammar makes below the top level. -/
def Survey.formed : Survey Unit where
  expr _ e := e.isFormed
  stmt _ s := s.isFormed && s.annotations.all TypeExpr.isBuilt
  function _ f := f.annotations.all TypeExpr.isBuilt
  isOpen _ := true
  declare _ _ := ()
  enter _ := ()

/-- At the top level stand interfaces, and what may stand below it. -/
def Stmt.IsFormedItem (s : Stmt) : Prop :=
  (∃ declaration, s = .interface declaration ∧
    ∀ m ∈ declaration.members, m.type.isBuilt = true) ∨ s.passes .formed () = true

/-- What a phrase means is as the grammar makes it, in all its parts. -/
def Phrase.IsFormed : (phrase : Phrase) → phrase.Tree → Prop
  | .optional part, a? | .after _ part, a? => ∀ a, a? = some a → part.IsFormed a
  | .chain _ part, l | .list _ part, l => ∀ a ∈ l, part.IsFormed a
  | .type, written | .intersectionType, written | .primaryType, written => written.isBuilt = true
  | .member, m => m.type.isBuilt = true
  | .members, l => ∀ m ∈ l, m.type.isBuilt = true
  | .parameter, param => ∀ type, param.type? = some type → type.isBuilt = true
  | .parameters, l => ∀ param ∈ l, ∀ type, param.type? = some type → type.isBuilt = true
  | .expression, e | .operation _, e | .operand _, e | .unary, e | .trailed, e | .primary, e =>
    e.passes .formed () = true
  | .field, a => a.passes .formed () = true
  | .function isNamed, f =>
    (isNamed = true → f.name?.isSome = true) ∧ f.passes .formed () = true
  | .variable, s | .simple, s | .statement, s | .conditional _, s => s.passes .formed () = true
  | .alternative, s? | .loopStart, s? => ∀ s, s? = some s → s.passes .formed () = true
  | .statements, l => rowPasses .formed () l = true
  | .block, b | .body, b => b.passesAt .formed () = true
  | .interface, declaration => ∀ m ∈ declaration.members, m.type.isBuilt = true
  | .items, l => ∀ s ∈ l, s.IsFormedItem
  | .program, whole => ∀ s ∈ whole.statements, s.IsFormedItem
  | _, _ => True

theorem optionPasses_iff {I : Type} {S : Survey I} {i : I} {e? : Option Expr} :
    optionPasses S i e? = true ↔ ∀ e, e? = some e → e.passes S i = true := by
  cases e? with
  | none => simp [optionPasses]
  | some e => simp [optionPasses]

/-- A function passes if its annotations and its body do. -/
theorem Function.passes_formed {name? : Option String} {params : List Parameter}
    {result? : Option TypeExpr} {body : Block} {position : Position}
    (hparams : ∀ param ∈ params, ∀ type, param.type? = some type → type.isBuilt = true)
    (hresult : ∀ type, result? = some type → type.isBuilt = true)
    (hbody : body.passesAt .formed () = true) :
    (Function.mk name? params result? body position).passes .formed () = true := by
  rw [Function.passes, Bool.and_eq_true]
  exact ⟨Function.annotations_all.mpr ⟨hparams, hresult⟩, hbody⟩

theorem all_isCompound {sign : Symbol} {op? : Option BinaryOp}
    (h : Grammar.assignment? sign = some op?) : op?.all BinaryOp.isCompound = true := by
  cases sign <;> cases h <;> rfl

/-- What tokens make up is as the grammar makes it. -/
theorem Derives.isFormed {phrase : Phrase} {ts : List Token} {a : phrase.Tree}
    (h : Derives phrase ts a) : phrase.IsFormed a := by
  induction h with
  | unmarked | marked | name | exports => trivial
  | leftOut | notBehind =>
    intro _ h
    cases h
  | given _ ih | behind _ _ ih =>
    intro a h
    cases h
    exact ih
  | lastOfChain _ ih | lastOfList _ _ ih => exact List.forall_mem_singleton.mpr ih
  | chained _ _ _ ih ih' | listed _ _ _ ih ih' => exact List.forall_mem_cons.mpr ⟨ih, ih'⟩
  | closed => exact fun _ h => absurd h List.not_mem_nil
  | oneType _ ih | oneIntersected _ ih | groupedType _ _ _ ih => exact ih
  | union _ hlength ih => exact TypeExpr.isBuilt_union.mpr ⟨hlength, ih⟩
  | intersection _ hlength ih => exact TypeExpr.isBuilt_intersection.mpr ⟨hlength, ih⟩
  | namedType | absentType => rfl
  | objectType _ _ ih => exact TypeExpr.isBuilt_object.mpr ih
  | functionType _ _ _ ih ih' => exact TypeExpr.isBuilt_function.mpr ⟨ih, ih'⟩
  | propertyMember _ _ _ _ _ ih => exact ih
  | @methodMember _ _ _ _ _ _ _ _ result? _ _ _ _ _ hparams hresult =>
    -- a result that is not written is a name
    refine TypeExpr.isBuilt_function.mpr ⟨hparams, ?_⟩
    cases result? with
    | none => rfl
    | some result => exact hresult result rfl
  | lastMember => exact fun _ h => absurd h List.not_mem_nil
  | memberOf _ _ _ _ ih _ ih' => exact List.forall_mem_cons.mpr ⟨ih, ih'⟩
  | parameter _ _ _ _ ih => exact ih
  | parameters _ _ ih => exact ih
  | value _ ih | oneOperand _ ih | tighter _ _ ih | tightest _ _ ih | noUpdate _ ih | base _ ih
  | grouped _ _ _ ih => exact ih
  | assignment _ hplace _ hop _ ih ih' =>
    show Expr.passes _ _ _ = true
    rw [Expr.passes]
    exact Bool.and_eq_true_iff.mpr ⟨Bool.and_eq_true_iff.mpr ⟨hplace, all_isCompound hop⟩,
      Bool.and_eq_true_iff.mpr ⟨ih, ih'⟩⟩
  | operation _ _ _ _ ih ih' =>
    show Expr.passes _ _ _ = true
    rw [Expr.passes]
    exact Bool.and_eq_true_iff.mpr ⟨rfl, Bool.and_eq_true_iff.mpr ⟨ih, ih'⟩⟩
  | updateBefore _ _ _ hplace ih | updateAfter _ hplace _ _ ih =>
    show Expr.passes _ _ _ = true
    rw [Expr.passes]
    exact Bool.and_eq_true_iff.mpr ⟨hplace, ih⟩
  | operator _ _ _ ih | property _ _ _ ih =>
    show Expr.passes _ _ _ = true
    rw [Expr.passes]
    exact Bool.and_eq_true_iff.mpr ⟨rfl, ih⟩
  | call _ _ _ ih ih' =>
    show Expr.passes _ _ _ = true
    rw [Expr.passes]
    exact Bool.and_eq_true_iff.mpr ⟨rfl, Bool.and_eq_true_iff.mpr ⟨ih, eachPasses_iff.mpr ih'⟩⟩
  | literal | reference | receiver => rfl
  | object _ _ ih =>
    show Expr.passes _ _ _ = true
    rw [Expr.passes]
    exact Bool.and_eq_true_iff.mpr ⟨rfl, fieldsPass_iff.mpr ih⟩
  | functionValue _ ih =>
    show Expr.passes _ _ _ = true
    rw [Expr.passes]
    exact Bool.and_eq_true_iff.mpr ⟨rfl, ih.2⟩
  | field _ _ _ ih => exact ih
  | namelessFunction _ _ _ _ hparams hresult hbody =>
    exact ⟨fun h => absurd h Bool.false_ne_true, Function.passes_formed hparams hresult hbody⟩
  | namedFunction _ _ _ _ _ hparams hresult hbody =>
    exact ⟨fun _ => rfl, Function.passes_formed hparams hresult hbody⟩
  | «variable» _ _ _ _ htype hvalue =>
    show Stmt.passes _ _ _ = true
    rw [Stmt.passes]
    refine Bool.and_eq_true_iff.mpr ⟨Bool.and_eq_true_iff.mpr ⟨rfl,
      List.all_eq_true.mpr fun type hmem => ?_⟩,
      Bool.and_eq_true_iff.mpr ⟨rfl, optionPasses_iff.mpr hvalue⟩⟩
    exact htype type (Option.mem_toList.mp hmem)
  | variableAlone _ ih => exact ih
  | functionAlone _ ih =>
    show Stmt.passes _ _ _ = true
    rw [Stmt.passes]
    exact Bool.and_eq_true_iff.mpr ⟨Bool.and_eq_true_iff.mpr ⟨ih.1 rfl, rfl⟩,
      Bool.and_eq_true_iff.mpr ⟨rfl, ih.2⟩⟩
  | giveBack _ _ ih =>
    show Stmt.passes _ _ _ = true
    rw [Stmt.passes]
    exact Bool.and_eq_true_iff.mpr ⟨rfl, optionPasses_iff.mpr ih⟩
  | expressionAlone _ ih =>
    show Stmt.passes _ _ _ = true
    rw [Stmt.passes]
    exact Bool.and_eq_true_iff.mpr ⟨rfl, ih⟩
  | ended _ _ ih => exact ih
  | branch _ _ ih => exact ih
  | blockAlone _ ih =>
    show Stmt.passes _ _ _ = true
    rw [Stmt.passes]
    exact Bool.and_eq_true_iff.mpr ⟨rfl, ih⟩
  | @loop _ _ _ _ _ _ _ _ _ init? _ _ _ _ _ _ _ _ _ _ _ _ hinit hcondition hupdate hbody =>
    have hrest := Bool.and_eq_true_iff.mpr ⟨optionPasses_iff.mpr hcondition,
      Bool.and_eq_true_iff.mpr ⟨optionPasses_iff.mpr hupdate, hbody⟩⟩
    show Stmt.passes _ _ _ = true
    cases init? with
    | none =>
      rw [Stmt.passes]
      exact Bool.and_eq_true_iff.mpr ⟨rfl, hrest⟩
    | some init =>
      rw [Stmt.passes]
      exact Bool.and_eq_true_iff.mpr ⟨rfl, Bool.and_eq_true_iff.mpr ⟨hinit init rfl, hrest⟩⟩
  | repeatWhile _ _ _ _ _ ih ih' =>
    show Stmt.passes _ _ _ = true
    rw [Stmt.passes]
    exact Bool.and_eq_true_iff.mpr ⟨rfl, Bool.and_eq_true_iff.mpr ⟨ih, ih'⟩⟩
  | noStart | noAlternative =>
    intro _ h
    cases h
  | startVariable _ ih =>
    intro s h
    cases h
    exact ih
  | startExpression _ ih =>
    intro s h
    cases h
    rw [Stmt.passes]
    exact Bool.and_eq_true_iff.mpr ⟨rfl, ih⟩
  | @conditional _ _ _ _ _ _ _ _ otherwise? _ _ _ _ _ hcondition hbody hotherwise =>
    show Stmt.passes _ _ _ = true
    cases otherwise? with
    | none =>
      rw [Stmt.passes]
      exact Bool.and_eq_true_iff.mpr ⟨rfl, Bool.and_eq_true_iff.mpr ⟨hcondition, hbody⟩⟩
    | some otherwise =>
      rw [Stmt.passes]
      exact Bool.and_eq_true_iff.mpr ⟨rfl, Bool.and_eq_true_iff.mpr ⟨hcondition,
        Bool.and_eq_true_iff.mpr ⟨hbody, hotherwise otherwise rfl⟩⟩⟩
  | otherConditional _ _ _ ih =>
    intro s h
    cases h
    exact ih
  | otherBody _ _ ih =>
    intro s h
    cases h
    rw [Stmt.passes]
    exact Bool.and_eq_true_iff.mpr ⟨rfl, ih⟩
  | block _ _ ih =>
    show Block.passesAt _ _ _ = true
    rw [Block.passesAt]
    exact ih
  | noStatements => rfl
  | noItems => exact fun _ h => absurd h List.not_mem_nil
  | strayInBlock _ _ ih | stray _ _ ih => exact ih
  | statementInBlock _ _ ih ih' =>
    show rowPasses _ _ _ = true
    rw [rowPasses]
    exact Bool.and_eq_true_iff.mpr ⟨ih, ih'⟩
  | statementItem _ _ ih ih' => exact List.forall_mem_cons.mpr ⟨.inr ih, ih'⟩
  | bodyBlock _ ih => exact ih
  | bodyStatement _ ih =>
    show Block.passesAt _ _ _ = true
    rw [Block.passesAt, rowPasses]
    exact Bool.and_eq_true_iff.mpr ⟨ih, rfl⟩
  | interface _ _ _ _ ih => exact ih
  | interfaceItem _ _ ih ih' => exact List.forall_mem_cons.mpr ⟨.inl ⟨_, rfl, ih⟩, ih'⟩
  | exportsItem _ _ _ ih => exact ih
  | program _ ih => exact ih

/-- What the grammar makes below the top level writes types as the grammar has it. -/
theorem Survey.formed_refines :
    Survey.formed.Refines .built (fun _ _ => True) fun _ _ => True where
  loosen _ := trivial
  expr _ _ := rfl
  stmt _ hs := (Bool.and_eq_true_iff.mp hs).2
  function _ hf := hf
  isOpen _ _ := rfl
  declare _ _ := trivial
  enter _ := trivial

theorem Stmt.IsFormedItem.passes_built {s : Stmt} (h : s.IsFormedItem) :
    s.passes .built () = true := by
  rcases h with ⟨declaration, rfl, hbuilt⟩ | hformed
  · rw [Stmt.passes]
    refine List.all_eq_true.mpr fun type hmem => ?_
    obtain ⟨m, hm, rfl⟩ := List.mem_map.mp hmem
    exact hbuilt m hm
  · exact Stmt.passes_refine Survey.formed_refines trivial hformed

/-! ## Programs from sources -/

/-- The survey of written types that denote normal ones. -/
abbrev Survey.normal (table : Table) : Survey Unit :=
  .ofAnnotations fun type => decide (table.Normal (table.denote type))

theorem mem_of_mem_interfacesOf {statements : List Stmt} {declaration : Interface}
    (h : declaration ∈ interfacesOf statements) : .interface declaration ∈ statements := by
  induction statements with
  | nil => exact absurd h List.not_mem_nil
  | cons s rest ih =>
    cases s with
    | interface first =>
      rcases List.mem_cons.mp h with rfl | h
      · exact List.mem_cons_self
      · exact List.mem_cons_of_mem _ (ih h)
    | _ => exact List.mem_cons_of_mem _ (ih h)

namespace Program

variable {source : String} {program : Program}

/-- The statements of a program are as the grammar makes them. -/
theorem isFormedItem_of_mem {tokens : List Token} (h : ofTokens? tokens = .ok program) :
    ∀ s ∈ program.statements, s.IsFormedItem := by
  obtain ⟨used, rest, -, hderives⟩ := derives_of_ofTokens? h
  exact hderives.isFormed

/-- A program that was read from a source is one that tokens make up. -/
theorem exists_tokens (h : ofSource? source = .ok program) :
    ∃ tokens, Token.ofSource? source = .ok tokens ∧ ofTokens? tokens = .ok program := by
  unfold ofSource? at h
  split at h
  · cases h
  · next tokens htokens =>
    split at h
    · cases h
    · next hparse =>
      cases h
      exact ⟨tokens, htokens, hparse⟩

/-- All types in a program that was read from a source are built as the grammar has it. -/
theorem passes_built (h : ofSource? source = .ok program) :
    rowPasses .built () program.statements = true := by
  obtain ⟨tokens, -, hparse⟩ := exists_tokens h
  exact rowPasses_iff.mpr fun s hs => (isFormedItem_of_mem hparse s hs).passes_built

theorem isBuilt_of_mem_interfaces (h : rowPasses .built () program.statements = true)
    {declaration : Interface} (hdeclaration : declaration ∈ program.interfaces) :
    ∀ m ∈ declaration.members, m.type.isBuilt = true := by
  intro m hm
  have hmem := mem_of_mem_interfacesOf (mem_of_mem_firstOfEachName hdeclaration)
  have hpasses := Stmt.node_of_passes (rowPasses_iff.mp h _ hmem)
  exact List.all_eq_true.mp hpasses m.type (List.mem_map_of_mem hm)

/-- The shapes of the interfaces are normal if their types are built as the grammar has
it. -/
theorem allNormal_table (h : rowPasses .built () program.statements = true) :
    program.table.AllNormal := by
  have hdeclared : ∀ name, decide (name ∈ program.interfaces.map (·.name)) = true →
      program.table.declares name = true := by
    intro name hname
    unfold Table.declares Program.table
    rw [Record.has_ofList, List.map_map]
    exact hname
  intro name shape hshape
  have hentry := Record.mem_entries_of_get? hshape
  unfold Program.table at hentry
  obtain ⟨name', hgiven⟩ := Record.mem_ofList hentry
  obtain ⟨declaration, hdeclaration, heq⟩ := List.mem_map.mp hgiven
  cases heq
  -- the names that the members may mention are those of the table itself
  have hbuilt := isBuilt_of_mem_interfaces h hdeclaration
  refine Ty.Throughout.object_iff.mpr ⟨nodup_denoteMembers [] declaration.members,
    normal_denoteMembers hdeclared (List.all_eq_true.mp ?_)⟩
  rw [all_partsOfMembers]
  exact List.all_eq_true.mpr hbuilt

/-- What a program that was read from a source writes denotes normal types. -/
theorem passes_normal (h : rowPasses .built () program.statements = true) :
    rowPasses (.normal program.table) () program.statements = true := by
  refine rowPasses_refine (Survey.refines_ofAnnotations fun type htype => ?_) trivial h
  exact decide_eq_true (TypeExpr.normal_denote (fun _ h => h) (List.all_eq_true.mp htype))

end Program

end TypedScript
