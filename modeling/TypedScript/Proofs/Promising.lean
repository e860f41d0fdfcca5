import TypedScript.Proofs.FirstOrderCheck
import TypedScript.Proofs.InSight
import TypedScript.Proofs.Returning

/-!
# What a clean check promises

A first-order body computes with values, declares and assigns variables, and gives back
values. A check of it that gives no diagnostic tells how it runs: an expression gives
its type (`Expr.Gives`), and a statement either leads to the scopes after it or gives
back a value of one of the types that the check has noted (`Stmt.Settles`).

There is one lemma for each rule of the checker, from what is promised of the parts of a
node (`Checker.Promises`), and the promise is kept whatever the fuel
(`checker_promises`). What is noted for the whole body is in `Checker.settles_of_checkBody`.
-/

namespace TypedScript

open Check

/-! ## First-order bodies -/

namespace Table

variable (table : Table)

instance (type : Ty) : Decidable (table.PlainPart type) :=
  match type with
  | .unknown | .function _ => isFalse id
  | .named name => inferInstanceAs (Decidable (table.declares name = true))
  | .object properties => inferInstanceAs (Decidable (∀ p ∈ properties, p.isOptional = false))
  | .primitive _ | .union _ | .intersection _ => isTrue trivial

instance (type : Ty) : Decidable (table.Plain type) :=
  inferInstanceAs (Decidable (∀ part ∈ type.parts, table.PlainPart part))

end Table

/-- Whether an expression computes with values or writes to a variable. -/
def Expr.isSimple : Expr → Bool
  | .literal _ _ | .reference _ _ | .unary _ _ _ | .binary _ _ _ _ | .member _ _ _
  | .object _ _ | .assign (.reference _ _) _ _ _ | .update (.reference _ _) _ _ _ => true
  | _ => false

/-- Whether a statement declares nothing, or a variable with a value, of a plain type if
one is written. -/
def Stmt.isSimple (part table : Table) : Stmt → Bool
  | .variable _ type? value? _ =>
    value?.isSome && type?.all fun type => part.Plain (table.denote type)
  | .function _ | .interface _ => false
  | _ => true

/-- The survey of first-order statements that mention some names of the scopes around
them, with types of which everything is known. -/
def Survey.firstOrder (part table : Table) : Survey (List String) where
  expr names e := e.isSimple && e.mentions names
  stmt _ s := s.isSimple part table
  function _ _ := false
  isOpen _ := true
  declare names name := name :: names
  enter names := names

namespace Surroundings

/-- The survey of first-order statements that have the forms of the grammar. -/
def survey (O : Surroundings) : Survey (List String) :=
  { Survey.firstOrder O.part O.table with
    stmt := fun _ s => s.isBuilt && s.isSimple O.part O.table }

theorem both_refines_survey (O : Surroundings) :
    (Survey.grammar.both (.firstOrder O.part O.table)).Refines O.survey (fun i j => i.2 = j)
      fun i j => i.2 = j where
  loosen h := h
  expr {i j e} hij h := by
    rw [← hij]
    exact h
  stmt _ h := h
  function _ h := h
  isOpen _ h := h
  declare name hij := congrArg (name :: ·) hij
  enter hij := hij

/-! ## Knowledge with scopes of its own -/

/-- What is known while a body is checked: scopes of its own, and around these those
outside. -/
structure At (O : Surroundings) (k : Knowledge) (locals : List Scope) (names : List String) :
    Prop where
  scopes : k.scopes = locals ++ O.scopes
  knows : O.Knows locals names

end Surroundings

namespace Knowledge

/-- What is known once values of some types have been given back. -/
def givesBack (k : Knowledge) (given : List Ty) : Knowledge :=
  { k with
    functions := match k.functions with
      | [] => []
      | activation :: rest =>
        { activation with returns := activation.returns ++ given } :: rest }

/-- The result that the function being looked at declares. -/
def declared? (k : Knowledge) : Option Ty :=
  k.functions.head?.bind (·.declared?)

variable (k : Knowledge) (given given' : List Ty)

theorem givesBack_nil : k.givesBack [] = k := by
  obtain ⟨scopes, functions, receivers, inferring, ahead, diagnostics⟩ := k
  cases functions with
  | nil => rfl
  | cons activation rest => simp [givesBack]

theorem givesBack_append :
    (k.givesBack given).givesBack given' = k.givesBack (given ++ given') := by
  obtain ⟨scopes, functions, receivers, inferring, ahead, diagnostics⟩ := k
  cases functions with
  | nil => rfl
  | cons activation rest => simp [givesBack]

theorem declared?_givesBack : (k.givesBack given).declared? = k.declared? := by
  obtain ⟨scopes, functions, receivers, inferring, ahead, diagnostics⟩ := k
  cases functions <;> rfl

end Knowledge

namespace Surroundings

variable {O : Surroundings} {k : Knowledge} {given given' : List Ty}

/-- Types of values that the function being looked at may give back: they are plain and
fit the result that it declares, if any. -/
def MayGive (O : Surroundings) (k : Knowledge) (given : List Ty) : Prop :=
  ∀ type ∈ given, O.part.Plain type ∧
    ∀ declared, k.declared? = some declared → O.table.Fits type declared

theorem mayGive_nil : O.MayGive k [] :=
  fun _ htype => absurd htype List.not_mem_nil

theorem MayGive.append (h : O.MayGive k given) (h' : O.MayGive (k.givesBack given) given') :
    O.MayGive k (given ++ given') := by
  intro type htype
  rcases List.mem_append.mp htype with htype | htype
  · exact h type htype
  · rw [← k.declared?_givesBack given]
    exact h' type htype

/-- What a clean check of a statement promises, that started with a scope inside others
and ended with another one in its place. -/
structure Leads (O : Surroundings) (s : Stmt) (names : List String) (k : Knowledge)
    (scope : Scope) (outer : List Scope) (k' : Knowledge) (scope' : Scope) (given : List Ty) :
    Prop where
  eq : k' = { k.givesBack given with scopes := scope' :: outer ++ O.scopes }
  knows : O.Knows (scope' :: outer) (s.indexAfter O.survey names)
  mayGive : O.MayGive k given
  settles : s.Settles O (scope :: outer) (scope' :: outer) given
  /-- What stands behind `else` declares nothing in the scope around it. -/
  alternative : s.isAlternative = true → scope' = scope
  /-- What a loop starts with gives nothing back. -/
  loopStart : s.isLoopStart = true → given = []

end Surroundings

/-- A checker that keeps its promises to a body with certain surroundings. -/
structure Checker.Promises (O : Surroundings) (go : Checker) : Prop where
  table : go.table = O.table
  grows : go.Keeps Grows Grows
  name : ∀ {name position k type k'}, go.typeOf (.reference name position) k = .ok type k' →
    k'.diagnostics = [] →
    (∀ known, findBinding k.scopes name = some known → O.part.Plain known.type) →
      k' = k ∧ ∃ known, findBinding k.scopes name = some known ∧ type = known.type
  typeOf : ∀ {e k type k' locals names}, go.typeOf e k = .ok type k' → k'.diagnostics = [] →
    O.At k locals names → e.passes O.survey names = true →
      k' = k ∧ O.part.Plain type ∧ e.Gives O locals type
  check : ∀ {s k u k' scope outer names}, go.check s k = .ok u k' → k'.diagnostics = [] →
    O.At k (scope :: outer) names → s.passes O.survey names = true →
      ∃ scope' given, O.Leads s names k scope outer k' scope' given
  checkAll : ∀ {l k u k' scope outer names}, go.checkAll l k = .ok u k' → k'.diagnostics = [] →
    O.At k (scope :: outer) names → rowPasses O.survey names l = true →
      ∃ scope' given, k' = { k.givesBack given with scopes := scope' :: outer ++ O.scopes } ∧
        O.MayGive k given ∧ rowSettles O l (scope :: outer) (scope' :: outer) given

namespace Checker

variable {O : Surroundings} {go : Checker} {k k' : Knowledge} {locals : List Scope}
  {names : List String}

theorem Promises.fits (hgo : go.Promises O) {found expected : Ty} {position : Position} {u : Unit}
    (h : go.expect found expected position k = .ok u k') (hclean : k'.diagnostics = []) :
    k' = k ∧ O.table.Fits found expected := by
  rw [← hgo.table]
  exact fits_of_expect h hclean

/-- No function is the value of anything in a first-order body. -/
theorem ne_function_of_passes {e : Expr} (h : e.passes O.survey names = true) (f : Function) :
    e ≠ .function f := by
  rintro rfl
  exact absurd (Expr.node_of_passes h) Bool.false_ne_true

/-- Plain types are known. -/
theorem ne_unknown_of_plain {table : Table} {type : Ty} (h : table.Plain type) :
    type ≠ .unknown := by
  rintro rfl
  exact h.self

/-! ## Expressions -/

section Expressions

variable (hgo : go.Promises O) (hat : O.At k locals names)
include hgo hat

/-- A variable that is mentioned, and what is known of it. -/
theorem Promises.reference {name : String} {position : Position} {type : Ty}
    (h : go.typeOf (.reference name position) k = .ok type k') (hclean : k'.diagnostics = [])
    (hname : (Expr.reference name position).passes O.survey names = true) :
    k' = k ∧ O.Offers locals name ∧ ∃ known, findBinding (locals ++ O.scopes) name = some known ∧
      O.part.Plain known.type ∧ type = known.type := by
  have hmem : name ∈ names := List.contains_iff_mem.mp (Expr.node_of_passes hname)
  have hplain : ∀ known, findBinding k.scopes name = some known → O.part.Plain known.type := by
    intro known hknown
    rw [hat.scopes] at hknown
    exact hat.knows.plain_of_find hmem hknown
  obtain ⟨rfl, known, hknown, rfl⟩ := hgo.name h hclean hplain
  exact ⟨rfl, hat.knows.offers name hmem, known, by rwa [hat.scopes] at hknown,
    hplain known hknown, rfl⟩

theorem gives_of_binary {left right : Expr} {op : BinaryOp} {position : Position}
    (hl : left.passes O.survey names = true) (hr : right.passes O.survey names = true) {type : Ty}
    (h : go.exprRule (.binary left op right position) k = .ok type k')
    (hclean : k'.diagnostics = []) :
    k' = k ∧ O.part.Plain type ∧ (Expr.binary left op right position).Gives O locals type := by
  obtain ⟨a, k₁, hleft, h₁⟩ := bind_eq_ok.mp h
  obtain ⟨b, k₂, hright, hop⟩ := bind_eq_ok.mp h₁
  have hclean₂ := clean_of_keeps (typeOfBinary_keeps grows_discipline _ _ _ _) hop hclean
  have hclean₁ := clean_of_keeps (hgo.grows.typeOf right) hright hclean₂
  obtain ⟨rfl, ha, hgives⟩ := hgo.typeOf hleft hclean₁ hat hl
  obtain ⟨rfl, hb, hgives'⟩ := hgo.typeOf hright hclean₂ hat hr
  obtain ⟨rfl, htype⟩ :=
    hasType_of_typeOfBinary hop hclean (ne_unknown_of_plain ha) (ne_unknown_of_plain hb)
  rw [hgo.table] at htype
  exact ⟨rfl, htype.plain, hgives.binary hgives' ha hb htype position⟩

theorem gives_of_assign {name : String} {place position : Position} {value : Expr}
    {op? : Option BinaryOp} (hname : (Expr.reference name place).passes O.survey names = true)
    (hvalue : value.passes O.survey names = true) {type : Ty}
    (h : go.exprRule (.assign (.reference name place) op? value position) k = .ok type k')
    (hclean : k'.diagnostics = []) :
    k' = k ∧ O.part.Plain type ∧
      (Expr.assign (.reference name place) op? value position).Gives O locals type := by
  obtain ⟨k₁, given, k₂, found, hexpected, hclean₁, hgiven, hclean₂, hfits, hfound⟩ :=
    exists_of_assign hgo.grows h hclean
  rw [hgo.table] at hfits
  obtain ⟨rfl, hoffers, known, hknown, hplain, rfl⟩ := hgo.reference hat hexpected hclean₁ hname
  obtain ⟨rfl, hplain', hgives⟩ := hgo.typeOf hgiven hclean₂ hat hvalue
  have hne := ne_function_of_passes hvalue
  rcases hfound with ⟨rfl, rfl, rfl⟩ | ⟨op, rfl, hfound⟩
  · exact ⟨rfl, hplain, .assign hoffers hknown hplain hne hgives hplain' hplain' rfl hfits _ _⟩
  · obtain ⟨rfl, hop⟩ := hasType_of_typeOfBinary hfound hclean (ne_unknown_of_plain hplain)
      (ne_unknown_of_plain hplain')
    rw [hgo.table] at hop
    exact ⟨rfl, hplain, .assign hoffers hknown hplain hne hgives hplain' hop.plain hop hfits _ _⟩

theorem gives_of_member {inner : Expr} {property : String} {position : Position}
    (hinner : inner.passes O.survey names = true) {type : Ty}
    (h : go.exprRule (.member inner property position) k = .ok type k')
    (hclean : k'.diagnostics = []) :
    k' = k ∧ O.part.Plain type ∧ (Expr.member inner property position).Gives O locals type := by
  obtain ⟨found, k₁, hfound, h₁⟩ := bind_eq_ok.mp h
  obtain ⟨type?, k₂, hask, h₂⟩ := bind_eq_ok.mp h₁
  obtain ⟨hproperty, rfl⟩ := ask_eq_ok.mp hask
  cases type? with
  | none =>
    obtain ⟨_, k₃, hreport, hend⟩ := bind_eq_ok.mp h₂
    rw [(pure_eq_ok.mp hend).2] at hclean
    exact absurd hclean (not_clean_of_report hreport)
  | some type' =>
    obtain ⟨rfl, rfl⟩ := pure_eq_ok.mp h₂
    obtain ⟨rfl, hplain, hgives⟩ := hgo.typeOf hfound hclean hat hinner
    rw [hgo.table] at hproperty
    exact ⟨rfl, (exists_property_of_conforms (s := .empty) O.isPart found hplain hproperty).1,
      hgives.member hplain hproperty position⟩

theorem fieldsGive_of_fieldTypes (fields : List Field)
    (hfields : fieldsPass O.survey names fields = true) {before shape : Shape}
    {methods : List Method} (h : go.fieldTypes before fields k = .ok (shape, methods) k')
    (hclean : k'.diagnostics = []) :
    k' = k ∧ methods = [] ∧ fieldsGive O locals before fields shape := by
  induction fields generalizing before shape methods k' with
  | nil =>
    obtain ⟨heq, rfl⟩ := pure_eq_ok.mp h
    cases heq
    exact ⟨rfl, rfl, rfl⟩
  | cons field rest ih =>
    obtain ⟨name, value, position⟩ := field
    rw [fieldsPass, Bool.and_eq_true, Field.passes] at hfields
    have hne := ne_function_of_passes hfields.1
    obtain ⟨type, k₁, htype, hclean₁, hname, hothers⟩ :=
      exists_of_fieldTypes_cons hgo.grows hne h hclean
    obtain ⟨rfl, hplain, hgives⟩ := hgo.typeOf htype hclean₁ hat hfields.1
    obtain ⟨rfl, rfl, hshape⟩ := ih hfields.2 hothers hclean
    exact ⟨rfl, rfl, type, hplain, hgives, hne, hname, hshape⟩

theorem gives_of_object {fields : List Field} {position : Position}
    (hfields : fieldsPass O.survey names fields = true) {type : Ty}
    (h : go.exprRule (.object fields position) k = .ok type k') (hclean : k'.diagnostics = []) :
    k' = k ∧ O.part.Plain type ∧ (Expr.object fields position).Gives O locals type := by
  obtain ⟨⟨shape, methods⟩, k₁, htypes, h₁⟩ := bind_eq_ok.mp h
  obtain ⟨shape', k₂, hmethods, hend⟩ := bind_eq_ok.mp h₁
  obtain ⟨rfl, rfl⟩ := pure_eq_ok.mp hend
  have hclean₁ := clean_of_keeps (checkMethods_keeps grows_discipline hgo.grows _ _) hmethods
    hclean
  obtain ⟨rfl, rfl, hshape⟩ := fieldsGive_of_fieldTypes hgo hat fields hfields htypes hclean₁
  -- without methods the second pass has nothing to do
  obtain ⟨rfl, rfl⟩ := pure_eq_ok.mp hmethods
  have hplain := plain_of_fieldsGive hshape (Table.plain_object fun _ hp =>
    absurd hp List.not_mem_nil)
  exact ⟨rfl, hplain, .object hshape hplain position⟩

/-- The rule of expressions keeps the promise if it is kept to the parts. -/
theorem gives_of_exprRule {e : Expr} (he : e.passes O.survey names = true) {type : Ty}
    (h : go.exprRule e k = .ok type k') (hclean : k'.diagnostics = []) :
    k' = k ∧ O.part.Plain type ∧ e.Gives O locals type := by
  have hnode := Expr.node_of_passes he
  cases e with
  | literal value position =>
    have heq : type = value.type ∧ k' = k := by
      cases value <;> exact pure_eq_ok.mp h
    obtain ⟨rfl, rfl⟩ := heq
    refine ⟨rfl, ?_, .literal value position⟩
    cases value <;> exact Table.plain_primitive _
  | reference name position =>
    have hmem : name ∈ names := List.contains_iff_mem.mp hnode
    have hplain : ∀ known, findBinding k.scopes name = some known → O.part.Plain known.type := by
      intro known hknown
      rw [hat.scopes] at hknown
      exact hat.knows.plain_of_find hmem hknown
    -- the name is not that of a function, whose type would not be plain
    obtain ⟨rfl, known, hknown, rfl⟩ := typeOfName_eq_ok h hclean
      fun known hknown signature heq => by
        have hfunction := (hplain known hknown).self
        rw [heq] at hfunction
        exact hfunction.elim
    have hplain := hplain known hknown
    rw [hat.scopes] at hknown
    exact ⟨rfl, hplain, .reference (hat.knows.offers name hmem) hknown position⟩
  -- the survey lets no receiver through, and no call or function below
  | receiver position => exact absurd hnode Bool.false_ne_true
  | unary op operand position =>
    rw [Expr.passes, Bool.and_eq_true] at he
    -- what is reported stays reported, so a clean end means that the operand fits
    obtain ⟨found, k₁, hoperand, h₁⟩ := bind_eq_ok.mp h
    obtain ⟨_, k₂, hexpect, hend⟩ := bind_eq_ok.mp h₁
    obtain ⟨rfl, rfl⟩ := pure_eq_ok.mp hend
    obtain ⟨rfl, _⟩ := hgo.fits hexpect hclean
    obtain ⟨rfl, _, hgives⟩ := hgo.typeOf hoperand hclean hat he.2
    cases op <;> exact ⟨rfl, Table.plain_primitive _, hgives.unary _ position⟩
  | binary left op right position =>
    rw [Expr.passes, Bool.and_eq_true, Bool.and_eq_true] at he
    exact gives_of_binary hgo hat he.2.1 he.2.2 h hclean
  | assign target op? value position =>
    rw [Expr.passes, Bool.and_eq_true, Bool.and_eq_true] at he
    cases target with
    | reference name place => exact gives_of_assign hgo hat he.2.1 he.2.2 h hclean
    | _ => exact absurd hnode Bool.false_ne_true
  | update target op isBefore position =>
    rw [Expr.passes, Bool.and_eq_true] at he
    cases target with
    | reference name place =>
      obtain ⟨found, k₁, hfound, h₁⟩ := bind_eq_ok.mp h
      obtain ⟨_, k₂, hexpect, hend⟩ := bind_eq_ok.mp h₁
      obtain ⟨rfl, rfl⟩ := pure_eq_ok.mp hend
      obtain ⟨rfl, _⟩ := hgo.fits hexpect hclean
      obtain ⟨rfl, hoffers, known, hknown, _⟩ := hgo.reference hat hfound hclean he.2
      exact ⟨rfl, Table.plain_primitive _, .update hoffers hknown place op isBefore position⟩
    | _ => exact absurd hnode Bool.false_ne_true
  | call callee arguments position => exact absurd hnode Bool.false_ne_true
  | member inner property position =>
    rw [Expr.passes, Bool.and_eq_true] at he
    exact gives_of_member hgo hat he.2 h hclean
  | object fields position =>
    rw [Expr.passes, Bool.and_eq_true] at he
    exact gives_of_object hgo hat he.2 h hclean
  | function f => exact absurd hnode Bool.false_ne_true

end Expressions

/-! ## Statements -/

section Statements

variable (hgo : go.Promises O) {scope : Scope} {outer : List Scope}

include hgo in
theorem gives_of_checkCondition (hat : O.At k locals names) {condition : Expr}
    (hcondition : condition.passes O.survey names = true) {u : Unit}
    (h : go.checkCondition condition k = .ok u k') (hclean : k'.diagnostics = []) :
    k' = k ∧ ∃ type, condition.Gives O locals type := by
  obtain ⟨type, k₁, htype, hexpect⟩ := bind_eq_ok.mp h
  obtain ⟨rfl, _⟩ := hgo.fits hexpect hclean
  obtain ⟨rfl, _, hgives⟩ := hgo.typeOf htype hclean hat hcondition
  exact ⟨rfl, type, hgives⟩

/-- In first-order statements no function is told ahead. -/
theorem hoist_eq_pure {l : List Stmt} (hl : rowPasses O.survey names l = true) :
    go.hoist l = pure [] := by
  induction l generalizing names with
  | nil => rfl
  | cons s rest ih =>
    rw [rowPasses, Bool.and_eq_true] at hl
    cases s with
    | function f => exact absurd (Stmt.node_of_passes hl.1) Bool.false_ne_true
    | _ => exact ih hl.2

include hgo in
theorem settles_of_checkBlock (hat : O.At k locals names) {b : Block}
    (hb : b.passesAt O.survey names = true) {u : Unit} (h : go.checkBlock b k = .ok u k')
    (hclean : k'.diagnostics = []) :
    ∃ given, k' = k.givesBack given ∧ O.MayGive k given ∧ b.Settles O locals given := by
  rw [Block.passesAt_eq] at hb
  obtain ⟨k₁, hrow, rfl⟩ := inScope_eq_ok.mp h
  have hchild : O.At { k with scopes := .empty :: k.scopes } (.empty :: locals) names :=
    ⟨by rw [hat.scopes]; rfl, hat.knows.child⟩
  obtain ⟨scope, given, rfl, hgiven, hsettles⟩ := hgo.checkAll hrow hclean hchild hb
  have hhoist : Evaluator.hoist b.statements = pure () :=
    Evaluator.Similar.hoist_eq_of_never (fun _ _ => rfl) hb
  refine ⟨given, ?_, hgiven, .of_row hhoist hsettles rfl (List.cons_ne_nil _ _)⟩
  -- the scope of the block is left again, and those around it are as before
  show { k.givesBack given with scopes := locals ++ O.scopes } = _
  rw [← hat.scopes]
  rfl

theorem At.givesBack (hat : O.At k locals names) (given : List Ty) :
    O.At (k.givesBack given) locals names :=
  ⟨hat.scopes, hat.knows⟩

/-- A statement that leaves the scopes as they are. -/
theorem leads_of_same {s : Stmt} {given : List Ty} (hat : O.At k (scope :: outer) names)
    (hindex : s.indexAfter O.survey names = names) (hk : k' = k.givesBack given)
    (hgiven : O.MayGive k given) (hloop : s.isLoopStart = true → given = [])
    (hsettles : s.Settles O (scope :: outer) (scope :: outer) given) :
    ∃ scope' given, O.Leads s names k scope outer k' scope' given := by
  refine ⟨scope, given, ?_, by rw [hindex]; exact hat.knows, hgiven, hsettles, fun _ => rfl, hloop⟩
  rw [hk, ← hat.scopes]
  rfl

section

variable (hat : O.At k (scope :: outer) names)
include hgo hat

theorem leads_of_variable {name : String} {type? : Option TypeExpr} {value? : Option Expr}
    {position : Position}
    (hs : (Stmt.variable name type? value? position).passes O.survey names = true) {u : Unit}
    (h : go.stmtRule (.variable name type? value? position) k = .ok u k')
    (hclean : k'.diagnostics = []) :
    ∃ scope' given, O.Leads (.variable name type? value? position) names k scope outer k' scope'
      given := by
  have hnode := Stmt.node_of_passes hs
  rw [Stmt.passes, Bool.and_eq_true, Bool.and_eq_true] at hs
  cases value? with
  | none => exact absurd hnode Bool.false_ne_true
  | some value =>
    have hvalue : value.passes O.survey names = true := hs.2.2
    have hne := ne_function_of_passes hvalue
    obtain ⟨declared?, k₁, hdeclared, h₁⟩ := bind_eq_ok.mp h
    obtain ⟨found?, k₂, hfound, h₂⟩ := bind_eq_ok.mp h₁
    obtain ⟨found, k₃, htype, hend⟩ := bind_eq_ok.mp hfound
    obtain ⟨rfl, rfl⟩ := pure_eq_ok.mp hend
    -- a type that the value has and that is plain may be declared, whether it is written or found
    have hdeclare : ∀ {type : Ty} {k : Knowledge}, O.At k (scope :: outer) names →
        declare name type position k = .ok u k' → O.part.Plain type →
        value.Gives O (scope :: outer) type →
        ∃ scope' given, O.Leads (.variable name type? (some value) position) names k scope outer
          k' scope' given := by
      intro type k hat h hplain hgives
      obtain ⟨after, rfl, hafter⟩ := declaresIn_of_declare hat.scopes h hclean
      obtain ⟨scope₁, rest, heq, _, rfl⟩ := hafter
      rw [hat.scopes] at heq
      cases heq
      refine ⟨scope.set name ⟨type, position, none⟩, [], ?_, hat.knows.declare name hplain,
        Surroundings.mayGive_nil, .declaration hne hplain hgives name type? position,
        fun h => ?_, fun _ => rfl⟩
      · rw [Knowledge.givesBack_nil]
        rfl
      · cases h
    cases type? with
    | none =>
      obtain ⟨rfl, rfl⟩ := pure_eq_ok.mp hdeclared
      have hclean₂ := clean_of_keeps (enter_keeps_grows _ _) h₂ hclean
      obtain ⟨rfl, hplain, hgives⟩ := hgo.typeOf htype hclean₂ hat hvalue
      exact hdeclare hat h₂ hplain hgives
    | some written =>
      have hplain : O.part.Plain (O.table.denote written) := of_decide_eq_true hnode
      obtain ⟨declared, k₄, hread, hend⟩ := bind_eq_ok.mp hdeclared
      obtain ⟨rfl, rfl⟩ := pure_eq_ok.mp hend
      obtain ⟨_, k₅, hexpect, hlast⟩ := bind_eq_ok.mp h₂
      -- backwards from the clean end, as diagnostics are only ever added: each step has been clean
      have hclean₅ := clean_of_keeps (enter_keeps_grows _ _) hlast hclean
      obtain ⟨rfl, hfits⟩ := hgo.fits hexpect hclean₅
      have hclean₁ := clean_of_keeps (hgo.grows.typeOf value) htype hclean₅
      obtain ⟨rfl, rfl, _⟩ := readType_eq_ok hread hclean₁
      obtain ⟨rfl, hplain', hgives⟩ := hgo.typeOf htype hclean₅ hat hvalue
      rw [hgo.table] at hfits hlast
      exact hdeclare hat hlast hplain (hgives.fits hfits hplain' hplain)

omit hat in
/-- A type that is noted without a report fits the one that is declared, if there is one. -/
theorem givesBack_of_noteGiven {type : Ty} {blamed position : Position} {u : Unit}
    (h : go.noteGiven type blamed position k = .ok u k') (hclean : k'.diagnostics = []) :
    k' = k.givesBack [type] ∧ ∀ declared, k.declared? = some declared →
      O.table.Fits type declared := by
  obtain ⟨scopes, functions, receivers, inferring, ahead, diagnostics⟩ := k
  cases functions with
  | nil => exact absurd hclean (not_clean_of_noteGiven rfl h)
  | cons activation rest =>
    obtain ⟨declared?, returns⟩ := activation
    unfold noteGiven at h
    rw [get_bind] at h
    cases declared? with
    | none =>
      obtain rfl := modify_eq_ok.mp h
      exact ⟨rfl, fun _ heq => by cases heq⟩
    | some declared =>
      obtain ⟨_, k₂, hexpect, hnote⟩ := bind_eq_ok.mp h
      obtain rfl := modify_eq_ok.mp hnote
      obtain ⟨rfl, hfits⟩ := hgo.fits hexpect hclean
      exact ⟨rfl, fun _ heq => by cases heq; exact hfits⟩

theorem leads_of_giveBack {value? : Option Expr} {position : Position}
    (hs : (Stmt.giveBack value? position).passes O.survey names = true) {u : Unit}
    (h : go.stmtRule (.giveBack value? position) k = .ok u k') (hclean : k'.diagnostics = []) :
    ∃ scope' given, O.Leads (.giveBack value? position) names k scope outer k' scope' given := by
  rw [Stmt.passes, Bool.and_eq_true] at hs
  have hleads : ∀ {type : Ty} {blamed : Position}, O.part.Plain type →
      (Stmt.giveBack value? position).Settles O (scope :: outer) (scope :: outer) [type] →
      go.noteGiven type blamed position k = .ok u k' →
      ∃ scope' given, O.Leads (.giveBack value? position) names k scope outer k' scope' given := by
    intro type blamed hplain hsettles hnote
    obtain ⟨rfl, hfits⟩ := givesBack_of_noteGiven hgo hnote hclean
    refine leads_of_same hat rfl rfl (fun _ htype => ?_) (fun h => by cases h) hsettles
    rw [List.mem_singleton.mp htype]
    exact ⟨hplain, hfits⟩
  cases value? with
  | none => exact hleads (Table.plain_primitive .void) (.giveBackNothing position) h
  | some value =>
    obtain ⟨type, k₁, htype, hnote⟩ := bind_eq_ok.mp h
    have hclean₁ := clean_of_keeps (noteGiven_keeps grows_discipline _ _ _) hnote hclean
    obtain ⟨rfl, hplain, hgives⟩ := hgo.typeOf htype hclean₁ hat hs.2
    exact hleads hplain (.giveBack hgives position) hnote

theorem leads_of_branch {condition : Expr} {body : Block} {otherwise? : Option Stmt}
    {position : Position}
    (hs : (Stmt.branch condition body otherwise? position).passes O.survey names = true) {u : Unit}
    (h : go.stmtRule (.branch condition body otherwise? position) k = .ok u k')
    (hclean : k'.diagnostics = []) :
    ∃ scope' given, O.Leads (.branch condition body otherwise? position) names k scope outer k'
      scope' given := by
  have hnode := Stmt.node_of_passes hs
  obtain ⟨_, k₁, hcheck, h₁⟩ := bind_eq_ok.mp h
  obtain ⟨_, k₂, hblock, hrest⟩ := bind_eq_ok.mp h₁
  -- the condition and the body come first, whether or not there is an alternative
  have hbranch : k₂.diagnostics = [] → condition.passes O.survey names = true →
      body.passesAt O.survey names = true → (∃ type, condition.Gives O (scope :: outer) type) ∧
        ∃ given, k₂ = k.givesBack given ∧ O.MayGive k given ∧
          body.Settles O (scope :: outer) given := by
    intro hclean₂ hcondition hbody
    have hclean₁ := clean_of_keeps (checkBlock_keeps grows_discipline hgo.grows body) hblock
      hclean₂
    obtain ⟨rfl, hgives⟩ := gives_of_checkCondition hgo hat hcondition hcheck hclean₁
    exact ⟨hgives, settles_of_checkBlock hgo hat hbody hblock hclean₂⟩
  cases otherwise? with
  | none =>
    rw [Stmt.passes, Bool.and_eq_true, Bool.and_eq_true] at hs
    obtain ⟨_, rfl⟩ := pure_eq_ok.mp hrest
    obtain ⟨⟨type, hgives⟩, given, hk, hgiven, hbody⟩ := hbranch hclean hs.2.1 hs.2.2
    refine leads_of_same hat rfl hk hgiven (fun h => by cases h) ?_
    have hsettles : (Stmt.branch condition body none position).Settles O (scope :: outer)
        (scope :: outer) (given ++ []) :=
      .branch hgives hbody (fun _ heq => by cases heq) position
    rw [List.append_nil] at hsettles
    exact hsettles
  | some otherwise =>
    have halternative : otherwise.isAlternative = true := (Bool.and_eq_true_iff.mp hnode).1
    rw [Stmt.passes, Bool.and_eq_true, Bool.and_eq_true, Bool.and_eq_true] at hs
    have hclean₂ := clean_of_keeps (hgo.grows.check otherwise) hrest hclean
    obtain ⟨⟨type, hgives⟩, given, rfl, hgiven, hbody⟩ := hbranch hclean₂ hs.2.1 hs.2.2.1
    obtain ⟨scope', given', hleads⟩ := hgo.check hrest hclean (At.givesBack hat given) hs.2.2.2
    -- an alternative opens a scope of its own or is a conditional, so it leaves no name behind
    obtain rfl := hleads.alternative halternative
    refine leads_of_same hat rfl ?_ (hgiven.append hleads.mayGive) (fun h => by cases h)
      (.branch hgives hbody (fun _ heq => by cases heq; exact hleads.settles) position)
    rw [hleads.eq, Knowledge.givesBack_append, ← hat.scopes]
    rfl

/-- A loop from its condition on. -/
theorem settles_of_round {condition? update? : Option Expr} {body : Block}
    (hcondition : optionPasses O.survey names condition? = true)
    (hupdate : optionPasses O.survey names update? = true)
    (hbody : body.passesAt O.survey names = true) {u : Unit}
    (h : go.loopRound condition? update? body k = .ok u k') (hclean : k'.diagnostics = []) :
    (∀ condition, condition? = some condition →
      ∃ type, condition.Gives O (scope :: outer) type) ∧
    (∀ update, update? = some update → ∃ type, update.Gives O (scope :: outer) type) ∧
    ∃ given, k' = k.givesBack given ∧ O.MayGive k given ∧
      body.Settles O (scope :: outer) given := by
  have hcond : ∀ condition, condition? = some condition → ∀ {u k₁},
      go.checkCondition condition k = .ok u k₁ → k₁.diagnostics = [] →
        k₁ = k ∧ ∃ type, condition.Gives O (scope :: outer) type := by
    rintro condition rfl u k₁ hcheck hclean₁
    exact gives_of_checkCondition hgo hat hcondition hcheck hclean₁
  have hupd : ∀ update, update? = some update → ∀ {type k₁},
      go.typeOf update k = .ok type k₁ → k₁.diagnostics = [] →
        k₁ = k ∧ ∃ type, update.Gives O (scope :: outer) type := by
    rintro update rfl type k₁ htype hclean₁
    obtain ⟨hk, _, hgives⟩ := hgo.typeOf htype hclean₁ hat hupdate
    exact ⟨hk, type, hgives⟩
  obtain ⟨hconditions, hupdates, hblock⟩ := body_of_loopRound hgo.grows hcond hupd h hclean
  exact ⟨hconditions, hupdates, settles_of_checkBlock hgo hat hbody hblock hclean⟩

theorem leads_of_loop {init? : Option Stmt} {condition? update? : Option Expr} {body : Block}
    {position : Position}
    (hs : (Stmt.loop init? condition? update? body position).passes O.survey names = true)
    {u : Unit} (h : go.stmtRule (.loop init? condition? update? body position) k = .ok u k')
    (hclean : k'.diagnostics = []) :
    ∃ scope' given, O.Leads (.loop init? condition? update? body position) names k scope outer k'
      scope' given := by
  have hnode := Stmt.node_of_passes hs
  obtain ⟨k₁, hinner, rfl⟩ := inScope_eq_ok.mp h
  have hchild : O.At { k with scopes := .empty :: k.scopes } (.empty :: scope :: outer) names :=
    ⟨by rw [hat.scopes]; rfl, hat.knows.child⟩
  cases init? with
  | none =>
    rw [Stmt.passes, Bool.and_eq_true, Bool.and_eq_true, Bool.and_eq_true] at hs
    obtain ⟨hcondition, hupdate, given, rfl, hgiven, hbody⟩ :=
      settles_of_round hgo hchild hs.2.1 hs.2.2.1 hs.2.2.2 hinner hclean
    exact leads_of_same hat rfl rfl hgiven (fun h => by cases h)
      (.loop rfl hcondition hupdate hbody position)
  | some init =>
    have hstart : init.isLoopStart = true := (Bool.and_eq_true_iff.mp hnode).1
    rw [Stmt.passes, Bool.and_eq_true, Bool.and_eq_true, Bool.and_eq_true,
      Bool.and_eq_true] at hs
    obtain ⟨_, k₂, hinit, hrest⟩ := bind_eq_ok.mp hinner
    have hclean₂ := clean_of_keeps
      (loopRound_keeps grows_discipline hgo.grows condition? update? body) hrest hclean
    obtain ⟨inner, noted, hleads⟩ := hgo.check hinit hclean₂ hchild hs.2.1
    obtain rfl := hleads.loopStart hstart
    have hk := hleads.eq
    rw [Knowledge.givesBack_nil] at hk
    subst hk
    obtain ⟨hcondition, hupdate, given, rfl, hgiven, hbody⟩ :=
      settles_of_round hgo ⟨rfl, hleads.knows⟩ hs.2.2.1 hs.2.2.2.1 hs.2.2.2.2 hrest hclean
    -- the scope of the loop's variables is left again, and those around it are as before
    refine leads_of_same hat rfl ?_ hgiven (fun h => by cases h)
      (.loop hleads.settles hcondition hupdate hbody position)
    show { k.givesBack given with scopes := scope :: outer ++ O.scopes } = _
    rw [← hat.scopes]
    rfl

/-- The rule of statements keeps the promise if it is kept to the parts. -/
theorem leads_of_stmtRule {s : Stmt} (hs : s.passes O.survey names = true) {u : Unit}
    (h : go.stmtRule s k = .ok u k') (hclean : k'.diagnostics = []) :
    ∃ scope' given, O.Leads s names k scope outer k' scope' given := by
  have hnode := Stmt.node_of_passes hs
  cases s with
  | «variable» name type? value? position => exact leads_of_variable hgo hat hs h hclean
  | function f => exact absurd hnode Bool.false_ne_true
  | interface declaration => exact absurd hnode Bool.false_ne_true
  | expression e position =>
    rw [Stmt.passes, Bool.and_eq_true] at hs
    obtain ⟨type, k₁, htype, hend⟩ := bind_eq_ok.mp h
    obtain ⟨_, rfl⟩ := pure_eq_ok.mp hend
    obtain ⟨rfl, _, hgives⟩ := hgo.typeOf htype hclean hat hs.2
    exact leads_of_same hat rfl (k'.givesBack_nil).symm Surroundings.mayGive_nil (fun _ => rfl)
      (.expression hgives position)
  | giveBack value? position => exact leads_of_giveBack hgo hat hs h hclean
  | branch condition body otherwise? position => exact leads_of_branch hgo hat hs h hclean
  | block b =>
    rw [Stmt.passes, Bool.and_eq_true] at hs
    obtain ⟨given, hk, hgiven, hb⟩ := settles_of_checkBlock hgo hat hs.2 h hclean
    exact leads_of_same hat rfl hk hgiven (fun h => by cases h) (.block hb)
  | loop init? condition? update? body position => exact leads_of_loop hgo hat hs h hclean
  | repeatWhile condition body position =>
    rw [Stmt.passes, Bool.and_eq_true, Bool.and_eq_true] at hs
    obtain ⟨_, k₁, hcheck, hblock⟩ := bind_eq_ok.mp h
    have hclean₁ := clean_of_keeps (checkBlock_keeps grows_discipline hgo.grows body) hblock
      hclean
    obtain ⟨rfl, type, hgives⟩ := gives_of_checkCondition hgo hat hs.2.1 hcheck hclean₁
    obtain ⟨given, hk, hgiven, hbody⟩ := settles_of_checkBlock hgo hat hs.2.2 hblock hclean
    exact leads_of_same hat rfl hk hgiven (fun h => by cases h) (.repeatWhile hgives hbody position)

/-- Statements one after the other, by induction on the row. -/
theorem settles_of_checkEach {l : List Stmt} (hl : rowPasses O.survey names l = true) {u : Unit}
    (h : go.checkEach l k = .ok u k') (hclean : k'.diagnostics = []) :
    ∃ scope' given, k' = { k.givesBack given with scopes := scope' :: outer ++ O.scopes } ∧
      O.MayGive k given ∧ rowSettles O l (scope :: outer) (scope' :: outer) given := by
  induction l generalizing k scope names with
  | nil =>
    obtain ⟨_, rfl⟩ := pure_eq_ok.mp h
    refine ⟨scope, [], ?_, Surroundings.mayGive_nil, .nil _⟩
    rw [Knowledge.givesBack_nil, ← hat.scopes]
  | cons s rest ih =>
    rw [rowPasses, Bool.and_eq_true] at hl
    obtain ⟨_, k₁, hcheck, h₁⟩ := bind_eq_ok.mp h
    have hclean₁ := clean_of_keeps (checkEach_keeps grows_discipline hgo.grows rest) h₁ hclean
    obtain ⟨between, given, hleads⟩ := hgo.check hcheck hclean₁ hat hl.1
    obtain rfl := hleads.eq
    obtain ⟨scope', given', rfl, hgiven, hrest⟩ := ih ⟨rfl, hleads.knows⟩ hl.2 h₁
    refine ⟨scope', given ++ given', ?_, hleads.mayGive.append hgiven, .cons hleads.settles hrest⟩
    rw [← k.givesBack_append]
    rfl

/-- The rule of statements in a row keeps the promise if it is kept to each of them. -/
theorem settles_of_rowRule {l : List Stmt} (hl : rowPasses O.survey names l = true) {u : Unit}
    (h : go.rowRule l k = .ok u k') (hclean : k'.diagnostics = []) :
    ∃ scope' given, k' = { k.givesBack given with scopes := scope' :: outer ++ O.scopes } ∧
      O.MayGive k given ∧ rowSettles O l (scope :: outer) (scope' :: outer) given := by
  unfold rowRule at h
  rw [hoist_eq_pure hl] at h
  obtain ⟨hoisted, k₁, hhoist, h₁⟩ := bind_eq_ok.mp h
  obtain ⟨rfl, rfl⟩ := pure_eq_ok.mp hhoist
  obtain ⟨_, k₂, heach, h₂⟩ := bind_eq_ok.mp h₁
  rw [get_bind] at h₂
  -- there are no bodies of hoisted functions to check
  obtain rfl : k' = k₂ := by
    split at h₂ <;> exact (pure_eq_ok.mp h₂).2
  exact settles_of_checkEach hgo hat hl heach hclean

end

end Statements

end Checker

/-! ## Any expression and any statement -/

/-- The checker keeps its promises, whatever the fuel. -/
theorem checker_promises (O : Surroundings) (effort fuel : Nat) :
    (checker O.table effort fuel).Promises O := by
  induction fuel with
  | zero =>
    refine ⟨rfl, checker_keeps grows_discipline O.table effort 0, ?_, ?_, ?_, ?_⟩ <;>
    · intros
      contradiction
  | succ fuel ih =>
    refine ⟨rfl, checker_keeps grows_discipline O.table effort (fuel + 1), ?_, ?_, ?_, ?_⟩
    · intro name position k type k' h hclean hplain
      have h : (checker O.table effort fuel).typeOfName name position k = .ok type k' := h
      exact Checker.typeOfName_eq_ok h hclean fun known hknown signature heq => by
        have hfunction := (hplain known hknown).self
        rw [heq] at hfunction
        exact hfunction.elim
    · intro e k type k' locals names h hclean hat he
      exact Checker.gives_of_exprRule ih hat he h hclean
    · intro s k u k' scope outer names h hclean hat hs
      exact Checker.leads_of_stmtRule ih hat hs h hclean
    · intro l k u k' scope outer names h hclean hat hl
      exact Checker.settles_of_rowRule ih hat hl h hclean

end TypedScript
