import TypedScript.Checking
import TypedScript.Proofs.Conformance
import TypedScript.Proofs.Parts

/-!
# First-order programs and the rules of typing them

A first-order program makes no functions, calls none but the one that prints,
and assigns to variables only; its annotations are plain, so its types say all
there is to know of a value. What the check of such a program comes to can be
said without its order: `Expr.HasType` and `Stmt.Accepted` are the rules of
typing over the scopes of names, with no fuel, no effort and no diagnostics.
First-order expressions have plain types (`Expr.HasType.plain`).
-/

namespace TypedScript

/-! ## Plain annotations -/

/-- A part of a written type that is no function, has no optional member and
does not ask for the unknown. -/
def TypeExpr.isPlainPart : TypeExpr → Bool
  | .named name _ => name ≠ "any" && name ≠ "unknown"
  | .object members _ => members.all fun member => !member.isOptional
  | .function _ _ _ => false
  | _ => true

/-- A written type that is plain at each depth. -/
def TypeExpr.isPlain (type : TypeExpr) : Bool :=
  type.parts.all TypeExpr.isPlainPart

/-- The declaration of an interface with plain types and no optional member. -/
def Interface.isPlain (declaration : Interface) : Bool :=
  declaration.members.all (fun member => !member.isOptional) &&
    (partsOfMembers declaration.members).all TypeExpr.isPlainPart

section Denotation

variable {isDeclared : String → Bool}

theorem isOptional_of_mem_denoteMembers {members : List Member}
    (hplain : members.all (fun member => !member.isOptional) = true) {taken : List String}
    {p : Property} (hp : p ∈ denoteMembers isDeclared taken members) : p.isOptional = false := by
  induction members generalizing taken with
  | nil => exact absurd hp List.not_mem_nil
  | cons member rest ih =>
    rw [List.all_cons, Bool.and_eq_true] at hplain
    unfold denoteMembers at hp
    split at hp
    · exact ih hplain.2 hp
    · rcases List.mem_cons.mp hp with rfl | hp
      · simpa using hplain.1
      · exact ih hplain.2 hp

mutual

/-- A written type whose names give no reason to complain mentions given and
declared names only. -/
theorem TypeExpr.isKnown_of_complaints (type : TypeExpr) (h : type.complaints isDeclared = [])
    {name : String} {position : Position} (hmem : .named name position ∈ type.parts) :
    (Ty.ofName? name).isSome = true ∨ isDeclared name = true := by
  cases type with
  -- only a name gives a reason, and the other cases look for it among the parts
  | named other position' =>
    cases List.mem_singleton.mp hmem
    unfold TypeExpr.complaints at h
    split at h
    · next hknown => simpa using hknown
    · cases h
  | object members position' =>
    unfold TypeExpr.complaints at h
    rcases List.mem_cons.mp hmem with heq | hmem
    · cases heq
    · exact isKnown_of_members members h hmem
  | function params result position' =>
    unfold TypeExpr.complaints at h
    obtain ⟨hparams, hresult⟩ := List.append_eq_nil_iff.mp h
    rcases List.mem_cons.mp hmem with heq | hmem
    · cases heq
    · rcases List.mem_append.mp hmem with hmem | hmem
      · exact isKnown_of_params params hparams hmem
      · exact TypeExpr.isKnown_of_complaints result hresult hmem
  | union members position' =>
    unfold TypeExpr.complaints at h
    rcases List.mem_cons.mp hmem with heq | hmem
    · cases heq
    · exact isKnown_of_each members h hmem
  | intersection members position' =>
    unfold TypeExpr.complaints at h
    rcases List.mem_cons.mp hmem with heq | hmem
    · cases heq
    · exact isKnown_of_each members h hmem

theorem isKnown_of_each (types : List TypeExpr) (h : complaintsOfEach isDeclared types = [])
    {name : String} {position : Position} (hmem : .named name position ∈ partsOfEach types) :
    (Ty.ofName? name).isSome = true ∨ isDeclared name = true := by
  cases types with
  | nil => exact absurd hmem List.not_mem_nil
  | cons type rest =>
    unfold complaintsOfEach at h
    obtain ⟨htype, hrest⟩ := List.append_eq_nil_iff.mp h
    rcases List.mem_append.mp hmem with hmem | hmem
    · exact TypeExpr.isKnown_of_complaints type htype hmem
    · exact isKnown_of_each rest hrest hmem

theorem isKnown_of_params (params : List Parameter) (h : complaintsOfParams isDeclared params = [])
    {name : String} {position : Position} (hmem : .named name position ∈ partsOfParams params) :
    (Ty.ofName? name).isSome = true ∨ isDeclared name = true := by
  cases params with
  | nil => exact absurd hmem List.not_mem_nil
  | cons param rest =>
    unfold complaintsOfParams at h
    obtain ⟨hparam, hrest⟩ := List.append_eq_nil_iff.mp h
    rcases List.mem_append.mp hmem with hmem | hmem
    · match param with
      | ⟨_, none, _, _⟩ => exact absurd hmem List.not_mem_nil
      | ⟨_, some type, _, _⟩ => exact TypeExpr.isKnown_of_complaints type hparam hmem
    · exact isKnown_of_params rest hrest hmem

theorem isKnown_of_members (members : List Member) {taken : List String}
    (h : complaintsOfMembers isDeclared taken members = []) {name : String} {position : Position}
    (hmem : .named name position ∈ partsOfMembers members) :
    (Ty.ofName? name).isSome = true ∨ isDeclared name = true := by
  cases members with
  | nil => exact absurd hmem List.not_mem_nil
  | cons member rest =>
    unfold complaintsOfMembers at h
    split at h
    · cases h
    · obtain ⟨hmember, hrest⟩ := List.append_eq_nil_iff.mp h
      rcases List.mem_append.mp hmem with hmem | hmem
      · obtain ⟨_, type, _, _⟩ := member
        exact TypeExpr.isKnown_of_complaints type hmember hmem
      · exact isKnown_of_members rest hrest hmem

end

/-- What comes of a plain part whose name is known is plain. -/
theorem TypeExpr.Yields.plainPart {table : Table} {e : TypeExpr} {x : Ty}
    (h : e.Yields isDeclared x) (hdeclared : ∀ name, isDeclared name = table.declares name)
    (hplain : e.isPlainPart = true)
    (hknown : ∀ name position, e = .named name position →
      (Ty.ofName? name).isSome = true ∨ isDeclared name = true) : table.PlainPart x := by
  cases e with
  | named name position =>
    have hknown := hknown name position rfl
    rw [TypeExpr.Yields] at h
    unfold TypeExpr.denote at h
    cases hn : Ty.ofName? name with
    | some given =>
      rw [hn] at h
      subst h
      unfold Ty.ofName? at hn
      split at hn <;> cases hn <;> trivial
    | none =>
      rw [hn] at h hknown
      have hd : isDeclared name = true := hknown.resolve_left (by simp)
      dsimp only at h
      rw [if_pos hd] at h
      subst h
      show table.declares name = true
      rw [← hdeclared, hd]
  | object members position =>
    rw [TypeExpr.Yields] at h
    subst h
    exact fun p hp => isOptional_of_mem_denoteMembers hplain hp
  | function params result position => exact absurd hplain (by simp [isPlainPart])
  | union members position => rcases h with ⟨_, rfl⟩ | rfl <;> trivial
  | intersection members position => obtain ⟨_, rfl⟩ := h; trivial

end Denotation

/-- A plain annotation without complaints denotes a plain type. -/
theorem Table.plain_denote {table : Table} {type : TypeExpr} (hplain : type.isPlain = true)
    (h : type.complaints table.declares = []) : table.Plain (table.denote type) := by
  intro part hpart
  obtain ⟨e, he, hyields⟩ := TypeExpr.yields_of_mem_parts type hpart
  refine hyields.plainPart (fun _ => rfl) (List.all_eq_true.mp hplain e he) ?_
  rintro name position rfl
  exact TypeExpr.isKnown_of_complaints type h he

theorem Record.has_ofList {α : Type} (given : List (String × α)) (name : String) :
    (Record.ofList given).has name = decide (name ∈ given.map (·.1)) := by
  suffices h : ∀ r : Record α, (given.foldl (fun r entry => r.set entry.1 entry.2) r).has name =
      (r.has name || decide (name ∈ given.map (·.1))) by
    exact h .empty
  induction given with
  | nil => intro r; simp
  | cons first rest ih =>
    intro r
    rw [List.foldl_cons, ih, Record.has_set, List.map_cons]
    by_cases h : name = first.1
    · simp [h]
    · simp only [h, List.mem_cons, decide_false, Bool.false_or, false_or]

/-- The interfaces of a program without complaints, all declared plain, are
plain. -/
theorem Program.allPlain_table {program : Program}
    (hplain : ∀ declaration ∈ program.interfaces, declaration.isPlain = true)
    (h : ∀ declaration ∈ program.interfaces,
      complaintsOfMembers program.table.declares [] declaration.members = []) :
    program.table.AllPlain := by
  have hdeclared : ∀ name, decide (name ∈ program.interfaces.map (·.name)) =
      program.table.declares name := by
    intro name
    unfold Table.declares Program.table
    rw [Record.has_ofList, List.map_map]
    rfl
  intro name shape hshape
  have hentry := Record.mem_entries_of_get? hshape
  unfold Program.table at hentry
  obtain ⟨name', hgiven⟩ := Record.mem_ofList hentry
  obtain ⟨declaration, hdeclaration, heq⟩ := List.mem_map.mp hgiven
  have hmembers := hplain declaration hdeclaration
  rw [Interface.isPlain, Bool.and_eq_true] at hmembers
  cases heq
  intro part hpart
  rcases Ty.mem_parts_object.mp hpart with rfl | ⟨p, hp, hpart⟩
  · exact fun p hp => isOptional_of_mem_denoteMembers hmembers.1 hp
  · obtain ⟨e, he, hyields⟩ := yields_of_mem_members [] declaration.members hp hpart
    refine hyields.plainPart hdeclared (List.all_eq_true.mp hmembers.2 e he) ?_
    rintro other position rfl
    have hno := h declaration hdeclaration
    rw [← funext hdeclared] at hno
    exact isKnown_of_members declaration.members hno he

/-! ## First-order programs -/

/-- The function that prints, as a program calls it. -/
def Expr.isPrint : Expr → Bool
  | .member (.reference name _) property _ =>
    name = Native.log.holder && property = Native.log.name
  | _ => false

/-- A statement that an `else` may lead to. -/
def Stmt.isAlternative : Stmt → Bool
  | .block _ => true
  | .branch _ _ _ _ => true
  | _ => false

/-- A statement that a loop may start with. -/
def Stmt.isLoopStart : Stmt → Bool
  | .variable _ _ _ _ => true
  | .expression _ _ => true
  | _ => false

mutual

/-- An expression that makes no function, calls none but the one that prints
and assigns to variables only. -/
def Expr.isFirstOrder : Expr → Bool
  | .literal _ _ => true
  | .reference name _ => name ≠ Native.log.holder
  | .receiver _ => false
  | .unary _ operand _ => operand.isFirstOrder
  | .binary left _ right _ => left.isFirstOrder && right.isFirstOrder
  | .assign (.reference name _) _ value _ => name ≠ Native.log.holder && value.isFirstOrder
  | .assign _ _ _ _ => false
  | .update (.reference name _) _ _ _ => name ≠ Native.log.holder
  | .update _ _ _ _ => false
  | .call callee arguments _ => callee.isPrint && areFirstOrder arguments
  | .member inner _ _ => inner.isFirstOrder
  | .object fields _ => fieldsAreFirstOrder fields
  | .function _ => false

/-- A property of an object literal whose value is first-order. -/
def Field.isFirstOrder : Field → Bool
  | ⟨_, value, _⟩ => value.isFirstOrder

/-- Expressions that are all first-order. -/
def areFirstOrder : List Expr → Bool
  | [] => true
  | e :: rest => e.isFirstOrder && areFirstOrder rest

/-- Properties whose values are all first-order. -/
def fieldsAreFirstOrder : List Field → Bool
  | [] => true
  | field :: rest => field.isFirstOrder && fieldsAreFirstOrder rest

end

mutual

/-- A statement of a first-order program: interfaces and annotations are plain,
variables have a value from the start, and no function is declared. A return is
one of these statements; outside a function it does not pass the check. -/
def Stmt.isFirstOrder : Stmt → Bool
  | .variable name type? (some value) _ =>
    name ≠ Native.log.holder && type?.all TypeExpr.isPlain && value.isFirstOrder
  | .variable _ _ none _ => false
  | .function _ => false
  | .interface declaration => declaration.isPlain
  | .expression e _ => e.isFirstOrder
  | .giveBack value? _ => value?.all Expr.isFirstOrder
  | .branch condition body none _ => condition.isFirstOrder && body.isFirstOrder
  | .branch condition body (some otherwise) _ =>
    condition.isFirstOrder && body.isFirstOrder && otherwise.isAlternative &&
      otherwise.isFirstOrder
  | .block b => b.isFirstOrder
  | .loop none condition? update? body _ =>
    condition?.all Expr.isFirstOrder && update?.all Expr.isFirstOrder && body.isFirstOrder
  | .loop (some init) condition? update? body _ =>
    init.isLoopStart && init.isFirstOrder && condition?.all Expr.isFirstOrder &&
      update?.all Expr.isFirstOrder && body.isFirstOrder
  | .repeatWhile condition body _ => condition.isFirstOrder && body.isFirstOrder

/-- A block of first-order statements. -/
def Block.isFirstOrder : Block → Bool
  | ⟨statements, _⟩ => rowIsFirstOrder statements

/-- Statements that are all first-order. -/
def rowIsFirstOrder : List Stmt → Bool
  | [] => true
  | s :: rest => s.isFirstOrder && rowIsFirstOrder rest

end

/-- A program of first-order statements. -/
def Program.isFirstOrder (program : Program) : Bool :=
  rowIsFirstOrder program.statements

/-! ## The rules of typing -/

/-- What scopes know of a name: the innermost scope that has it counts. -/
def findBinding (scopes : List Scope) (name : String) : Option Binding :=
  scopes.findSome? (·.get? name)

/-- What the first of some scopes knows of a name counts. -/
theorem findBinding_cons (scope : Scope) (scopes : List Scope) (name : String) :
    findBinding (scope :: scopes) name = (scope.get? name).or (findBinding scopes name) := by
  unfold findBinding
  rw [List.findSome?_cons]
  cases scope.get? name <;> rfl

/-- The type of the value that a literal denotes. -/
def Literal.type : Literal → Ty
  | .number _ => .number
  | .text _ => .text
  | .boolean _ => .boolean
  | .undefined => .void

/-- The type of the operand of an operator in front, and of its result. -/
def UnaryOp.type : UnaryOp → Ty
  | .negate => .number
  | .not => .boolean

/-- The type that both operands of an operator have to fit, for one that takes
only some types. -/
def BinaryOp.operandType (op : BinaryOp) (left right : Ty) : Ty :=
  if op.isArithmetic then .number
  else if op.isRelational then if left = .text ∨ right = .text then .text else .number
  else .boolean

/-- The type of the result of an operator that does not join texts. -/
def BinaryOp.resultType (op : BinaryOp) : Ty :=
  if op.isArithmetic then .number else .boolean

section Typing

variable (table : Table)

/-- The types of the operands of an operator and of its result. -/
def BinaryOp.HasType (op : BinaryOp) (left right type : Ty) : Prop :=
  if op.isEquality then type = .boolean
  else if op = .add ∧ (left = .text ∨ right = .text) then type = .text
  else
    table.Fits left (op.operandType left right) ∧ table.Fits right (op.operandType left right) ∧
      type = op.resultType

mutual

/-- The types of first-order expressions, with what is known of the names. -/
def Expr.HasType (scopes : List Scope) : Expr → Ty → Prop
  | .literal value _, type => type = value.type
  | .reference name _, type => ∃ b, findBinding scopes name = some b ∧ type = b.type
  | .unary op operand _, type =>
    type = op.type ∧ ∃ found, operand.HasType scopes found ∧ table.Fits found type
  | .binary left op right _, type =>
    ∃ a b, left.HasType scopes a ∧ right.HasType scopes b ∧ op.HasType table a b type
  | .assign target op? value _, type =>
    target.HasType scopes type ∧ ∃ given found, value.HasType scopes given ∧
      (match op? with
        | some op => op.HasType table type given found
        | none => found = given) ∧
      table.Fits found type
  | .update target _ _ _, type =>
    type = .number ∧ ∃ found, target.HasType scopes found ∧ table.Fits found .number
  | .call _ arguments _, type => type = .void ∧ haveTypes scopes arguments
  | .member inner property _, type =>
    ∃ found effort, inner.HasType scopes found ∧
      table.property? effort property found = some (some type)
  | .object fields _, type => ∃ shape, type = .object shape ∧ fieldsHaveShape scopes [] fields shape
  | _, _ => False

/-- The type of the value of a property. -/
def Field.HasType (scopes : List Scope) : Field → Ty → Prop
  | ⟨_, value, _⟩, type => value.HasType scopes type

/-- Expressions that all have a type. -/
def haveTypes (scopes : List Scope) : List Expr → Prop
  | [] => True
  | e :: rest => (∃ type, e.HasType scopes type) ∧ haveTypes scopes rest

/-- The shape that an object literal has, given that of the properties before:
no name comes twice. -/
def fieldsHaveShape (scopes : List Scope) (before : Shape) : List Field → Shape → Prop
  | [], shape => shape = before
  | field :: rest, shape => ∃ type, field.HasType scopes type ∧ before.has field.name = false ∧
      fieldsHaveShape scopes (before ++ [⟨field.name, type, false⟩]) rest shape

end

/-- A condition that is a truth value. -/
def Expr.IsCondition (scopes : List Scope) (e : Expr) : Prop :=
  ∃ type, e.HasType table scopes type ∧ table.Fits type .boolean

/-- The condition and the update of a loop with the scopes of its variables. -/
def acceptsRound (scopes : List Scope) (condition? update? : Option Expr) : Prop :=
  (∀ condition, condition? = some condition → condition.IsCondition table scopes) ∧
    ∀ update, update? = some update → ∃ type, update.HasType table scopes type

/-- The declaration of a name in the innermost scope, which does not have it. -/
def declaresIn (scopes : List Scope) (name : String) (binding : Binding)
    (after : List Scope) : Prop :=
  ∃ scope rest, scopes = scope :: rest ∧ scope.has name = false ∧
    after = scope.set name binding :: rest

mutual

/-- First-order statements that pass the check outside of functions, with the
scopes before and after them. -/
def Stmt.Accepted : List Scope → Stmt → List Scope → Prop
  | scopes, .variable name type? value? position, after =>
    ∃ value found type, value? = some value ∧ value.HasType table scopes found ∧
      (match type? with
        | some written => type = table.denote written ∧ table.Plain type ∧ table.Fits found type
        | none => type = found) ∧
      declaresIn scopes name ⟨type, position, none⟩ after
  | scopes, .interface _, after => after = scopes
  | scopes, .expression e _, after => after = scopes ∧ ∃ type, e.HasType table scopes type
  | scopes, .branch condition body none _, after =>
    after = scopes ∧ condition.IsCondition table scopes ∧ body.Accepted scopes
  | scopes, .branch condition body (some otherwise) _, after =>
    after = scopes ∧ condition.IsCondition table scopes ∧ body.Accepted scopes ∧
      otherwise.Accepted scopes scopes
  | scopes, .block b, after => after = scopes ∧ b.Accepted scopes
  | scopes, .loop none condition? update? body _, after =>
    after = scopes ∧ acceptsRound table (.empty :: scopes) condition? update? ∧
      body.Accepted (.empty :: scopes)
  | scopes, .loop (some init) condition? update? body _, after =>
    after = scopes ∧ ∃ inner, init.Accepted (.empty :: scopes) inner ∧
      acceptsRound table inner condition? update? ∧ body.Accepted inner
  | scopes, .repeatWhile condition body _, after =>
    after = scopes ∧ condition.IsCondition table scopes ∧ body.Accepted scopes
  | _, _, _ => False

/-- A block whose statements pass the check in a scope of their own. -/
def Block.Accepted (scopes : List Scope) : Block → Prop
  | ⟨statements, _⟩ => ∃ after, rowAccepted (.empty :: scopes) statements after

/-- Statements that pass the check one after the other. -/
def rowAccepted : List Scope → List Stmt → List Scope → Prop
  | scopes, [], after => after = scopes
  | scopes, s :: rest, after =>
    ∃ between, s.Accepted scopes between ∧ rowAccepted between rest after

end

end Typing

/-! ## Plain expressions -/

/-- What is known of the object with the function that prints. -/
def printBinding : Binding :=
  ⟨.object [⟨Native.log.name, .function Native.log.signature, false⟩], .start, none⟩

/-- Scopes in a first-order program: the types of variables are plain, and the
function that prints can be reached. -/
structure KnownPlain (table : Table) (scopes : List Scope) : Prop where
  plain : ∀ scope ∈ scopes, ∀ name binding, name ≠ Native.log.holder →
    scope.get? name = some binding → binding.pending? = none ∧ table.Plain binding.type
  print : findBinding scopes Native.log.holder = some printBinding

section Plain

variable {table : Table} {scopes : List Scope}

theorem KnownPlain.binding (hscopes : KnownPlain table scopes) {name : String} {binding : Binding}
    (hname : name ≠ Native.log.holder) (h : findBinding scopes name = some binding) :
    binding.pending? = none ∧ table.Plain binding.type := by
  obtain ⟨scope, hscope, h⟩ := List.exists_of_findSome?_eq_some h
  exact hscopes.plain scope hscope name binding hname h

theorem BinaryOp.HasType.plain {part : Table} {op : BinaryOp} {left right type : Ty}
    (h : op.HasType table left right type) : part.Plain type := by
  unfold BinaryOp.HasType at h
  split at h
  · rw [h]; exact Table.plain_primitive _
  · split at h
    · rw [h]; exact Table.plain_primitive _
    · rw [h.2.2]
      unfold BinaryOp.resultType
      split <;> exact Table.plain_primitive _

mutual

/-- First-order expressions have plain types. -/
theorem Expr.HasType.plain (htable : table.AllPlain) (hscopes : KnownPlain table scopes)
    (e : Expr) (he : e.isFirstOrder = true) {type : Ty} (h : e.HasType table scopes type) :
    table.Plain type := by
  cases e with
  | literal value position =>
    unfold Expr.HasType at h
    rw [h]
    cases value <;> exact Table.plain_primitive _
  | reference name position =>
    unfold Expr.HasType at h
    obtain ⟨binding, hbinding, rfl⟩ := h
    unfold Expr.isFirstOrder at he
    exact (hscopes.binding (by simpa using he) hbinding).2
  | unary op operand position =>
    unfold Expr.HasType at h
    rw [h.1]
    cases op <;> exact Table.plain_primitive _
  | binary left op right position =>
    unfold Expr.HasType at h
    obtain ⟨_, _, _, _, h⟩ := h
    exact h.plain
  | assign target op? value position =>
    unfold Expr.HasType at h
    cases target with
    | reference name position =>
      obtain ⟨h, _⟩ := h
      unfold Expr.isFirstOrder at he
      unfold Expr.HasType at h
      obtain ⟨binding, hbinding, rfl⟩ := h
      -- the type of the built-in object, which nothing assigns to, would not be plain
      have hname : name ≠ Native.log.holder := by simpa using (Bool.and_eq_true_iff.mp he).1
      exact (hscopes.binding hname hbinding).2
    | _ => exact absurd he (by simp [Expr.isFirstOrder])
  | update target op isBefore position =>
    unfold Expr.HasType at h
    rw [h.1]
    exact Table.plain_primitive _
  | call callee arguments position =>
    unfold Expr.HasType at h
    rw [h.1]
    exact Table.plain_primitive _
  | member inner property position =>
    unfold Expr.HasType at h
    obtain ⟨found, effort, hinner, hfound⟩ := h
    unfold Expr.isFirstOrder at he
    exact (exists_property_of_conforms (s := .empty) htable.isPlainPart found
      (Expr.HasType.plain htable hscopes inner he hinner) hfound).1
  | object fields position =>
    unfold Expr.HasType at h
    obtain ⟨shape, rfl, h⟩ := h
    unfold Expr.isFirstOrder at he
    exact plain_of_fieldsHaveShape htable hscopes fields he h
      (Table.plain_object fun _ hp => absurd hp List.not_mem_nil)
  | receiver position => exact absurd he (by simp [Expr.isFirstOrder])
  | function f => exact absurd he (by simp [Expr.isFirstOrder])

theorem plain_of_fieldsHaveShape (htable : table.AllPlain) (hscopes : KnownPlain table scopes)
    (fields : List Field) (hfields : fieldsAreFirstOrder fields = true) {before shape : Shape}
    (h : fieldsHaveShape table scopes before fields shape)
    (hbefore : table.Plain (.object before)) : table.Plain (.object shape) := by
  cases fields with
  | nil =>
    unfold fieldsHaveShape at h
    rw [h]
    exact hbefore
  | cons field rest =>
    obtain ⟨name, value, position⟩ := field
    unfold fieldsHaveShape at h
    obtain ⟨type, htype, _, h⟩ := h
    obtain ⟨hvalue, hrest⟩ := Bool.and_eq_true_iff.mp hfields
    have hplain := Expr.HasType.plain htable hscopes value hvalue htype
    refine plain_of_fieldsHaveShape htable hscopes rest hrest h (Table.plain_object ?_)
    intro p hp
    rcases List.mem_append.mp hp with hp | hp
    · exact hbefore.property p hp
    · rw [List.mem_singleton.mp hp]
      exact ⟨hplain, rfl⟩

end

theorem KnownPlain.push (h : KnownPlain table scopes) : KnownPlain table (.empty :: scopes) where
  plain scope hscope name binding hname hget := by
    rcases List.mem_cons.mp hscope with rfl | hscope
    · cases hget
    · exact h.plain scope hscope name binding hname hget
  print := h.print

theorem KnownPlain.declare {scope : Scope} {rest : List Scope}
    (h : KnownPlain table (scope :: rest)) {name : String} {binding : Binding}
    (hname : name ≠ Native.log.holder) (hpending : binding.pending? = none)
    (hplain : table.Plain binding.type) : KnownPlain table (scope.set name binding :: rest) where
  plain scope' hscope other found hother hget := by
    rcases List.mem_cons.mp hscope with rfl | hscope
    · rw [Record.get?_set] at hget
      split at hget
      · cases hget
        exact ⟨hpending, hplain⟩
      · exact h.plain scope (List.mem_cons_self ..) other found hother hget
    · exact h.plain scope' (List.mem_cons_of_mem _ hscope) other found hother hget
  print := by
    rw [findBinding_cons, Record.get?_set, if_neg (Ne.symm hname), ← findBinding_cons]
    exact h.print

variable {after : List Scope}

/-- A statement other than a declaration of a variable leaves all scopes as they
are. -/
theorem Stmt.Accepted.eq {s : Stmt} (h : s.Accepted table scopes after)
    (hs : ∀ name type? value? position, s ≠ .variable name type? value? position) :
    after = scopes := by
  cases s with
  | «variable» name type? value? position => exact absurd rfl (hs name type? value? position)
  | interface declaration => unfold Stmt.Accepted at h; exact h
  | function f => unfold Stmt.Accepted at h; exact absurd h id
  | expression e position => unfold Stmt.Accepted at h; exact h.1
  | giveBack value? position => unfold Stmt.Accepted at h; exact absurd h id
  | branch condition body otherwise? position =>
    cases otherwise? <;> unfold Stmt.Accepted at h <;> exact h.1
  | block b => unfold Stmt.Accepted at h; exact h.1
  | loop init? condition? update? body position =>
    cases init? <;> unfold Stmt.Accepted at h <;> exact h.1
  | repeatWhile condition body position => unfold Stmt.Accepted at h; exact h.1

/-- A statement changes the innermost scope only. -/
theorem Stmt.Accepted.tail {s : Stmt} (h : s.Accepted table scopes after) :
    after.tail = scopes.tail := by
  cases s with
  | «variable» name type? value? position =>
    unfold Stmt.Accepted at h
    obtain ⟨_, _, _, _, _, _, scope, rest, rfl, _, rfl⟩ := h
    rfl
  | _ => rw [h.eq fun _ _ _ _ heq => nomatch heq]

theorem rowAccepted.tail {l : List Stmt} (h : rowAccepted table scopes l after) :
    after.tail = scopes.tail := by
  induction l generalizing scopes with
  | nil => unfold rowAccepted at h; rw [h]
  | cons s rest ih =>
    unfold rowAccepted at h
    obtain ⟨between, hs, hrest⟩ := h
    rw [ih hrest, hs.tail]

theorem Stmt.Accepted.knownPlain (htable : table.AllPlain) {s : Stmt}
    (h : s.Accepted table scopes after) (hs : s.isFirstOrder = true)
    (hscopes : KnownPlain table scopes) : KnownPlain table after := by
  cases s with
  | «variable» name type? value? position =>
    unfold Stmt.Accepted at h
    obtain ⟨value, found, type, rfl, hvalue, htype, scope, rest, rfl, _, rfl⟩ := h
    unfold Stmt.isFirstOrder at hs
    simp only [Bool.and_eq_true, decide_eq_true_eq] at hs
    refine hscopes.declare hs.1.1 rfl ?_
    cases type? with
    | some written => exact htype.2.1
    | none =>
      have htype : type = found := htype
      rw [htype]
      exact hvalue.plain htable hscopes value hs.2
  | _ => rw [h.eq fun _ _ _ _ heq => nomatch heq]; exact hscopes

end Plain

end TypedScript
