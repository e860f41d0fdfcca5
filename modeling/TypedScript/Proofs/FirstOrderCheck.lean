import TypedScript.Proofs.FirstOrder
import TypedScript.Proofs.Keeping

/-!
# Checks of first-order programs

A check of a first-order expression that ends without a diagnostic follows the
rules of typing and leaves what is known as it is (`Expr.hasType_of_typeOf`). A
check of first-order statements follows the rules as well and changes the scopes
only (`Block.rowAccepted_of_checkAll`).

Diagnostics are never taken back, so none at the end means none after any step;
each rule is then read off its steps from the last to the first.
-/

namespace TypedScript

/-! ## Checks without diagnostics -/

namespace Checker

open Check

section Clean

variable {go : Checker} {k k' : Knowledge}

theorem clean_of_keeps {α : Type} {x : Check α} {a : α} (hx : Check.Keeps Grows x)
    (h : x k = .ok a k') (hclean : k'.diagnostics = []) : k.diagnostics = [] := by
  have hgrows := hx k a k' h
  unfold Grows at hgrows
  rw [hclean] at hgrows
  exact List.prefix_nil.mp hgrows

theorem not_clean_of_report {cause : TypeCause} {position : Position} {u : Unit}
    (h : report cause position k = .ok u k') : k'.diagnostics ≠ [] := by
  rw [modify_eq_ok.mp h]
  simp

theorem fits_of_expect {found expected : Ty} {position : Position} {u : Unit}
    (h : go.expect found expected position k = .ok u k') (hclean : k'.diagnostics = []) :
    k' = k ∧ go.table.Fits found expected := by
  obtain ⟨fits, k₁, hask, h⟩ := bind_eq_ok.mp h
  obtain ⟨hfits, rfl⟩ := ask_eq_ok.mp hask
  cases fits with
  | true => exact ⟨(pure_eq_ok.mp h).2, go.effort, hfits⟩
  | false => exact absurd hclean (not_clean_of_report h)

theorem fits_of_both {left right operand result type : Ty} {position : Position}
    (h : (do
      go.expect left operand position
      go.expect right operand position
      return result : Check Ty) k = .ok type k') (hclean : k'.diagnostics = []) :
    k' = k ∧ go.table.Fits left operand ∧ go.table.Fits right operand ∧ type = result := by
  obtain ⟨_, k₁, hleft, h⟩ := bind_eq_ok.mp h
  obtain ⟨_, k₂, hright, h⟩ := bind_eq_ok.mp h
  obtain ⟨rfl, rfl⟩ := pure_eq_ok.mp h
  obtain ⟨rfl, hfits⟩ := fits_of_expect hright hclean
  obtain ⟨rfl, hfits'⟩ := fits_of_expect hleft hclean
  exact ⟨rfl, hfits', hfits, rfl⟩

theorem hasType_of_typeOfBinary {op : BinaryOp} {left right type : Ty} {position : Position}
    (h : go.typeOfBinary op left right position k = .ok type k') (hclean : k'.diagnostics = [])
    (hleft : left ≠ .unknown) (hright : right ≠ .unknown) :
    k' = k ∧ op.HasType go.table left right type := by
  -- all operators but equality expect both operands to be of one type
  have hboth : ∀ operand result, (do
      go.expect left operand position
      go.expect right operand position
      return result : Check Ty) k = .ok type k' → operand = op.operandType left right →
      result = op.resultType → k' = k ∧ go.table.Fits left (op.operandType left right) ∧
        go.table.Fits right (op.operandType left right) ∧ type = op.resultType := by
    rintro operand result h rfl rfl
    exact fits_of_both h hclean
  have hrelational : op.isArithmetic = false → op.isRelational = true →
      (if (left = .text || right = .text) = true then Ty.text else .number) =
        op.operandType left right := by
    intro hop hop'
    simp [BinaryOp.operandType, hop, hop']
  unfold typeOfBinary at h
  unfold BinaryOp.HasType
  cases op with
  | add =>
    rw [if_neg (by simp [BinaryOp.isEquality])]
    by_cases htext : left = .text ∨ right = .text
    · -- an addition joins texts as soon as one operand is a text
      rw [if_pos ⟨rfl, htext⟩]
      rw [if_pos (by simpa using htext)] at h
      exact (pure_eq_ok.mp h).symm
    · rw [if_neg (fun hand => htext hand.2)]
      rw [if_neg (by simpa using htext), if_neg (by simp [hleft, hright])] at h
      exact hboth _ _ h rfl rfl
  | subtract => exact hboth _ _ h rfl rfl
  | multiply => exact hboth _ _ h rfl rfl
  | divide => exact hboth _ _ h rfl rfl
  | modulo => exact hboth _ _ h rfl rfl
  | less => exact hboth _ _ h (hrelational rfl rfl) rfl
  | greater => exact hboth _ _ h (hrelational rfl rfl) rfl
  | lessEqual => exact hboth _ _ h (hrelational rfl rfl) rfl
  | greaterEqual => exact hboth _ _ h (hrelational rfl rfl) rfl
  | and => exact hboth _ _ h rfl rfl
  | or => exact hboth _ _ h rfl rfl
  | equal => exact (pure_eq_ok.mp h).symm
  | notEqual => exact (pure_eq_ok.mp h).symm
  | strictEqual => exact (pure_eq_ok.mp h).symm
  | strictNotEqual => exact (pure_eq_ok.mp h).symm

section Parts

variable (hgrows : go.Keeps Grows Grows)
include hgrows

/-- What is assigned is the value itself, or the operator applied to what was there and it. -/
theorem exists_of_assign {target value : Expr} {op? : Option BinaryOp} {position : Position}
    {type : Ty} (h : go.exprRule (.assign target op? value position) k = .ok type k')
    (hclean : k'.diagnostics = []) :
    ∃ k₁ given k₂ found, go.typeOf target k = .ok type k₁ ∧ k₁.diagnostics = [] ∧
      go.typeOf value k₁ = .ok given k₂ ∧ k₂.diagnostics = [] ∧ go.table.Fits found type ∧
        ((op? = none ∧ found = given ∧ k' = k₂) ∨
          ∃ op, op? = some op ∧
            go.typeOfBinary op type given position k₂ = .ok found k') := by
  obtain ⟨expected, k₁, hexpected, h₁⟩ := bind_eq_ok.mp h
  obtain ⟨given, k₂, hgiven, h₂⟩ := bind_eq_ok.mp h₁
  -- what is compared with the target is the type of the result, however that is found
  have hend : ∃ found k₃, (do
      go.expect found expected value.position
      return expected : Check Ty) k₃ = .ok type k' ∧
        ((op? = none ∧ found = given ∧ k₃ = k₂) ∨
          ∃ op, op? = some op ∧
            go.typeOfBinary op expected given position k₂ = .ok found k₃) := by
    cases op? with
    | some op =>
      obtain ⟨found, k₃, hfound, h₃⟩ := bind_eq_ok.mp h₂
      exact ⟨found, k₃, h₃, .inr ⟨op, rfl, hfound⟩⟩
    | none => exact ⟨given, k₂, h₂, .inl ⟨rfl, rfl, rfl⟩⟩
  obtain ⟨found, k₃, h₃, hfound⟩ := hend
  obtain ⟨_, k₄, hexpect, hend⟩ := bind_eq_ok.mp h₃
  obtain ⟨rfl, rfl⟩ := pure_eq_ok.mp hend
  obtain ⟨rfl, hfits⟩ := fits_of_expect hexpect hclean
  have hclean₂ : k₂.diagnostics = [] := by
    rcases hfound with ⟨_, _, rfl⟩ | ⟨op, _, hfound⟩
    · exact hclean
    · exact clean_of_keeps (typeOfBinary_keeps grows_discipline _ _ _ _) hfound hclean
  have hclean₁ := clean_of_keeps (hgrows.typeOf value) hgiven hclean₂
  exact ⟨k₁, given, k₂, found, hexpected, hclean₁, hgiven, hclean₂, hfits, hfound⟩

/-- A first property that is no function has a type and a new name, and the others follow. -/
theorem exists_of_fieldTypes_cons {field : Field} (hne : ∀ f, field.value ≠ .function f)
    {rest : List Field} {shape : Shape} {found : Shape × List Method}
    (h : go.fieldTypes shape (field :: rest) k = .ok found k') (hclean : k'.diagnostics = []) :
    ∃ type k₁, go.typeOf field.value k = .ok type k₁ ∧ k₁.diagnostics = [] ∧
      shape.has field.name = false ∧
        go.fieldTypes (shape ++ [⟨field.name, type, false⟩]) rest k₁ = .ok found k' := by
  rw [fieldTypes_cons_of_ne _ hne] at h
  obtain ⟨type, k₁, htype, h₁⟩ := bind_eq_ok.mp h
  obtain ⟨extended, k₂, others, hothers, rfl, hnew⟩ := exists_of_fieldsBehind h₁
  have hclean₂ := clean_of_keeps (fieldTypes_keeps grows_discipline hgrows rest extended) hothers
    hclean
  rcases hnew with ⟨hname, rfl, rfl⟩ | ⟨_, hreport⟩
  · exact ⟨type, k₂, htype, hclean₂, hname, hothers⟩
  · exact absurd hclean₂ (not_clean_of_report hreport)

/-- If the condition and the update of a loop leave no trace, its body is checked with what
was known before. -/
theorem body_of_loopRound {condition? update? : Option Expr} {body : Block} {P Q : Expr → Prop}
    (hcondition : ∀ condition, condition? = some condition → ∀ {u k₁},
      go.checkCondition condition k = .ok u k₁ → k₁.diagnostics = [] → k₁ = k ∧ P condition)
    (hupdate : ∀ update, update? = some update → ∀ {type k₁},
      go.typeOf update k = .ok type k₁ → k₁.diagnostics = [] → k₁ = k ∧ Q update)
    {u : Unit} (h : go.loopRound condition? update? body k = .ok u k')
    (hclean : k'.diagnostics = []) :
    (∀ condition, condition? = some condition → P condition) ∧
      (∀ update, update? = some update → Q update) ∧ go.checkBlock body k = .ok u k' := by
  have hrest : go.loopRest update? body k = .ok u k' →
      (∀ update, update? = some update → Q update) ∧ go.checkBlock body k = .ok u k' := by
    intro h
    cases update? with
    | none => exact ⟨fun _ heq => (nomatch heq), h⟩
    | some update =>
      obtain ⟨_, k₁, hdiscard, hblock⟩ := bind_eq_ok.mp h
      obtain ⟨type, k₂, htype, hend⟩ := bind_eq_ok.mp hdiscard
      obtain ⟨_, rfl⟩ := pure_eq_ok.mp hend
      have hclean₁ := clean_of_keeps (checkBlock_keeps grows_discipline hgrows body) hblock hclean
      obtain ⟨rfl, hQ⟩ := hupdate update rfl htype hclean₁
      exact ⟨fun _ heq => by cases heq; exact hQ, hblock⟩
  cases condition? with
  | none => exact ⟨fun _ heq => (nomatch heq), hrest h⟩
  | some condition =>
    obtain ⟨_, k₁, hcheck, h₁⟩ := bind_eq_ok.mp h
    have hclean₁ := clean_of_keeps (loopRest_keeps grows_discipline hgrows update? body) h₁ hclean
    obtain ⟨rfl, hP⟩ := hcondition condition rfl hcheck hclean₁
    exact ⟨fun _ heq => by cases heq; exact hP, hrest h₁⟩

omit hgrows in
/-- Outside functions every return is reported. -/
theorem not_clean_of_noteGiven {type : Ty} {blamed position : Position} {u : Unit}
    (hfunctions : k.functions = []) (h : go.noteGiven type blamed position k = .ok u k') :
    k'.diagnostics ≠ [] := by
  unfold noteGiven at h
  rw [get_bind, hfunctions] at h
  exact not_clean_of_report h

end Parts

/-- The rules of typing hold of the parts of an expression: they are typed
without a diagnostic and without a trace. -/
def TypesFirstOrder (go : Checker) : Prop :=
  ∀ e k type k', go.typeOf e k = .ok type k' → k'.diagnostics = [] → e.isFirstOrder = true →
    KnownPlain go.table k.scopes → k' = k ∧ e.HasType go.table k.scopes type

variable (hgrows : go.Keeps Grows Grows) (hgo : TypesFirstOrder go) (htable : go.table.AllPlain)
  (hscopes : KnownPlain go.table k.scopes)

/-- A name that does not stand for a function whose result has to be inferred. -/
theorem typeOfName_eq_ok {name : String} {type : Ty} {position : Position}
    (h : go.typeOfName name position k = .ok type k') (hclean : k'.diagnostics = [])
    (hpending : ∀ binding, findBinding k.scopes name = some binding →
      ∀ signature, binding.type = .function signature → binding.pending? = none) :
    k' = k ∧ ∃ binding, findBinding k.scopes name = some binding ∧ type = binding.type := by
  unfold typeOfName at h
  rw [get_bind] at h
  cases hfind : k.lookup? name with
  | none =>
    rw [hfind] at h
    obtain ⟨_, k₁, hreport, h⟩ := bind_eq_ok.mp h
    rw [(pure_eq_ok.mp h).2] at hclean
    exact absurd hclean (not_clean_of_report hreport)
  | some binding =>
    rw [hfind] at h
    dsimp only at h
    obtain ⟨found, declared, pending?⟩ := binding
    have h : (do return ((← get).lookup? name).elim .unknown (·.type) : Check Ty) k =
        .ok type k' := by
      cases found with
      | function signature =>
        obtain rfl : pending? = none := hpending _ hfind signature rfl
        exact h
      | _ => exact h
    rw [get_bind, hfind] at h
    obtain ⟨rfl, rfl⟩ := pure_eq_ok.mp h
    exact ⟨rfl, _, hfind, rfl⟩

include hgrows hgo hscopes

theorem haveTypes_of_mapM (arguments : List Expr) (hfirst : areFirstOrder arguments = true)
    {found : List (Ty × Position)}
    (h : (arguments.mapM fun argument => do
      return (← go.typeOf argument, argument.position)) k = .ok found k')
    (hclean : k'.diagnostics = []) : k' = k ∧ haveTypes go.table k.scopes arguments := by
  induction arguments generalizing found k' with
  | nil => 
    rw [List.mapM_nil] at h
    exact ⟨(pure_eq_ok.mp h).2, trivial⟩
  | cons e rest ih =>
    rw [List.mapM_cons] at h
    obtain ⟨_, k₁, hhead, h⟩ := bind_eq_ok.mp h
    obtain ⟨_, k₂, htail, h⟩ := bind_eq_ok.mp h
    obtain ⟨rfl, rfl⟩ := pure_eq_ok.mp h
    obtain ⟨type, k₃, htype, hhead⟩ := bind_eq_ok.mp hhead
    obtain ⟨rfl, rfl⟩ := pure_eq_ok.mp hhead
    obtain ⟨he, hrest⟩ := Bool.and_eq_true_iff.mp hfirst
    have hclean₁ := clean_of_keeps (grows_discipline.mapM (fun e =>
      grows_discipline.bind (hgrows.typeOf e) fun _ => grows_discipline.pure _) rest) htail hclean
    obtain ⟨rfl, htype⟩ := hgo e k type _ htype hclean₁ he hscopes
    obtain ⟨rfl, hrest⟩ := ih hrest htail hclean
    exact ⟨rfl, ⟨type, htype⟩, hrest⟩

theorem fieldsHaveShape_of_fieldTypes (fields : List Field)
    (hfirst : fieldsAreFirstOrder fields = true) {before shape : Shape} {methods : List Method}
    (h : go.fieldTypes before fields k = .ok (shape, methods) k') (hclean : k'.diagnostics = []) :
    k' = k ∧ methods = [] ∧ fieldsHaveShape go.table k.scopes before fields shape := by
  induction fields generalizing before shape methods k' with
  | nil =>
    obtain ⟨heq, rfl⟩ := pure_eq_ok.mp h
    cases heq
    exact ⟨rfl, rfl, rfl⟩
  | cons field rest ih =>
    obtain ⟨hfield, hrest⟩ := Bool.and_eq_true_iff.mp hfirst
    obtain ⟨name, value, position⟩ := field
    have hne : ∀ f, value ≠ .function f := by
      rintro f rfl
      exact absurd hfield (by simp [Field.isFirstOrder, Expr.isFirstOrder])
    obtain ⟨type, k₁, htype, hclean₁, hname, hothers⟩ :=
      exists_of_fieldTypes_cons hgrows hne h hclean
    obtain ⟨rfl, htype⟩ := hgo value k type k₁ htype hclean₁ hfield hscopes
    obtain ⟨rfl, rfl, hshape⟩ := ih hrest hothers hclean
    exact ⟨rfl, rfl, type, htype, hname, hshape⟩

omit hgrows hgo hscopes in
theorem eq_of_expectArguments {signature : Signature} {found : List (Ty × Position)} {index : Nat}
    {u : Unit} (h : go.expectArguments signature index found k = .ok u k')
    (hclean : k'.diagnostics = []) : k' = k := by
  induction found generalizing index k with
  | nil => exact (pure_eq_ok.mp h).2
  | cons first rest ih =>
    obtain ⟨type, position⟩ := first
    rw [expectArguments] at h
    cases hparam : signature.param? index with
    | none => rw [hparam] at h; exact ih h
    | some expected =>
      rw [hparam] at h
      obtain ⟨_, k₁, hexpect, hrest⟩ := bind_eq_ok.mp h
      obtain rfl := ih hrest
      exact (fits_of_expect hexpect hclean).1

theorem hasType_of_typeOfCall {callee : Expr} {arguments : List Expr} {position : Position}
    {type : Ty} (hcallee : ∀ found k₁, go.typeOf callee k = .ok found k₁ → k₁.diagnostics = [] →
      k₁ = k ∧ found = .function Native.log.signature)
    (hfirst : areFirstOrder arguments = true)
    (h : go.typeOfCall callee arguments position k = .ok type k') (hclean : k'.diagnostics = []) :
    k' = k ∧ type = .void ∧ haveTypes go.table k.scopes arguments := by
  obtain ⟨found, k₁, hfound, h₁⟩ := bind_eq_ok.mp h
  obtain ⟨types, k₂, htypes, h₂⟩ := bind_eq_ok.mp h₁
  clear h h₁
  -- whichever way the check of a call goes on, it takes no diagnostic back
  have hrest : k₂.diagnostics = [] := by
    refine clean_of_keeps ?_ h₂ hclean
    split
    · exact grows_discipline.pure _
    · split
      · exact grows_discipline.bind (grows_discipline.report _ _) fun _ => grows_discipline.pure _
      · split
        · exact grows_discipline.bind (expectArguments_keeps grows_discipline _ _ _) fun _ =>
            grows_discipline.pure _
        · exact grows_discipline.bind (grows_discipline.report _ _) fun _ =>
            grows_discipline.bind (expectArguments_keeps grows_discipline _ _ _) fun _ =>
              grows_discipline.pure _
  have hclean₁ := clean_of_keeps (grows_discipline.mapM (fun e =>
    grows_discipline.bind (hgrows.typeOf e) fun _ => grows_discipline.pure _) arguments)
    htypes hrest
  obtain ⟨rfl, rfl⟩ := hcallee found k₁ hfound hclean₁
  obtain ⟨rfl, htyped⟩ := haveTypes_of_mapM hgrows hgo hscopes arguments hfirst htypes hrest
  rw [if_neg (by simp)] at h₂
  have h₃ : (do
      go.expectArguments Native.log.signature 0 types
      return Native.log.signature.result : Check Ty) k₂ = .ok type k' := by
    simpa [Ty.callable?, Native.signature, Signature.arity, Allowance.accepts] using h₂
  obtain ⟨_, k₃, harguments, hend⟩ := bind_eq_ok.mp h₃
  obtain ⟨rfl, rfl⟩ := pure_eq_ok.mp hend
  exact ⟨eq_of_expectArguments harguments hclean, rfl, htyped⟩

include htable

omit hgrows in
/-- A part of an expression is never typed as unknown without a diagnostic. -/
theorem hasType_of_part {e : Expr} (he : e.isFirstOrder = true) {type : Ty}
    (h : go.typeOf e k = .ok type k') (hclean : k'.diagnostics = []) :
    k' = k ∧ e.HasType go.table k.scopes type ∧ type ≠ .unknown := by
  obtain ⟨hk, htype⟩ := hgo e k type k' h hclean he hscopes
  refine ⟨hk, htype, ?_⟩
  rintro rfl
  exact (htype.plain htable hscopes e he).self

theorem hasType_of_binary {left right : Expr} {op : BinaryOp} {position : Position}
    (hl : left.isFirstOrder = true) (hr : right.isFirstOrder = true) {type : Ty}
    (h : go.exprRule (.binary left op right position) k = .ok type k')
    (hclean : k'.diagnostics = []) :
    k' = k ∧ (Expr.binary left op right position).HasType go.table k.scopes type := by
  obtain ⟨a, k₁, hleft, h₁⟩ := bind_eq_ok.mp h
  obtain ⟨b, k₂, hright, hop⟩ := bind_eq_ok.mp h₁
  -- no diagnostic at the end, so none after the right operand and none after the left
  have hclean₂ := clean_of_keeps (typeOfBinary_keeps grows_discipline _ _ _ _) hop hclean
  have hclean₁ := clean_of_keeps (hgrows.typeOf right) hright hclean₂
  obtain ⟨rfl, hleft, ha⟩ := hasType_of_part hgo htable hscopes hl hleft hclean₁
  obtain ⟨rfl, hright, hb⟩ := hasType_of_part hgo htable hscopes hr hright hclean₂
  obtain ⟨rfl, htype⟩ := hasType_of_typeOfBinary hop hclean ha hb
  rw [Expr.HasType]
  exact ⟨rfl, a, b, hleft, hright, htype⟩

theorem hasType_of_assign {target value : Expr} {op? : Option BinaryOp} {position : Position}
    (htarget : target.isFirstOrder = true) (hvalue : value.isFirstOrder = true) {type : Ty}
    (h : go.exprRule (.assign target op? value position) k = .ok type k')
    (hclean : k'.diagnostics = []) :
    k' = k ∧ (Expr.assign target op? value position).HasType go.table k.scopes type := by
  obtain ⟨k₁, given, k₂, found, hexpected, hclean₁, hgiven, hclean₂, hfits, hfound⟩ :=
    exists_of_assign hgrows h hclean
  obtain ⟨rfl, hexpected, hne⟩ := hasType_of_part hgo htable hscopes htarget hexpected hclean₁
  obtain ⟨rfl, hgiven, hne'⟩ := hasType_of_part hgo htable hscopes hvalue hgiven hclean₂
  rw [Expr.HasType]
  rcases hfound with ⟨rfl, rfl, rfl⟩ | ⟨op, rfl, hfound⟩
  · exact ⟨rfl, hexpected, found, found, hgiven, rfl, hfits⟩
  · obtain ⟨rfl, hop⟩ := hasType_of_typeOfBinary hfound hclean hne hne'
    exact ⟨rfl, hexpected, given, found, hgiven, hop, hfits⟩

omit hgrows in
theorem hasType_of_member {inner : Expr} {property : String} {position : Position}
    (hinner : inner.isFirstOrder = true) {type : Ty}
    (h : go.exprRule (.member inner property position) k = .ok type k')
    (hclean : k'.diagnostics = []) :
    k' = k ∧ (Expr.member inner property position).HasType go.table k.scopes type := by
  obtain ⟨found, k₁, hfound, h₁⟩ := bind_eq_ok.mp h
  obtain ⟨type?, k₂, hask, h₂⟩ := bind_eq_ok.mp h₁
  obtain ⟨hproperty, rfl⟩ := ask_eq_ok.mp hask
  cases type? with
  | none =>
    obtain ⟨_, k₃, hreport, hend⟩ := bind_eq_ok.mp h₂
    rw [(pure_eq_ok.mp hend).2] at hclean
    exact absurd hclean (not_clean_of_report hreport)
  | some type' =>
    obtain ⟨rfl, rfl⟩ := pure_eq_ok.mp h₂
    obtain ⟨rfl, hfound, _⟩ := hasType_of_part hgo htable hscopes hinner hfound hclean
    rw [Expr.HasType]
    exact ⟨rfl, found, go.effort, hfound, hproperty⟩

omit htable in
theorem hasType_of_object {fields : List Field} {position : Position}
    (hfirst : fieldsAreFirstOrder fields = true) {type : Ty}
    (h : go.exprRule (.object fields position) k = .ok type k') (hclean : k'.diagnostics = []) :
    k' = k ∧ (Expr.object fields position).HasType go.table k.scopes type := by
  obtain ⟨⟨shape, methods⟩, k₁, hfields, h₁⟩ := bind_eq_ok.mp h
  obtain ⟨shape', k₂, hmethods, hend⟩ := bind_eq_ok.mp h₁
  obtain ⟨rfl, rfl⟩ := pure_eq_ok.mp hend
  have hclean₁ := clean_of_keeps (checkMethods_keeps grows_discipline hgrows _ _) hmethods hclean
  obtain ⟨rfl, rfl, hshape⟩ :=
    fieldsHaveShape_of_fieldTypes hgrows hgo hscopes fields hfirst hfields hclean₁
  -- without methods the second pass has nothing to do
  obtain ⟨rfl, rfl⟩ := pure_eq_ok.mp hmethods
  rw [Expr.HasType]
  exact ⟨rfl, _, rfl, hshape⟩

theorem hasType_of_exprRule (e : Expr) (he : e.isFirstOrder = true)
    (hprint : ∀ callee found k₁, callee.isPrint = true → go.typeOf callee k = .ok found k₁ →
      k₁.diagnostics = [] → k₁ = k ∧ found = .function Native.log.signature)
    {type : Ty} (h : go.exprRule e k = .ok type k') (hclean : k'.diagnostics = []) :
    k' = k ∧ e.HasType go.table k.scopes type := by
  cases e with
  | literal value position =>
    rw [Expr.HasType]
    cases value <;> exact (pure_eq_ok.mp h).symm
  | reference name position =>
    rw [Expr.isFirstOrder] at he
    rw [Expr.HasType]
    exact typeOfName_eq_ok h hclean fun binding hbinding _ _ =>
      (hscopes.binding (by simpa using he) hbinding).1
  | receiver position => exact absurd he (by simp [Expr.isFirstOrder])
  | unary op operand position =>
    rw [Expr.isFirstOrder] at he
    rw [Expr.HasType]
    obtain ⟨found, k₁, hoperand, h₁⟩ := bind_eq_ok.mp h
    obtain ⟨_, k₂, hexpect, hend⟩ := bind_eq_ok.mp h₁
    obtain ⟨rfl, rfl⟩ := pure_eq_ok.mp hend
    obtain ⟨rfl, hfits⟩ := fits_of_expect hexpect hclean
    obtain ⟨rfl, hfound, _⟩ := hasType_of_part hgo htable hscopes he hoperand hclean
    cases op <;> exact ⟨rfl, rfl, found, hfound, hfits⟩
  | binary left op right position =>
    rw [Expr.isFirstOrder] at he
    obtain ⟨hl, hr⟩ := Bool.and_eq_true_iff.mp he
    exact hasType_of_binary hgrows hgo htable hscopes hl hr h hclean
  | assign target op? value position =>
    have hparts : target.isFirstOrder = true ∧ value.isFirstOrder = true := by
      cases target with
      | reference name position => simpa [Expr.isFirstOrder] using he
      | _ => exact absurd he (by simp [Expr.isFirstOrder])
    exact hasType_of_assign hgrows hgo htable hscopes hparts.1 hparts.2 h hclean
  | update target op isBefore position =>
    have htarget : target.isFirstOrder = true := by
      cases target with
      | reference name position => simpa [Expr.isFirstOrder] using he
      | _ => exact absurd he (by simp [Expr.isFirstOrder])
    rw [Expr.HasType]
    obtain ⟨found, k₁, hfound, h₁⟩ := bind_eq_ok.mp h
    obtain ⟨_, k₂, hexpect, hend⟩ := bind_eq_ok.mp h₁
    obtain ⟨rfl, rfl⟩ := pure_eq_ok.mp hend
    obtain ⟨rfl, hfits⟩ := fits_of_expect hexpect hclean
    obtain ⟨rfl, hfound, _⟩ := hasType_of_part hgo htable hscopes htarget hfound hclean
    exact ⟨rfl, rfl, found, hfound, hfits⟩
  | call callee arguments position =>
    rw [Expr.isFirstOrder] at he
    rw [Expr.HasType]
    obtain ⟨hcallee, harguments⟩ := Bool.and_eq_true_iff.mp he
    exact hasType_of_typeOfCall hgrows hgo hscopes (fun found k₁ => hprint callee found k₁ hcallee)
      harguments h hclean
  | member inner property position =>
    rw [Expr.isFirstOrder] at he
    exact hasType_of_member hgo htable hscopes he h hclean
  | object fields position =>
    rw [Expr.isFirstOrder] at he
    exact hasType_of_object hgrows hgo hscopes he h hclean
  | function f => exact absurd he (by simp [Expr.isFirstOrder])

end Clean

/-! ### Statements -/

section Statements

variable {go : Checker} {k k' : Knowledge}

/-- A written type that is read without a diagnostic has no problem. -/
theorem readType_eq_ok {type : TypeExpr} {found : Ty} (h : go.readType type k = .ok found k')
    (hclean : k'.diagnostics = []) :
    k' = k ∧ found = go.table.denote type ∧ go.table.problems? go.effort type = some [] := by
  obtain ⟨problems, k₁, hask, h₁⟩ := bind_eq_ok.mp h
  obtain ⟨hproblems, rfl⟩ := ask_eq_ok.mp hask
  obtain ⟨_, k₂, hreport, hend⟩ := bind_eq_ok.mp h₁
  obtain ⟨rfl, rfl⟩ := pure_eq_ok.mp hend
  have hk := modify_eq_ok.mp hreport
  rw [hk] at hclean
  obtain ⟨hclean, rfl⟩ := List.append_eq_nil_iff.mp hclean
  refine ⟨?_, rfl, hproblems⟩
  rw [hk, List.append_nil]

theorem plain_of_readType {type : TypeExpr} {found : Ty} (hplain : type.isPlain = true)
    (h : go.readType type k = .ok found k') (hclean : k'.diagnostics = []) :
    k' = k ∧ found = go.table.denote type ∧ go.table.Plain found := by
  obtain ⟨rfl, rfl, hproblems⟩ := readType_eq_ok h hclean
  obtain ⟨conflicts, hconflicts, hnil⟩ := Option.map_eq_some_iff.mp
    (show (go.table.conflicts? go.effort type).map (type.complaints go.table.declares ++ ·) =
      some [] from by
        unfold Table.problems? at hproblems
        cases hconflicts : go.table.conflicts? go.effort type with
        | none => rw [hconflicts] at hproblems; cases hproblems
        | some conflicts => rw [hconflicts] at hproblems; exact hproblems)
  exact ⟨rfl, rfl, Table.plain_denote hplain (List.append_eq_nil_iff.mp hnil).1⟩

/-- The rules of typing hold of the statements in a statement: outside functions
they are accepted without a diagnostic, and change the scopes only. -/
def AcceptsFirstOrder (go : Checker) : Prop :=
  ∀ s k u k', go.check s k = .ok u k' → k'.diagnostics = [] → s.isFirstOrder = true →
    KnownPlain go.table k.scopes → k.functions = [] →
    ∃ after, k' = { k with scopes := after } ∧ s.Accepted go.table k.scopes after

/-- The rules of typing hold of the rows of statements in a statement. -/
def AcceptsFirstOrderRows (go : Checker) : Prop :=
  ∀ l k u k', go.checkAll l k = .ok u k' → k'.diagnostics = [] → rowIsFirstOrder l = true →
    KnownPlain go.table k.scopes → k.functions = [] →
    ∃ after, k' = { k with scopes := after } ∧ rowAccepted go.table k.scopes l after

section Row

variable (hgrows : go.Keeps Grows Grows) (htable : go.table.AllPlain)
  (hstatements : AcceptsFirstOrder go)
include hgrows htable hstatements

theorem rowAccepted_of_checkEach (l : List Stmt) (hl : rowIsFirstOrder l = true)
    (hscopes : KnownPlain go.table k.scopes) (hfunctions : k.functions = []) {u : Unit}
    (h : go.checkEach l k = .ok u k') (hclean : k'.diagnostics = []) :
    ∃ after, k' = { k with scopes := after } ∧
      rowAccepted go.table k.scopes l after := by
  induction l generalizing k with
  | nil => exact ⟨k.scopes, (pure_eq_ok.mp h).2, rfl⟩
  | cons s rest ih =>
    obtain ⟨hs, hrest⟩ := Bool.and_eq_true_iff.mp hl
    obtain ⟨_, k₁, hcheck, h₁⟩ := bind_eq_ok.mp h
    have hclean₁ := clean_of_keeps (checkEach_keeps grows_discipline hgrows rest) h₁ hclean
    obtain ⟨between, rfl, hbetween⟩ := hstatements s k _ k₁ hcheck hclean₁ hs hscopes hfunctions
    obtain ⟨after, rfl, hafter⟩ := ih (k := { k with scopes := between }) hrest
      (hbetween.knownPlain htable hs hscopes) hfunctions h₁
    exact ⟨after, rfl, between, hbetween, hafter⟩

omit hgrows htable hstatements in
theorem hoist_firstOrder (l : List Stmt) (hl : rowIsFirstOrder l = true) :
    go.hoist l = pure [] := by
  induction l with
  | nil => rfl
  | cons s rest ih =>
    obtain ⟨hs, hrest⟩ := Bool.and_eq_true_iff.mp hl
    cases s with
    | function f => exact absurd hs (by simp [Stmt.isFirstOrder])
    | _ => exact ih hrest

theorem rowAccepted_of_rowRule (l : List Stmt) (hl : rowIsFirstOrder l = true)
    (hscopes : KnownPlain go.table k.scopes) (hfunctions : k.functions = []) {u : Unit}
    (h : go.rowRule l k = .ok u k') (hclean : k'.diagnostics = []) :
    ∃ after, k' = { k with scopes := after } ∧
      rowAccepted go.table k.scopes l after := by
  unfold rowRule at h
  rw [hoist_firstOrder l hl] at h
  obtain ⟨hoisted, k₁, hhoist, h₁⟩ := bind_eq_ok.mp h
  obtain ⟨rfl, rfl⟩ := pure_eq_ok.mp hhoist
  obtain ⟨_, k₂, heach, h₂⟩ := bind_eq_ok.mp h₁
  rw [get_bind] at h₂
  have hk : k' = k₂ := by
    split at h₂ <;> exact (pure_eq_ok.mp h₂).2
  subst hk
  exact rowAccepted_of_checkEach hgrows htable hstatements l hl hscopes hfunctions heach hclean

end Row

section Rule

variable (hgrows : go.Keeps Grows Grows) (hgo : TypesFirstOrder go) (htable : go.table.AllPlain)
  (hstatements : AcceptsFirstOrder go) (hrows : AcceptsFirstOrderRows go)

theorem isCondition_of_checkCondition (hgo : TypesFirstOrder go) {condition : Expr}
    (hcondition : condition.isFirstOrder = true) (hscopes : KnownPlain go.table k.scopes)
    {u : Unit} (h : go.checkCondition condition k = .ok u k') (hclean : k'.diagnostics = []) :
    k' = k ∧ condition.IsCondition go.table k.scopes := by
  obtain ⟨type, k₁, htype, hexpect⟩ := bind_eq_ok.mp h
  obtain ⟨rfl, hfits⟩ := fits_of_expect hexpect hclean
  obtain ⟨rfl, htype⟩ := hgo condition k type k' htype hclean hcondition hscopes
  exact ⟨rfl, type, htype, hfits⟩

theorem accepted_of_checkBlock (hrows : AcceptsFirstOrderRows go) {b : Block}
    (hb : b.isFirstOrder = true) (hscopes : KnownPlain go.table k.scopes)
    (hfunctions : k.functions = []) {u : Unit} (h : go.checkBlock b k = .ok u k')
    (hclean : k'.diagnostics = []) : k' = k ∧ b.Accepted go.table k.scopes := by
  obtain ⟨k₁, hbody, rfl⟩ := inScope_eq_ok.mp h
  obtain ⟨after, rfl, hafter⟩ := hrows b.statements _ _ k₁ hbody hclean
    (by obtain ⟨statements, position⟩ := b; exact hb) hscopes.push hfunctions
  refine ⟨?_, ?_⟩
  · rw [hafter.tail]
    rfl
  · obtain ⟨statements, position⟩ := b
    exact ⟨after, hafter⟩

omit go in
theorem declaresIn_of_declare {name : String} {type : Ty} {position : Position} {u : Unit}
    {scope : Scope} {rest : List Scope} (hscopes : k.scopes = scope :: rest)
    (h : declare name type position k = .ok u k') (hclean : k'.diagnostics = []) :
    ∃ after, k' = { k with scopes := after } ∧
      declaresIn k.scopes name ⟨type, position, none⟩ after := by
  have hk := enter_eq_ok.mp h
  rw [hscopes] at hk
  dsimp only at hk
  cases hhas : scope.has name with
  | true =>
    rw [if_pos hhas] at hk
    rw [hk] at hclean
    exact absurd hclean (by simp)
  | false =>
    rw [if_neg (by simp [hhas])] at hk
    exact ⟨_, hk, scope, rest, hscopes, hhas, rfl⟩

theorem accepted_of_variable (hgo : TypesFirstOrder go) (hgrows : go.Keeps Grows Grows)
    {name : String} {type? : Option TypeExpr} {value : Expr} {position : Position}
    (htype? : type?.all TypeExpr.isPlain = true) (hvalue : value.isFirstOrder = true)
    (hscopes : KnownPlain go.table k.scopes) {u : Unit}
    (h : go.stmtRule (.variable name type? (some value) position) k = .ok u k')
    (hclean : k'.diagnostics = []) :
    ∃ after, k' = { k with scopes := after } ∧
      Stmt.Accepted go.table k.scopes (.variable name type? (some value) position) after := by
  obtain ⟨declared?, k₁, hdeclared, h₁⟩ := bind_eq_ok.mp h
  obtain ⟨found?, k₂, hfound, h₂⟩ := bind_eq_ok.mp h₁
  obtain ⟨found, k₃, htype, hend⟩ := bind_eq_ok.mp hfound
  obtain ⟨rfl, rfl⟩ := pure_eq_ok.mp hend
  -- there is a scope, as the built-in object is found in some scope
  obtain ⟨scope, rest, hscope⟩ : ∃ scope rest, k.scopes = scope :: rest := by
    cases hs : k.scopes with
    | nil =>
      have hprint := hscopes.print
      rw [hs] at hprint
      cases hprint
    | cons scope rest => exact ⟨scope, rest, rfl⟩
  cases type? with
  | none =>
    obtain ⟨rfl, rfl⟩ := pure_eq_ok.mp hdeclared
    have hclean₂ := clean_of_keeps (enter_keeps_grows _ _) h₂ hclean
    obtain ⟨rfl, htype⟩ := hgo value _ found _ htype hclean₂ hvalue hscopes
    obtain ⟨after, hk, hafter⟩ := declaresIn_of_declare hscope h₂ hclean
    exact ⟨after, hk, value, found, found, rfl, htype, rfl, hafter⟩
  | some written =>
    obtain ⟨declared, k₄, hread, hend⟩ := bind_eq_ok.mp hdeclared
    obtain ⟨rfl, rfl⟩ := pure_eq_ok.mp hend
    obtain ⟨_, k₅, hexpect, hdeclare⟩ := bind_eq_ok.mp h₂
    have hclean₅ := clean_of_keeps (enter_keeps_grows _ _) hdeclare hclean
    obtain ⟨rfl, hfits⟩ := fits_of_expect hexpect hclean₅
    have hclean₁ := clean_of_keeps (hgrows.typeOf value) htype hclean₅
    obtain ⟨rfl, rfl, hplain⟩ := plain_of_readType htype? hread hclean₁
    obtain ⟨rfl, htype⟩ := hgo value _ found _ htype hclean₅ hvalue hscopes
    obtain ⟨after, hk, hafter⟩ := declaresIn_of_declare hscope hdeclare hclean
    exact ⟨after, hk, value, found, _, rfl, htype, ⟨rfl, hplain, hfits⟩, hafter⟩

/-- A loop from its condition on, with the scopes of its variables. -/
theorem acceptsRound_of_checks (hgo : TypesFirstOrder go) (hgrows : go.Keeps Grows Grows)
    (hrows : AcceptsFirstOrderRows go) {condition? update? : Option Expr} {body : Block}
    (hcondition : condition?.all Expr.isFirstOrder = true)
    (hupdate : update?.all Expr.isFirstOrder = true) (hbody : body.isFirstOrder = true)
    (hscopes : KnownPlain go.table k.scopes) (hfunctions : k.functions = []) {u : Unit}
    (h : go.loopRound condition? update? body k = .ok u k') (hclean : k'.diagnostics = []) :
    k' = k ∧ acceptsRound go.table k.scopes condition? update? ∧
      body.Accepted go.table k.scopes := by
  have hcond : ∀ condition, condition? = some condition → ∀ {u k₁},
      go.checkCondition condition k = .ok u k₁ → k₁.diagnostics = [] →
        k₁ = k ∧ condition.IsCondition go.table k.scopes := by
    rintro condition rfl u k₁ hcheck hclean₁
    exact isCondition_of_checkCondition hgo hcondition hscopes hcheck hclean₁
  have hupd : ∀ update, update? = some update → ∀ {type k₁},
      go.typeOf update k = .ok type k₁ → k₁.diagnostics = [] →
        k₁ = k ∧ ∃ type, update.HasType go.table k.scopes type := by
    rintro update rfl type k₁ htype hclean₁
    obtain ⟨hk, htype⟩ := hgo update k type k₁ htype hclean₁ hupdate hscopes
    exact ⟨hk, type, htype⟩
  obtain ⟨hconditions, hupdates, hblock⟩ := body_of_loopRound hgrows hcond hupd h hclean
  obtain ⟨rfl, hbody⟩ := accepted_of_checkBlock hrows hbody hscopes hfunctions hblock hclean
  exact ⟨rfl, ⟨hconditions, hupdates⟩, hbody⟩

/-- Outside functions every return is reported. -/
theorem not_clean_of_giveBack (hgo : TypesFirstOrder go) {value? : Option Expr}
    {position : Position} (hvalue : value?.all Expr.isFirstOrder = true)
    (hscopes : KnownPlain go.table k.scopes) (hfunctions : k.functions = []) {u : Unit}
    (h : go.stmtRule (.giveBack value? position) k = .ok u k') : k'.diagnostics ≠ [] := by
  intro hclean
  cases value? with
  | none => exact not_clean_of_noteGiven hfunctions h hclean
  | some value =>
    obtain ⟨type, k₁, htype, hnote⟩ := bind_eq_ok.mp h
    have hclean₁ := clean_of_keeps (noteGiven_keeps grows_discipline _ _ _) hnote hclean
    -- the value is typed without a trace, so there is no function around the return still
    obtain ⟨rfl, _⟩ := hgo value k type k₁ htype hclean₁ hvalue hscopes
    exact not_clean_of_noteGiven hfunctions hnote hclean

theorem accepted_of_branch (hgo : TypesFirstOrder go) (hgrows : go.Keeps Grows Grows)
    (hstatements : AcceptsFirstOrder go) (hrows : AcceptsFirstOrderRows go) {condition : Expr}
    {body : Block} {otherwise? : Option Stmt} {position : Position}
    (hs : (Stmt.branch condition body otherwise? position).isFirstOrder = true)
    (hscopes : KnownPlain go.table k.scopes) (hfunctions : k.functions = []) {u : Unit}
    (h : go.stmtRule (.branch condition body otherwise? position) k = .ok u k')
    (hclean : k'.diagnostics = []) :
    k' = k ∧ Stmt.Accepted go.table k.scopes (.branch condition body otherwise? position)
      k.scopes := by
  obtain ⟨_, k₁, hcheck, h₁⟩ := bind_eq_ok.mp h
  obtain ⟨_, k₂, hblock, hrest⟩ := bind_eq_ok.mp h₁
  have hbranch : k₂.diagnostics = [] → condition.isFirstOrder = true → body.isFirstOrder = true →
      k₂ = k ∧ condition.IsCondition go.table k.scopes ∧
        body.Accepted go.table k.scopes := by
    intro hclean₂ hcondition hbody
    have hclean₁ := clean_of_keeps (checkBlock_keeps grows_discipline hgrows body) hblock hclean₂
    obtain ⟨rfl, hcond⟩ := isCondition_of_checkCondition hgo hcondition hscopes hcheck hclean₁
    obtain ⟨rfl, hbody⟩ := accepted_of_checkBlock hrows hbody hscopes hfunctions hblock hclean₂
    exact ⟨rfl, hcond, hbody⟩
  cases otherwise? with
  | none =>
    obtain ⟨hcondition, hbody⟩ := Bool.and_eq_true_iff.mp hs
    obtain ⟨_, rfl⟩ := pure_eq_ok.mp hrest
    obtain ⟨rfl, hcond, hbody⟩ := hbranch hclean hcondition hbody
    exact ⟨rfl, rfl, hcond, hbody⟩
  | some otherwise =>
    unfold Stmt.isFirstOrder at hs
    simp only [Bool.and_eq_true] at hs
    have hclean₂ := clean_of_keeps (hgrows.check otherwise) hrest hclean
    obtain ⟨rfl, hcond, hbody⟩ := hbranch hclean₂ hs.1.1.1 hs.1.1.2
    obtain ⟨after, rfl, hafter⟩ :=
      hstatements otherwise _ _ k' hrest hclean hs.2 hscopes hfunctions
    -- an alternative is a branch or a block, and neither declares in the scope around it
    have hsame : after = k₂.scopes := hafter.eq fun _ _ _ _ heq => by
      rw [heq] at hs
      exact absurd hs.1.2 (by simp [Stmt.isAlternative])
    subst hsame
    exact ⟨rfl, rfl, hcond, hbody, hafter⟩

theorem accepted_of_loop (hgo : TypesFirstOrder go) (hgrows : go.Keeps Grows Grows)
    (htable : go.table.AllPlain) (hstatements : AcceptsFirstOrder go)
    (hrows : AcceptsFirstOrderRows go) {init? : Option Stmt} {condition? update? : Option Expr}
    {body : Block} {position : Position}
    (hs : (Stmt.loop init? condition? update? body position).isFirstOrder = true)
    (hscopes : KnownPlain go.table k.scopes) (hfunctions : k.functions = []) {u : Unit}
    (h : go.stmtRule (.loop init? condition? update? body position) k = .ok u k')
    (hclean : k'.diagnostics = []) :
    k' = k ∧ Stmt.Accepted go.table k.scopes (.loop init? condition? update? body position)
      k.scopes := by
  obtain ⟨k₁, hinner, rfl⟩ := inScope_eq_ok.mp h
  cases init? with
  | none =>
    unfold Stmt.isFirstOrder at hs
    simp only [Bool.and_eq_true] at hs
    obtain ⟨rfl, hround, hbody⟩ := acceptsRound_of_checks
      (k := { k with scopes := .empty :: k.scopes }) hgo hgrows hrows hs.1.1 hs.1.2 hs.2
      hscopes.push hfunctions hinner hclean
    exact ⟨rfl, rfl, hround, hbody⟩
  | some init =>
    unfold Stmt.isFirstOrder at hs
    simp only [Bool.and_eq_true] at hs
    obtain ⟨_, k₂, hinit, hrest⟩ := bind_eq_ok.mp hinner
    have hclean₂ := clean_of_keeps (loopRound_keeps grows_discipline hgrows condition? update? body)
      hrest hclean
    obtain ⟨inner, rfl, haccepted⟩ := hstatements init _ _ k₂ hinit hclean₂ hs.1.1.1.2
      hscopes.push hfunctions
    obtain ⟨rfl, hround, hbody⟩ := acceptsRound_of_checks (k := { k with scopes := inner }) hgo
      hgrows hrows hs.1.1.2 hs.1.2 hs.2
      (haccepted.knownPlain htable hs.1.1.1.2 hscopes.push) hfunctions hrest hclean
    -- the scope of the loop's variables is left again, and those around it are as before
    refine ⟨?_, rfl, inner, haccepted, hround, hbody⟩
    rw [haccepted.tail]
    rfl

/-- The rule of statements follows the rules of typing if the parts do. -/
theorem accepted_of_stmtRule (hgo : TypesFirstOrder go) (hgrows : go.Keeps Grows Grows)
    (htable : go.table.AllPlain) (hstatements : AcceptsFirstOrder go)
    (hrows : AcceptsFirstOrderRows go) (s : Stmt) (hs : s.isFirstOrder = true)
    (hscopes : KnownPlain go.table k.scopes) (hfunctions : k.functions = []) {u : Unit}
    (h : go.stmtRule s k = .ok u k') (hclean : k'.diagnostics = []) :
    ∃ after, k' = { k with scopes := after } ∧ s.Accepted go.table k.scopes after := by
  cases s with
  | «variable» name type? value? position =>
    cases value? with
    | none => exact absurd hs (by simp [Stmt.isFirstOrder])
    | some value =>
      unfold Stmt.isFirstOrder at hs
      simp only [Bool.and_eq_true, decide_eq_true_eq] at hs
      exact accepted_of_variable hgo hgrows hs.1.2 hs.2 hscopes h hclean
  | function f => exact absurd hs (by simp [Stmt.isFirstOrder])
  | interface declaration =>
    rw [(pure_eq_ok.mp h).2]
    exact ⟨k.scopes, rfl, rfl⟩
  | expression e position =>
    obtain ⟨type, k₁, htype, hend⟩ := bind_eq_ok.mp h
    obtain ⟨_, rfl⟩ := pure_eq_ok.mp hend
    obtain ⟨rfl, htype⟩ := hgo e k type k' htype hclean hs hscopes
    exact ⟨k'.scopes, rfl, rfl, type, htype⟩
  | giveBack value? position =>
    have hvalue : value?.all Expr.isFirstOrder = true := by
      cases value? with
      | none => rfl
      | some value => exact hs
    -- outside of any function giving back a value is reported
    exact absurd hclean (not_clean_of_giveBack hgo hvalue hscopes hfunctions h)
  | branch condition body otherwise? position =>
    obtain ⟨rfl, haccepted⟩ :=
      accepted_of_branch hgo hgrows hstatements hrows hs hscopes hfunctions h hclean
    exact ⟨k'.scopes, rfl, haccepted⟩
  | block b =>
    obtain ⟨rfl, hb⟩ := accepted_of_checkBlock hrows hs hscopes hfunctions h hclean
    exact ⟨k'.scopes, rfl, rfl, hb⟩
  | loop init? condition? update? body position =>
    obtain ⟨rfl, haccepted⟩ :=
      accepted_of_loop hgo hgrows htable hstatements hrows hs hscopes hfunctions h hclean
    exact ⟨k'.scopes, rfl, haccepted⟩
  | repeatWhile condition body position =>
    obtain ⟨hcondition, hbody⟩ := Bool.and_eq_true_iff.mp hs
    obtain ⟨_, k₁, hcheck, hblock⟩ := bind_eq_ok.mp h
    have hclean₁ := clean_of_keeps (checkBlock_keeps grows_discipline hgrows body) hblock hclean
    obtain ⟨rfl, hcond⟩ := isCondition_of_checkCondition hgo hcondition hscopes hcheck hclean₁
    obtain ⟨rfl, hbody⟩ := accepted_of_checkBlock hrows hbody hscopes hfunctions hblock hclean
    exact ⟨k'.scopes, rfl, rfl, hcond, hbody⟩

end Rule

end Statements

end Checker

section Knot

open Check

variable {table : Table} {effort : Nat} {k k' : Knowledge}

/-- The function that prints has its own type wherever it is called. -/
theorem Expr.typeOf_print (hscopes : KnownPlain table k.scopes) {fuel : Nat} {callee : Expr}
    (hprint : callee.isPrint = true) {found : Ty}
    (h : Expr.typeOf table effort fuel callee k = .ok found k') (hclean : k'.diagnostics = []) :
    k' = k ∧ found = .function Native.log.signature := by
  obtain ⟨name, position, property, position', rfl, rfl, rfl⟩ : ∃ name position property position',
      callee = .member (.reference name position) property position' ∧
        name = Native.log.holder ∧ property = Native.log.name := by
    unfold Expr.isPrint at hprint
    split at hprint
    · obtain ⟨hname, hproperty⟩ := Bool.and_eq_true_iff.mp hprint
      exact ⟨_, _, _, _, rfl, by simpa using hname, by simpa using hproperty⟩
    · cases hprint
  cases fuel with
  | zero => cases h
  | succ fuel =>
    obtain ⟨type, k₁, htype, h₁⟩ := bind_eq_ok.mp h
    obtain ⟨type?, k₂, hask, h₂⟩ := bind_eq_ok.mp h₁
    obtain ⟨hproperty, rfl⟩ := ask_eq_ok.mp hask
    cases fuel with
    | zero => cases htype
    | succ fuel =>
      -- whether or not there is such a property, no diagnostic is taken back afterwards
      have hclean₂ : k₂.diagnostics = [] := by
        refine Checker.clean_of_keeps ?_ h₂ hclean
        split
        · exact grows_discipline.pure _
        · exact grows_discipline.bind (grows_discipline.report _ _) fun _ =>
            grows_discipline.pure _
      obtain ⟨rfl, binding, hbinding, rfl⟩ := Checker.typeOfName_eq_ok htype hclean₂
        fun binding hbinding _ _ => by
          rw [hscopes.print] at hbinding
          cases hbinding
          rfl
      rw [hscopes.print] at hbinding
      cases hbinding
      -- the search in the type of the built-in object ends with any effort
      have hfound : type? = some (.function Native.log.signature) := by
        have : table.property? effort Native.log.name printBinding.type =
            some (some (.function Native.log.signature)) := by
          simp [printBinding, Table.property?, Table.shape?, Table.shapeOf?, Shape.find?]
        exact Option.some.inj (hproperty.symm.trans this)
      rw [hfound] at h₂
      obtain ⟨rfl, rfl⟩ := pure_eq_ok.mp h₂
      exact ⟨rfl, rfl⟩

/-- A check of a first-order expression that ends without a diagnostic follows
the rules of typing, and leaves what is known as it is. -/
theorem Expr.hasType_of_typeOf (htable : table.AllPlain) (fuel : Nat) :
    ∀ e k type k', Expr.typeOf table effort fuel e k = .ok type k' → k'.diagnostics = [] →
      e.isFirstOrder = true → KnownPlain table k.scopes →
      k' = k ∧ e.HasType table k.scopes type := by
  induction fuel with
  | zero => intro e k type k' h; cases h
  | succ fuel ih =>
    intro e k type k' h hclean he hscopes
    exact Checker.hasType_of_exprRule (checker_keeps Check.grows_discipline table effort fuel) ih
      htable hscopes e he
      (fun callee found k₁ hprint h hclean => Expr.typeOf_print hscopes hprint h hclean) h hclean

theorem accepted_of_checks (htable : table.AllPlain) (fuel : Nat) :
    (checker table effort fuel).AcceptsFirstOrder ∧
      (checker table effort fuel).AcceptsFirstOrderRows := by
  induction fuel with
  | zero => constructor <;> intro _ k u k' h <;> cases h
  | succ fuel ih =>
    have hgrows := checker_keeps Check.grows_discipline table effort fuel
    have htypes : (checker table effort fuel).TypesFirstOrder :=
      Expr.hasType_of_typeOf htable fuel
    constructor
    · intro s k u k' h hclean hs hscopes hfunctions
      exact Checker.accepted_of_stmtRule htypes hgrows htable ih.1 ih.2 s hs hscopes hfunctions h
        hclean
    · intro l k u k' h hclean hl hscopes hfunctions
      exact Checker.rowAccepted_of_rowRule hgrows htable ih.1 l hl hscopes hfunctions h hclean

/-- A check of first-order statements outside functions that ends without a
diagnostic follows the rules of typing, and changes the scopes only. -/
theorem Block.rowAccepted_of_checkAll (htable : table.AllPlain) {fuel : Nat}
    {l : List Stmt} (hl : rowIsFirstOrder l = true) (hscopes : KnownPlain table k.scopes)
    (hfunctions : k.functions = []) {u : Unit}
    (h : Block.checkAll table effort fuel l k = .ok u k') (hclean : k'.diagnostics = []) :
    ∃ after, k' = { k with scopes := after } ∧ rowAccepted table k.scopes l after :=
  (accepted_of_checks htable fuel).2 l k u k' h hclean hl hscopes hfunctions

end Knot

/-! ## Programs -/

theorem isPlain_of_mem_interfacesOf {statements : List Stmt}
    (h : rowIsFirstOrder statements = true) {declaration : Interface}
    (hmem : declaration ∈ interfacesOf statements) : declaration.isPlain = true := by
  induction statements with
  | nil => exact absurd hmem List.not_mem_nil
  | cons s rest ih =>
    obtain ⟨hs, hrest⟩ := Bool.and_eq_true_iff.mp h
    cases s with
    | interface other =>
      rcases List.mem_cons.mp hmem with rfl | hmem
      · exact hs
      · exact ih hrest hmem
    | _ => exact ih hrest hmem

theorem mem_of_mem_firstOfEachName {declarations : List Interface} {taken : List String}
    {declaration : Interface} (h : declaration ∈ firstOfEachName taken declarations) :
    declaration ∈ declarations := by
  induction declarations generalizing taken with
  | nil => exact absurd h List.not_mem_nil
  | cons first rest ih =>
    unfold firstOfEachName at h
    split at h
    · exact List.mem_cons_of_mem _ (ih h)
    · rcases List.mem_cons.mp h with rfl | h
      · exact List.mem_cons_self ..
      · exact List.mem_cons_of_mem _ (ih h)

theorem knownPlain_initial (table : Table) :
    KnownPlain table (.empty :: Knowledge.initial.scopes) where
  plain scope hscope name binding hname hget := by
    rcases List.mem_cons.mp hscope with rfl | hscope
    · cases hget
    · rw [List.mem_singleton.mp hscope] at hget
      unfold Record.ofList at hget
      rw [List.foldl_cons, List.foldl_nil, Record.get?_set, if_neg hname] at hget
      cases hget
  print := rfl

theorem complaints_eq_nil_of_interfaceProblems? {program : Program} {effort : Nat}
    (h : program.interfaceProblems? effort = some []) :
    ∀ declaration ∈ program.interfaces,
      complaintsOfMembers program.table.declares [] declaration.members = [] := by
  obtain ⟨conflicts, _, hnil⟩ := Option.bind_eq_some_iff.mp h
  have hcomplaints := (List.append_eq_nil_iff.mp (List.append_eq_nil_iff.mp
    (Option.some.inj hnil)).1).2
  exact fun declaration hdeclaration =>
    List.flatMap_eq_nil_iff.mp hcomplaints declaration hdeclaration

/-- A first-order program that passes the check follows the rules of typing, and
its interfaces are plain. -/
theorem Program.accepted_of_check {program : Program} (hfirst : program.isFirstOrder = true)
    {effort fuel : Nat} (h : program.check effort fuel = .ok []) :
    program.table.AllPlain ∧ ∃ after, rowAccepted program.table
      (.empty :: Knowledge.initial.scopes) program.statements after := by
  rw [Program.check_eq] at h
  obtain ⟨hproblems, u, k, hwhole, hclean⟩ := Program.clean_of_checkBy h
  have htable : program.table.AllPlain := by
    refine Program.allPlain_table (fun declaration hdeclaration =>
      isPlain_of_mem_interfacesOf hfirst (mem_of_mem_firstOfEachName hdeclaration)) ?_
    exact complaints_eq_nil_of_interfaceProblems? hproblems
  refine ⟨htable, ?_⟩
  obtain ⟨k₁, hrow, rfl⟩ := Check.inScope_eq_ok.mp hwhole
  obtain ⟨after, _, hafter⟩ := Block.rowAccepted_of_checkAll htable hfirst
    (knownPlain_initial program.table) rfl hrow hclean
  exact ⟨after, hafter⟩

end TypedScript
