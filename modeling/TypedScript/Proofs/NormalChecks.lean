import TypedScript.Proofs.SideBySide
import TypedScript.Proofs.WrittenTypes

/-!
# Checks handle normal types only

While a program is checked, types come from what is written, from unions of types that are
given back, from merged shapes and properties, and from results that are inferred ahead of
their turn. All of these are normal if those held before are, so that two checks that differ
only in what they do where a type is not normal `Agree`: from knowledge whose types are
normal they come to the same end, and there too all types are normal.

A check under watch stops where a type is held or given that is not normal. It agrees with
the check of the program rule by rule (`exprRule_agrees`, `stmtRule_agrees`,
`rowRule_agrees`), and so it stops nowhere (`Program.types_normal`).
-/

namespace TypedScript

/-! ## The types that are held -/

/-- The types of a function that is being looked at: the result that it would have now, and
those that it declares and gives back. -/
def Activation.types (activation : Activation) : List Ty :=
  activation.declared?.getD (.unionOf activation.returns) ::
    (activation.declared?.toList ++ activation.returns)

/-- The types that are held: of names, of functions that are being looked at and of their
receivers. -/
def Knowledge.types (k : Knowledge) : List Ty :=
  k.scopes.flatMap (fun scope => scope.entries.map (·.2.type)) ++
    (k.functions.flatMap Activation.types ++ k.receivers)

/-- A name of a normal type, and of a function that writes normal types if it is one that
waits for its result. -/
structure Binding.IsNormal (table : Table) (binding : Binding) : Prop where
  type : table.Normal binding.type
  pending : ∀ f, binding.pending? = some f → f.passes (.normal table) () = true

/-- A function that declares a normal type if any, and gives back values of such types. -/
structure Activation.IsNormal (table : Table) (activation : Activation) : Prop where
  declared : ∀ type, activation.declared? = some type → table.Normal type
  returns : ∀ type ∈ activation.returns, table.Normal type

/-- All types that are held are normal. -/
structure Knowledge.IsNormal (table : Table) (k : Knowledge) : Prop where
  scopes : ∀ scope ∈ k.scopes, ∀ entry ∈ scope.entries, entry.2.IsNormal table
  functions : ∀ activation ∈ k.functions, activation.IsNormal table
  receivers : ∀ type ∈ k.receivers, table.Normal type

section Held

variable {table : Table} {k : Knowledge}

/-- What the result of a function would be is normal. -/
theorem Table.normal_getD {declared? : Option Ty} {returns : List Ty}
    (hdeclared : ∀ type, declared? = some type → table.Normal type)
    (hreturns : ∀ type ∈ returns, table.Normal type) :
    table.Normal (declared?.getD (.unionOf returns)) := by
  cases declared? with
  | none => exact normal_unionOf hreturns
  | some type => exact hdeclared type rfl

theorem Activation.IsNormal.types {activation : Activation} (h : activation.IsNormal table) :
    ∀ type ∈ activation.types, table.Normal type :=
  List.forall_mem_cons.mpr ⟨Table.normal_getD h.declared h.returns, List.forall_mem_append.mpr
    ⟨fun type hmem => h.declared type (Option.mem_toList.mp hmem), h.returns⟩⟩

theorem Knowledge.IsNormal.types (h : k.IsNormal table) : ∀ type ∈ k.types, table.Normal type := by
  refine List.forall_mem_append.mpr ⟨fun type hmem => ?_, List.forall_mem_append.mpr
    ⟨fun type hmem => ?_, h.receivers⟩⟩
  · obtain ⟨scope, hscope, hmem⟩ := List.mem_flatMap.mp hmem
    obtain ⟨entry, hentry, rfl⟩ := List.mem_map.mp hmem
    exact (h.scopes scope hscope entry hentry).type
  · obtain ⟨activation, hactivation, hmem⟩ := List.mem_flatMap.mp hmem
    exact (h.functions activation hactivation).types type hmem

theorem Knowledge.IsNormal.lookup (h : k.IsNormal table) {name : String} {binding : Binding}
    (hlookup : k.lookup? name = some binding) : binding.IsNormal table := by
  obtain ⟨scope, hscope, hget⟩ := List.exists_of_findSome?_eq_some hlookup
  exact h.scopes scope hscope _ (Record.mem_entries_of_get? hget)

/-- A normal type may be written into a scope. -/
theorem Binding.IsNormal.set {scope : Scope}
    (h : ∀ entry ∈ scope.entries, entry.2.IsNormal table) {binding : Binding}
    (hbinding : binding.IsNormal table) (name : String) :
    ∀ entry ∈ (scope.set name binding).entries, entry.2.IsNormal table := by
  intro entry hentry
  rcases Record.mem_put hentry with heq | hentry
  · rw [heq]
    exact hbinding
  · exact h entry hentry

/-- The built-in object has a normal type. -/
theorem Knowledge.isNormal_initial (table : Table) : Knowledge.initial.IsNormal table where
  scopes scope hscope entry hentry := by
    rw [List.mem_singleton.mp hscope] at hentry
    obtain ⟨name, hentry⟩ := Record.mem_ofList hentry
    rw [(Prod.mk.inj (List.mem_singleton.mp hentry)).2]
    refine ⟨Ty.Throughout.object_iff.mpr ⟨by simp [Table.NormalPart], ?_⟩, fun _ h => nomatch h⟩
    refine List.forall_mem_singleton.mpr (Ty.Throughout.function_iff.mpr ⟨?_, ?_, ?_⟩)
    · exact ⟨Nat.zero_le _, fun _ => by simp [Native.signature]⟩
    · exact List.forall_mem_singleton.mpr Table.normal_unknown
    · exact Table.normal_primitive .void
  functions _ h := absurd h List.not_mem_nil
  receivers _ h := absurd h List.not_mem_nil

end Held

/-! ## Checks that agree -/

namespace Check

/-- Two checks that do the same where all types are normal. They still are afterwards, and
what is given is as asked for. -/
def Agrees {α : Type} (table : Table) (P : α → Prop) (x y : Check α) : Prop :=
  ∀ k, k.IsNormal table → y k = x k ∧ ∀ a k', x k = .ok a k' → k'.IsNormal table ∧ P a

namespace Agrees

variable {α β : Type} {table : Table} {P : α → Prop} {Q : β → Prop} {x y : Check α}
  {f g : α → Check β}

theorem pure {a : α} (h : P a) : Agrees table P (Pure.pure a) (Pure.pure a) := by
  intro k hk
  refine ⟨rfl, fun b k' hend => ?_⟩
  obtain ⟨rfl, rfl⟩ := pure_eq_ok.mp hend
  exact ⟨hk, h⟩

theorem throw (unfinished : Unfinished) :
    Agrees table P (MonadExcept.throw unfinished) (MonadExcept.throw unfinished) :=
  fun _ _ => ⟨rfl, fun _ _ h => nomatch h⟩

theorem bind (hx : Agrees table P x y) (hf : ∀ a, P a → Agrees table Q (f a) (g a)) :
    Agrees table Q (x >>= f) (y >>= g) := by
  intro k hk
  obtain ⟨hsame, hends⟩ := hx k hk
  constructor
  -- Both have come to the same knowledge, where all types are normal again.
  · rw [bind_run, bind_run, hsame]
    cases hxk : x k with
    | error unfinished k' => rfl
    | ok a k' =>
      obtain ⟨hk', ha⟩ := hends a k' hxk
      exact (hf a ha k' hk').1
  · intro b k'' h
    obtain ⟨a, k', hxk, hfk⟩ := bind_eq_ok.mp h
    obtain ⟨hk', ha⟩ := hends a k' hxk
    exact (hf a ha k' hk').2 b k'' hfk

theorem get {f g : Knowledge → Check α} (hf : ∀ k, k.IsNormal table → Agrees table P (f k) (g k)) :
    Agrees table P (MonadState.get >>= f) (MonadState.get >>= g) :=
  fun k hk => hf k hk k hk

theorem modify {f : Knowledge → Knowledge} (hf : ∀ k, k.IsNormal table → (f k).IsNormal table) :
    Agrees table (fun _ => True) (MonadStateOf.modifyGet fun k => ((), f k) : Check Unit)
      (MonadStateOf.modifyGet fun k => ((), f k)) := by
  intro k hk
  refine ⟨rfl, fun u k' h => ?_⟩
  cases h
  exact ⟨hf k hk, trivial⟩

theorem ask {answer : Answer α} (h : ∀ a, answer = some a → P a) :
    Agrees table P (Check.ask answer) (Check.ask answer) := by
  cases answer with
  | some a => exact .pure (h a rfl)
  | none => exact .throw .question

theorem mapM {f g : β → Check α} {l : List β} (h : ∀ b ∈ l, Agrees table P (f b) (g b)) :
    Agrees table (fun as : List α => as.length = l.length ∧ ∀ a ∈ as, P a)
      (l.mapM f) (l.mapM g) := by
  induction l with
  | nil => exact .pure ⟨rfl, fun _ h => absurd h List.not_mem_nil⟩
  | cons b rest ih =>
    rw [List.forall_mem_cons] at h
    rw [List.mapM_cons, List.mapM_cons]
    refine h.1.bind fun a ha => (ih h.2).bind fun as has => .pure ⟨?_, ?_⟩
    · rw [List.length_cons, List.length_cons, has.1]
    · exact List.forall_mem_cons.mpr ⟨ha, has.2⟩

/-! ### Changes of what is known -/

theorem reportAll (found : List Diagnostic) :
    Agrees table (fun _ => True) (Check.reportAll found) (Check.reportAll found) :=
  modify fun _ hk => ⟨hk.scopes, hk.functions, hk.receivers⟩

theorem report (cause : TypeCause) (position : Position) :
    Agrees table (fun _ => True) (Check.report cause position) (Check.report cause position) :=
  reportAll _

theorem enter (name : String) {binding : Binding} (hbinding : binding.IsNormal table) :
    Agrees table (fun _ => True) (Check.enter name binding) (Check.enter name binding) := by
  refine get fun k hk => ?_
  have hscopes := hk.scopes
  cases hopen : k.scopes with
  | nil => exact .pure trivial
  | cons scope rest =>
    rw [hopen, List.forall_mem_cons] at hscopes
    dsimp only
    split
    · exact report _ _
    · exact modify fun k' hk' => ⟨List.forall_mem_cons.mpr ⟨hbinding.set hscopes.1 name, hscopes.2⟩,
        hk'.functions, hk'.receivers⟩

theorem declare (name : String) {type : Ty} (htype : table.Normal type) (position : Position) :
    Agrees table (fun _ => True) (Check.declare name type position)
      (Check.declare name type position) :=
  enter name ⟨htype, fun _ h => nomatch h⟩

theorem declareParams (params : List Parameter) {types : List Ty}
    (htypes : ∀ type ∈ types, table.Normal type) :
    Agrees table (fun _ => True) (Check.declareParams params types)
      (Check.declareParams params types) := by
  induction params generalizing types with
  | nil => exact .pure trivial
  | cons param params ih =>
    cases types with
    | nil => exact .pure trivial
    | cons type types =>
      rw [List.forall_mem_cons] at htypes
      exact (declare _ htypes.1 _).bind fun _ _ => ih htypes.2

theorem noteReturn {type : Ty} (htype : table.Normal type) :
    Agrees table (fun _ => True) (Check.noteReturn type) (Check.noteReturn type) := by
  refine modify fun k hk => ⟨hk.scopes, ?_, hk.receivers⟩
  have hfunctions := hk.functions
  dsimp only
  split
  · exact fun _ h => absurd h List.not_mem_nil
  · next activation rest hopen =>
    rw [hopen, List.forall_mem_cons] at hfunctions
    refine List.forall_mem_cons.mpr ⟨⟨hfunctions.1.declared, ?_⟩, hfunctions.2⟩
    exact List.forall_mem_append.mpr ⟨hfunctions.1.returns, List.forall_mem_singleton.mpr htype⟩

theorem refine (name : String) {type : Ty} (htype : table.Normal type) :
    Agrees table (fun _ => True) (Check.refine name type) (Check.refine name type) := by
  refine modify fun k hk => ⟨?_, hk.functions, hk.receivers⟩
  have hscopes := hk.scopes
  dsimp only
  split
  · exact fun _ h => absurd h List.not_mem_nil
  · next scope rest hopen =>
    rw [hopen] at hscopes
    split
    · rw [List.forall_mem_cons] at hscopes
      refine List.forall_mem_cons.mpr ⟨Binding.IsNormal.set hscopes.1 ?_ name, hscopes.2⟩
      exact ⟨htype, fun _ h => nomatch h⟩
    · exact hscopes

theorem inScope (h : Agrees table P x y) :
    Agrees table P (Check.inScope x) (Check.inScope y) := by
  refine bind (modify fun k hk => ⟨List.forall_mem_cons.mpr ⟨?_, hk.scopes⟩, hk.functions,
    hk.receivers⟩) fun _ _ => h.bind fun a ha => bind (modify fun k hk => ?_) fun _ _ => .pure ha
  · exact fun _ h => absurd h List.not_mem_nil
  · exact ⟨fun scope hscope => hk.scopes scope (List.mem_of_mem_tail hscope), hk.functions,
      hk.receivers⟩

/-- A body gives the types of what it gives back. -/
theorem inFunction {x y : Check Unit} {declared? : Option Ty} {receiver : Ty}
    (hdeclared : ∀ type, declared? = some type → table.Normal type)
    (hreceiver : table.Normal receiver) (h : Agrees table (fun _ => True) x y) :
    Agrees table (fun returns => ∀ type ∈ returns, table.Normal type)
      (Check.inFunction declared? receiver x) (Check.inFunction declared? receiver y) := by
  refine bind (modify fun k hk => ⟨hk.scopes, List.forall_mem_cons.mpr ⟨⟨hdeclared, ?_⟩,
    hk.functions⟩, List.forall_mem_cons.mpr ⟨hreceiver, hk.receivers⟩⟩) fun _ _ => h.bind fun _ _ =>
      get fun k hk => bind (modify fun k' hk' => ?_) fun _ _ => .pure ?_
  · exact fun _ h => absurd h List.not_mem_nil
  · exact ⟨hk'.scopes, fun activation hmem =>
      hk'.functions activation (List.mem_of_mem_tail hmem), fun type hmem =>
        hk'.receivers type (List.mem_of_mem_tail hmem)⟩
  · have hfunctions := hk.functions
    cases hopen : k.functions with
    | nil => exact fun _ h => absurd h List.not_mem_nil
    | cons activation rest =>
      rw [hopen, List.forall_mem_cons] at hfunctions
      exact hfunctions.1.returns

theorem inferring (position : Position) (h : Agrees table P x y) :
    Agrees table P (Check.inferring position x) (Check.inferring position y) :=
  bind (modify fun _ hk => ⟨hk.scopes, hk.functions, hk.receivers⟩) fun _ _ => h.bind fun _ ha =>
    bind (modify fun _ hk => ⟨hk.scopes, hk.functions, hk.receivers⟩) fun _ _ => .pure ha

/-- What is looked at ahead of its turn sees some of the scopes, and the others come back as
they were. -/
theorem aside (name : String) (h : Agrees table P x y) :
    Agrees table P (Check.aside name x) (Check.aside name y) := by
  intro k hk
  have hopen : Knowledge.IsNormal table { k with
      scopes := k.scopes.dropWhile fun scope => !scope.has name, ahead := k.ahead + 1 } :=
    ⟨fun scope hscope => hk.scopes scope ((List.dropWhile_sublist _).subset hscope), hk.functions,
      hk.receivers⟩
  obtain ⟨hsame, hends⟩ := h _ hopen
  rw [aside_apply, aside_apply, hsame]
  refine ⟨rfl, fun a k' hend => ?_⟩
  split at hend
  · next b k₁ hx =>
    cases hend
    obtain ⟨hk₁, ha⟩ := hends _ _ hx
    refine ⟨⟨fun scope hscope => ?_, hk₁.functions, hk₁.receivers⟩, ha⟩
    rcases List.mem_append.mp hscope with hscope | hscope
    · exact hk.scopes scope ((List.takeWhile_sublist _).subset hscope)
    · exact hk₁.scopes scope hscope
  · cases hend

end Agrees

end Check

/-! ## The rules of the checker -/

/-- What a function writes and what its body writes denotes normal types. -/
theorem Function.normal_of_passes {table : Table} {f : Function}
    (h : f.passes (.normal table) () = true) :
    (∀ param ∈ f.params, ∀ type, param.type? = some type → table.Normal (table.denote type)) ∧
      (∀ type, f.result? = some type → table.Normal (table.denote type)) ∧
        rowPasses (.normal table) () f.body.statements = true := by
  rw [Function.passes_eq, Bool.and_eq_true] at h
  obtain ⟨hparams, hresult⟩ := Function.annotations_all.mp h.1
  exact ⟨fun param hparam type htype => of_decide_eq_true (hparams param hparam type htype),
    fun type htype => of_decide_eq_true (hresult type htype), h.2⟩

/-- A function that writes normal types only, and has such a type itself. -/
structure Function.IsNormal (table : Table) (f : Function) (signature : Signature) : Prop where
  passes : f.passes (.normal table) () = true
  type : table.Normal (.function signature)

namespace Checker

open Check

/-- Two checkers that agree on the parts of an expression or statement. -/
structure Agrees (go go' : Checker) : Prop where
  asks : go.AsksAlike go'
  typeOf : ∀ e : Expr, e.passes (.normal go.table) () = true →
    Check.Agrees go.table go.table.Normal (go.typeOf e) (go'.typeOf e)
  check : ∀ s : Stmt, s.passes (.normal go.table) () = true →
    Check.Agrees go.table (fun _ => True) (go.check s) (go'.check s)
  checkAll : ∀ l, rowPasses (.normal go.table) () l = true →
    Check.Agrees go.table (fun _ => True) (go.checkAll l) (go'.checkAll l)

variable {go go' : Checker}

section Questions

variable (hasks : go.AsksAlike go')
include hasks

theorem expect_agrees (found expected : Ty) (position : Position) :
    Check.Agrees go.table (fun _ => True) (go.expect found expected position)
      (go'.expect found expected position) := by
  unfold expect
  rw [hasks.fits]
  refine (Check.Agrees.ask (P := fun _ => True) fun _ _ => trivial).bind fun fits _ => ?_
  cases fits with
  | true => exact .pure trivial
  | false => exact .report _ _

theorem readType_agrees {type : TypeExpr} (h : go.table.Normal (go.table.denote type)) :
    Check.Agrees go.table go.table.Normal (go.readType type) (go'.readType type) := by
  unfold readType
  rw [hasks.problems, hasks.denote]
  refine (Check.Agrees.ask (P := fun _ => True) fun _ _ => trivial).bind fun found _ => ?_
  exact (Check.Agrees.reportAll found).bind fun _ _ => .pure h

/-- A function has a normal type as far as it is written down. -/
theorem signature_agrees {f : Function} (hf : f.passes (.normal go.table) () = true) :
    Check.Agrees go.table (fun signature => go.table.Normal (.function signature))
      (go.signature f) (go'.signature f) := by
  obtain ⟨hparams, hresult, -⟩ := Function.normal_of_passes hf
  have hparam : ∀ param ∈ f.params,
      Check.Agrees go.table go.table.Normal (go.readParam param) (go'.readParam param) := by
    intro param hmem
    unfold readParam
    split
    · next type htype => exact readType_agrees hasks (hparams param hmem type htype)
    · exact .pure Table.normal_unknown
  unfold signature
  refine (Check.Agrees.mapM hparam).bind fun types htypes => ?_
  split
  · next type htype =>
    exact (readType_agrees hasks (hresult type htype)).bind fun result hnormal =>
      .pure (Table.normal_function htypes.1 htypes.2 hnormal)
  · exact (Check.Agrees.pure Table.normal_unknown).bind fun result hnormal =>
      .pure (Table.normal_function htypes.1 htypes.2 hnormal)

theorem typeOfProperty_agrees (htable : go.table.AllNormal) {object : Ty}
    (hobject : go.table.Normal object) (property : String) (position : Position) :
    Check.Agrees go.table go.table.Normal (go.typeOfProperty object property position)
      (go'.typeOfProperty object property position) := by
  unfold typeOfProperty
  rw [hasks.property]
  refine (Check.Agrees.ask (P := fun type? : Option Ty =>
    ∀ type, type? = some type → go.table.Normal type) ?_).bind fun type? htype => ?_
  · rintro type? hanswer type rfl
    exact hobject.property? htable object hanswer
  · cases type? with
    | some type => exact .pure (htype type rfl)
    | none => exact (Check.Agrees.report _ _).bind fun _ _ => .pure Table.normal_unknown

theorem typeOfBinary_agrees (op : BinaryOp) (left right : Ty) (position : Position) :
    Check.Agrees go.table go.table.Normal (go.typeOfBinary op left right position)
      (go'.typeOfBinary op left right position) := by
  have hboth : ∀ (operand : Ty) (result : Primitive), Check.Agrees go.table go.table.Normal (do
      go.expect left operand position
      go.expect right operand position
      return .primitive result) (do
      go'.expect left operand position
      go'.expect right operand position
      return .primitive result) := fun operand result =>
    (expect_agrees hasks _ _ _).bind fun _ _ => (expect_agrees hasks _ _ _).bind fun _ _ =>
      .pure (Table.normal_primitive result)
  unfold typeOfBinary
  cases op <;> dsimp only <;>
    first
    | exact .pure (Table.normal_primitive _)
    | exact hboth _ _
    | skip
  split
  · exact .pure (Table.normal_primitive _)
  · split
    · exact .pure Table.normal_unknown
    · exact hboth _ _

theorem expectArguments_agrees (signature : Signature) (index : Nat)
    (found : List (Ty × Position)) :
    Check.Agrees go.table (fun _ => True) (go.expectArguments signature index found)
      (go'.expectArguments signature index found) := by
  induction found generalizing index with
  | nil => exact .pure trivial
  | cons first rest ih =>
    rw [expectArguments, expectArguments]
    split
    · exact (expect_agrees hasks _ _ _).bind fun _ _ => ih _
    · exact ih _

/-- The functions of a row and their types. -/
theorem hoist_agrees {statements : List Stmt}
    (h : rowPasses (.normal go.table) () statements = true) :
    Check.Agrees go.table (fun hoisted : List (Function × Signature) =>
        ∀ entry ∈ hoisted, entry.1.IsNormal go.table entry.2)
      (go.hoist statements) (go'.hoist statements) := by
  induction statements with
  | nil => exact .pure fun _ h => absurd h List.not_mem_nil
  | cons s rest ih =>
    rw [rowPasses, Bool.and_eq_true] at h
    cases s with
    | function f =>
      have hf := h.1
      rw [Stmt.passes, Bool.and_eq_true, Bool.and_eq_true] at hf
      rw [hoist, hoist]
      refine (signature_agrees hasks hf.2.2).bind fun signature hsignature => ?_
      -- A function that waits for its result is entered with its body, which is looked at later.
      have hrest : Check.Agrees go.table (fun hoisted : List (Function × Signature) =>
          ∀ entry ∈ hoisted, entry.1.IsNormal go.table entry.2)
          (do return (f, signature) :: (← go.hoist rest))
          (do return (f, signature) :: (← go'.hoist rest)) :=
        (ih h.2).bind fun others hothers =>
          .pure (List.forall_mem_cons.mpr ⟨⟨hf.2.2, hsignature⟩, hothers⟩)
      split
      · next name hname =>
        refine (Check.Agrees.enter name ⟨hsignature, fun g hg => ?_⟩).bind fun _ _ => hrest
        dsimp only at hg
        split at hg
        · cases hg
          exact hf.2.2
        · cases hg
      · exact hrest
    | _ => exact ih h.2

end Questions

/-! ### Bodies and rows -/

/-- The result of a body is normal. -/
theorem checkBody_agrees (h : Agrees go go') {f : Function} {signature : Signature}
    (hf : f.IsNormal go.table signature) {receiver : Ty}
    (hreceiver : go.table.Normal receiver) :
    Check.Agrees go.table go.table.Normal (go.checkBody f signature receiver)
      (go'.checkBody f signature receiver) := by
  obtain ⟨-, hparams, hresult⟩ := Ty.Throughout.function_iff.mp hf.type
  have hdeclared : ∀ type, (f.result?.map fun _ => signature.result) = some type →
      go.table.Normal type := by
    intro type htype
    obtain ⟨_, -, rfl⟩ := Option.map_eq_some_iff.mp htype
    exact hresult
  have hbody := h.checkAll _ (Function.normal_of_passes hf.passes).2.2
  refine Check.Agrees.bind (.inScope ?_) fun returns hreturns =>
    .pure (Table.normal_getD hdeclared hreturns)
  exact (Check.Agrees.declareParams _ hparams).bind fun _ _ => hbody.inFunction hdeclared hreceiver

theorem checkEach_agrees (h : Agrees go go') {statements : List Stmt}
    (hstatements : rowPasses (.normal go.table) () statements = true) :
    Check.Agrees go.table (fun _ => True) (go.checkEach statements)
      (go'.checkEach statements) := by
  induction statements with
  | nil => exact .pure trivial
  | cons s rest ih =>
    rw [rowPasses, Bool.and_eq_true] at hstatements
    exact (h.check s hstatements.1).bind fun _ _ => ih hstatements.2

theorem awaitsResult_agrees (table : Table) (f : Function) (name : String) :
    Check.Agrees table (fun _ => True) (awaitsResult f name) (awaitsResult f name) := by
  refine .get fun k hk => ?_
  split
  · exact .pure trivial
  · split <;> exact .pure trivial

theorem checkHoisted_agrees (h : Agrees go go') {hoisted : List (Function × Signature)}
    (hhoisted : ∀ entry ∈ hoisted, entry.1.IsNormal go.table entry.2) :
    Check.Agrees go.table (fun _ => True) (go.checkHoisted hoisted)
      (go'.checkHoisted hoisted) := by
  induction hoisted with
  | nil => exact .pure trivial
  | cons first rest ih =>
    obtain ⟨f, signature⟩ := first
    rw [List.forall_mem_cons] at hhoisted
    obtain ⟨hf, hrest⟩ := hhoisted
    rw [checkHoisted, checkHoisted]
    refine (Check.Agrees.inferring _ (checkBody_agrees h hf Table.normal_unknown)).bind
      fun result hresult => ?_
    split
    · refine (awaitsResult_agrees go.table f _).bind fun awaits _ => ?_
      split
      · exact (Check.Agrees.refine _ (hf.type.withResult hresult)).bind fun _ _ => ih hrest
      · exact ih hrest
    · exact ih hrest

/-- The rule of rows agrees if the parts do. -/
theorem rowRule_agrees (h : Agrees go go') {statements : List Stmt}
    (hstatements : rowPasses (.normal go.table) () statements = true) :
    Check.Agrees go.table (fun _ => True) (go.rowRule statements) (go'.rowRule statements) := by
  refine (hoist_agrees h.asks hstatements).bind fun hoisted hhoisted =>
    (checkEach_agrees h hstatements).bind fun _ _ => .get fun k hk => ?_
  split
  · exact checkHoisted_agrees h hhoisted
  · exact .pure trivial

theorem checkBlock_agrees (h : Agrees go go') {b : Block}
    (hb : b.passesAt (.normal go.table) () = true) :
    Check.Agrees go.table (fun _ => True) (go.checkBlock b) (go'.checkBlock b) := by
  rw [Block.passesAt_eq] at hb
  exact .inScope (h.checkAll _ hb)

/-! ### Names -/

/-- A result that is inferred ahead of its turn is normal. -/
theorem infer_agrees (h : Agrees go go') (name : String) {f : Function} {signature : Signature}
    (hf : f.IsNormal go.table signature) :
    Check.Agrees go.table (fun _ => True) (go.infer name f signature)
      (go'.infer name f signature) := by
  refine .get fun k hk => ?_
  split
  · exact .pure trivial
  · refine .aside _ (Check.Agrees.bind (.inferring _ (checkBody_agrees h hf
      Table.normal_unknown)) fun result hresult => ?_)
    exact .refine _ (hf.type.withResult hresult)

theorem typeOfName_agrees (h : Agrees go go') (name : String) (position : Position) :
    Check.Agrees go.table go.table.Normal (go.typeOfName name position)
      (go'.typeOfName name position) := by
  have hknown : Check.Agrees go.table go.table.Normal
      (do return ((← MonadState.get).lookup? name).elim .unknown (·.type))
      (do return ((← MonadState.get).lookup? name).elim .unknown (·.type)) := by
    refine .get fun k hk => .pure ?_
    cases hlookup : k.lookup? name with
    | none => exact Table.normal_unknown
    | some binding => exact (hk.lookup hlookup).type
  -- An inference changes what is known, so the name is looked up again behind it.
  refine .get fun k hk => ?_
  cases hlookup : k.lookup? name with
  | none => exact (Check.Agrees.report _ _).bind fun _ _ => .pure Table.normal_unknown
  | some binding =>
    obtain ⟨type, position, pending?⟩ := binding
    obtain ⟨htype, hpending⟩ := hk.lookup hlookup
    dsimp only at htype hpending ⊢
    split
    · next signature f heq =>
      cases heq
      exact (infer_agrees h name ⟨hpending f rfl, htype⟩).bind fun _ _ => hknown
    · exact hknown

/-! ### Expressions -/

theorem typeOfCall_agrees (h : Agrees go go') {callee : Expr}
    (hcallee : callee.passes (.normal go.table) () = true) {arguments : List Expr}
    (harguments : ∀ e ∈ arguments, e.passes (.normal go.table) () = true) (position : Position) :
    Check.Agrees go.table go.table.Normal (go.typeOfCall callee arguments position)
      (go'.typeOfCall callee arguments position) := by
  refine (h.typeOf callee hcallee).bind fun type htype => ?_
  refine (Check.Agrees.mapM (P := fun _ => True) fun e he =>
    (h.typeOf e (harguments e he)).bind fun _ _ => .pure trivial).bind fun found _ => ?_
  split
  · exact .pure Table.normal_unknown
  · split
    · exact (Check.Agrees.report _ _).bind fun _ _ => .pure Table.normal_unknown
    · next signature hcallable =>
      have hresult := (Ty.Throughout.function_iff.mp (htype.callable? hcallable)).2.2
      split
      · exact (expectArguments_agrees h.asks _ _ _).bind fun _ _ => .pure hresult
      · exact (Check.Agrees.report _ _).bind fun _ _ =>
          (expectArguments_agrees h.asks _ _ _).bind fun _ _ => .pure hresult

/-- Methods that are normal, and a normal shape that has them. -/
structure NormalFields (table : Table) (found : Shape × List Method) : Prop where
  shape : table.Normal (.object found.1)
  methods : ∀ method ∈ found.2, method.definition.IsNormal table method.signature

theorem fieldsBehind_agrees {field : Field} {rest : List Field} {shape : Shape} {type : Ty}
    {methods : List Method}
    (hrest : ∀ {shape}, go.table.Normal (.object shape) →
      Check.Agrees go.table (NormalFields go.table) (go.fieldTypes shape rest)
        (go'.fieldTypes shape rest))
    (hshape : go.table.Normal (.object shape)) (htype : go.table.Normal type)
    (hmethods : ∀ method ∈ methods, method.definition.IsNormal go.table method.signature) :
    Check.Agrees go.table (NormalFields go.table)
      (go.fieldsBehind field rest shape type methods)
      (go'.fieldsBehind field rest shape type methods) := by
  have hothers := fun {extended} (hextended : go.table.Normal (.object extended)) =>
    (hrest hextended).bind (Q := NormalFields go.table) (f := fun found =>
      Pure.pure (found.1, methods ++ found.2)) fun found hfound =>
      .pure ⟨hfound.shape, List.forall_mem_append.mpr ⟨hmethods, hfound.methods⟩⟩
  unfold fieldsBehind
  split
  · exact (Check.Agrees.report _ _).bind fun _ _ => hothers hshape
  · next hnew =>
    have hname : shape.has field.name = false := by simpa using hnew
    exact hothers (hshape.append htype hname)

/-- The properties of an object literal make up a normal type. -/
theorem fieldTypes_agrees (h : Agrees go go') {fields : List Field}
    (hfields : ∀ field ∈ fields, field.passes (.normal go.table) () = true) {shape : Shape}
    (hshape : go.table.Normal (.object shape)) :
    Check.Agrees go.table (NormalFields go.table) (go.fieldTypes shape fields)
      (go'.fieldTypes shape fields) := by
  induction fields generalizing shape with
  | nil => exact .pure ⟨hshape, fun _ h => absurd h List.not_mem_nil⟩
  | cons field rest ih =>
    rw [List.forall_mem_cons] at hfields
    obtain ⟨hfield, hrest⟩ := hfields
    rw [Field.passes_eq] at hfield
    rw [fieldTypes_cons, fieldTypes_cons]
    split
    · next f hvalue =>
      rw [hvalue, Expr.passes, Bool.and_eq_true] at hfield
      exact (signature_agrees h.asks hfield.2).bind fun signature hsignature =>
        fieldsBehind_agrees (ih hrest) hshape hsignature
          (List.forall_mem_singleton.mpr ⟨hfield.2, hsignature⟩)
    · exact (h.typeOf _ hfield).bind fun type htype =>
        fieldsBehind_agrees (ih hrest) hshape htype fun _ h => absurd h List.not_mem_nil

/-- Methods may get other types on the way, which are normal as well. -/
theorem checkMethods_agrees (h : Agrees go go') {methods : List Method} {shape : Shape}
    (hfields : NormalFields go.table (shape, methods)) :
    Check.Agrees go.table (fun final => go.table.Normal (.object final))
      (go.checkMethods shape methods) (go'.checkMethods shape methods) := by
  induction methods generalizing shape with
  | nil => exact .pure hfields.shape
  | cons method rest ih =>
    obtain ⟨hshape, hmethods⟩ := hfields
    rw [List.forall_mem_cons] at hmethods
    rw [checkMethods, checkMethods]
    refine (checkBody_agrees h hmethods.1 hshape).bind fun result hresult =>
      ih ⟨?_, hmethods.2⟩
    dsimp only
    split
    · exact hshape.update (hmethods.1.type.withResult hresult) method.name
    · exact hshape

/-- The rule of expressions agrees if the parts do, and gives a normal type. -/
theorem exprRule_agrees (htable : go.table.AllNormal) (h : Agrees go go') {e : Expr}
    (he : e.passes (.normal go.table) () = true) :
    Check.Agrees go.table go.table.Normal (go.exprRule e) (go'.exprRule e) := by
  unfold exprRule
  cases e with
  | literal value position => cases value <;> exact .pure (Table.normal_primitive _)
  | reference name position => exact typeOfName_agrees h name position
  | receiver position =>
    refine .get fun k hk => ?_
    split
    · next type rest heq => exact .pure (hk.receivers type (heq ▸ List.mem_cons_self))
    · exact (Check.Agrees.report _ _).bind fun _ _ => .pure Table.normal_unknown
  | unary op operand position =>
    rw [Expr.passes, Bool.and_eq_true] at he
    refine (h.typeOf operand he.2).bind fun _ _ => (expect_agrees h.asks _ _ _).bind fun _ _ =>
      .pure ?_
    cases op <;> exact Table.normal_primitive _
  | binary left op right position =>
    rw [Expr.passes, Bool.and_eq_true, Bool.and_eq_true] at he
    exact (h.typeOf left he.2.1).bind fun _ _ => (h.typeOf right he.2.2).bind fun _ _ =>
      typeOfBinary_agrees h.asks _ _ _ _
  | assign target op? value position =>
    rw [Expr.passes, Bool.and_eq_true, Bool.and_eq_true] at he
    refine (h.typeOf target he.2.1).bind fun expected hexpected =>
      (h.typeOf value he.2.2).bind fun given _ => ?_
    have hrest := fun found => (expect_agrees h.asks found expected value.position).bind fun _ _ =>
      .pure (a := expected) hexpected
    split
    · exact (typeOfBinary_agrees h.asks _ _ _ _).bind fun found _ => hrest found
    · exact hrest given
  | update target op isBefore position =>
    rw [Expr.passes, Bool.and_eq_true] at he
    exact (h.typeOf target he.2).bind fun _ _ => (expect_agrees h.asks _ _ _).bind fun _ _ =>
      .pure (Table.normal_primitive _)
  | call callee arguments position =>
    rw [Expr.passes, Bool.and_eq_true, Bool.and_eq_true, eachPasses_iff] at he
    exact typeOfCall_agrees h he.2.1 he.2.2 position
  | member object property position =>
    rw [Expr.passes, Bool.and_eq_true] at he
    exact (h.typeOf object he.2).bind fun type htype =>
      typeOfProperty_agrees h.asks htable htype _ _
  | object fields position =>
    rw [Expr.passes, Bool.and_eq_true, fieldsPass_iff] at he
    -- the type of a literal grows from that of an object without fields
    have hempty : go.table.Normal (.object []) := Ty.Throughout.object_iff.mpr
      ⟨List.nodup_nil, fun _ h => absurd h List.not_mem_nil⟩
    exact (fieldTypes_agrees h he.2 hempty).bind fun found hfound =>
      (checkMethods_agrees h hfound).bind fun final hfinal => .pure hfinal
  | function f =>
    rw [Expr.passes, Bool.and_eq_true] at he
    exact (signature_agrees h.asks he.2).bind fun signature hsignature =>
      (checkBody_agrees h ⟨he.2, hsignature⟩ Table.normal_unknown).bind fun result hresult =>
        .pure (hsignature.withResult hresult)

/-! ### Statements -/

theorem checkCondition_agrees (h : Agrees go go') {e : Expr}
    (he : e.passes (.normal go.table) () = true) :
    Check.Agrees go.table (fun _ => True) (go.checkCondition e) (go'.checkCondition e) :=
  (h.typeOf e he).bind fun _ _ => expect_agrees h.asks _ _ _

theorem loopRest_agrees (h : Agrees go go') {update? : Option Expr} {body : Block}
    (hupdate : optionPasses (.normal go.table) () update? = true)
    (hbody : body.passesAt (.normal go.table) () = true) :
    Check.Agrees go.table (fun _ => True) (go.loopRest update? body)
      (go'.loopRest update? body) := by
  have hblock := checkBlock_agrees h hbody
  cases update? with
  | none => exact hblock
  | some update =>
    have htyped := (h.typeOf update hupdate).bind fun _ _ =>
      .pure (P := fun _ => True) (a := ()) trivial
    exact htyped.bind fun _ _ => hblock

theorem loopRound_agrees (h : Agrees go go') {condition? update? : Option Expr} {body : Block}
    (hpasses : optionPasses (.normal go.table) () condition? = true ∧
      optionPasses (.normal go.table) () update? = true ∧
        body.passesAt (.normal go.table) () = true) :
    Check.Agrees go.table (fun _ => True) (go.loopRound condition? update? body)
      (go'.loopRound condition? update? body) := by
  obtain ⟨hcondition, hupdate, hbody⟩ := hpasses
  have hrest := loopRest_agrees h hupdate hbody
  cases condition? with
  | none => exact hrest
  | some condition => exact (checkCondition_agrees h hcondition).bind fun _ _ => hrest

theorem noteGiven_agrees (h : Agrees go go') {type : Ty} (htype : go.table.Normal type)
    (blamed position : Position) :
    Check.Agrees go.table (fun _ => True) (go.noteGiven type blamed position)
      (go'.noteGiven type blamed position) := by
  refine .get fun k hk => ?_
  split
  · exact .report _ _
  · split
    · exact (expect_agrees h.asks _ _ _).bind fun _ _ => .noteReturn htype
    · exact .noteReturn htype

theorem giveBack_agrees (h : Agrees go go') {value? : Option Expr} {position : Position}
    (hvalue : optionPasses (.normal go.table) () value? = true) :
    Check.Agrees go.table (fun _ => True) (go.stmtRule (.giveBack value? position))
      (go'.stmtRule (.giveBack value? position)) := by
  cases value? with
  | none => exact noteGiven_agrees h (Table.normal_primitive .void) _ _
  | some value =>
    exact (h.typeOf value hvalue).bind fun type htype => noteGiven_agrees h htype _ _

/-- The rule of statements agrees if the parts do. -/
theorem stmtRule_agrees (h : Agrees go go') {s : Stmt}
    (hs : s.passes (.normal go.table) () = true) :
    Check.Agrees go.table (fun _ => True) (go.stmtRule s) (go'.stmtRule s) := by
  cases s with
  | «variable» name type? value? position =>
    rw [Stmt.passes, Bool.and_eq_true, Bool.and_eq_true] at hs
    have htype : Check.Agrees go.table (fun declared? : Option Ty =>
        ∀ type, declared? = some type → go.table.Normal type)
        (type?.mapM go.readType) (type?.mapM go'.readType) := by
      cases type? with
      | none => exact .pure fun _ h => nomatch h
      | some type =>
        -- the annotation is one of those that the survey has looked at
        have hnormal : go.table.Normal (go.table.denote type) :=
          of_decide_eq_true (List.all_eq_true.mp hs.1 type List.mem_cons_self)
        exact (readType_agrees h.asks hnormal).bind fun declared hdeclared =>
          .pure fun _ heq => Option.some.inj heq ▸ hdeclared
    have hvalue : Check.Agrees go.table (fun found? : Option Ty =>
        ∀ type, found? = some type → go.table.Normal type)
        (value?.mapM go.typeOf) (value?.mapM go'.typeOf) := by
      cases value? with
      | none => exact .pure fun _ h => nomatch h
      | some value =>
        exact (h.typeOf value hs.2.2).bind fun found hfound =>
          .pure fun _ heq => Option.some.inj heq ▸ hfound
    refine htype.bind fun declared? hdeclared => hvalue.bind fun found? hfound => ?_
    -- whichever of the two types is declared, it is normal, and so is what stands for none
    have hnormal : go.table.Normal ((declared? <|> found?).getD .unknown) := by
      cases declared? with
      | some type => exact hdeclared type rfl
      | none =>
        cases found? with
        | some type => exact hfound type rfl
        | none => exact Table.normal_unknown
    split
    · exact (expect_agrees h.asks _ _ _).bind fun _ _ => .declare name hnormal position
    · exact .declare name hnormal position
  | function f => exact .pure trivial
  | interface declaration => exact .pure trivial
  | expression e position =>
    rw [Stmt.passes, Bool.and_eq_true] at hs
    exact (h.typeOf e hs.2).bind fun _ _ => .pure trivial
  | giveBack value? position =>
    rw [Stmt.passes, Bool.and_eq_true] at hs
    exact giveBack_agrees h hs.2
  | branch condition body otherwise? position =>
    cases otherwise? with
    | none =>
      rw [Stmt.passes, Bool.and_eq_true, Bool.and_eq_true] at hs
      exact (checkCondition_agrees h hs.2.1).bind fun _ _ =>
        (checkBlock_agrees h hs.2.2).bind fun _ _ => .pure trivial
    | some otherwise =>
      rw [Stmt.passes, Bool.and_eq_true, Bool.and_eq_true, Bool.and_eq_true] at hs
      exact (checkCondition_agrees h hs.2.1).bind fun _ _ =>
        (checkBlock_agrees h hs.2.2.1).bind fun _ _ => h.check otherwise hs.2.2.2
  | block b =>
    rw [Stmt.passes, Bool.and_eq_true] at hs
    exact checkBlock_agrees h hs.2
  | loop init? condition? update? body position =>
    cases init? with
    | none =>
      rw [Stmt.passes, Bool.and_eq_true, Bool.and_eq_true, Bool.and_eq_true] at hs
      exact .inScope (loopRound_agrees h hs.2)
    | some init =>
      rw [Stmt.passes, Bool.and_eq_true, Bool.and_eq_true, Bool.and_eq_true,
        Bool.and_eq_true] at hs
      exact .inScope ((h.check init hs.2.1).bind fun _ _ => loopRound_agrees h hs.2.2)
  | repeatWhile condition body position =>
    rw [Stmt.passes, Bool.and_eq_true, Bool.and_eq_true] at hs
    exact (checkCondition_agrees h hs.2.1).bind fun _ _ => checkBlock_agrees h hs.2.2

end Checker

/-! ## Checks under watch -/

/-- Goes on only if all of some types are normal. -/
def Check.vet (refusal : Unfinished) (table : Table) (types : List Ty) : Check Unit :=
  if types.all fun type => decide (table.Normal type) then pure () else throw refusal

/-- A check that goes on only if all types are normal that are held before it and after it,
and the types that it gives. -/
def Check.vetted {α : Type} (refusal : Unfinished) (table : Table) (given : α → List Ty)
    (x : Check α) : Check α := do
  vet refusal table (← get).types
  let a ← x
  vet refusal table (given a ++ (← get).types)
  return a

section Watch

variable (refusal : Unfinished) (table : Table) (effort : Nat)

mutual

/-- The type of an expression, under watch. -/
def Expr.typeOfVetted : (fuel : Nat) → Expr → Check Ty
  | 0, _ => throw .descent
  | fuel + 1, e =>
    Check.vetted refusal table (fun type => [type]) <| Checker.exprRule
      ⟨table, effort, Expr.typeOfVetted fuel, Stmt.checkVetted fuel, Block.checkAllVetted fuel⟩ e

/-- The check of a statement, under watch. -/
def Stmt.checkVetted : (fuel : Nat) → Stmt → Check Unit
  | 0, _ => throw .descent
  | fuel + 1, s =>
    Check.vetted refusal table (fun _ => []) <| Checker.stmtRule
      ⟨table, effort, Expr.typeOfVetted fuel, Stmt.checkVetted fuel, Block.checkAllVetted fuel⟩ s

/-- The check of statements in a row, under watch. -/
def Block.checkAllVetted : (fuel : Nat) → List Stmt → Check Unit
  | 0, _ => throw .descent
  | fuel + 1, statements =>
    Check.vetted refusal table (fun _ => []) <| Checker.rowRule
      ⟨table, effort, Expr.typeOfVetted fuel, Stmt.checkVetted fuel, Block.checkAllVetted fuel⟩
      statements

end

/-- The checker under watch, with a given amount of fuel. -/
def checkerVetted (fuel : Nat) : Checker :=
  ⟨table, effort, Expr.typeOfVetted refusal table effort fuel,
    Stmt.checkVetted refusal table effort fuel, Block.checkAllVetted refusal table effort fuel⟩

end Watch

/-- At any moment of a check of a program the types are normal that are given and held: if
the check stopped wherever one is not, for whichever reason, it would do the same. -/
def Program.HandlesNormal (effort fuel : Nat) (program : Program) : Prop :=
  ∀ refusal, program.checkBy effort
    (Block.checkAllVetted refusal program.table effort fuel program.statements) =
      program.check effort fuel

section Vetting

variable {table : Table}

theorem Check.vet_of_normal {types : List Ty} (h : ∀ type ∈ types, table.Normal type)
    (refusal : Unfinished) : vet refusal table types = pure () :=
  if_pos (List.all_eq_true.mpr fun type htype => decide_eq_true (h type htype))

/-- To ask for normal types changes nothing where they are normal. -/
theorem Check.Agrees.vetted {α : Type} {P : α → Prop} {x y : Check α} {given : α → List Ty}
    (h : Agrees table P x y) (hgiven : ∀ a, P a → ∀ type ∈ given a, table.Normal type)
    (refusal : Unfinished) : Agrees table P x (Check.vetted refusal table given y) := by
  intro k hk
  obtain ⟨hsame, hends⟩ := h k hk
  refine ⟨?_, hends⟩
  unfold Check.vetted
  rw [get_bind, vet_of_normal hk.types, pure_bind]
  rw [bind_run, hsame]
  cases hend : x k with
  | error unfinished k' => rfl
  | ok a k' =>
    obtain ⟨hk', ha⟩ := hends a k' hend
    dsimp only
    rw [get_bind, vet_of_normal (List.forall_mem_append.mpr ⟨hgiven a ha, hk'.types⟩), pure_bind]
    rfl

/-- A check and the same check under watch agree, if the shapes of the interfaces are
normal. -/
theorem checker_agrees (htable : table.AllNormal) (refusal : Unfinished) (effort fuel : Nat) :
    Checker.Agrees (checker table effort fuel) (checkerVetted refusal table effort fuel) := by
  have hnone : ∀ a : Unit, True → ∀ type ∈ ([] : List Ty), table.Normal type :=
    fun _ _ _ h => absurd h List.not_mem_nil
  -- A rule is applied to parts with less fuel, and those agree by induction.
  induction fuel with
  | zero =>
    exact ⟨⟨rfl, rfl, rfl, rfl⟩, fun _ _ => .throw .descent, fun _ _ => .throw .descent,
      fun _ _ => .throw .descent⟩
  | succ fuel ih =>
    exact {
      asks := ⟨rfl, rfl, rfl, rfl⟩
      typeOf := fun e he => (Checker.exprRule_agrees htable ih he).vetted
        (fun type htype => List.forall_mem_singleton.mpr htype) refusal
      check := fun s hs => (Checker.stmtRule_agrees ih hs).vetted hnone refusal
      checkAll := fun l hl => (Checker.rowRule_agrees ih hl).vetted hnone refusal }

end Vetting

namespace Program

variable {source : String} {program : Program}

theorem handlesNormal (h : rowPasses .built () program.statements = true) (effort fuel : Nat) :
    program.HandlesNormal effort fuel := by
  intro refusal
  have hagrees := checker_agrees (allNormal_table h) refusal effort fuel
  have hwhole := (hagrees.checkAll _ (passes_normal h)).inScope
  have hsame := (hwhole _ (Knowledge.isNormal_initial program.table)).1
  rw [check_eq]
  unfold checkBy
  cases program.interfaceProblems? effort with
  | none => rfl
  | some problems =>
    dsimp only
    rw [show Check.inScope (Block.checkAllVetted refusal program.table effort fuel
      program.statements) .initial = _ from hsame]
    rfl

/-- Every type that the checker handles is normal and closed. In a program that was read from
a source, the shapes of the interfaces are normal, every written type denotes a normal type,
and at any moment of the check all types are normal that are held for names and for functions
being looked at, that such functions have for a result, and that are found for expressions.
A name among them is that of an interface, and never stands for what is unknown. -/
theorem types_normal (h : ofSource? source = .ok program) :
    program.table.AllNormal ∧
    rowPasses (.normal program.table) () program.statements = true ∧
    (∀ effort fuel, program.HandlesNormal effort fuel) ∧
    ∀ name, program.table.Normal (.named name) →
      ∃ shape, program.table.expand name = .object shape ∧
        program.table.Normal (.object shape) :=
  have hbuilt := passes_built h
  ⟨allNormal_table hbuilt, passes_normal hbuilt, handlesNormal hbuilt,
    fun _ => Table.Normal.interface (allNormal_table hbuilt)⟩

/-- A program whose types are merged, inferred and refined: an intersection with a property
that both members have, a function that gives back values of two types and is used before
its declaration, and an object literal with the method that uses it. -/
theorem types_normal_of_merged : ∃ program,
    ofSource? "interface A \x7b x: number | void \x7d interface B \x7b x: number \x7d
      let a: A & B = \x7b x: 1 \x7d; let o = \x7b m: function () \x7b return f(); \x7d \x7d;
      function f() \x7b return a.x; return a; \x7d" = .ok program ∧
    program.check 20 20 = .ok [] ∧
    program.table.AllNormal ∧
    rowPasses (.normal program.table) () program.statements = true ∧
    (∀ effort fuel, program.HandlesNormal effort fuel) ∧
    ∀ name, program.table.Normal (.named name) →
      ∃ shape, program.table.expand name = .object shape ∧
        program.table.Normal (.object shape) := by
  have hread : (ofSource? "interface A \x7b x: number | void \x7d interface B \x7b x: number \x7d
      let a: A & B = \x7b x: 1 \x7d; let o = \x7b m: function () \x7b return f(); \x7d \x7d;
      function f() \x7b return a.x; return a; \x7d").toOption.any
      (fun program => (program.check 20 20).toOption.any (·.isEmpty)) = true := by
    decide +kernel
  obtain ⟨program, hsource, h⟩ := exists_ofSource hread
  exact ⟨program, hsource, check_of_isEmpty h, types_normal hsource⟩

end Program

end TypedScript
