import TypedScript.Proofs.RuleParts
import TypedScript.Proofs.Sequencing

/-!
# What a check does to what is known

A check changes what is known in few ways: it enters names, adds diagnostics,
notes what is given back, gives a function its inferred type, and looks at
scopes, bodies of functions and names for the time of an action. A `Discipline`
is a pair of relations that all of these respect, one for expressions and one
for statements. Then checking any expression or statement respects them, with
any fuel (`checker_keeps`).

The first use is `grows_discipline`: diagnostics are only ever added.
-/

namespace TypedScript

namespace Check

variable {α β : Type} {R : Knowledge → Knowledge → Prop}

/-! ## How actions end -/

theorem pure_eq_ok {a b : α} {k k' : Knowledge} :
    (pure a : Check α) k = .ok b k' ↔ b = a ∧ k' = k := by
  show EStateM.Result.ok a k = .ok b k' ↔ _
  rw [EStateM.Result.ok.injEq, eq_comm, @eq_comm _ k]

theorem get_eq_ok {k k' k₀ : Knowledge} :
    (get : Check Knowledge) k = .ok k₀ k' ↔ k₀ = k ∧ k' = k := by
  show EStateM.Result.ok k k = .ok k₀ k' ↔ _
  rw [EStateM.Result.ok.injEq, @eq_comm _ k, @eq_comm _ k]

theorem get_bind {f : Knowledge → Check α} {k : Knowledge} : (get >>= f) k = f k k := rfl

theorem modify_eq_ok {f : Knowledge → Knowledge} {k k' : Knowledge} {u : Unit} :
    (modify f : Check Unit) k = .ok u k' ↔ k' = f k := by
  show EStateM.Result.ok () (f k) = .ok u k' ↔ _
  rw [EStateM.Result.ok.injEq, @eq_comm _ _ k']
  exact ⟨fun h => h.2, fun h => ⟨rfl, h⟩⟩

theorem ask_eq_ok {answer : Answer α} {k k' : Knowledge} {a : α} :
    ask answer k = .ok a k' ↔ answer = some a ∧ k' = k := by
  cases answer with
  | none =>
    constructor
    · exact fun h => nomatch h
    · exact fun h => nomatch h.1
  | some b =>
    rw [show ask (some b) = (pure b : Check α) from rfl, pure_eq_ok, Option.some.injEq, eq_comm]

theorem exists_of_run' {x : Check α} {k : Knowledge} {a : α} (h : x.run' k = some a) :
    ∃ k', x k = .ok a k' := by
  unfold EStateM.run' EStateM.run at h
  cases hx : x k with
  | error unfinished k' =>
    rw [hx] at h
    cases h
  | ok b k' =>
    rw [hx] at h
    cases h
    exact ⟨k', rfl⟩

theorem enter_eq_ok {name : String} {binding : Binding} {k k' : Knowledge} {u : Unit} :
    enter name binding k = .ok u k' ↔ k' =
      match k.scopes with
      | [] => k
      | scope :: rest =>
        if scope.has name then
          { k with
            diagnostics := k.diagnostics ++ [⟨.duplicateDeclaration name, binding.position⟩] }
        else { k with scopes := scope.set name binding :: rest } := by
  have hget : enter name binding k =
      (match k.scopes with
        | [] => (pure () : Check Unit)
        | scope :: rest =>
          if scope.has name then report (.duplicateDeclaration name) binding.position
          else modify fun k : Knowledge =>
            { k with scopes := scope.set name binding :: rest }) k := rfl
  rw [hget]
  obtain ⟨scopes, functions, receivers, inferring, ahead, diagnostics⟩ := k
  cases scopes with
  | nil => exact ⟨fun h => (pure_eq_ok.mp h).2, fun h => pure_eq_ok.mpr ⟨rfl, h⟩⟩
  | cons scope rest =>
    dsimp only
    split <;> exact modify_eq_ok

theorem inScope_eq_ok {x : Check α} {k k' : Knowledge} {a : α} :
    inScope x k = .ok a k' ↔ ∃ k₁, x { k with scopes := .empty :: k.scopes } = .ok a k₁ ∧
      k' = { k₁ with scopes := k₁.scopes.tail } := by
  simp only [inScope, bind_eq_ok, modify_eq_ok, pure_eq_ok]
  constructor
  · intro h
    obtain ⟨_, _, rfl, _, k₁, hx, _, _, rfl, rfl, rfl⟩ := h
    exact ⟨k₁, hx, rfl⟩
  · intro h
    obtain ⟨k₁, hx, rfl⟩ := h
    exact ⟨(), _, rfl, a, k₁, hx, (), _, rfl, rfl, rfl⟩

theorem inFunction_eq_ok {declared? : Option Ty} {receiver : Ty} {x : Check Unit}
    {k k' : Knowledge} {returns : List Ty} :
    inFunction declared? receiver x k = .ok returns k' ↔ ∃ k₁,
      x { k with
        functions := ⟨declared?, []⟩ :: k.functions
        receivers := receiver :: k.receivers } = .ok () k₁ ∧
      (returns = match k₁.functions with
        | [] => []
        | activation :: _ => activation.returns) ∧
      k' = { k₁ with functions := k₁.functions.tail, receivers := k₁.receivers.tail } := by
  simp only [inFunction, bind_eq_ok, modify_eq_ok, pure_eq_ok, get_eq_ok]
  constructor
  · intro h
    obtain ⟨_, _, rfl, _, k₁, hx, _, _, ⟨hk, hk'⟩, _, _, rfl, rfl, rfl⟩ := h
    subst hk hk'
    exact ⟨_, hx, rfl, rfl⟩
  · intro h
    obtain ⟨k₁, hx, rfl, rfl⟩ := h
    exact ⟨(), _, rfl, (), k₁, hx, k₁, k₁, ⟨rfl, rfl⟩, (), _, rfl, rfl, rfl⟩

theorem inferring_eq_ok {position : Position} {x : Check α} {k k' : Knowledge} {a : α} :
    Check.inferring position x k = .ok a k' ↔ ∃ k₁,
      x { k with inferring := position :: k.inferring } = .ok a k₁ ∧
      k' = { k₁ with inferring := k₁.inferring.tail } := by
  simp only [Check.inferring, bind_eq_ok, modify_eq_ok, pure_eq_ok]
  constructor
  · intro h
    obtain ⟨_, _, rfl, _, k₁, hx, _, _, rfl, rfl, rfl⟩ := h
    exact ⟨k₁, hx, rfl⟩
  · intro h
    obtain ⟨k₁, hx, rfl⟩ := h
    exact ⟨(), _, rfl, a, k₁, hx, (), _, rfl, rfl, rfl⟩

theorem aside_eq_ok {name : String} {x : Check α} {k k' : Knowledge} {a : α} :
    aside name x k = .ok a k' ↔ ∃ k₁,
      x { k with
        scopes := (k.scopes.span fun scope => !scope.has name).2
        ahead := k.ahead + 1 } = .ok a k₁ ∧
      k' = { k₁ with
        scopes := (k.scopes.span fun scope => !scope.has name).1 ++ k₁.scopes
        ahead := k₁.ahead - 1
        diagnostics := k.diagnostics } := by
  simp only [aside, bind_eq_ok, get_eq_ok]
  constructor
  · intro hboth
    obtain ⟨_, _, ⟨rfl, rfl⟩, _, _, hset, _, k₁, hx, _, _, hmodify, h⟩ := hboth
    cases hset
    cases hmodify
    obtain ⟨rfl, rfl⟩ := pure_eq_ok.mp h
    exact ⟨k₁, hx, rfl⟩
  · intro h
    obtain ⟨k₁, hx, rfl⟩ := h
    exact ⟨k, k, ⟨rfl, rfl⟩, (), _, rfl, a, k₁, hx, (), _, rfl, rfl⟩

/-! ## Relations that are respected -/

/-- An action that, if it ends, takes what is known to something related. -/
def Keeps (R : Knowledge → Knowledge → Prop) (x : Check α) : Prop :=
  ∀ k a k', x k = .ok a k' → R k k'

theorem Keeps.bind (htrans : ∀ a b c, R a b → R b c → R a c) {x : Check α} {f : α → Check β}
    (hx : Keeps R x) (hf : ∀ a, Keeps R (f a)) : Keeps R (x >>= f) := by
  intro k b k'' h
  obtain ⟨a, k', hxk, hfk⟩ := bind_eq_ok.mp h
  exact htrans _ _ _ (hx k a k' hxk) (hf a k' b k'' hfk)

theorem Keeps.mono {S : Knowledge → Knowledge → Prop} (hRS : ∀ a b, R a b → S a b)
    {x : Check α} (hx : Keeps R x) : Keeps S x :=
  fun k a k' h => hRS _ _ (hx k a k' h)

theorem Keeps.bind_ask {answer : Answer α} {f : α → Check β}
    (hf : ∀ a, answer = some a → Keeps R (f a)) : Keeps R (ask answer >>= f) := by
  cases answer with
  | some a => exact hf a rfl
  | none => intro k b k' h; cases h

/-- Relations that checking respects: `E` by an expression, `S` by a statement. Of the result
that is inferred for a function something may be known, and of the diagnostics that are told. -/
structure Discipline (E S : Knowledge → Knowledge → Prop)
    (Found : Function → Signature → Ty → Prop := fun _ _ _ => True)
    (Told : Diagnostic → Prop := fun _ => True) : Prop where
  refl : ∀ k, E k k
  trans : ∀ a b c, E a b → E b c → E a c
  trans' : ∀ a b c, S a b → S b c → S a c
  le : ∀ a b, E a b → S a b
  reportAll : ∀ found, (∀ d ∈ found, Told d) → Keeps E (reportAll found)
  refine : ∀ name type, Keeps S (refine name type)
  enter : ∀ name binding, Keeps S (enter name binding)
  noteReturn : ∀ type, Keeps S (noteReturn type)
  inScope : ∀ {x : Check Unit}, Keeps S x → Keeps S (inScope x)
  inBody : ∀ {x : Check Unit} params types declared? receiver, Keeps S x →
    Keeps E (Check.inScope do
      declareParams params types
      inFunction declared? receiver x)
  inferring : ∀ {α : Type} {x : Check α} position, Keeps E x → Keeps E (inferring position x)
  /-- A name that stands for a function whose result is missing gets it ahead of its turn. -/
  infer : ∀ {k : Knowledge} {name : String} {binding : Binding} {signature : Signature}
    {f : Function} {x : Check Ty}, k.lookup? name = some binding →
    binding.type = .function signature → binding.pending? = some f → Keeps E x →
    (∀ k result k', x k = .ok result k' → Found f signature result) → ∀ {u k'},
    aside name (do
      let result ← x
      Check.refine name (.function { signature with result })) k = .ok u k' → E k k'

namespace Discipline

variable {E S : Knowledge → Knowledge → Prop} {Found : Function → Signature → Ty → Prop}
  {Told : Diagnostic → Prop} (d : Discipline E S Found Told)
include d

theorem pure (a : α) : Keeps E (Pure.pure a : Check α) := by
  intro k b k' h
  rw [(pure_eq_ok.mp h).2]
  exact d.refl k

theorem bind {x : Check α} {f : α → Check β} (hx : Keeps E x) (hf : ∀ a, Keeps E (f a)) :
    Keeps E (x >>= f) :=
  Keeps.bind d.trans hx hf

theorem bind' {x : Check α} {f : α → Check β} (hx : Keeps S x) (hf : ∀ a, Keeps S (f a)) :
    Keeps S (x >>= f) :=
  Keeps.bind d.trans' hx hf

theorem lift {x : Check α} (hx : Keeps E x) : Keeps S x :=
  hx.mono d.le

theorem get : Keeps E (MonadState.get : Check Knowledge) := by
  intro k a k' h
  cases h
  exact d.refl k

theorem ask (answer : Answer α) : Keeps E (Check.ask answer) := by
  cases answer with
  | some a => exact d.pure a
  | none => intro k a k' h; cases h

theorem reportOne {cause : TypeCause} {position : Position} (htold : Told ⟨cause, position⟩) :
    Keeps E (Check.report cause position) :=
  d.reportAll _ (List.forall_mem_singleton.mpr htold)

omit d in
theorem report (d : Discipline E S Found) (cause : TypeCause) (position : Position) :
    Keeps E (Check.report cause position) :=
  d.reportOne trivial

theorem mapM {f : α → Check β} (hf : ∀ a, Keeps E (f a)) (l : List α) : Keeps E (l.mapM f) := by
  induction l with
  | nil => rw [List.mapM_nil]; exact d.pure _
  | cons a l ih =>
    rw [List.mapM_cons]
    exact d.bind (hf a) fun _ => d.bind ih fun _ => d.pure _

end Discipline

end Check

namespace Checker

open Check

/-- What holds of all that is told: of what questions about types give rise to, and of anything
that is not about one type where another is expected. -/
class Tells (table : Table) (effort : Nat) (Told : Diagnostic → Prop) : Prop where
  mismatch : ∀ {found expected position}, table.fits? effort found expected = some false →
    Told ⟨.mismatch expected found, position⟩
  problems : ∀ {type found}, table.problems? effort type = some found → ∀ d ∈ found, Told d
  other : ∀ {cause position}, (∀ expected found, cause ≠ .mismatch expected found) →
    Told ⟨cause, position⟩

instance (table : Table) (effort : Nat) : Tells table effort fun _ => True :=
  ⟨fun _ => trivial, fun _ _ _ => trivial, fun _ => trivial⟩

/-- A checker whose parts respect a discipline. -/
structure Keeps (go : Checker) (E S : Knowledge → Knowledge → Prop)
    (Found : Function → Signature → Ty → Prop := fun _ _ _ => True) : Prop where
  typeOf : ∀ e, Check.Keeps E (go.typeOf e)
  check : ∀ s, Check.Keeps S (go.check s)
  checkAll : ∀ l, Check.Keeps S (go.checkAll l)
  found : ∀ f signature k result k',
    go.checkBody f signature .unknown k = .ok result k' → Found f signature result := by
      exact fun _ _ _ _ _ _ => trivial

/-- What a row of properties does behind one that has a type: the name is a new one and the
shape grows, or the name is reported; and then the others follow. -/
theorem exists_of_fieldsBehind {go : Checker} {field : Field} {rest : List Field} {shape : Shape}
    {type : Ty} {methods : List Method} {k k' : Knowledge} {found : Shape × List Method}
    (h : go.fieldsBehind field rest shape type methods k = .ok found k') :
    ∃ extended k₁ others, go.fieldTypes extended rest k₁ = .ok others k' ∧
      found = (others.1, methods ++ others.2) ∧
      (shape.has field.name = false ∧ extended = shape ++ [⟨field.name, type, false⟩] ∧ k₁ = k ∨
        ∃ u, Check.report (.duplicateDeclaration field.name) field.position k = .ok u k₁) := by
  have hothers : ∀ extended k₁, (go.fieldTypes extended rest >>= fun others =>
        Pure.pure (others.1, methods ++ others.2)) k₁ = .ok found k' →
      ∃ others, go.fieldTypes extended rest k₁ = .ok others k' ∧
        found = (others.1, methods ++ others.2) := by
    intro extended k₁ h
    obtain ⟨others, k₂, hrest, hend⟩ := bind_eq_ok.mp h
    obtain ⟨rfl, rfl⟩ := pure_eq_ok.mp hend
    exact ⟨others, hrest, rfl⟩
  unfold fieldsBehind at h
  split at h
  · obtain ⟨u, k₁, hreport, h⟩ := bind_eq_ok.mp h
    obtain ⟨others, hrest, hfound⟩ := hothers _ _ h
    exact ⟨shape, k₁, others, hrest, hfound, .inr ⟨u, hreport⟩⟩
  · next hnew =>
    obtain ⟨others, hrest, hfound⟩ := hothers _ _ h
    exact ⟨_, k, others, hrest, hfound, .inl ⟨by simpa using hnew, rfl, rfl⟩⟩

section Rules

variable {go : Checker} {E S : Knowledge → Knowledge → Prop}
  {Found : Function → Signature → Ty → Prop} {Told : Diagnostic → Prop}
  (d : Discipline E S Found Told)
include d

variable [tells : Tells go.table go.effort Told]

theorem expect_keeps (found expected : Ty) (position : Position) :
    Check.Keeps E (go.expect found expected position) := by
  refine .bind_ask fun fits hfits => ?_
  cases fits with
  | true => exact d.pure _
  | false => exact d.reportOne (tells.mismatch hfits)

theorem readType_keeps (type : TypeExpr) : Check.Keeps E (go.readType type) :=
  .bind_ask fun _ hfound => d.bind (d.reportAll _ (tells.problems hfound)) fun _ => d.pure _

theorem readParam_keeps (param : Parameter) : Check.Keeps E (go.readParam param) := by
  unfold readParam
  split
  · exact readType_keeps d _
  · exact d.pure _

theorem signature_keeps (f : Function) : Check.Keeps E (go.signature f) := by
  refine d.bind (d.mapM (readParam_keeps d) _) fun _ => ?_
  split
  · exact d.bind (readType_keeps d _) fun _ => d.pure _
  · exact d.bind (d.pure _) fun _ => d.pure _

theorem expectArguments_keeps (signature : Signature) (index : Nat)
    (found : List (Ty × Position)) :
    Check.Keeps E (go.expectArguments signature index found) := by
  induction found generalizing index with
  | nil => exact d.pure _
  | cons first rest ih =>
    rw [expectArguments]
    split
    · exact d.bind (expect_keeps d _ _ _) fun _ => ih _
    · exact ih _

theorem typeOfProperty_keeps (object : Ty) (property : String) (position : Position) :
    Check.Keeps E (go.typeOfProperty object property position) := by
  refine d.bind (d.ask _) fun type? => ?_
  cases type? with
  | some type => exact d.pure _
  | none => exact d.bind (d.reportOne (tells.other nofun)) fun _ => d.pure _

theorem typeOfBinary_keeps (op : BinaryOp) (left right : Ty) (position : Position) :
    Check.Keeps E (go.typeOfBinary op left right position) := by
  have hboth : ∀ operand result : Ty, Check.Keeps E (do
      go.expect left operand position
      go.expect right operand position
      return result) := fun operand result =>
    d.bind (expect_keeps d _ _ _) fun _ => d.bind (expect_keeps d _ _ _) fun _ => d.pure _
  unfold typeOfBinary
  cases op <;> dsimp only <;>
    first
    | exact d.pure _
    | exact hboth _ _
    | skip
  split
  · exact d.pure _
  · split
    · exact d.pure _
    · exact hboth _ _

theorem hoist_keeps (statements : List Stmt) : Check.Keeps S (go.hoist statements) := by
  induction statements with
  | nil => exact d.lift (d.pure _)
  | cons s rest ih =>
    cases s with
    | function f =>
      rw [hoist]
      refine d.bind' (d.lift (signature_keeps d f)) fun signature => ?_
      split
      · exact d.bind' (d.enter _ _) fun _ => d.bind' ih fun _ => d.lift (d.pure _)
      · exact d.bind' ih fun _ => d.lift (d.pure _)
    | _ => exact ih

theorem awaitsResult_keeps (f : Function) (name : String) :
    Check.Keeps E (awaitsResult f name) := by
  refine d.bind d.get fun k => ?_
  split
  · exact d.pure _
  · split <;> exact d.pure _

theorem resultOfCall_keeps (type : Ty) (found : List (Ty × Position)) (count : Nat)
    (position : Position) : Check.Keeps E (go.resultOfCall type found count position) := by
  unfold resultOfCall
  split
  · exact d.pure _
  · split
    · exact d.bind (d.reportOne (tells.other nofun)) fun _ => d.pure _
    · split
      · exact d.bind (expectArguments_keeps d _ _ _) fun _ => d.pure _
      · exact d.bind (d.reportOne (tells.other nofun)) fun _ =>
          d.bind (expectArguments_keeps d _ _ _) fun _ => d.pure _

theorem resultOfAssign_keeps (expected given : Ty) (op? : Option BinaryOp) (value : Expr)
    (position : Position) :
    Check.Keeps E (go.resultOfAssign expected given op? value position) := by
  have hfits : ∀ found, Check.Keeps E (do
      go.expect found expected value.position
      return expected) := fun found => d.bind (expect_keeps d _ _ _) fun _ => d.pure _
  unfold resultOfAssign
  split
  · exact d.bind (typeOfBinary_keeps d _ _ _ _) hfits
  · exact d.bind (d.pure _) hfits

theorem fieldsBehind_keeps {rest : List Field}
    (hrest : ∀ shape, Check.Keeps E (go.fieldTypes shape rest)) (field : Field) (shape : Shape)
    (type : Ty) (methods : List Method) :
    Check.Keeps E (go.fieldsBehind field rest shape type methods) := by
  have hothers := fun extended => d.bind (hrest extended) fun found =>
    d.pure (found.1, methods ++ found.2)
  unfold fieldsBehind
  split
  · exact d.bind (d.reportOne (tells.other nofun)) fun _ => d.bind (d.pure _) hothers
  · exact d.bind (d.pure _) hothers

theorem noteGiven_keeps (type : Ty) (blamed position : Position) :
    Check.Keeps S (go.noteGiven type blamed position) := by
  refine d.bind' (d.lift d.get) fun k => ?_
  split
  · exact d.lift (d.reportOne (tells.other nofun))
  · split
    · exact d.bind' (d.lift (expect_keeps d _ _ _)) fun _ => d.noteReturn _
    · exact d.noteReturn _

variable (hgo : go.Keeps E S Found)
include hgo

omit tells in
theorem checkBody_keeps (f : Function) (signature : Signature) (receiver : Ty) :
    Check.Keeps E (go.checkBody f signature receiver) :=
  d.bind (d.inBody _ _ _ _ (hgo.checkAll _)) fun _ => d.pure _

omit tells in
theorem checkEach_keeps (statements : List Stmt) : Check.Keeps S (go.checkEach statements) := by
  induction statements with
  | nil => exact d.lift (d.pure _)
  | cons s rest ih => exact d.bind' (hgo.check s) fun _ => ih

omit tells in
theorem checkHoisted_keeps (hoisted : List (Function × Signature)) :
    Check.Keeps S (go.checkHoisted hoisted) := by
  induction hoisted with
  | nil => exact d.lift (d.pure _)
  | cons first rest ih =>
    obtain ⟨f, signature⟩ := first
    rw [checkHoisted]
    refine d.bind' (d.lift (d.inferring _ (checkBody_keeps d hgo f signature _))) fun result => ?_
    split
    · refine d.bind' (d.lift (awaitsResult_keeps d f _)) fun awaits => ?_
      split
      · exact d.bind' (d.refine _ _) fun _ => ih
      · exact ih
    · exact ih

theorem rowRule_keeps (statements : List Stmt) : Check.Keeps S (go.rowRule statements) := by
  refine d.bind' (hoist_keeps d statements) fun hoisted => ?_
  refine d.bind' (checkEach_keeps d hgo statements) fun _ => d.bind' (d.lift d.get) fun k => ?_
  split
  · exact checkHoisted_keeps d hgo hoisted
  · exact d.lift (d.pure _)

omit tells in
theorem checkBlock_keeps (b : Block) : Check.Keeps S (go.checkBlock b) :=
  d.inScope (hgo.checkAll _)

omit tells in
/-- The result of a function is inferred where its name stands for it. -/
theorem infer_keeps {k k' : Knowledge} {name : String} {binding : Binding}
    {signature : Signature} {f : Function} {u : Unit} (hlookup : k.lookup? name = some binding)
    (htype : binding.type = .function signature) (hpending : binding.pending? = some f)
    (h : go.infer name f signature k = .ok u k') : E k k' := by
  unfold infer at h
  rw [get_bind] at h
  split at h
  · rw [(pure_eq_ok.mp h).2]
    exact d.refl k
  · refine d.infer hlookup htype hpending
      (d.inferring f.position (checkBody_keeps d hgo f signature .unknown)) ?_ h
    intro k₁ result k₂ h
    obtain ⟨k₃, hbody, -⟩ := inferring_eq_ok.mp h
    exact hgo.found f signature _ result k₃ hbody

theorem typeOfName_keeps (name : String) (position : Position) :
    Check.Keeps E (go.typeOfName name position) := by
  intro k type k' h
  rw [typeOfName, get_bind] at h
  cases hlookup : k.lookup? name with
  | none =>
    rw [hlookup] at h
    have htold : Told ⟨.unknownName name, position⟩ := tells.other nofun
    exact d.bind (d.reportOne htold) (fun _ => d.pure _) k type k' h
  | some binding =>
    rw [hlookup] at h
    have hknown : Check.Keeps E (do
        return ((← get).lookup? name).elim .unknown (·.type)) :=
      d.bind d.get fun _ => d.pure _
    obtain ⟨found, declared, pending?⟩ := binding
    cases found with
    | function signature =>
      cases pending? with
      | some f =>
        -- the first use of the function: its result is found, then the name is looked up again
        obtain ⟨u, k₁, hinfer, h⟩ := bind_eq_ok.mp h
        exact d.trans _ _ _ (infer_keeps d hgo hlookup rfl rfl hinfer) (hknown k₁ type k' h)
      | none => exact hknown k type k' h
    | _ => exact hknown k type k' h

theorem typeOfCall_keeps (callee : Expr) (arguments : List Expr) (position : Position) :
    Check.Keeps E (go.typeOfCall callee arguments position) := by
  refine d.bind (hgo.typeOf callee) fun type => ?_
  refine d.bind (d.mapM (fun e => d.bind (hgo.typeOf e) fun _ => d.pure _) _) fun found => ?_
  exact resultOfCall_keeps d type found _ _

theorem fieldTypes_keeps (fields : List Field) (shape : Shape) :
    Check.Keeps E (go.fieldTypes shape fields) := by
  induction fields generalizing shape with
  | nil => exact d.pure _
  | cons field rest ih =>
    have hbehind := fieldsBehind_keeps d ih
    rw [fieldTypes_cons]
    split
    · exact d.bind (signature_keeps d _) fun _ => hbehind _ _ _ _
    · exact d.bind (hgo.typeOf _) fun _ => hbehind _ _ _ _

omit tells in
theorem checkMethods_keeps (methods : List Method) (shape : Shape) :
    Check.Keeps E (go.checkMethods shape methods) := by
  induction methods generalizing shape with
  | nil => exact d.pure _
  | cons method rest ih =>
    rw [checkMethods]
    exact d.bind (checkBody_keeps d hgo _ _ _) fun result => ih _

/-- The rule of expressions respects a discipline if the parts do. -/
theorem exprRule_keeps (e : Expr) : Check.Keeps E (go.exprRule e) := by
  unfold exprRule
  cases e with
  | literal value position => cases value <;> exact d.pure _
  | reference name position => exact typeOfName_keeps d hgo name position
  | receiver position =>
    refine d.bind d.get fun k => ?_
    split
    · exact d.pure _
    · exact d.bind (d.reportOne (tells.other nofun)) fun _ => d.pure _
  | unary op operand position =>
    exact d.bind (hgo.typeOf _) fun _ => d.bind (expect_keeps d _ _ _) fun _ => d.pure _
  | binary left op right position =>
    exact d.bind (hgo.typeOf _) fun _ => d.bind (hgo.typeOf _) fun _ =>
      typeOfBinary_keeps d _ _ _ _
  | assign target op? value position =>
    exact d.bind (hgo.typeOf _) fun expected => d.bind (hgo.typeOf _) fun given =>
      resultOfAssign_keeps d expected given op? value position
  | update target op isBefore position =>
    exact d.bind (hgo.typeOf _) fun _ => d.bind (expect_keeps d _ _ _) fun _ => d.pure _
  | call callee arguments position => exact typeOfCall_keeps d hgo _ _ _
  | member object property position =>
    exact d.bind (hgo.typeOf _) fun _ => typeOfProperty_keeps d _ _ _
  | object fields position =>
    exact d.bind (fieldTypes_keeps d hgo _ _) fun _ =>
      d.bind (checkMethods_keeps d hgo _ _) fun _ => d.pure _
  | function f =>
    exact d.bind (signature_keeps d _) fun _ =>
      d.bind (checkBody_keeps d hgo _ _ _) fun _ => d.pure _

theorem checkCondition_keeps (condition : Expr) : Check.Keeps E (go.checkCondition condition) :=
  d.bind (hgo.typeOf _) fun _ => expect_keeps d _ _ _

omit tells in
theorem loopRest_keeps (update? : Option Expr) (body : Block) :
    Check.Keeps S (go.loopRest update? body) := by
  have hbody := checkBlock_keeps d hgo body
  cases update? with
  | none => exact hbody
  | some update =>
    exact d.bind' (d.lift (d.bind (hgo.typeOf update) fun _ => d.pure _)) fun _ => hbody

theorem loopRound_keeps (condition? update? : Option Expr) (body : Block) :
    Check.Keeps S (go.loopRound condition? update? body) := by
  have hrest := loopRest_keeps d hgo update? body
  cases condition? with
  | none => exact hrest
  | some condition =>
    exact d.bind' (d.lift (checkCondition_keeps d hgo condition)) fun _ => hrest

/-- The rule of statements respects a discipline if the parts do. -/
theorem stmtRule_keeps (s : Stmt) : Check.Keeps S (go.stmtRule s) := by
  unfold stmtRule
  cases s with
  | «variable» name type? value? position =>
    refine d.bind' (d.lift ?_) fun declared? => d.bind' (d.lift ?_) fun found? => ?_
    · cases type? with
      | none => exact d.pure _
      | some type => exact d.bind (readType_keeps d type) fun _ => d.pure _
    · cases value? with
      | none => exact d.pure _
      | some value => exact d.bind (hgo.typeOf value) fun _ => d.pure _
    · split
      · exact d.bind' (d.lift (expect_keeps d _ _ _)) fun _ => d.enter _ _
      · exact d.enter _ _
  | function f => exact d.lift (d.pure _)
  | interface declaration => exact d.lift (d.pure _)
  | expression e position => exact d.lift (d.bind (hgo.typeOf e) fun _ => d.pure _)
  | giveBack value? position =>
    cases value? with
    | none => exact noteGiven_keeps d _ _ _
    | some value =>
      exact d.bind' (d.lift (hgo.typeOf value)) fun type => noteGiven_keeps d type _ _
  | branch condition body otherwise? position =>
    refine d.bind' (d.lift (checkCondition_keeps d hgo _)) fun _ =>
      d.bind' (checkBlock_keeps d hgo _) fun _ => ?_
    split
    · exact hgo.check _
    · exact d.lift (d.pure _)
  | block b => exact checkBlock_keeps d hgo b
  | loop init? condition? update? body position =>
    refine d.inScope ?_
    have hround := loopRound_keeps d hgo condition? update? body
    cases init? with
    | none => exact hround
    | some init => exact d.bind' (hgo.check init) fun _ => hround
  | repeatWhile condition body position =>
    exact d.bind' (d.lift (checkCondition_keeps d hgo _)) fun _ => checkBlock_keeps d hgo _

end Rules

end Checker

/-! ## Any expression and any statement -/

/-- The checker with a given amount of fuel. -/
def checker (table : Table) (effort fuel : Nat) : Checker :=
  ⟨table, effort, Expr.typeOf table effort fuel, Stmt.check table effort fuel,
    Block.checkAll table effort fuel⟩

section Knot

variable {E S : Knowledge → Knowledge → Prop} {Found : Function → Signature → Ty → Prop}
  {Told : Diagnostic → Prop}

/-- Checking respects a discipline, whatever the fuel. -/
theorem checker_keeps (d : Check.Discipline E S Found Told) (table : Table) (effort fuel : Nat)
    (hfound : ∀ fuel f signature k result k',
      (checker table effort fuel).checkBody f signature .unknown k = .ok result k' →
        Found f signature result := by exact fun _ _ _ _ _ _ _ => trivial)
    [Checker.Tells table effort Told] :
    (checker table effort fuel).Keeps E S Found := by
  induction fuel with
  | zero => exact ⟨nofun, nofun, nofun, hfound 0⟩
  | succ fuel ih =>
    exact ⟨Checker.exprRule_keeps d ih, Checker.stmtRule_keeps d ih, Checker.rowRule_keeps d ih,
      hfound (fuel + 1)⟩

end Knot

/-- The check of a program whose statements are checked in a given way. -/
def Program.checkBy (effort : Nat) (program : Program) (statements : Check Unit) :
    Except Unfinished (List Diagnostic) :=
  match program.interfaceProblems? effort with
  | none => .error .question
  | some problems =>
    match Check.inScope statements Knowledge.initial with
    | .ok _ k => .ok (problems ++ k.diagnostics)
    | .error unfinished _ => .error unfinished

theorem Program.check_eq (effort fuel : Nat) (program : Program) : program.check effort fuel =
    program.checkBy effort (Block.checkAll program.table effort fuel program.statements) := rfl

/-- A program passes the check if its interfaces do, and its statements give no
diagnostic either. -/
theorem Program.clean_of_checkBy {program : Program} {effort : Nat} {statements : Check Unit}
    (h : program.checkBy effort statements = .ok []) :
    program.interfaceProblems? effort = some [] ∧
      ∃ u k, Check.inScope statements Knowledge.initial = .ok u k ∧ k.diagnostics = [] := by
  unfold checkBy at h
  cases hproblems : program.interfaceProblems? effort with
  | none => rw [hproblems] at h; cases h
  | some problems =>
    rw [hproblems] at h
    dsimp only at h
    cases hwhole : Check.inScope statements Knowledge.initial with
    | error unfinished k => rw [hwhole] at h; cases h
    | ok u k =>
      rw [hwhole] at h
      obtain ⟨rfl, hclean⟩ := List.append_eq_nil_iff.mp (Except.ok.inj h)
      exact ⟨rfl, u, k, rfl, hclean⟩

/-- A check that ends without a diagnostic, as far as it can be computed. -/
theorem Program.check_of_isEmpty {checked : Except Unfinished (List Diagnostic)}
    (h : checked.toOption.any (·.isEmpty) = true) : checked = .ok [] := by
  cases checked with
  | error unfinished => cases h
  | ok found => rw [List.isEmpty_iff.mp h]

/-! ## Diagnostics are only added -/

namespace Check

/-- The diagnostics of one stage are the first of those of another. -/
def Grows (k k' : Knowledge) : Prop :=
  k.diagnostics <+: k'.diagnostics

theorem Grows.trans (a b c : Knowledge) : Grows a b → Grows b c → Grows a c :=
  List.IsPrefix.trans

theorem enter_keeps_grows (name : String) (binding : Binding) :
    Keeps Grows (Check.enter name binding) := by
  intro k a k' h
  rw [enter_eq_ok.mp h]
  split
  · exact List.prefix_refl _
  · split
    · exact List.prefix_append _ _
    · exact List.prefix_refl _

theorem declareParams_keeps_grows (params : List Parameter) (types : List Ty) :
    Keeps Grows (declareParams params types) := by
  induction params generalizing types with
  | nil => intro k a k' h; cases h; exact List.prefix_refl _
  | cons param params ih =>
    cases types with
    | nil => intro k a k' h; cases h; exact List.prefix_refl _
    | cons type types =>
      exact Keeps.bind Grows.trans (enter_keeps_grows _ _) fun _ => ih types

/-- No check takes a diagnostic back: one ahead of its turn drops its own. -/
theorem grows_discipline : Discipline Grows Grows where
  refl _ := List.prefix_refl _
  trans := Grows.trans
  trans' := Grows.trans
  le _ _ h := h
  reportAll found _ := by intro k a k' h; cases h; exact List.prefix_append _ _
  refine name type := by intro k a k' h; cases h; exact List.prefix_refl _
  enter := enter_keeps_grows
  noteReturn type := by intro k a k' h; cases h; exact List.prefix_refl _
  inScope hx k a k' h := by
    obtain ⟨k₁, h₁, rfl⟩ := inScope_eq_ok.mp h
    have hbody := hx _ _ _ h₁
    exact hbody
  inBody params types declared? receiver hx k a k' h := by
    obtain ⟨k₁, h₁, rfl⟩ := inScope_eq_ok.mp h
    obtain ⟨_, k₂, h₂, h₃⟩ := bind_eq_ok.mp h₁
    obtain ⟨k₄, h₄, _, rfl⟩ := inFunction_eq_ok.mp h₃
    have hparams := declareParams_keeps_grows params types _ _ _ h₂
    have hbody := hx _ _ _ h₄
    exact List.IsPrefix.trans hparams hbody
  inferring _ hx k a k' h := by
    obtain ⟨k₁, h₁, rfl⟩ := inferring_eq_ok.mp h
    have hbody := hx _ _ _ h₁
    exact hbody
  infer _ _ _ _ _ _ _ h := by
    obtain ⟨k₁, h₁, rfl⟩ := aside_eq_ok.mp h
    exact List.prefix_refl _

end Check

end TypedScript
