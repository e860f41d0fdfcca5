import TypedScript.Proofs.Promising

/-!
# What calls give back

A call of a first-order function gives its parameters their values in a new frame inside
the one that the function was made in, and runs its body there. A clean check of the
body has declared the parameters in a new scope inside those around it, so the frame of
the call honours that scope if the arguments conform (`Surroundings.Honours.bindParameters`).
From there on the run keeps what the check has promised: a call that ends by a return
gives back a value of the result (`Checker.completeBody_conforms`).
-/

namespace TypedScript

open Check Run

/-! ## Parameters -/

/-- The type of a parameter as it is written, `unknown` if none is. -/
def Table.typeOfParam (table : Table) (param : Parameter) : Ty :=
  (param.type?.map table.denote).getD .unknown

/-- The result of a function as it is written, if it is. -/
def Table.resultOf? (table : Table) (f : Function) : Option Ty :=
  f.result?.map table.denote

/-- A scope with the names of parameters, of given types. -/
def declaredParams (scope : Scope) : List Parameter → List Ty → Scope
  | param :: params, type :: types =>
    declaredParams (scope.set param.name ⟨type, param.position, none⟩) params types
  | _, _ => scope

namespace Checker

variable {go : Checker} {k k' : Knowledge}

theorem readType_eq_denote {type : TypeExpr} {found : Ty}
    (h : go.readType type k = .ok found k') : found = go.table.denote type := by
  obtain ⟨problems, k₁, _, h₁⟩ := bind_eq_ok.mp h
  obtain ⟨_, k₂, _, hend⟩ := bind_eq_ok.mp h₁
  exact (pure_eq_ok.mp hend).1

theorem readParams_eq (params : List Parameter) {types : List Ty}
    (h : params.mapM go.readParam k = .ok types k') :
    types = params.map go.table.typeOfParam := by
  induction params generalizing k k' types with
  | nil =>
    rw [List.mapM_nil] at h
    exact (pure_eq_ok.mp h).1
  | cons param rest ih =>
    rw [List.mapM_cons] at h
    obtain ⟨type, k₁, hparam, h₁⟩ := bind_eq_ok.mp h
    obtain ⟨types', k₂, hrest, hend⟩ := bind_eq_ok.mp h₁
    rw [(pure_eq_ok.mp hend).1, ih hrest, List.map_cons]
    congr 1
    unfold readParam at hparam
    unfold Table.typeOfParam
    cases htype : param.type? with
    | none =>
      rw [htype] at hparam
      exact (pure_eq_ok.mp hparam).1
    | some written =>
      rw [htype] at hparam
      exact readType_eq_denote hparam

/-- The type of a function says what is written of it. -/
theorem signature_eq {f : Function} {signature : Signature}
    (h : go.signature f k = .ok signature k') :
    signature.params = f.params.map go.table.typeOfParam ∧
      signature.result = (go.table.resultOf? f).getD .unknown := by
  obtain ⟨params, k₁, hparams, h₁⟩ := bind_eq_ok.mp h
  obtain rfl := readParams_eq f.params hparams
  unfold Table.resultOf?
  cases hresult : f.result? with
  | none =>
    rw [hresult] at h₁
    rw [(pure_eq_ok.mp h₁).1]
    exact ⟨rfl, rfl⟩
  | some written =>
    rw [hresult] at h₁
    obtain ⟨result, k₂, hread, hend⟩ := bind_eq_ok.mp h₁
    rw [(pure_eq_ok.mp hend).1]
    exact ⟨rfl, readType_eq_denote hread⟩

/-- Parameters are declared one after the other. -/
theorem scopes_of_declareParams (params : List Parameter) {types : List Ty} {scope : Scope}
    {rest : List Scope} (hscopes : k.scopes = scope :: rest) {u : Unit}
    (h : declareParams params types k = .ok u k') (hclean : k'.diagnostics = []) :
    k' = { k with scopes := declaredParams scope params types :: rest } := by
  induction params generalizing k types scope with
  | nil =>
    obtain ⟨_, rfl⟩ := pure_eq_ok.mp h
    rw [declaredParams, ← hscopes]
    exact fun _ _ _ _ heq => nomatch heq
  | cons param params ih =>
    cases types with
    | nil =>
      obtain ⟨_, rfl⟩ := pure_eq_ok.mp h
      rw [declaredParams, ← hscopes]
      exact fun _ _ _ _ _ heq => nomatch heq
    | cons type types =>
      obtain ⟨_, k₁, hdeclare, hrest⟩ := bind_eq_ok.mp h
      have hclean₁ := clean_of_keeps (declareParams_keeps_grows params types) hrest hclean
      obtain ⟨after, rfl, hafter⟩ := declaresIn_of_declare hscopes hdeclare hclean₁
      obtain ⟨scope₁, rest₁, heq, _, rfl⟩ := hafter
      rw [hscopes] at heq
      cases heq
      exact ih
        (k := { k with scopes := scope.set param.name ⟨type, param.position, none⟩ :: rest })
        rfl hrest

end Checker

namespace Surroundings

variable {O : Surroundings}

/-- Parameters of plain types are known, besides what was known before. -/
theorem Knows.declareParams (params : List Parameter) {scope : Scope} {outer : List Scope}
    {names : List String} (h : O.Knows (scope :: outer) names)
    (hplain : ∀ param ∈ params, O.part.Plain (O.table.typeOfParam param)) :
    O.Knows (declaredParams scope params (params.map O.table.typeOfParam) :: outer)
      (O.survey.declareAll names (params.map (·.name))) := by
  induction params generalizing scope names with
  | nil => exact h
  | cons param params ih =>
    obtain ⟨hparam, hparams⟩ := List.forall_mem_cons.mp hplain
    have hdeclared : O.Knows (scope.set param.name ⟨_, param.position, none⟩ :: outer)
        (param.name :: names) := h.declare param.name hparam
    exact ih hdeclared hparams

/-- A frame whose parameters have values of their types. -/
theorem Honours.bindParameters (params : List Parameter) {s : Store} {f : FrameId} {scope : Scope}
    {outer : List Scope} (h : O.Honours s f (scope :: outer)) (hs : s.Ordered)
    {arguments : List Value} (harguments : List.Forall₂ (fun param argument =>
      O.part.Plain (O.table.typeOfParam param) ∧
        Conforms O.table s (O.table.typeOfParam param) argument) params arguments) :
    (Evaluator.bindParameters s f params arguments).Ordered ∧
      O.Honours (Evaluator.bindParameters s f params arguments) f
        (declaredParams scope params (params.map O.table.typeOfParam) :: outer) := by
  induction params generalizing s scope arguments with
  | nil =>
    cases harguments
    exact ⟨hs, h⟩
  | cons param params ih =>
    cases harguments with
    | @cons _ argument _ arguments hargument hrest =>
      have hgrow : s.ObjectsGrow (s.define f param.name argument) := fun _ _ _ hget => hget
      have hdeclared : O.Honours (s.define f param.name argument) f
          (scope.set param.name ⟨_, param.position, none⟩ :: outer) :=
        h.declare hs param.name hargument.1 hargument.2
      exact ih hdeclared (hs.define f param.name argument)
        (hrest.imp fun _ _ hother => ⟨hother.1, conforms_mono hgrow hother.1 hother.2⟩)

end Surroundings

/-! ## Bodies -/

/-- The body of a function is looked at without a diagnostic, with something known before
it, and the function is found to give back a result. -/
def Checker.GivesResult (go : Checker) (f : Function) (k : Knowledge) (result : Ty) : Prop :=
  ∃ signature receiver k', go.Signed f signature ∧
    go.checkBody f signature receiver k = .ok result k' ∧ k'.diagnostics = []

/-- A function whose types are plain and whose body is first-order, inside surroundings. -/
structure Surroundings.Hosts (O : Surroundings) (f : Function) : Prop where
  params : ∀ param ∈ f.params, O.part.Plain (O.table.typeOfParam param)
  result : ∀ result, O.table.resultOf? f = some result → O.part.Plain result
  body : rowPasses O.survey (O.survey.declareAll O.names (f.params.map (·.name)))
    f.body.statements = true

section Bodies

variable {O : Surroundings} {go : Checker} {f : Function} {k : Knowledge}

/-- The scope of the parameters of a function. -/
def Surroundings.paramScope (O : Surroundings) (f : Function) : Scope :=
  declaredParams .empty f.params (f.params.map O.table.typeOfParam)

theorem Surroundings.knows_outside (O : Surroundings) : O.Knows [.empty] O.names where
  plain scope hscope name known hget := by
    rw [List.mem_singleton.mp hscope] at hget
    cases hget
  offers _ hname := .inl hname

/-- What is found to be the result of a function covers all that its body gives back. -/
theorem Checker.settles_of_givesResult (hgo : go.Promises O) (hf : O.Hosts f)
    (hscopes : k.scopes = O.scopes) {result : Ty} (h : go.GivesResult f k result) :
    ∃ scope given, rowSettles O f.body.statements [O.paramScope f] [scope] given ∧
      ∀ type ∈ given, ∀ s value, Conforms O.table s type value →
        Conforms O.table s result value := by
  obtain ⟨signature, receiver, k', ⟨k₀, k₀', hsignature, _⟩, hcheck, hclean⟩ := h
  obtain ⟨hparams, hresult⟩ := signature_eq hsignature
  rw [hgo.table] at hparams hresult
  obtain ⟨returns, k₁, hscope, hend⟩ := bind_eq_ok.mp hcheck
  obtain ⟨rfl, rfl⟩ := pure_eq_ok.mp hend
  obtain ⟨k₂, hinner, rfl⟩ := inScope_eq_ok.mp hscope
  obtain ⟨_, k₃, hdeclare, hfunction⟩ := bind_eq_ok.mp hinner
  obtain ⟨k₄, hrow, hreturns, rfl⟩ := inFunction_eq_ok.mp hfunction
  have hclean₄ : k₄.diagnostics = [] := hclean
  have hclean₃ : k₃.diagnostics = [] := by
    have hgrows := hgo.grows.checkAll f.body.statements
    exact clean_of_keeps (k := { k₃ with
      functions := ⟨f.result?.map fun _ => signature.result, []⟩ :: k₃.functions
      receivers := receiver :: k₃.receivers }) hgrows hrow hclean₄
  obtain rfl := scopes_of_declareParams f.params rfl hdeclare hclean₃
  rw [hparams] at hrow
  have hknows := O.knows_outside.declareParams f.params hf.params
  obtain ⟨scope, given, rfl, hgiven, hsettles⟩ :=
    hgo.checkAll hrow hclean₄ ⟨by rw [hscopes]; rfl, hknows⟩ hf.body
  refine ⟨scope, given, hsettles, fun type htype s value hconf => ?_⟩
  have hreturns : returns = given := hreturns
  cases hwritten : f.result? with
  | none =>
    rw [Option.map_none, Option.getD_none, hreturns]
    exact .unionOf htype hconf
  | some written =>
    rw [Option.map_some, Option.getD_some]
    have hdeclared : O.table.resultOf? f = some signature.result := by
      unfold Table.resultOf? at hresult ⊢
      rw [hresult, hwritten]
      rfl
    obtain ⟨hplain, hfits⟩ := hgiven type htype
    obtain ⟨effort, hfits⟩ := hfits signature.result (by rw [hwritten]; rfl)
    exact conforms_of_fits O.isPart hfits hplain (hf.result _ hdeclared) hconf

end Bodies

/-! ## Calls -/

/-- The value of a call whose body ends so. -/
def Completion.value : Completion → Value
  | .normal => .undefined
  | .gaveBack value => value

namespace Evaluator

variable (go : Evaluator) (limit : Nat)

/-- A call of a declared function up to the end of its body. -/
def completeBody (c : Closure) (receiver? : Option Value) (arguments : List Value)
    (position : Position) : Run Completion := do
  requireArity c.arity arguments.length position
  if limit ≤ (← get).depth then fail (.stackOverflow limit) position
  let f ← make (·.callFrame c.frame receiver?)
  change (bindParameters · f c.definition.params arguments)
  deeper (inFrame f (go.execStatements c.definition.body.statements))

/-- A call gives back what its body does, and `undefined` if that runs off its end. -/
theorem callClosure_eq_value (c : Closure) (receiver? : Option Value) (arguments : List Value)
    (position : Position) : go.callClosure limit c receiver? arguments position =
      (do return (← go.completeBody limit c receiver? arguments position).value) := by
  unfold callClosure completeBody
  simp only [bind_assoc]
  refine bind_congr fun _ => bind_congr fun m => ?_
  split
  all_goals
    simp only [bind_assoc]
  · refine bind_congr fun _ => bind_congr fun f => bind_congr fun _ => bind_congr
      fun completion => ?_
    cases completion <;> rfl
  · refine bind_congr fun f => bind_congr fun _ => bind_congr fun completion => ?_
    cases completion <;> rfl

end Evaluator

/-- The body of a call runs in a frame that honours the scope of the parameters, if the
arguments conform, and gives back what a row of statements does. -/
theorem Surroundings.Hosts.completeBody_lands {O : Surroundings} {f : Function} (hf : O.Hosts f)
    {scope : Scope} {given : List Ty}
    (hsettles : rowSettles O f.body.statements [O.paramScope f] [scope] given) {m : Machine}
    {c : Closure} (hc : c.definition = f) (hm : m.store.Ordered)
    (hhonours : O.Honours m.store c.frame []) {arguments : List Value}
    (harguments : List.Forall₂
      (fun param argument => Conforms O.table m.store (O.table.typeOfParam param) argument)
      f.params arguments) (limit fuel : Nat) (receiver? : Option Value) (position : Position) :
    Lands IsAnyFault ((evaluator limit fuel).completeBody limit c receiver? arguments position) m
      fun completion m' => ∀ value, completion = .gaveBack value →
        ∃ type ∈ given, Conforms O.table m'.store type value := by
  subst hc
  -- neither the number of arguments nor the depth of calls is promised, so a fault will do
  refine Lands.bind (Q := fun _ m' => m' = m) ?_ ?_
  · unfold Evaluator.requireArity
    split
    · exact Lands.pure rfl
    · exact trivial
  rintro _ m rfl
  refine Lands.bind (Q := fun m₁ m' => m₁ = m ∧ m' = m) ⟨rfl, rfl⟩ ?_
  intro _ m hpost
  obtain ⟨rfl, rfl⟩ := hpost
  have hcall : Lands IsAnyFault (do
      let frame ← make (·.callFrame c.frame receiver?)
      change (Evaluator.bindParameters · frame c.definition.params arguments)
      deeper (inFrame frame ((evaluator limit fuel).execStatements
        c.definition.body.statements))) m fun completion m' =>
          ∀ value, completion = .gaveBack value →
            ∃ type ∈ given, Conforms O.table m'.store type value := by
    refine Lands.bind (Q := fun frame m' => m'.store.Ordered ∧
      O.Honours m'.store frame [.empty] ∧ m.store.ObjectsGrow m'.store) (Lands.make ?_) ?_
    · have hparent : (⟨.empty, some c.frame, true, receiver?⟩ : Frame).parent? = some c.frame := rfl
      obtain ⟨hordered, hchild⟩ := hhonours.child hm hparent rfl
      exact ⟨hordered, hchild, fun _ _ _ hget => hget⟩
    intro frame m₁ hpost
    obtain ⟨hordered, hframe, hgrow⟩ := hpost
    -- the arguments still conform, as making the frame takes no object away
    have hbound := hframe.bindParameters c.definition.params hordered
      (((List.forall₂_and_left _ _).mpr ⟨hf.params, harguments⟩).imp fun _ _ hargument =>
        ⟨hargument.1, O.conforms_mono hgrow hargument.1 hargument.2⟩)
    refine Lands.bind (Q := fun _ m' => m'.store.Ordered ∧
      O.Honours m'.store frame [O.paramScope c.definition]) (Lands.change hbound) ?_
    intro _ m₂ hpost
    refine Lands.deeper (Lands.inFrame ?_)
    -- a body that declares no functions has nothing to hoist
    have hrow : Run.Settles O ((evaluator limit fuel).execStatements c.definition.body.statements)
        [O.paramScope c.definition] [scope] given := by
      unfold Evaluator.execStatements
      rw [Evaluator.Similar.hoist_eq_of_never (fun _ _ => rfl) hf.body, pure_bind]
      exact hsettles limit fuel
    refine (hrow { m₂ with frame, depth := m₂.depth + 1 } ⟨hpost.1, hpost.2⟩).mono
      fun completion m₃ hends value heq => ?_
    rw [heq] at hends
    exact hends
  split
  · exact trivial
  · exact hcall

/-- A call that ends by a return gives back a value of the result that was found, if its
arguments conform and the names around the function have values of their types. -/
theorem Surroundings.Hosts.gives_result {O : Surroundings} {f : Function} (hf : O.Hosts f)
    {go : Checker} (hgo : go.Promises O) {k : Knowledge} (hscopes : k.scopes = O.scopes)
    {result : Ty} (hresult : go.GivesResult f k result) {m m' : Machine} {c : Closure}
    (hc : c.definition = f) (hm : m.store.Ordered) (hhonours : O.Honours m.store c.frame [])
    {arguments : List Value} (harguments : List.Forall₂
      (fun param argument => Conforms O.table m.store (O.table.typeOfParam param) argument)
      f.params arguments) {limit fuel : Nat} {receiver? : Option Value} {position : Position}
    {value : Value} (hcall : (evaluator limit fuel).callClosure limit c receiver? arguments
      position m = .ok value m') :
    ∃ completion, (evaluator limit fuel).completeBody limit c receiver? arguments position m =
        .ok completion m' ∧ completion.value = value ∧
      ∀ given, completion = .gaveBack given → Conforms O.table m'.store result given := by
  obtain ⟨scope, given, hsettles, hcovers⟩ := Checker.settles_of_givesResult hgo hf hscopes hresult
  have hlands := hf.completeBody_lands hsettles hc hm hhonours harguments limit fuel receiver?
    position
  rw [Evaluator.callClosure_eq_value] at hcall
  cases hbody : (evaluator limit fuel).completeBody limit c receiver? arguments position m with
  | error halt m₁ =>
    rw [bind_of_error hbody] at hcall
    cases hcall
  | ok completion m₁ =>
    rw [bind_of_ok hbody] at hcall
    cases hcall
    unfold Lands at hlands
    rw [hbody] at hlands
    refine ⟨completion, rfl, rfl, fun value heq => ?_⟩
    obtain ⟨type, htype, hconf⟩ := hlands value heq
    exact hcovers type htype m'.store value hconf

end TypedScript
