import TypedScript.Proofs.Finding
import TypedScript.Proofs.Grammatical

/-!
# What a clean check has seen

A check that gives no diagnostic has come to each node of a program, in its turn, with
the names in scope that levels say. So if a survey asks of each node only what such a
check finds out there, the whole program passes it. A survey is `Guided` by the checker
if it asks of a reference that its name is in scope, of a function that its body is
checked, and of other nodes no more than their form.

There is one lemma for each rule of the checker, and by induction on the fuel all that
is checked passes the survey (`checker_surveys`).
-/

namespace TypedScript

open Check

variable {I : Type}

/-- The type of a function as far as it is written down was read without a
diagnostic. -/
def Checker.Signed (go : Checker) (f : Function) (signature : Signature) : Prop :=
  ∃ k k', go.signature f k = .ok signature k' ∧ k'.diagnostics = []

/-- What is checked of the body of a function, in its turn and without a
diagnostic. -/
def Checker.ChecksBody (go : Checker) (f : Function) (levels : List Level) : Prop :=
  ∃ signature receiver k result k', go.Signed f signature ∧
    go.checkBody f signature receiver k = .ok result k' ∧ k'.diagnostics = [] ∧ k.ahead = 0 ∧
      k.Sighted levels

/-- A survey that asks for what a check without a diagnostic finds out, of programs that
pass another survey. -/
structure Survey.Guided (G : Survey Unit) (S : Survey I) (index : List Level → I)
    (table : Table) (effort : Nat) : Prop where
  built : ∀ {s}, G.stmt () s = true → s.isBuilt = true
  enter : ∀ ever levels, index (⟨[], [], ever⟩ :: levels) = S.enter (index levels)
  add : ∀ l name levels, index (l.add name :: levels) = S.declare (index (l :: levels)) name
  isOpen : ∀ levels, S.isOpen (index levels) = true
  reference : ∀ {levels l name} position, l ∈ levels → name ∈ l.here →
    S.expr (index levels) (.reference name position) = true
  expr : ∀ {e} levels, (∀ name position, e ≠ .reference name position) →
    S.expr (index levels) e = true
  stmt : ∀ {s} levels, G.stmt () s = true → S.stmt (index levels) s = true
  /-- Functions declared in a row are checked at its end, where the index has to be that
  of their place. -/
  late : ∀ {f}, G.stmt () (.function f) = true → ∀ levels levels', index levels = index levels'
  function : ∀ {fuel f} levels, (checker table effort fuel).ChecksBody f levels →
    S.function (index levels) f = true

/-- A checker that finds out what a survey asks for. -/
structure Checker.Surveys (G : Survey Unit) (S : Survey I) (index : List Level → I)
    (go : Checker) : Prop where
  keeps : go.Keeps SameSights SameOuterSights
  typeOf : ∀ {e} levels, e.passes G () = true →
    Finds levels levels (go.typeOf e) fun _ => e.passes S (index levels) = true
  check : ∀ {s} l levels, s.passes G () = true →
    Finds (l :: levels) (s.after (l :: levels)) (go.check s)
      fun _ => (∀ f, s ≠ .function f) → s.passes S (index (l :: levels)) = true
  checkAll : ∀ {statements} l levels, rowPasses G () statements = true →
    ∃ after, Finds (l :: levels) after (go.checkAll statements)
      fun _ => rowPasses S (index (l :: levels)) statements = true
  function : ∀ {f} levels, go.ChecksBody f levels → S.function (index levels) f = true

/-! ## Levels and indices -/

section Indices

variable {G : Survey Unit} {S : Survey I} {index : List Level → I} {table : Table} {effort : Nat}
  (hS : Survey.Guided G S index table effort)

/-- Only declarations in the row itself give names to its scope. -/
theorem Stmt.names_of_passes (hbuilt : ∀ {s}, G.stmt () s = true → s.isBuilt = true) :
    ∀ {s : Stmt}, s.passes G () = true → (∀ f, s ≠ .function f) → s.names = s.declared
  | .variable _ _ _ _, _, _ | .interface _, _, _ | .expression _ _, _, _
  | .giveBack _ _, _, _ | .branch _ _ none _, _, _ | .block _, _, _
  | .loop _ _ _ _ _, _, _ | .repeatWhile _ _ _, _, _ => rfl
  | .function f, _, hne => absurd rfl (hne f)
  | .branch _ _ (some otherwise) _, h, _ => by
    have halternative := hbuilt (Stmt.node_of_passes h)
    rw [Stmt.passes, Bool.and_eq_true, Bool.and_eq_true, Bool.and_eq_true] at h
    have hnames := Stmt.names_of_passes hbuilt h.2.2.2 fun f heq => by
      rw [heq] at halternative
      cases halternative
    rw [Stmt.names, hnames]
    cases otherwise <;> first | rfl | cases halternative

include hS

/-- The index after a statement is that of the levels after it. -/
theorem Survey.Guided.after {s : Stmt} (h : s.passes G () = true) (l : Level)
    (levels : List Level) :
    index (s.after (l :: levels)) = s.indexAfter S (index (l :: levels)) := by
  by_cases hfunction : ∃ f, s = .function f
  · obtain ⟨f, rfl⟩ := hfunction
    exact hS.late (Stmt.node_of_passes h) _ _
  · have hnames := Stmt.names_of_passes hS.built h fun f heq => hfunction ⟨f, heq⟩
    have hafter : s.after (l :: levels) =
        ⟨s.declared ++ l.made, s.declared ++ l.here, l.ever⟩ :: levels := by
      rw [Stmt.after, hnames]
    rw [hafter]
    cases s with
    | «variable» name type? value? position => exact hS.add l name levels
    | function f => exact absurd ⟨f, rfl⟩ hfunction
    | _ => rfl

theorem Survey.Guided.declareAll (names : List String) : ∀ (l : Level) (levels : List Level),
    index (names.foldl Level.add l :: levels) = S.declareAll (index (l :: levels)) names := by
  induction names with
  | nil => exact fun _ _ => rfl
  | cons name rest ih =>
    intro l levels
    have hadd := hS.add l name levels
    exact (ih (l.add name) levels).trans (congrArg (S.declareAll · rest) hadd)

end Indices

namespace Checker

variable {go : Checker} {levels : List Level}

theorem Signed.length {f : Function} {signature : Signature} (h : go.Signed f signature) :
    signature.params.length = f.params.length := by
  obtain ⟨k, k', hrun, _⟩ := h
  exact (signature_counts hrun).1

theorem signature_signs (f : Function) :
    Finds levels levels (go.signature f) (go.Signed f) where
  keeps := sights_discipline.lift (signature_keeps sights_discipline f)
  finds k signature k' h hclean _ hk := by
    refine ⟨⟨k, k', h, hclean⟩, ?_⟩
    unfold Knowledge.Sighted
    rw [(signature_keeps sights_discipline f k signature k' h).sights]
    exact hk

variable (levels) in
/-- Parameters are added one after the other. -/
theorem declareParams_adds (params : List Parameter) : ∀ (l : Level) (types : List Ty),
    types.length = params.length →
      Finds (l :: levels) ((params.map (·.name)).foldl Level.add l :: levels)
        (declareParams params types) fun _ => True := by
  induction params with
  | nil => exact fun l types _ => .pure trivial
  | cons param params ih =>
    intro l types hlength
    cases types with
    | nil => cases hlength
    | cons type types =>
      exact Finds.bind (Finds.enter l param.name _) fun _ =>
        (ih (l.add param.name) types (Nat.succ.inj hlength)).mono fun _ _ _ => trivial

/-- A name that is known is in one of the scopes. -/
theorem mem_here_of_lookup? {k : Knowledge} (hk : k.Sighted levels) {name : String}
    (h : (k.lookup? name).isSome = true) : ∃ l ∈ levels, name ∈ l.here := by
  rw [← k.isSome_address?] at h
  unfold Knowledge.Sighted at hk
  generalize k.sights = sights at h hk
  induction hk with
  | nil => cases h
  | @cons l sight levels sights hl _ ih =>
    cases hsight : sight name with
    | true => exact ⟨l, List.mem_cons_self .., hl.2 name hsight⟩
    | false =>
      rw [address?_of_has_not hsight, Option.isSome_map] at h
      obtain ⟨l', hl', hname⟩ := ih h
      exact ⟨l', List.mem_cons_of_mem _ hl', hname⟩

section Rules

variable {G : Survey Unit} {S : Survey I} {index : List Level → I} {table : Table} {effort : Nat}
  (hS : Survey.Guided G S index table effort) (hgo : go.Surveys G S index)
include hS hgo

/-! ### Bodies and rows -/

theorem checkBody_surveys {f : Function} (hf : f.passes G () = true) (signature : Signature)
    (receiver : Ty) :
    Finds levels levels (go.checkBody f signature receiver)
      fun _ => go.Signed f signature → f.passes S (index levels) = true := by
  have hkeeps := checkBody_keeps sights_discipline hgo.keeps f signature receiver
  refine ⟨sights_discipline.lift hkeeps, fun k result k' h hclean hahead hk => ?_⟩
  refine ⟨fun hsigned => ?_, ?_⟩
  · have hfunction := hgo.function levels ⟨signature, receiver, k, result, k', hsigned, h, hclean,
      hahead, hk⟩
    rw [Function.passes_eq, Bool.and_eq_true] at hf ⊢
    refine ⟨hfunction, ?_⟩
    have hparams := declareParams_adds levels f.params ⟨[], [], []⟩ signature.params hsigned.length
    obtain ⟨after, hrow⟩ := hgo.checkAll
      ((f.params.map (·.name)).foldl Level.add ⟨[], [], []⟩) levels hf.2
    rw [hS.declareAll, hS.enter] at hrow
    have hbody := Finds.inScope (Finds.bind hparams fun _ =>
      (Finds.inFunction (f.result?.map fun _ => signature.result) receiver hrow).mono
        fun _ h _ => h)
    exact ((Finds.followed hbody fun _ => sights_discipline.pure _).finds k result k' h hclean
      hahead hk).1
  · unfold Knowledge.Sighted
    rw [(hkeeps k result k' h).sights]
    exact hk

variable (go levels) in
omit hgo in
/-- The functions of a row are told with their types. -/
theorem hoist_signs : ∀ {statements : List Stmt}, rowPasses G () statements = true →
    ∀ l, ∃ l', index (l' :: levels) = index (l :: levels) ∧
      Finds (l :: levels) (l' :: levels) (go.hoist statements) fun hoisted =>
        ∀ f, Stmt.function f ∈ statements → ∃ entry ∈ hoisted,
          entry.1 = f ∧ go.Signed f entry.2 := by
  intro statements
  induction statements with
  | nil => exact fun _ l => ⟨l, rfl, .pure fun f h => absurd h List.not_mem_nil⟩
  | cons s rest ih =>
    intro h l
    rw [rowPasses, Bool.and_eq_true] at h
    cases s with
    | function definition =>
      have hlate := hS.late (Stmt.node_of_passes h.1)
      -- a row with a declaration may be surveyed at any index, so the one behind the rest of it
      -- does not matter
      have hrest : ∀ l, ∃ l', Finds (l :: levels) (l' :: levels) (go.hoist rest) fun hoisted =>
          ∀ f, Stmt.function f ∈ rest → ∃ entry ∈ hoisted, entry.1 = f ∧ go.Signed f entry.2 := by
        intro l
        obtain ⟨l', _, hl'⟩ := ih h.2 l
        exact ⟨l', hl'⟩
      -- the declaration and its type are added to what the rest is told
      have htold : ∀ l, ∃ l', ∀ signature, Finds (l :: levels) (l' :: levels)
          (do return (definition, signature) :: (← go.hoist rest))
          fun hoisted => go.Signed definition signature →
            ∀ f, Stmt.function f ∈ Stmt.function definition :: rest →
              ∃ entry ∈ hoisted, entry.1 = f ∧ go.Signed f entry.2 := by
        intro l
        obtain ⟨l', hl'⟩ := hrest l
        refine ⟨l', fun signature => Finds.bind hl' fun hoisted => .pure fun h hsigned f hf => ?_⟩
        rcases List.mem_cons.mp hf with heq | hf
        · cases heq
          exact ⟨_, List.mem_cons_self .., rfl, hsigned⟩
        · obtain ⟨entry, hentry, hsigns⟩ := h f hf
          exact ⟨entry, List.mem_cons_of_mem _ hentry, hsigns⟩
      rw [hoist]
      cases hname : definition.name? with
      | none =>
        obtain ⟨l', hl'⟩ := htold l
        exact ⟨l', hlate _ _, Finds.bind (signature_signs definition) hl'⟩
      | some name =>
        obtain ⟨l', hl'⟩ := htold (l.add name)
        exact ⟨l', hlate _ _, Finds.bind (signature_signs definition) fun signature =>
          Finds.bind (Finds.enter l name _) fun _ => (hl' signature).mono fun _ h _ => h⟩
    | _ =>
      obtain ⟨l', hindex, hl'⟩ := ih h.2 l
      refine ⟨l', hindex, hl'.mono fun hoisted hsigns f hf => hsigns f ?_⟩
      rcases List.mem_cons.mp hf with heq | hf
      · cases heq
      · exact hf

variable (levels) in
theorem checkEach_surveys : ∀ {statements : List Stmt}, rowPasses G () statements = true → ∀ l,
    ∃ after, Finds (l :: levels) after (go.checkEach statements) fun _ =>
      (∀ f, Stmt.function f ∈ statements → ∀ levels, f.passes S (index levels) = true) →
        rowPasses S (index (l :: levels)) statements = true := by
  intro statements
  induction statements with
  | nil => exact fun _ l => ⟨_, .pure fun _ => rfl⟩
  | cons s rest ih =>
    intro h l
    rw [rowPasses, Bool.and_eq_true] at h
    obtain ⟨after, hrest⟩ := ih h.2 ⟨s.declared ++ l.made, s.names ++ l.here, l.ever⟩
    refine ⟨after, (Finds.both (hgo.check l levels h.1) fun _ => hrest).mono
      fun _ hboth hfunctions => ?_⟩
    rw [rowPasses, Bool.and_eq_true]
    constructor
    · by_cases hfunction : ∃ f, s = .function f
      · obtain ⟨f, rfl⟩ := hfunction
        rw [Stmt.passes, hS.stmt _ (Stmt.node_of_passes h.1), hS.isOpen]
        exact hfunctions f (List.mem_cons_self ..) _
      · exact hboth.1 fun f heq => hfunction ⟨f, heq⟩
    · rw [← hS.after h.1]
      exact hboth.2 fun f hf => hfunctions f (List.mem_cons_of_mem _ hf)

theorem checkHoisted_surveys (hoisted : List (Function × Signature)) :
    Finds levels levels (go.checkHoisted hoisted) fun _ => ∀ entry ∈ hoisted,
      go.Signed entry.1 entry.2 → entry.1.passes G () = true →
        entry.1.passes S (index levels) = true := by
  induction hoisted with
  | nil => exact .pure fun _ h => absurd h List.not_mem_nil
  | cons first rest ih =>
    obtain ⟨f, signature⟩ := first
    have hrest : Finds levels levels (go.checkHoisted rest) fun _ =>
        (go.Signed f signature → f.passes G () = true → f.passes S (index levels) = true) →
          ∀ entry ∈ (f, signature) :: rest, go.Signed entry.1 entry.2 →
            entry.1.passes G () = true → entry.1.passes S (index levels) = true :=
      ih.mono fun _ h hfirst => List.forall_mem_cons.mpr ⟨hfirst, h⟩
    have hbody : Finds levels levels (go.checkBody f signature .unknown) fun _ =>
        go.Signed f signature → f.passes G () = true → f.passes S (index levels) = true := by
      by_cases hf : f.passes G () = true
      · exact (checkBody_surveys hS hgo hf signature .unknown).mono fun _ h hsigned _ => h hsigned
      · exact .of_keeps (checkBody_keeps sights_discipline hgo.keeps f signature .unknown)
          fun _ _ _ _ _ h => absurd h hf
    rw [checkHoisted]
    refine Finds.bind (Finds.inferring f.position hbody) fun _ => ?_
    split
    · refine Finds.preceded (awaitsResult_keeps sights_discipline f _) fun awaits => ?_
      split
      · exact Finds.preceded (refine_keeps_sights _ _) fun _ => hrest
      · exact hrest
    · exact hrest

theorem rowRule_surveys {statements : List Stmt} (h : rowPasses G () statements = true)
    (l : Level) :
    ∃ after, Finds (l :: levels) after (go.rowRule statements) fun _ =>
      rowPasses S (index (l :: levels)) statements = true := by
  obtain ⟨l', hindex, hhoist⟩ := hoist_signs go levels hS h l
  obtain ⟨after, hrow⟩ := checkEach_surveys levels hS hgo h l'
  rw [hindex] at hrow
  refine ⟨after, ?_⟩
  unfold rowRule
  refine Finds.bind hhoist fun hoisted => Finds.bind hrow fun _ => ?_
  refine Finds.get (fun k => ?_) fun k hahead => ?_
  · split
    · exact checkHoisted_keeps sights_discipline hgo.keeps hoisted
    · exact sights_discipline.lift (sights_discipline.pure _)
  · rw [if_pos hahead]
    refine (checkHoisted_surveys hS hgo hoisted).mono fun _ hfunctions hrow hhoisted => ?_
    refine hrow fun f hf levels' => ?_
    obtain ⟨entry, hentry, rfl, hsigned⟩ := hhoisted f hf
    have hpasses := rowPasses_iff.mp h _ hf
    rw [hS.late (Stmt.node_of_passes hpasses) levels' after]
    rw [Stmt.passes, Bool.and_eq_true, Bool.and_eq_true] at hpasses
    exact hfunctions entry hentry hsigned hpasses.2.2

variable (levels) in
theorem checkBlock_surveys {b : Block} (h : b.passesAt G () = true) :
    Finds levels levels (go.checkBlock b) fun _ =>
      b.passesAt S (S.enter (index levels)) = true := by
  rw [Block.passesAt_eq] at h ⊢
  obtain ⟨after, hrow⟩ := hgo.checkAll ⟨[], [], []⟩ levels h
  rw [hS.enter] at hrow
  exact Finds.inScope hrow

/-! ### Expressions -/

omit hS in
theorem mapM_surveys {arguments : List Expr} (h : eachPasses G () arguments = true) :
    Finds levels levels
      (arguments.mapM fun argument => do
        return (← go.typeOf argument, argument.position))
      fun _ => eachPasses S (index levels) arguments = true := by
  induction arguments with
  | nil =>
    rw [List.mapM_nil]
    exact .pure rfl
  | cons argument rest ih =>
    rw [eachPasses, Bool.and_eq_true] at h
    rw [List.mapM_cons]
    have hfirst := Finds.followed (hgo.typeOf levels h.1)
      fun type => sights_discipline.pure (type, argument.position)
    refine (Finds.both hfirst fun _ => Finds.followed (ih h.2) fun _ =>
      sights_discipline.pure _).mono fun _ h => ?_
    rw [eachPasses]
    exact Bool.and_eq_true_iff.mpr h

omit hS in
theorem typeOfCall_surveys {callee : Expr} {arguments : List Expr} (position : Position)
    (hcallee : callee.passes G () = true) (harguments : eachPasses G () arguments = true) :
    Finds levels levels (go.typeOfCall callee arguments position) fun _ =>
      callee.passes S (index levels) = true ∧ eachPasses S (index levels) arguments = true := by
  unfold typeOfCall
  refine Finds.both (hgo.typeOf levels hcallee) fun type =>
    Finds.followed (mapM_surveys hgo harguments) fun found => ?_
  exact resultOfCall_keeps sights_discipline type found _ _

/-- The values of properties pass if the functions among them do, whose bodies are left
for later. -/
theorem fieldTypes_surveys : ∀ {fields : List Field}, fieldsPass G () fields = true →
    ∀ shape, Finds levels levels (go.fieldTypes shape fields) fun found =>
      (∀ method ∈ found.2, go.Signed method.definition method.signature ∧
        method.definition.passes G () = true) ∧
      ((∀ method ∈ found.2, method.definition.passes S (index levels) = true) →
        fieldsPass S (index levels) fields = true) := by
  intro fields
  induction fields with
  | nil => exact fun _ shape => .pure ⟨fun _ h => absurd h List.not_mem_nil, fun _ => rfl⟩
  | cons field rest ih =>
    intro h shape
    obtain ⟨name, value, position⟩ := field
    rw [fieldsPass, Bool.and_eq_true, Field.passes] at h
    have hbehind := fieldsBehind_finds (ih h.2) ⟨name, value, position⟩ shape
    rw [fieldTypes_cons]
    dsimp only
    split
    · -- a method is signed now and passes once its body does
      next f =>
      have hvalue := h.1
      rw [Expr.passes, Bool.and_eq_true] at hvalue
      refine Finds.bind (signature_signs f) fun signature =>
        (hbehind (.function signature) [⟨name, f, signature⟩]).mono fun found hfound hsigned => ?_
      obtain ⟨others, ⟨hsigns, hpasses⟩, hmethods⟩ := hfound
      rw [hmethods]
      refine ⟨List.forall_mem_cons.mpr ⟨⟨hsigned, hvalue.2⟩, hsigns⟩, fun hall => ?_⟩
      obtain ⟨hfirst, hothers⟩ := List.forall_mem_cons.mp hall
      rw [fieldsPass, Field.passes, Expr.passes, hS.expr _ (fun _ _ heq => by cases heq), hfirst]
      exact hpasses hothers
    · refine Finds.bind (hgo.typeOf levels h.1) fun type =>
        (hbehind type []).mono fun found hfound hvalue => ?_
      obtain ⟨others, ⟨hsigns, hpasses⟩, hmethods⟩ := hfound
      rw [hmethods]
      refine ⟨hsigns, fun hothers => ?_⟩
      rw [fieldsPass, Field.passes, hvalue]
      exact hpasses hothers

theorem checkMethods_surveys (methods : List Method) : ∀ shape : Shape,
    Finds levels levels (go.checkMethods shape methods) fun _ =>
      (∀ method ∈ methods, go.Signed method.definition method.signature ∧
        method.definition.passes G () = true) →
      ∀ method ∈ methods, method.definition.passes S (index levels) = true := by
  induction methods with
  | nil => exact fun shape => .pure fun _ _ h => absurd h List.not_mem_nil
  | cons method rest ih =>
    intro shape
    rw [checkMethods]
    by_cases hmethod : method.definition.passes G () = true
    · refine Finds.bind (checkBody_surveys hS hgo hmethod method.signature (.object shape))
        fun result => (ih _).mono fun _ hrest hfirst hall => ?_
      obtain ⟨hsigned, hothers⟩ := List.forall_mem_cons.mp hall
      exact List.forall_mem_cons.mpr ⟨hfirst hsigned.1, hrest hothers⟩
    · refine Finds.preceded (checkBody_keeps sights_discipline hgo.keeps _ _ _) fun result =>
        (ih _).mono fun _ _ hall => ?_
      exact absurd (hall method (List.mem_cons_self ..)).2 hmethod

/-- A name that is looked up without a diagnostic is in scope. -/
theorem typeOfName_surveys (name : String) (position : Position) :
    Finds levels levels (go.typeOfName name position) fun _ =>
      S.expr (index levels) (.reference name position) = true := by
  have hkeeps := typeOfName_keeps sights_discipline hgo.keeps name position
  refine ⟨sights_discipline.lift hkeeps, fun k type k' h hclean _ hk => ⟨?_, ?_⟩⟩
  · have hknown : (k.lookup? name).isSome = true := by
      cases hlookup : k.lookup? name with
      | some binding => rfl
      | none =>
        unfold typeOfName at h
        rw [get_bind, hlookup] at h
        obtain ⟨_, k₁, hreport, h⟩ := bind_eq_ok.mp h
        rw [(pure_eq_ok.mp h).2] at hclean
        exact absurd hclean (not_clean_of_report hreport)
    obtain ⟨l, hl, hname⟩ := mem_here_of_lookup? hk hknown
    exact hS.reference position hl hname
  · unfold Knowledge.Sighted
    rw [(hkeeps k type k' h).sights]
    exact hk

/-- The rule of expressions finds out what a survey asks for. -/
theorem exprRule_surveys {e : Expr} (h : e.passes G () = true) :
    Finds levels levels (go.exprRule e) fun _ => e.passes S (index levels) = true := by
  have d := sights_discipline
  have hkeeps := exprRule_keeps d hgo.keeps e
  have hnode : (∀ name position, e ≠ .reference name position) →
      S.expr (index levels) e = true := hS.expr levels
  unfold exprRule at hkeeps ⊢
  cases e with
  | literal value position =>
    rw [Expr.passes]
    exact .of_keeps hkeeps fun _ _ _ _ => hnode fun _ _ heq => by cases heq
  | reference name position =>
    rw [Expr.passes]
    exact typeOfName_surveys hS hgo name position
  | receiver position =>
    rw [Expr.passes]
    exact .of_keeps hkeeps fun _ _ _ _ => hnode fun _ _ heq => by cases heq
  | unary op operand position =>
    rw [Expr.passes, Bool.and_eq_true] at h
    rw [Expr.passes, hnode fun _ _ heq => by cases heq]
    exact Finds.followed (hgo.typeOf levels h.2) fun _ =>
      d.bind (expect_keeps d _ _ _) fun _ => d.pure _
  | binary left op right position =>
    rw [Expr.passes, Bool.and_eq_true, Bool.and_eq_true] at h
    rw [Expr.passes, hnode (fun _ _ heq => by cases heq), Bool.true_and]
    exact (Finds.both (hgo.typeOf levels h.2.1) fun _ =>
      Finds.followed (hgo.typeOf levels h.2.2) fun _ =>
        typeOfBinary_keeps d _ _ _ _).mono fun _ h => Bool.and_eq_true_iff.mpr h
  | assign target op? value position =>
    rw [Expr.passes, Bool.and_eq_true, Bool.and_eq_true] at h
    rw [Expr.passes, hnode (fun _ _ heq => by cases heq), Bool.true_and]
    refine (Finds.both (hgo.typeOf levels h.2.1) fun expected =>
      Finds.followed (hgo.typeOf levels h.2.2) fun given => ?_).mono
        fun _ h => Bool.and_eq_true_iff.mpr h
    exact resultOfAssign_keeps d expected given op? value position
  | update target op isBefore position =>
    rw [Expr.passes, Bool.and_eq_true] at h
    rw [Expr.passes, hnode fun _ _ heq => by cases heq]
    exact Finds.followed (hgo.typeOf levels h.2) fun _ =>
      d.bind (expect_keeps d _ _ _) fun _ => d.pure _
  | call callee arguments position =>
    rw [Expr.passes, Bool.and_eq_true, Bool.and_eq_true] at h
    rw [Expr.passes, hnode (fun _ _ heq => by cases heq), Bool.true_and]
    exact (typeOfCall_surveys hgo position h.2.1 h.2.2).mono fun _ h => Bool.and_eq_true_iff.mpr h
  | member object property position =>
    rw [Expr.passes, Bool.and_eq_true] at h
    rw [Expr.passes, hnode fun _ _ heq => by cases heq]
    exact Finds.followed (hgo.typeOf levels h.2) fun _ => typeOfProperty_keeps d _ _ _
  | object fields position =>
    rw [Expr.passes, Bool.and_eq_true] at h
    rw [Expr.passes, hnode fun _ _ heq => by cases heq]
    refine Finds.bind (fieldTypes_surveys hS hgo h.2 []) fun found => ?_
    exact (Finds.followed (checkMethods_surveys hS hgo found.2 found.1)
      fun _ => d.pure _).mono fun _ hmethods hfound => hfound.2 (hmethods hfound.1)
  | function f =>
    rw [Expr.passes, Bool.and_eq_true] at h
    rw [Expr.passes, hnode fun _ _ heq => by cases heq]
    refine Finds.bind (signature_signs f) fun signature => ?_
    exact Finds.followed (checkBody_surveys hS hgo h.2 signature .unknown) fun _ => d.pure _

/-! ### Statements -/

omit hS in
theorem checkCondition_surveys {condition : Expr} (h : condition.passes G () = true) :
    Finds levels levels (go.checkCondition condition)
      fun _ => condition.passes S (index levels) = true :=
  Finds.followed (hgo.typeOf levels h) fun _ => expect_keeps sights_discipline _ _ _

variable (levels) in
theorem loopRest_surveys {update? : Option Expr} {body : Block}
    (hupdate : optionPasses G () update? = true) (hbody : body.passesAt G () = true) :
    Finds levels levels (go.loopRest update? body)
      fun _ => optionPasses S (index levels) update? = true ∧
        body.passesAt S (S.enter (index levels)) = true := by
  have hblock := checkBlock_surveys levels hS hgo hbody
  cases update? with
  | none => exact hblock.mono fun _ h => ⟨rfl, h⟩
  | some update =>
    rw [optionPasses] at hupdate ⊢
    exact Finds.both (Finds.followed (hgo.typeOf levels hupdate) fun _ =>
      sights_discipline.pure _) fun _ => hblock

variable (levels) in
theorem loopRound_surveys {condition? update? : Option Expr} {body : Block}
    (hcondition : optionPasses G () condition? = true) (hupdate : optionPasses G () update? = true)
    (hbody : body.passesAt G () = true) :
    Finds levels levels (go.loopRound condition? update? body)
      fun _ => optionPasses S (index levels) condition? = true ∧
        optionPasses S (index levels) update? = true ∧
        body.passesAt S (S.enter (index levels)) = true := by
  have hrest := loopRest_surveys levels hS hgo hupdate hbody
  cases condition? with
  | none => exact hrest.mono fun _ h => ⟨rfl, h⟩
  | some condition =>
    rw [optionPasses] at hcondition ⊢
    exact Finds.both (checkCondition_surveys hgo hcondition) fun _ => hrest

omit hS in
theorem variable_surveys {name : String} {type? : Option TypeExpr} {value? : Option Expr}
    {position : Position} (hvalue : optionPasses G () value? = true) (l : Level) :
    Finds (l :: levels) (l.add name :: levels)
      (go.stmtRule (.variable name type? value? position))
      fun _ => optionPasses S (index (l :: levels)) value? = true := by
  have d := sights_discipline
  have hfound : Finds (l :: levels) (l :: levels) (value?.mapM go.typeOf)
      fun _ => optionPasses S (index (l :: levels)) value? = true := by
    cases value? with
    | none => exact .pure rfl
    | some value =>
      rw [optionPasses] at hvalue ⊢
      exact Finds.followed (hgo.typeOf _ hvalue) fun _ => d.pure _
  refine Finds.preceded ?_ fun declared? => Finds.bind hfound fun found? => ?_
  · cases type? with
    | none => exact d.pure _
    | some type => exact d.bind (readType_keeps d type) fun _ => d.pure _
  · have henter : ∀ type : Ty, Finds (l :: levels) (l.add name :: levels)
        (Check.enter name ⟨type, position, none⟩)
        fun _ => optionPasses S (index (l :: levels)) value? = true →
          optionPasses S (index (l :: levels)) value? = true :=
      fun type => (Finds.enter l name ⟨type, position, none⟩).mono fun _ _ h => h
    split
    · exact Finds.preceded (expect_keeps d _ _ _) fun _ => henter _
    · exact henter _

omit hS in
theorem giveBack_surveys {value? : Option Expr} (position : Position)
    (hvalue : optionPasses G () value? = true) :
    Finds levels levels (go.stmtRule (.giveBack value? position))
      fun _ => optionPasses S (index levels) value? = true := by
  have d := sights_discipline
  cases value? with
  | some value =>
    rw [optionPasses] at hvalue ⊢
    exact Finds.followed (hgo.typeOf levels hvalue) fun type => noteGiven_keeps_sights type _ _
  | none => exact .of_keeps (noteGiven_keeps_sights .void _ _) fun _ _ _ _ => rfl

/-- The rule of statements finds out what a survey asks for. -/
theorem stmtRule_surveys {s : Stmt} (h : s.passes G () = true) (l : Level) :
    Finds (l :: levels) (s.after (l :: levels)) (go.stmtRule s)
      fun _ => (∀ f, s ≠ .function f) → s.passes S (index (l :: levels)) = true := by
  have d := sights_discipline
  have hnode := hS.stmt (l :: levels) (Stmt.node_of_passes h)
  have hbuilt := hS.built (Stmt.node_of_passes h)
  have hopen := hS.isOpen (l :: levels)
  cases s with
  | «variable» name type? value? position =>
    rw [Stmt.passes, Bool.and_eq_true, Bool.and_eq_true] at h
    refine (variable_surveys hgo h.2.2 l).mono fun _ hvalue _ => ?_
    rw [Stmt.passes, hnode, hopen]
    exact hvalue
  | function f =>
    -- a declaration is found out about where its row is hoisted, so nothing is claimed here
    refine (Finds.pure fun hne => absurd rfl (hne f)).weaken fun k hk =>
      hk.weaken (fun _ h => h) fun _ h => List.mem_append_right _ h
  | interface declaration =>
    refine .pure fun _ => ?_
    rw [Stmt.passes]
    exact hnode
  | expression e position =>
    rw [Stmt.passes, Bool.and_eq_true] at h
    refine (Finds.followed (hgo.typeOf _ h.2) fun _ => d.pure _).mono fun _ he _ => ?_
    rw [Stmt.passes, hnode]
    exact he
  | giveBack value? position =>
    rw [Stmt.passes, Bool.and_eq_true] at h
    refine (giveBack_surveys hgo position h.2).mono fun _ hvalue _ => ?_
    rw [Stmt.passes, hnode]
    exact hvalue
  | branch condition body otherwise? position =>
    cases otherwise? with
    | none =>
      rw [Stmt.passes, Bool.and_eq_true, Bool.and_eq_true] at h
      refine (Finds.both (checkCondition_surveys hgo h.2.1) fun _ =>
        Finds.followed (checkBlock_surveys _ hS hgo h.2.2) fun _ => d.pure _).mono
          fun _ hboth _ => ?_
      rw [Stmt.passes, hnode, hboth.1]
      exact hboth.2
    | some otherwise =>
      -- an alternative is a block or one more conditional, never a declaration
      have hne : ∀ f, otherwise ≠ .function f := by
        intro f heq
        rw [heq] at hbuilt
        cases hbuilt
      rw [Stmt.passes, Bool.and_eq_true, Bool.and_eq_true, Bool.and_eq_true] at h
      have hotherwise : Finds (l :: levels)
          ((Stmt.branch condition body (some otherwise) position).after (l :: levels))
          (go.check otherwise) fun _ => otherwise.passes S (index (l :: levels)) = true :=
        ((hgo.check l levels h.2.2.2).mono fun _ hpasses => hpasses hne).weaken fun k hk =>
          hk.weaken (fun _ h => List.mem_append_right _ h) fun _ h => h
      refine (Finds.both (checkCondition_surveys hgo h.2.1) fun _ =>
        Finds.both (checkBlock_surveys _ hS hgo h.2.2.1) fun _ => hotherwise).mono
          fun _ hall _ => ?_
      rw [Stmt.passes, hnode, hall.1, hall.2.1]
      exact hall.2.2
  | block b =>
    rw [Stmt.passes, Bool.and_eq_true] at h
    refine (checkBlock_surveys _ hS hgo h.2).mono fun _ hb _ => ?_
    rw [Stmt.passes, hnode]
    exact hb
  | loop init? condition? update? body position =>
    cases init? with
    | none =>
      rw [Stmt.passes, Bool.and_eq_true, Bool.and_eq_true, Bool.and_eq_true] at h
      -- a loop opens a scope even if nothing is declared at its start
      have hround := loopRound_surveys (⟨[], [], []⟩ :: l :: levels) hS hgo h.2.1 h.2.2.1 h.2.2.2
      rw [hS.enter] at hround
      refine (Finds.inScope hround).mono fun _ hall _ => ?_
      rw [Stmt.passes, hnode, hall.1, hall.2.1]
      exact hall.2.2
    | some init =>
      -- a loop starts with a variable or an expression
      have hne : ∀ f, init ≠ .function f := by
        intro f heq
        rw [heq] at hbuilt
        cases hbuilt
      rw [Stmt.passes, Bool.and_eq_true, Bool.and_eq_true, Bool.and_eq_true,
        Bool.and_eq_true] at h
      have hround := loopRound_surveys (init.after (⟨[], [], []⟩ :: l :: levels)) hS hgo h.2.2.1
        h.2.2.2.1 h.2.2.2.2
      rw [hS.after h.2.1, hS.enter] at hround
      have hinit := (hgo.check ⟨[], [], []⟩ (l :: levels) h.2.1).mono
        fun _ hpasses => hpasses hne
      rw [hS.enter] at hinit
      refine (Finds.inScope (Finds.both hinit fun _ => hround)).mono fun _ hall _ => ?_
      rw [Stmt.passes, hnode, hall.1, hall.2.1, hall.2.2.1]
      exact hall.2.2.2
  | repeatWhile condition body position =>
    rw [Stmt.passes, Bool.and_eq_true, Bool.and_eq_true] at h
    refine (Finds.both (checkCondition_surveys hgo h.2.1) fun _ =>
      checkBlock_surveys _ hS hgo h.2.2).mono fun _ hboth _ => ?_
    rw [Stmt.passes, hnode, hboth.1]
    exact hboth.2

end Rules

end Checker

/-! ## Any expression and any statement -/

section Knot

variable {G : Survey Unit} {S : Survey I} {index : List Level → I} {table : Table} {effort : Nat}

/-- The checker finds out what a survey asks for that it guides, whatever the fuel. -/
theorem checker_surveys (hS : Survey.Guided G S index table effort) (fuel : Nat) :
    (checker table effort fuel).Surveys G S index := by
  induction fuel with
  | zero =>
    have hnone : ∀ {α : Type} {R : Knowledge → Knowledge → Prop},
        Check.Keeps R (throw .descent : Check α) := by
      intro α R k a k' h
      cases h
    refine ⟨.mk (fun _ => hnone) (fun _ => hnone) fun _ => hnone, fun _ _ => ⟨hnone, ?_⟩,
      fun _ _ _ => ⟨hnone, ?_⟩, fun l levels _ => ⟨l :: levels, hnone, ?_⟩, hS.function⟩ <;>
    · intro k a k' h
      cases h
  | succ fuel ih =>
    have d := sights_discipline
    exact ⟨.mk (Checker.exprRule_keeps d ih.keeps) (Checker.stmtRule_keeps d ih.keeps)
        (Checker.rowRule_keeps d ih.keeps), fun _ h => Checker.exprRule_surveys hS ih h,
      fun l _ h => Checker.stmtRule_surveys hS ih h l,
      fun l _ h => Checker.rowRule_surveys hS ih h l, hS.function⟩

/-- A program that the check finds nothing wrong with passes a survey that is guided by
it. -/
theorem Program.passes_of_check {program : Program} {effort fuel : Nat}
    (hS : Survey.Guided G S index program.table effort)
    (hprogram : rowPasses G () program.statements = true)
    (hcheck : program.check effort fuel = .ok []) :
    rowPasses S (S.enter (index [Level.builtin])) program.statements = true := by
  obtain ⟨-, u, k, hwhole, hclean⟩ := clean_of_checkBy hcheck
  obtain ⟨after, hrow⟩ := (checker_surveys hS fuel).checkAll ⟨[], [], []⟩ [Level.builtin] hprogram
  rw [hS.enter] at hrow
  refine ((Check.Finds.inScope hrow).finds Knowledge.initial u k hwhole hclean rfl ?_).1
  refine .cons ⟨fun name hname => ?_, fun name hname => ?_⟩ .nil
  · rw [List.mem_singleton.mp hname]
    rfl
  · exact of_decide_eq_true ((Record.has_ofList _ name).symm.trans hname)

end Knot

end TypedScript
