import TypedScript.Proofs.FirstOrderCheck
import TypedScript.Proofs.Sights

/-!
# Where a check finds names

The scopes at a reference are as the levels of its site say. A check without a
diagnostic that keeps to notes finds the name of each site, other than ahead of
its turn, in a scope that is noted and a candidate of the site: one case for each
kind of expression and statement, and by induction on the fuel for all of them
(`checkerNoted_finds`).

Main result: `Program.isFound_of_checksWithin`.
-/

namespace TypedScript

/-- The name of a site was found in a scope that is noted, and in one in which it
may be found. -/
def Site.IsFound (notes : Notes) (site : Site) : Prop :=
  ∃ i ∈ site.candidates, notes site.name site.position i = true

/-- The names of all sites were found. -/
def AllFound (notes : Notes) (sites : List Site) : Prop :=
  ∀ site ∈ sites, site.IsFound notes

section Found

variable {notes : Notes}

theorem AllFound.nil : AllFound notes [] :=
  fun _ h => absurd h List.not_mem_nil

theorem AllFound.append {l l' : List Site} (h : AllFound notes l ∧ AllFound notes l') :
    AllFound notes (l ++ l') :=
  List.forall_mem_append.mpr h

end Found

namespace Checker

open Check

variable {go : Checker} {levels : List Level}

/-! ### Signatures and the names of a row -/

theorem length_of_mapM {α β : Type} {f : α → Check β} (l : List α) :
    ∀ {k k' : Knowledge} {results : List β}, l.mapM f k = .ok results k' →
      results.length = l.length := by
  induction l with
  | nil =>
    intro k k' results h
    rw [List.mapM_nil] at h
    rw [(pure_eq_ok.mp h).1]
    rfl
  | cons a l ih =>
    intro k k' results h
    rw [List.mapM_cons] at h
    obtain ⟨b, k₁, _, h₁⟩ := bind_eq_ok.mp h
    obtain ⟨bs, k₂, h₂, h₃⟩ := bind_eq_ok.mp h₁
    rw [(pure_eq_ok.mp h₃).1, List.length_cons, List.length_cons, ih h₂]

/-- A signature has a type for each parameter, and the number of those that a call has to
give is that of the function. -/
theorem signature_counts {f : Function} {signature : Signature} {k k' : Knowledge}
    (h : go.signature f k = .ok signature k') :
    signature.params.length = f.params.length ∧ signature.required = requiredCount f.params ∧
      signature.isVariadic = false := by
  obtain ⟨params, k₁, hparams, h₁⟩ := bind_eq_ok.mp h
  have hlength := length_of_mapM f.params hparams
  cases hresult : f.result? with
  | some type =>
    rw [hresult] at h₁
    obtain ⟨result, k₂, _, h₂⟩ := bind_eq_ok.mp h₁
    rw [(pure_eq_ok.mp h₂).1]
    exact ⟨hlength, rfl, rfl⟩
  | none =>
    rw [hresult] at h₁
    rw [(pure_eq_ok.mp h₁).1]
    exact ⟨hlength, rfl, rfl⟩

theorem signature_finds (f : Function) : Finds levels levels (go.signature f)
    fun signature => signature.params.length = f.params.length :=
  .of_keeps (signature_keeps sights_discipline f) fun _ _ _ h => (signature_counts h).1

theorem declareParams_finds (levels : List Level) (ever : List String) (params : List Parameter) :
    ∀ (made here : List String) (types : List Ty), types.length = params.length →
      Finds (⟨made, here, ever⟩ :: levels)
        (⟨params.map (·.name) ++ made, params.map (·.name) ++ here, ever⟩ :: levels)
        (declareParams params types) fun _ => True := by
  induction params with
  | nil => exact fun made here types _ => .pure trivial
  | cons param params ih =>
    intro made here types hlength
    cases types with
    | nil => cases hlength
    | cons type types =>
      have hrest := ih (param.name :: made) (param.name :: here) types (Nat.succ.inj hlength)
      refine (Finds.bind (Finds.enter ⟨made, here, ever⟩ param.name _)
        fun _ => hrest.mono fun _ _ _ => trivial).weaken fun k hk => hk.weaken ?_ ?_
      · exact fun name hname => List.perm_middle.symm.subset hname
      · exact fun name hname => List.perm_middle.subset hname

/-- What is told of the functions declared in a row: each is there, with a type
for each parameter. -/
def Hoists (l : List Stmt) (hoisted : List (Function × Signature)) : Prop :=
  ∀ definition, Stmt.function definition ∈ l →
    ∃ entry ∈ hoisted, entry.1 = definition ∧
      entry.2.params.length = definition.params.length

theorem Hoists.cons {definition : Function} {signature : Signature} {l : List Stmt}
    {hoisted : List (Function × Signature)}
    (hlength : signature.params.length = definition.params.length) (h : Hoists l hoisted) :
    Hoists (.function definition :: l) ((definition, signature) :: hoisted) := by
  intro other hother
  rcases List.mem_cons.mp hother with heq | hother
  · cases heq
    exact ⟨_, List.mem_cons_self .., rfl, hlength⟩
  · obtain ⟨entry, hentry, h⟩ := h other hother
    exact ⟨entry, List.mem_cons_of_mem _ hentry, h⟩

theorem hoist_finds (ever : List String) (l : List Stmt) : ∀ made here : List String,
    Finds (⟨made, here, ever⟩ :: levels)
      (⟨functionNames l ++ made, functionNames l ++ here, ever⟩ :: levels)
      (go.hoist l) (Hoists l) := by
  induction l with
  | nil =>
    exact fun made here => .pure fun definition h => absurd h List.not_mem_nil
  | cons s rest ih =>
    intro made here
    cases s with
    | function definition =>
      have hrest : ∀ (signature : Signature) (made here : List String),
          Finds (⟨made, here, ever⟩ :: levels)
            (⟨functionNames rest ++ made, functionNames rest ++ here, ever⟩ :: levels)
            (do return (definition, signature) :: (← go.hoist rest))
            fun hoisted => signature.params.length = definition.params.length →
              Hoists (.function definition :: rest) hoisted := by
        intro signature made here
        refine Finds.bind (ih made here) fun hoisted => .pure fun h hlength => ?_
        exact h.cons hlength
      rw [hoist]
      refine Finds.bind (signature_finds definition) fun signature => ?_
      rw [functionNames]
      cases definition.name? with
      -- a function without a name is checked like the others, but nothing is bound to it
      | none => exact hrest signature made here
      | some name =>
        refine (Finds.bind (Finds.enter ⟨made, here, ever⟩ name _) fun _ =>
          (hrest signature (name :: made) (name :: here)).mono fun _ h _ => h).weaken
            fun k hk => hk.weaken ?_ ?_
        · exact fun name hname => List.perm_middle.symm.subset hname
        · exact fun name hname => List.perm_middle.subset hname
    | _ =>
      refine (ih made here).mono fun hoisted h definition hmem => h definition ?_
      rcases List.mem_cons.mp hmem with heq | hmem
      · cases heq
      · exact hmem

/-- A checker whose parts find the names of the sites in them. -/
structure FindsSites (notes : Notes) (go : Checker) : Prop where
  keeps : go.Keeps SameSights SameOuterSights
  typeOf : ∀ e levels,
    Finds levels levels (go.typeOf e) fun _ => AllFound notes (e.sites levels)
  check : ∀ s l levels, Finds (l :: levels) (s.after (l :: levels)) (go.check s)
    fun _ => AllFound notes (s.sites (l :: levels))
  checkAll : ∀ l params levels,
    Finds (⟨params, params, rowNames l ++ params⟩ :: levels)
      (levelAfter (rowLevel params l) l :: levels) (go.checkAll l)
      fun _ => AllFound notes (rowSites levels params l)

section Rules

variable {notes : Notes} (hgo : go.FindsSites notes)
include hgo

/-! ### Bodies and rows -/

/-- A body is checked somewhere between the moment when its function is made and
the last one at which the function may be called. -/
theorem checkBody_finds {around : List Level}
    (haround : ∀ k : Knowledge, k.Sighted levels → k.Sighted (around.map Level.opened))
    (f : Function) (signature : Signature) (receiver : Ty) :
    Finds levels levels (go.checkBody f signature receiver)
      fun _ => signature.params.length = f.params.length → AllFound notes (f.sites around) := by
  have hkeeps := checkBody_keeps sights_discipline hgo.keeps f signature receiver
  by_cases hlength : signature.params.length = f.params.length
  · rw [Function.sites_eq]
    have hparams := declareParams_finds (around.map Level.opened)
      (rowNames f.body.statements ++ f.params.map (·.name)) f.params [] [] signature.params hlength
    rw [List.append_nil] at hparams
    have hrow := hgo.checkAll f.body.statements (f.params.map (·.name))
      (around.map Level.opened)
    have hbody := Finds.inScope (Finds.bind hparams fun _ =>
      (Finds.inFunction (f.result?.map fun _ => signature.result) receiver hrow).mono
        fun _ h _ => h)
    refine Finds.of_opened hkeeps ?_ haround
    exact (Finds.followed hbody fun _ => sights_discipline.pure _).mono fun _ h _ => h
  · exact .of_keeps hkeeps fun _ _ _ _ h => absurd h hlength

theorem checkEach_finds (l : List Stmt) : ∀ level : Level,
    Finds (level :: levels) (levelAfter level l :: levels) (go.checkEach l)
      fun _ => AllFound notes (sitesOfRow (level :: levels) l) := by
  induction l with
  | nil =>
    intro level
    rw [sitesOfRow]
    exact .pure .nil
  | cons s rest ih =>
    intro level
    rw [sitesOfRow]
    have hrest := ih ⟨s.declared ++ level.made, s.names ++ level.here, level.ever⟩
    have hafter : levelAfter ⟨s.declared ++ level.made, s.names ++ level.here, level.ever⟩ rest =
        levelAfter level (s :: rest) := by
      unfold levelAfter
      rw [List.reverse_cons, List.flatMap_append, List.flatMap_append, List.append_assoc,
        List.append_assoc, List.flatMap_singleton, List.flatMap_singleton]
    rw [hafter] at hrest
    exact (Finds.both (hgo.check s level levels) fun _ => hrest).mono fun _ h => .append h

theorem checkHoisted_finds {around : List Level}
    (haround : ∀ k : Knowledge, k.Sighted levels → k.Sighted (around.map Level.opened))
    (hoisted : List (Function × Signature)) :
    Finds levels levels (go.checkHoisted hoisted) fun _ => ∀ entry ∈ hoisted,
      entry.2.params.length = entry.1.params.length → AllFound notes (entry.1.sites around) := by
  induction hoisted with
  | nil => exact .pure fun _ h => absurd h List.not_mem_nil
  | cons first rest ih =>
    obtain ⟨f, signature⟩ := first
    have hrest : Finds levels levels (go.checkHoisted rest) fun _ =>
        (signature.params.length = f.params.length → AllFound notes (f.sites around)) →
          ∀ entry ∈ (f, signature) :: rest, entry.2.params.length = entry.1.params.length →
            AllFound notes (entry.1.sites around) :=
      ih.mono fun _ h hfirst => List.forall_mem_cons.mpr ⟨hfirst, h⟩
    rw [checkHoisted]
    refine Finds.bind
      (Finds.inferring f.position (checkBody_finds hgo haround f signature .unknown)) fun _ => ?_
    split
    · refine Finds.preceded (awaitsResult_keeps sights_discipline f _) fun awaits => ?_
      split
      · exact Finds.preceded (refine_keeps_sights _ _) fun _ => hrest
      · exact hrest
    · exact hrest

/-- The bodies of the functions of a row are checked when all its names are
there. -/
theorem rowRule_finds (l : List Stmt) (params : List String) (levels : List Level) :
    Finds (⟨params, params, rowNames l ++ params⟩ :: levels)
      (levelAfter (rowLevel params l) l :: levels) (go.rowRule l)
      fun _ => AllFound notes (rowSites levels params l) := by
  -- at the end of the row all its names are there, as the levels of its functions say
  have hend : ∀ k : Knowledge, k.Sighted (levelAfter (rowLevel params l) l :: levels) →
      k.Sighted ((rowLevel params l :: levels).map Level.opened) := by
    intro k hk
    have hopened := hk.opened
    rw [List.map_cons] at hopened ⊢
    refine hopened.weaken ?_ ?_
    · exact fun name hname => List.mem_append_right _ hname
    · intro name hname
      rcases List.mem_append.mp hname with hname | hname
      · rcases List.mem_append.mp hname with hname | hname
        · obtain ⟨s, hs, hname⟩ := List.mem_flatMap.mp hname
          refine List.mem_append_right _ (List.mem_append_left _ ?_)
          exact List.mem_flatMap.mpr ⟨s, List.mem_reverse.mp hs, hname⟩
        · exact List.mem_append_left _ hname
      · exact List.mem_append_right _ hname
  unfold rowRule
  refine Finds.bind (hoist_finds (rowNames l ++ params) l params params) fun hoisted => ?_
  refine Finds.bind (checkEach_finds hgo l (rowLevel params l)) fun _ => ?_
  -- the functions are checked unless the row is looked at ahead of its turn
  refine Finds.get (fun k => ?_) fun k hahead => ?_
  · split
    · exact checkHoisted_keeps sights_discipline hgo.keeps hoisted
    · exact sights_discipline.lift (sights_discipline.pure _)
  · rw [if_pos hahead]
    refine (checkHoisted_finds hgo hend hoisted).mono fun _ hfunctions hrow hhoisted => ?_
    refine AllFound.append ⟨fun site hsite => ?_, hrow⟩
    obtain ⟨definition, hmem, hsite⟩ := mem_sitesOfFunctions.mp hsite
    obtain ⟨entry, hentry, rfl, hlength⟩ := hhoisted definition hmem
    exact hfunctions entry hentry hlength site hsite

theorem checkBlock_finds (b : Block) (levels : List Level) :
    Finds levels levels (go.checkBlock b) fun _ => AllFound notes (b.sites levels []) := by
  rw [Block.sites_eq]
  exact Finds.inScope (hgo.checkAll b.statements [] levels)

/-! ### Expressions -/

theorem mapM_finds (arguments : List Expr) (levels : List Level) :
    Finds levels levels
      (arguments.mapM fun argument => do
        return (← go.typeOf argument, argument.position))
      fun _ => AllFound notes (sitesOfEach levels arguments) := by
  induction arguments with
  | nil =>
    rw [sitesOfEach, List.mapM_nil]
    exact .pure .nil
  | cons argument rest ih =>
    rw [sitesOfEach, List.mapM_cons]
    have hfirst := Finds.followed (hgo.typeOf argument levels)
      fun type => sights_discipline.pure (type, argument.position)
    exact (Finds.both hfirst fun _ => Finds.followed ih fun _ => sights_discipline.pure _).mono
      fun _ h => .append h

theorem typeOfCall_finds (callee : Expr) (arguments : List Expr) (position : Position)
    (levels : List Level) :
    Finds levels levels (go.typeOfCall callee arguments position)
      fun _ => AllFound notes (callee.sites levels ++ sitesOfEach levels arguments) := by
  unfold typeOfCall
  refine Finds.mono (P := fun _ =>
    AllFound notes (callee.sites levels) ∧ AllFound notes (sitesOfEach levels arguments))
    (Finds.both (hgo.typeOf callee levels) fun type =>
      Finds.followed (mapM_finds hgo arguments levels) fun found => ?_) fun _ h => .append h
  exact resultOfCall_keeps sights_discipline type found _ _

/-- The name of a site is found, or the site is in a function whose body is left
for later. -/
def LeftTo (notes : Notes) (levels : List Level) (methods : List Method) (sites : List Site) :
    Prop :=
  ∀ site ∈ sites, site.IsFound notes ∨ ∃ method ∈ methods,
    method.signature.params.length = method.definition.params.length ∧
      site ∈ method.definition.sites levels

omit hgo in
theorem LeftTo.append {methods others : List Method} {l l' : List Site}
    (h : LeftTo notes levels methods l) (h' : LeftTo notes levels others l') :
    LeftTo notes levels (methods ++ others) (l ++ l') := by
  intro site hsite
  rcases List.mem_append.mp hsite with hsite | hsite
  · rcases h site hsite with hfound | ⟨method, hmem, hmethod⟩
    · exact .inl hfound
    · exact .inr ⟨method, List.mem_append_left _ hmem, hmethod⟩
  · rcases h' site hsite with hfound | ⟨method, hmem, hmethod⟩
    · exact .inl hfound
    · exact .inr ⟨method, List.mem_append_right _ hmem, hmethod⟩

omit hgo in
/-- What is found out of the others stays found out behind a property that has a type. -/
theorem fieldsBehind_finds {rest : List Field} {P : Shape × List Method → Prop}
    (hrest : ∀ shape, Finds levels levels (go.fieldTypes shape rest) P) (field : Field)
    (shape : Shape) (type : Ty) (methods : List Method) :
    Finds levels levels (go.fieldsBehind field rest shape type methods) fun found =>
      ∃ others, P (found.1, others) ∧ found.2 = methods ++ others := by
  have d := sights_discipline
  have hothers : ∀ extended, Finds levels levels (do
      let found ← go.fieldTypes extended rest
      return (found.1, methods ++ found.2)) fun found =>
        ∃ others, P (found.1, others) ∧ found.2 = methods ++ others := fun extended =>
    Finds.bind (hrest extended) fun found => .pure fun h => ⟨found.2, h, rfl⟩
  unfold fieldsBehind
  split
  · exact Finds.preceded (d.report _ _) fun _ => Finds.preceded (d.pure _) hothers
  · exact Finds.preceded (d.pure _) hothers

theorem fieldTypes_finds (levels : List Level) (fields : List Field) : ∀ shape : Shape,
    Finds levels levels (go.fieldTypes shape fields)
      fun found => LeftTo notes levels found.2 (sitesOfFields levels fields) := by
  induction fields with
  | nil =>
    intro shape
    rw [sitesOfFields]
    exact .pure fun site h => absurd h List.not_mem_nil
  | cons field rest ih =>
    intro shape
    obtain ⟨name, value, position⟩ := field
    have hbehind := fieldsBehind_finds ih ⟨name, value, position⟩ shape
    rw [fieldTypes_cons, sitesOfFields, Field.sites]
    dsimp only
    split
    · next f =>
      rw [Expr.sites]
      refine Finds.bind (signature_finds f) fun signature =>
        (hbehind (.function signature) [⟨name, f, signature⟩]).mono fun found hfound hlength => ?_
      obtain ⟨others, hothers, hmethods⟩ := hfound
      rw [hmethods]
      refine LeftTo.append (fun site hsite => ?_) hothers
      exact .inr ⟨_, List.mem_cons_self .., hlength, hsite⟩
    · refine Finds.bind (hgo.typeOf value levels) fun type =>
        (hbehind type []).mono fun found hfound hvalue => ?_
      obtain ⟨others, hothers, hmethods⟩ := hfound
      rw [hmethods]
      exact LeftTo.append (fun site hsite => .inl (hvalue site hsite)) hothers

theorem checkMethods_finds (levels : List Level) (methods : List Method) : ∀ shape : Shape,
    Finds levels levels (go.checkMethods shape methods)
      fun _ => ∀ method ∈ methods,
        method.signature.params.length = method.definition.params.length →
          AllFound notes (method.definition.sites levels) := by
  induction methods with
  | nil => exact fun shape => .pure fun _ h => absurd h List.not_mem_nil
  | cons method rest ih =>
    intro shape
    rw [checkMethods]
    refine Finds.bind
      (checkBody_finds hgo (fun _ hk => hk.opened) method.definition method.signature _)
      fun result => ?_
    exact (ih _).mono fun _ h hfirst => List.forall_mem_cons.mpr ⟨hfirst, h⟩

/-- The rule of expressions finds what its parts do, other than for a
reference, which has no parts. -/
theorem exprRule_finds (e : Expr) (hname : ∀ name position, e ≠ .reference name position)
    (levels : List Level) :
    Finds levels levels (go.exprRule e) fun _ => AllFound notes (e.sites levels) := by
  have d := sights_discipline
  have hkeeps := exprRule_keeps d hgo.keeps e
  unfold exprRule at hkeeps ⊢
  cases e with
  | literal value position =>
    rw [Expr.sites]
    exact .of_keeps hkeeps fun _ _ _ _ => .nil
  | reference name position => exact absurd rfl (hname name position)
  | receiver position =>
    rw [Expr.sites]
    exact .of_keeps hkeeps fun _ _ _ _ => .nil
  | unary op operand position =>
    rw [Expr.sites]
    exact Finds.followed (hgo.typeOf operand levels) fun _ =>
      d.bind (expect_keeps d _ _ _) fun _ => d.pure _
  | binary left op right position =>
    rw [Expr.sites]
    exact (Finds.both (hgo.typeOf left levels) fun _ =>
      Finds.followed (hgo.typeOf right levels) fun _ =>
        typeOfBinary_keeps d _ _ _ _).mono fun _ h => .append h
  | assign target op? value position =>
    rw [Expr.sites]
    refine Finds.mono (P := fun _ =>
      AllFound notes (target.sites levels) ∧ AllFound notes (value.sites levels))
      (Finds.both (hgo.typeOf target levels) fun expected =>
        Finds.followed (hgo.typeOf value levels) fun given => ?_) fun _ h => .append h
    exact resultOfAssign_keeps d expected given op? value position
  | update target op isBefore position =>
    rw [Expr.sites]
    exact Finds.followed (hgo.typeOf target levels) fun _ =>
      d.bind (expect_keeps d _ _ _) fun _ => d.pure _
  | call callee arguments position =>
    rw [Expr.sites]
    exact typeOfCall_finds hgo callee arguments position levels
  | member object property position =>
    rw [Expr.sites]
    exact Finds.followed (hgo.typeOf object levels) fun _ => typeOfProperty_keeps d _ _ _
  | object fields position =>
    rw [Expr.sites]
    refine Finds.bind (fieldTypes_finds hgo levels fields []) fun found => ?_
    refine (Finds.followed (checkMethods_finds hgo levels found.2 found.1)
      fun _ => d.pure _).mono fun _ hmethods hleft site hsite => ?_
    -- a site is in a value that is typed at once, or in a method, which waits for the whole object
    rcases hleft site hsite with hfound | ⟨method, hmem, hlength, hsite⟩
    · exact hfound
    · exact hmethods method hmem hlength site hsite
  | function f =>
    rw [Expr.sites]
    refine Finds.bind (signature_finds f) fun signature => ?_
    exact Finds.followed (checkBody_finds hgo (fun _ hk => hk.opened) f signature .unknown)
      fun _ => d.pure _

/-! ### Statements -/

theorem checkCondition_finds (condition : Expr) (levels : List Level) :
    Finds levels levels (go.checkCondition condition)
      fun _ => AllFound notes (condition.sites levels) :=
  Finds.followed (hgo.typeOf condition levels) fun _ => expect_keeps sights_discipline _ _ _

theorem loopRest_finds (update? : Option Expr) (body : Block) (levels : List Level) :
    Finds levels levels (go.loopRest update? body)
      fun _ => AllFound notes (sitesOfOption levels update? ++ body.sites levels []) := by
  have hbody := checkBlock_finds hgo body levels
  cases update? with
  | none => exact hbody
  | some update =>
    exact (Finds.both (Finds.followed (hgo.typeOf update levels) fun _ =>
      sights_discipline.pure _) fun _ => hbody).mono fun _ h => .append h

theorem loopRound_finds (condition? update? : Option Expr) (body : Block) (levels : List Level) :
    Finds levels levels (go.loopRound condition? update? body)
      fun _ => AllFound notes (sitesOfOption levels condition? ++
        sitesOfOption levels update? ++ body.sites levels []) := by
  have hrest := loopRest_finds hgo update? body levels
  rw [List.append_assoc]
  cases condition? with
  | none => exact hrest
  | some condition =>
    exact (Finds.both (checkCondition_finds hgo condition levels) fun _ => hrest).mono
      fun _ h => .append h

theorem variable_finds (name : String) (type? : Option TypeExpr) (value? : Option Expr)
    (position : Position) (l : Level) (levels : List Level) :
    Finds (l :: levels) ((Stmt.variable name type? value? position).after (l :: levels))
      (go.stmtRule (.variable name type? value? position))
      fun _ => AllFound notes ((Stmt.variable name type? value? position).sites (l :: levels)) := by
  have d := sights_discipline
  have hvalue : Finds (l :: levels) (l :: levels) (value?.mapM go.typeOf)
      fun _ => AllFound notes (sitesOfOption (l :: levels) value?) := by
    cases value? with
    | none => exact .pure .nil
    | some value => exact Finds.followed (hgo.typeOf value _) fun _ => d.pure _
  rw [Stmt.sites]
  refine Finds.preceded ?_ fun declared? => Finds.bind hvalue fun found? => ?_
  · cases type? with
    | none => exact d.pure _
    | some type => exact d.bind (readType_keeps d type) fun _ => d.pure _
  · have henter : ∀ type : Ty, Finds (l :: levels)
        ((Stmt.variable name type? value? position).after (l :: levels))
        (Check.enter name ⟨type, position, none⟩)
        fun _ => AllFound notes (sitesOfOption (l :: levels) value?) →
          AllFound notes (sitesOfOption (l :: levels) value?) :=
      fun type => (Finds.enter l name ⟨type, position, none⟩).mono fun _ _ h => h
    split
    · exact Finds.preceded (expect_keeps d _ _ _) fun _ => henter _
    · exact henter _

omit hgo in
theorem noteGiven_keeps_sights (type : Ty) (blamed position : Position) :
    Check.Keeps SameSights (go.noteGiven type blamed position) := by
  have d := sights_discipline
  refine d.bind d.get fun k => ?_
  split
  · exact d.report _ _
  · split
    · exact d.bind (expect_keeps d _ _ _) fun _ => noteReturn_keeps_sights _
    · exact noteReturn_keeps_sights _

theorem giveBack_finds (value? : Option Expr) (position : Position) (levels : List Level) :
    Finds levels levels (go.stmtRule (.giveBack value? position))
      fun _ => AllFound notes ((Stmt.giveBack value? position).sites levels) := by
  rw [Stmt.sites]
  cases value? with
  | some value =>
    exact Finds.followed (hgo.typeOf value _) fun type => noteGiven_keeps_sights type _ _
  | none => exact .of_keeps (noteGiven_keeps_sights .void _ _) fun _ _ _ _ => .nil

theorem branch_finds (condition : Expr) (body : Block) (otherwise? : Option Stmt)
    (position : Position) (l : Level) (levels : List Level) :
    Finds (l :: levels) ((Stmt.branch condition body otherwise? position).after (l :: levels))
      (go.stmtRule (.branch condition body otherwise? position))
      fun _ => AllFound notes
        ((Stmt.branch condition body otherwise? position).sites (l :: levels)) := by
  have d := sights_discipline
  cases otherwise? with
  | none =>
    rw [Stmt.sites]
    exact (Finds.both (checkCondition_finds hgo condition _) fun _ =>
      Finds.followed (checkBlock_finds hgo body _) fun _ => d.pure _).mono
        fun _ h => AllFound.append h
  | some otherwise =>
    have hotherwise : Finds (l :: levels)
        ((Stmt.branch condition body (some otherwise) position).after (l :: levels))
        (go.check otherwise) fun _ => AllFound notes (otherwise.sites (l :: levels)) :=
      (hgo.check otherwise l levels).weaken fun k hk =>
        hk.weaken (fun _ h => List.mem_append_right _ h) fun _ h => h
    rw [Stmt.sites]
    refine Finds.mono (P := fun _ => AllFound notes (condition.sites (l :: levels)) ∧
      AllFound notes (body.sites (l :: levels) []) ∧
        AllFound notes (otherwise.sites (l :: levels))) ?_ fun _ h => ?_
    · exact Finds.both (checkCondition_finds hgo condition _) fun _ =>
        Finds.both (checkBlock_finds hgo body _) fun _ => hotherwise
    · exact .append ⟨.append ⟨h.1, h.2.1⟩, h.2.2⟩

/-- The rule of statements finds what its parts do. -/
theorem stmtRule_finds (s : Stmt) (l : Level) (levels : List Level) :
    Finds (l :: levels) (s.after (l :: levels)) (go.stmtRule s)
      fun _ => AllFound notes (s.sites (l :: levels)) := by
  cases s with
  | «variable» name type? value? position =>
    exact variable_finds hgo name type? value? position l levels
  | function f =>
    rw [Stmt.sites]
    refine (Finds.pure .nil).weaken fun k hk => hk.weaken (fun _ h => h) fun _ h => ?_
    exact List.mem_append_right _ h
  | interface declaration =>
    rw [Stmt.sites]
    exact .pure .nil
  | expression e position =>
    rw [Stmt.sites]
    exact Finds.followed (hgo.typeOf e _) fun _ => sights_discipline.pure _
  | giveBack value? position => exact giveBack_finds hgo value? position _
  | branch condition body otherwise? position =>
    exact branch_finds hgo condition body otherwise? position l levels
  | block b =>
    rw [Stmt.sites]
    exact checkBlock_finds hgo b _
  | loop init? condition? update? body position =>
    cases init? with
    | none =>
      rw [Stmt.sites]
      exact Finds.inScope (loopRound_finds hgo condition? update? body _)
    | some init =>
      rw [Stmt.sites]
      have hround := loopRound_finds hgo condition? update? body
        (init.after (⟨[], [], init.names⟩ :: l :: levels))
      exact (Finds.inScope (Finds.both (hgo.check init ⟨[], [], init.names⟩ (l :: levels))
        fun _ => hround)).mono fun _ h => AllFound.append h
  | repeatWhile condition body position =>
    rw [Stmt.sites]
    exact (Finds.both (checkCondition_finds hgo condition _) fun _ =>
      checkBlock_finds hgo body _).mono fun _ h => .append h

end Rules

end Checker

/-! ## Checks that keep to notes -/

/-- A name is known if a scope has it. -/
theorem Knowledge.isSome_address? (k : Knowledge) (name : String) :
    (address? k.sights name).isSome = (k.lookup? name).isSome := by
  unfold Knowledge.sights Knowledge.lookup?
  induction k.scopes with
  | nil => rfl
  | cons scope rest ih =>
    rw [List.map_cons, List.findSome?_cons]
    cases hget : scope.get? name with
    | some binding => rw [address?_of_has (congrArg Option.isSome hget)]; rfl
    | none =>
      rw [address?_of_has_not (congrArg Option.isSome hget), Option.isSome_map]
      exact ih

section Knot

variable {notes : Notes}

theorem Check.of_heeding {e : Expr} {x : Check Ty} {k k' : Knowledge} {type : Ty}
    (h : Check.heeding notes e x k = .ok type k') :
    (k.ahead = 0 → notes.allow k.sights e = true) ∧ x k = .ok type k' := by
  have hget : Check.heeding notes e x k =
      (if k.ahead = 0 && !notes.allow k.sights e then throw .descent else x : Check Ty) k := rfl
  rw [hget] at h
  split at h
  · cases h
  · next hallow =>
    refine ⟨fun hahead => ?_, h⟩
    rw [hahead, decide_eq_true rfl, Bool.true_and, Bool.not_eq_true', Bool.not_eq_false] at hallow
    exact hallow

theorem Check.heeding_keeps_sights (e : Expr) {x : Check Ty} (hx : Keeps SameSights x) :
    Keeps SameSights (Check.heeding notes e x) :=
  fun k type k' h => hx k type k' (of_heeding h).2

theorem Check.Finds.heeding {levels after : List Level} {P : Ty → Prop} {e : Expr} {x : Check Ty}
    (h : Finds levels after x P) : Finds levels after (Check.heeding notes e x) P where
  keeps k type k' hx := h.keeps k type k' (of_heeding hx).2
  finds k type k' hx := h.finds k type k' (of_heeding hx).2

/-- A name that is looked up is reported if no scope has it, and else found
where the notes allow it. -/
theorem Checker.reference_finds {go : Checker}
    (hgo : go.Keeps Check.SameSights Check.SameOuterSights) (name : String) (position : Position)
    (levels : List Level) :
    Check.Finds levels levels
      (Check.heeding notes (.reference name position) (go.typeOfName name position))
      fun _ => AllFound notes [⟨name, position, levels⟩] where
  keeps := Check.sights_discipline.lift (Check.heeding_keeps_sights _
    (typeOfName_keeps Check.sights_discipline hgo name position))
  finds k type k' h hclean hahead hk := by
    obtain ⟨hallow, h⟩ := Check.of_heeding h
    have hsame := typeOfName_keeps Check.sights_discipline hgo name position k type k' h
    refine ⟨?_, ?_⟩
    · -- a clean check has found the name, and the notes allow the place where it is
      have hknown : (k.lookup? name).isSome = true := by
        cases hlookup : k.lookup? name with
        | some binding => rfl
        | none =>
          unfold typeOfName at h
          rw [Check.get_bind, hlookup] at h
          obtain ⟨_, k₁, hreport, h⟩ := bind_eq_ok.mp h
          rw [(Check.pure_eq_ok.mp h).2] at hclean
          exact absurd hclean (not_clean_of_report hreport)
      rw [← k.isSome_address?] at hknown
      obtain ⟨i, hi⟩ := Option.isSome_iff_exists.mp hknown
      have hnoted : ((address? k.sights name).all (notes name position)) = true := hallow hahead
      rw [hi] at hnoted
      intro site hsite
      rw [List.mem_singleton.mp hsite]
      exact ⟨i, Site.mem_candidates ⟨name, position, levels⟩ hk hi, hnoted⟩
    · unfold Knowledge.Sighted
      rw [hsame.sights]
      exact hk

variable {table : Table} {effort : Nat}

/-- The checker that keeps to notes finds the names of all sites, whatever the
fuel. -/
theorem checkerNoted_finds (notes : Notes) (table : Table) (effort fuel : Nat) :
    (checkerNoted notes table effort fuel).FindsSites notes := by
  induction fuel with
  | zero =>
    have hnone : ∀ {α : Type} {R : Knowledge → Knowledge → Prop},
        Check.Keeps R (throw .descent : Check α) := by
      intro α R k a k' h
      cases h
    refine ⟨.mk (fun _ => hnone) (fun _ => hnone) fun _ => hnone, fun _ _ => ⟨hnone, ?_⟩,
      fun _ _ _ => ⟨hnone, ?_⟩, fun _ _ _ => ⟨hnone, ?_⟩⟩ <;>
    · intro k a k' h
      cases h
  | succ fuel ih =>
    have d := Check.sights_discipline
    refine ⟨.mk (fun e => ?_) (Checker.stmtRule_keeps d ih.keeps)
        (Checker.rowRule_keeps d ih.keeps), fun e levels => ?_, Checker.stmtRule_finds ih,
      Checker.rowRule_finds ih⟩
    · exact Check.heeding_keeps_sights e (Checker.exprRule_keeps d ih.keeps e)
    · by_cases hname : ∃ name position, e = .reference name position
      · obtain ⟨name, position, rfl⟩ := hname
        rw [Expr.sites]
        exact Checker.reference_finds ih.keeps name position levels
      · refine (Checker.exprRule_finds ih e (fun name position heq => ?_) levels).heeding
        exact hname ⟨name, position, heq⟩

end Knot

/-- A check without a diagnostic that keeps to notes finds the name of each site
of the program in a scope that is noted, and in which it may be found. -/
theorem Program.isFound_of_checksWithin {program : Program} {notes : Notes} {effort fuel : Nat}
    (hcheck : program.check effort fuel = .ok [])
    (hnotes : program.ChecksWithin notes effort fuel) : AllFound notes program.sites := by
  unfold ChecksWithin at hnotes
  rw [← hnotes] at hcheck
  obtain ⟨-, u, k, hwhole, hclean⟩ := clean_of_checkBy hcheck
  have hfinds := Check.Finds.inScope
    ((checkerNoted_finds notes program.table effort fuel).checkAll program.statements []
      [Level.builtin])
  refine (hfinds.finds Knowledge.initial u k hwhole hclean rfl ?_).1
  refine .cons ⟨fun name hname => ?_, fun name hname => ?_⟩ .nil
  · rw [List.mem_singleton.mp hname]
    rfl
  · exact of_decide_eq_true ((Record.has_ofList _ name).symm.trans hname)

end TypedScript
