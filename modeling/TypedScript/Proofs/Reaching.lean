import TypedScript.Proofs.Steady

/-!
# Where a run finds names

Two evaluators `Accord` if what they do with the parts of a program is steady,
as long as the sites in these are noted. Each rule of evaluation then is steady
as well, so by induction on the fuel an evaluator accords with the one that
keeps to notes (`evaluator_accords`).
-/

namespace TypedScript

open Run

/-- Two evaluators that do the same with parts whose sites are noted, and keep to
plans. -/
structure Evaluator.Accord (notes : Notes) (go go' : Evaluator) : Prop where
  eval : ∀ e levels, AllNoted notes (e.sites levels) →
    Steady notes levels levels (go.eval e) (go'.eval e)
  exec : ∀ s l levels, AllNoted notes (s.sites (l :: levels)) →
    (∀ name ∈ s.names, name ∈ l.ever) →
      Steady notes (l :: levels) (s.after (l :: levels)) (go.exec s) (go'.exec s)
  loop : ∀ condition? update? body l levels,
    AllNoted notes (sitesOfOption (l :: levels) condition? ++
      sitesOfOption (l :: levels) update? ++ body.sites (l :: levels) []) →
    ∀ plan m f, Stands notes (fun _ => False) plan m.store f (l :: levels) →
      Alike (go.loop f condition? update? body) (go'.loop f condition? update? body) m
        fun _ m' => m'.frame = m.frame ∧ ∃ plan', Planned notes (fun _ => False) plan' m'.store ∧
          Later (· = f) plan plan' m.store m'.store
  repeatWhile : ∀ condition body levels,
    AllNoted notes (condition.sites levels ++ body.sites levels []) →
      Steady notes levels levels (go.repeatWhile condition body) (go'.repeatWhile condition body)

namespace Evaluator

section Rules

variable {notes : Notes} {go go' : Evaluator} (hgo : Accord notes go go') {levels : List Level}
include hgo

/-! ## Statements in a row -/

omit hgo in
/-- Functions are made before all names in their sight are there, so they have
to wait. -/
theorem hoist_waits (waits : Closure → Prop) {plan : Plan} {ever : List String} {f : FrameId}
    (l : List Stmt) :
    ∀ (m : Machine) (made here : List String), m.frame = f →
      Stands notes waits plan m.store f (⟨made, here, ever⟩ :: levels) →
      (∀ definition, Stmt.function definition ∈ l → ∀ name?, waits ⟨definition, f, name?⟩) →
      (∀ name ∈ functionNames l, name ∈ ever) →
      ∃ m', hoist l m = .ok () m' ∧ m'.frame = f ∧
        Stands notes waits plan m'.store f
          (⟨functionNames l ++ made, functionNames l ++ here, ever⟩ :: levels) ∧
        Later (· = f) plan plan m.store m'.store := by
  induction l with
  | nil => exact fun m made here hm h _ _ => ⟨m, rfl, hm, h, .refl _ _ _⟩
  | cons s rest ih =>
    intro m made here hm h hwaits hever
    have hwaits' : ∀ definition, Stmt.function definition ∈ rest →
        ∀ name?, waits ⟨definition, f, name?⟩ :=
      fun definition hmem => hwaits definition (List.mem_cons_of_mem _ hmem)
    cases s with
    | function definition =>
      rw [functionNames] at hever ⊢
      cases hname : definition.name? with
      | none =>
        rw [hname] at hever
        -- a function without a name is not hoisted
        have hhoist : hoist (.function definition :: rest) m = hoist rest m := by
          rw [hoist, hname]
        rw [hhoist]
        exact ih m made here hm h hwaits' hever
      | some name =>
        rw [hname] at hever
        -- the closure is made, then it is bound in the frame that it was made in
        have hmade := h.planned.newClosure
          (.inl (hwaits definition (List.mem_cons_self ..) (some name)))
        obtain ⟨hfirst, hlater⟩ := (h.unchanged hmade.1 hmade.2).define
          (hever name (List.mem_cons_self ..))
          (.closure (m.store.newClosure ⟨definition, f, some name⟩).1)
        obtain ⟨m', hrest, hframe, hstands, hlater'⟩ :=
          ih { m with store := ((m.store.newClosure ⟨definition, f, some name⟩).2.define f name
            (.closure (m.store.newClosure ⟨definition, f, some name⟩).1)) } (name :: made)
            (name :: here) hm hfirst hwaits' fun name hname => hever name
              (List.mem_cons_of_mem _ hname)
        refine ⟨m', ?_, hframe, hstands.weaken ?_ ?_ rfl, ?_⟩
        · rw [hoist, hname, ← hrest, ← hm]
          rfl
        · exact fun name hname => List.perm_middle.symm.subset hname
        · exact fun name hname => List.perm_middle.subset hname
        · refine ((hmade.2.mono fun _ hnot => hnot.elim).trans hlater fun _ _ _ hg => hg).trans
            hlater' fun _ _ _ hg => hg
    | _ => exact ih m made here hm h hwaits' hever

omit hgo in
/-- When all functions of a row are made, they have in their sight what they
need. -/
theorem hoist_steady (l : List Stmt) (params : List String) (levels : List Level)
    (hnoted : AllNoted notes (sitesOfFunctions (rowLevel params l :: levels) l)) :
    Steady notes (⟨params, params, rowNames l ++ params⟩ :: levels) (rowLevel params l :: levels)
      (hoist l) (hoist l) := by
  intro plan m h
  obtain ⟨m', hhoist, hframe, hstands, hlater⟩ := hoist_waits
    (fun c => c.frame = m.frame ∧ Stmt.function c.definition ∈ l) l m params params rfl
    ⟨h.planned.unsettle _, h.now⟩ (fun definition hmem name? => ⟨rfl, hmem⟩)
    fun name hname => List.mem_append_left _ (rowNames_of_functionNames hname)
  refine .refl fun a m'' hm'' => ?_
  rw [hhoist] at hm''
  cases hm''
  have hsettled : Planned notes (fun _ => False) plan m'.store := by
    refine hstands.planned.settle fun c hc => ?_
    obtain ⟨definition, frame, name?⟩ := c
    obtain ⟨rfl, hmem⟩ := hc
    refine hstands.isNoted name? fun site hsite => hnoted site ?_
    exact mem_sitesOfFunctions.mpr ⟨definition, hmem, hsite⟩
  refine ⟨hframe, plan, ⟨hsettled, ?_⟩, hlater⟩
  rw [hframe]
  exact hstands.now

/-- Statements one after the other. They may end early, so it is not certain
which names are there then. -/
theorem execEach_steady (l : List Stmt) : ∀ level : Level,
    AllNoted notes (sitesOfRow (level :: levels) l) →
    (∀ s ∈ l, ∀ name ∈ s.names, name ∈ level.ever) →
    Steady notes (level :: levels) (level.opened :: levels) (go.execEach l) (go'.execEach l) := by
  induction l with
  | nil =>
    intro level _ _
    exact (Steady.pure Completion.normal).weaken (fun _ h => h)
      (fun _ h => List.mem_append_left _ h) rfl
  | cons s rest ih =>
    intro level hnoted hever
    rw [sitesOfRow] at hnoted
    obtain ⟨hfirst, hrest⟩ := AllNoted.append.mp hnoted
    have hnames := hever s (List.mem_cons_self ..)
    -- the names that the first statement leaves are among those of the row
    have hopened : ∀ name ∈ s.names ++ level.here, name ∈ level.opened.here := by
      intro name hname
      rcases List.mem_append.mp hname with hname | hname
      · exact List.mem_append_right _ (hnames name hname)
      · exact List.mem_append_left _ hname
    refine (hgo.exec s level levels hfirst hnames).bind fun completion => ?_
    cases completion with
    | normal =>
      have hafter := ih ⟨s.declared ++ level.made, s.names ++ level.here, level.ever⟩ hrest
        fun other hother => hever other (List.mem_cons_of_mem _ hother)
      refine hafter.weaken (fun _ h => List.mem_append_right _ h) (fun name hname => ?_) rfl
      rcases List.mem_append.mp hname with hname | hname
      · exact hopened name hname
      · exact List.mem_append_right _ hname
    -- the rest is not executed, so its names may be missing
    | gaveBack value =>
      exact (Steady.pure (Completion.gaveBack value)).weaken
        (fun _ h => List.mem_append_right _ h) hopened rfl

/-- Statements in a row, in a frame with the names of parameters. -/
theorem execStatements_steady (l : List Stmt) (params : List String) (levels : List Level)
    (hnoted : AllNoted notes (rowSites levels params l)) :
    Steady notes (⟨params, params, rowNames l ++ params⟩ :: levels)
      ((rowLevel params l).opened :: levels) (go.execStatements l) (go'.execStatements l) := by
  obtain ⟨hfunctions, hrow⟩ := AllNoted.append.mp hnoted
  refine (hoist_steady l params levels hfunctions).bind fun _ => ?_
  refine execEach_steady hgo l (rowLevel params l) hrow fun s hs name hname => ?_
  exact List.mem_append_left _ (rowNames_of_mem hs hname)

/-- A block runs in a frame of its own. -/
theorem execBlock_steady (b : Block) (levels : List Level)
    (hnoted : AllNoted notes (b.sites levels [])) :
    Steady notes levels levels (go.execBlock b) (go'.execBlock b) := by
  intro plan m h
  rw [Block.sites_eq] at hnoted
  have hempty : Level.Bounds ⟨[], [], rowNames b.statements ++ []⟩
      (Frame.sight ⟨.empty, some m.frame, false, none⟩) :=
    ⟨fun name hname => absurd hname List.not_mem_nil,
      fun name hname => absurd hname Bool.false_ne_true⟩
  obtain ⟨hstands, hlater⟩ := h.newFrame rfl hempty fun name hname =>
    absurd hname List.not_mem_nil
  have hchild : newChild m = .ok (m.store.childFrame m.frame).1
      { m with store := (m.store.childFrame m.frame).2 } := rfl
  refine Alike.step hchild ?_
  refine ((execStatements_steady hgo b.statements [] levels hnoted).inFrame hstands).mono
    fun completion m' hm' => ?_
  obtain ⟨hframe, plan', hstands', hlater'⟩ := hm'
  exact .of_unchanged h hframe hstands'.planned (hlater.inside (m.store.frame?_fresh _) hlater')

/-! ## Calls -/

/-- A call runs in a new frame inside that in which the function was made. -/
theorem callClosure_alike (limit : Nat) {c : Closure} (receiver? : Option Value)
    (arguments : List Value) (position : Position) {plan : Plan} {m : Machine}
    (h : Ready notes plan m levels) (hc : c ∈ m.store.closures) :
    Alike (go.callClosure limit c receiver? arguments position)
      (go'.callClosure limit c receiver? arguments position) m
      fun _ m' => Reaches notes plan m levels m' := by
  unfold callClosure
  refine Alike.bind (Q := fun _ m' => m' = m) (.refl fun _ m' hm' => ?_) ?_
  · unfold requireArity at hm'
    split at hm' <;> cases hm'
    rfl
  intro _ m' hm'
  rw [hm']
  have hget : (get : Run Machine) m = .ok m m := rfl
  refine Alike.step hget ?_
  split
  · exact Alike.bind (Q := fun _ _ => False) .throw fun _ _ hnot => hnot.elim
  -- not the levels of the caller count but those around the frame that the function was made in
  obtain ⟨around, hcaller, hnoted⟩ := Stands.of_closure h.planned hc
  rw [Function.sites_eq] at hnoted
  have hempty : Level.Bounds ⟨[], [], rowNames c.definition.body.statements ++
      c.definition.params.map (·.name)⟩ (Frame.sight ⟨.empty, some c.frame, true, receiver?⟩) :=
    ⟨fun name hname => absurd hname List.not_mem_nil,
      fun name hname => absurd hname Bool.false_ne_true⟩
  obtain ⟨hstands, hlater⟩ := hcaller.newFrame rfl hempty fun name hname =>
    absurd hname List.not_mem_nil
  have hfresh : m.store.frame? (m.store.callFrame c.frame receiver?).1 = none :=
    m.store.frame?_fresh _
  have hmake : make (·.callFrame c.frame receiver?) m =
      .ok (m.store.callFrame c.frame receiver?).1
        { m with store := (m.store.callFrame c.frame receiver?).2 } := rfl
  refine Alike.step hmake ?_
  obtain ⟨hbound, hlater'⟩ := hstands.bindParameters c.definition.params _ arguments [] []
    fun name hname => List.mem_append_right _ hname
  rw [List.append_nil] at hbound
  have hbody := execStatements_steady hgo c.definition.body.statements
    (c.definition.params.map (·.name)) (around.map Level.opened) hnoted
  refine Alike.step (a := ()) rfl ?_
  refine Alike.bind (Q := fun _ m' => Reaches notes plan m levels m') (.deeper ?_) ?_
  · refine (hbody.inFrame hbound).mono fun completion m' hm' => ?_
    -- back in the frame of the caller nothing has changed outside of the new frame
    obtain ⟨hframe, plan', hstands', hlater''⟩ := hm'
    exact .of_unchanged h hframe hstands'.planned
      ((hlater.inside hfresh hlater').inside hfresh hlater'')
  · intro completion m' hreaches
    cases completion with
    | normal => exact .pure hreaches
    | gaveBack value => exact .pure hreaches

theorem call_steady (limit : Nat) (f : Value) (receiver? : Option Value) (arguments : List Value)
    (position : Position) (levels : List Level) :
    Steady notes levels levels (go.call limit f receiver? arguments position)
      (go'.call limit f receiver? arguments position) := by
  unfold call
  cases f with
  | native f =>
    refine .quiet (.bind ?_ fun _ => ?_)
    · unfold requireArity
      split
      · exact .pure _
      · exact .fail _ _
    · cases f
      exact (Quiet.ask _).bind fun line => (Quiet.emit line).bind fun _ => .pure _
  | closure id =>
    intro plan m h
    have hask : ask (·.closure? id) m = .ok (m.store.closure? id) m := rfl
    refine Alike.step hask ?_
    cases hfound : m.store.closure? id with
    | none => exact .throw
    | some c =>
      have hc : c ∈ m.store.closures := by
        obtain ⟨hid, hget⟩ := Array.getElem?_eq_some_iff.mp hfound
        exact hget ▸ Array.getElem_mem hid
      exact callClosure_alike hgo limit receiver? arguments position h hc
  | _ => exact .quiet (.fail _ _)

/-! ## Expressions -/

theorem evalNamed_steady (e : Expr) (name : String) (levels : List Level)
    (hnoted : AllNoted notes (e.sites levels)) :
    Steady notes levels levels (go.evalNamed e name) (go'.evalNamed e name) := by
  unfold evalNamed
  split
  · next definition =>
    split
    · rw [Expr.sites] at hnoted
      exact .makeClosure hnoted (some name)
    · exact hgo.eval _ levels hnoted
  · exact hgo.eval e levels hnoted

theorem evalCondition_steady (e : Expr) (levels : List Level)
    (hnoted : AllNoted notes (e.sites levels)) :
    Steady notes levels levels (go.evalCondition e) (go'.evalCondition e) :=
  (hgo.eval e levels hnoted).followed fun _ => .ofExcept _

theorem resolvePlace_steady (target : Expr) (levels : List Level)
    (hnoted : AllNoted notes (target.sites levels)) :
    Steady notes levels levels (go.resolvePlace target) (go'.resolvePlace target) := by
  cases target with
  | reference name position => exact .pure _
  | member object property position =>
    rw [Expr.sites] at hnoted
    exact (hgo.eval object levels hnoted).followed fun _ => (Quiet.ofExcept _).bind fun _ => .pure _
  | _ => exact .quiet (.fail _ _)

omit hgo in
theorem read_quiet (place : Place) : Quiet place.read := by
  cases place with
  | «variable» name position => exact .lookup name position
  | property object name => exact (Quiet.ask _).bind fun _ => .pure _

omit hgo in
theorem write_quiet (place : Place) (value : Value) : Quiet (place.write value) := by
  cases place with
  | «variable» name position => exact .assign name value position
  | property object name => exact .setProperty object name value

theorem mapM_steady (arguments : List Expr) (levels : List Level)
    (hnoted : AllNoted notes (sitesOfEach levels arguments)) :
    Steady notes levels levels (arguments.mapM go.eval) (arguments.mapM go'.eval) := by
  induction arguments with
  | nil =>
    rw [List.mapM_nil, List.mapM_nil]
    exact .pure _
  | cons argument rest ih =>
    rw [sitesOfEach] at hnoted
    obtain ⟨hfirst, hrest⟩ := AllNoted.append.mp hnoted
    rw [List.mapM_cons, List.mapM_cons]
    exact (hgo.eval argument levels hfirst).bind fun _ => (ih hrest).followed fun _ => .pure _

theorem evalCallee_steady (callee : Expr) (levels : List Level)
    (hnoted : AllNoted notes (callee.sites levels)) :
    Steady notes levels levels (go.evalCallee callee) (go'.evalCallee callee) := by
  unfold evalCallee
  split
  · rw [Expr.sites] at hnoted
    exact (hgo.eval _ levels hnoted).followed fun _ => (Quiet.property _ _ _).bind fun _ => .pure _
  · exact (hgo.eval _ levels hnoted).followed fun _ => .pure _

theorem evalFields_steady (object : ObjectId) (fields : List Field) (levels : List Level)
    (hnoted : AllNoted notes (sitesOfFields levels fields)) :
    Steady notes levels levels (go.evalFields object fields) (go'.evalFields object fields) := by
  induction fields with
  | nil => exact .pure _
  | cons field rest ih =>
    obtain ⟨name, value, position⟩ := field
    rw [sitesOfFields, Field.sites] at hnoted
    obtain ⟨hfirst, hrest⟩ := AllNoted.append.mp hnoted
    exact (evalNamed_steady hgo value name levels hfirst).bind fun given =>
      (Steady.quiet (.setProperty object name given)).bind fun _ => ih hrest

theorem evalLogic_steady (op : BinaryOp) (left right : Expr) (levels : List Level)
    (hnoted : AllNoted notes (left.sites levels ++ right.sites levels)) :
    Steady notes levels levels (go.evalLogic op left right) (go'.evalLogic op left right) := by
  obtain ⟨hleft, hright⟩ := AllNoted.append.mp hnoted
  refine (evalCondition_steady hgo left levels hleft).bind fun first => ?_
  dsimp only
  generalize (if op = .and then !first else first) = decided
  cases decided with
  | true => exact .pure _
  | false => exact (evalCondition_steady hgo right levels hright).followed fun _ => .pure _

/-- The rule of expressions does the same with evaluators that accord. -/
theorem evalRule_steady (limit : Nat) (e : Expr) (levels : List Level)
    (hnoted : AllNoted notes (e.sites levels)) :
    Steady notes levels levels (go.evalRule limit e) (go'.evalRule limit e) := by
  unfold evalRule
  cases e with
  | literal value position => exact .pure _
  | reference name position => exact .quiet (.lookup name position)
  | receiver position => exact .quiet (.receiver position)
  | unary op operand position =>
    rw [Expr.sites] at hnoted
    refine (hgo.eval operand levels hnoted).followed fun value => ?_
    cases op with
    | negate => exact (Quiet.ofExcept _).bind fun _ => .pure _
    | not => exact (Quiet.ofExcept _).bind fun _ => .pure _
  | binary left op right position =>
    rw [Expr.sites] at hnoted
    -- two operators may leave the right operand out, the others evaluate both operands
    have hlogic := evalLogic_steady hgo op left right levels hnoted
    obtain ⟨hleft, hright⟩ := AllNoted.append.mp hnoted
    have hboth : Steady notes levels levels
        (do
          let a ← go.eval left
          let b ← go.eval right
          Run.ofExcept (← ask (Operation.apply · op a b position)))
        (do
          let a ← go'.eval left
          let b ← go'.eval right
          Run.ofExcept (← ask (Operation.apply · op a b position))) :=
      (hgo.eval left levels hleft).bind fun _ => (hgo.eval right levels hright).followed fun _ =>
        (Quiet.ask _).bind fun _ => .ofExcept _
    cases op with
    | and => exact hlogic
    | or => exact hlogic
    | _ => exact hboth
  | assign target op? value position =>
    rw [Expr.sites] at hnoted
    obtain ⟨htarget, hvalue⟩ := AllNoted.append.mp hnoted
    refine (resolvePlace_steady hgo target levels htarget).bind fun place => ?_
    -- only the parts reach functions: reading and writing the place do not
    have hwrite : ∀ result : Value, Quiet (do place.write result; return result) :=
      fun result => (write_quiet place result).bind fun _ => .pure _
    cases op? with
    | some op =>
      exact (Steady.quiet (read_quiet place)).bind fun current =>
        (hgo.eval value levels hvalue).followed fun operand =>
          (Quiet.ask _).bind fun _ => (Quiet.ofExcept _).bind hwrite
    | none => exact (evalNamed_steady hgo value place.name levels hvalue).followed hwrite
  | update target op isBefore position =>
    rw [Expr.sites] at hnoted
    exact (resolvePlace_steady hgo target levels hnoted).followed fun place =>
      (read_quiet place).bind fun _ => (Quiet.ofExcept _).bind fun _ =>
        (write_quiet place _).bind fun _ => .pure _
  | call callee arguments position =>
    rw [Expr.sites] at hnoted
    obtain ⟨hcallee, harguments⟩ := AllNoted.append.mp hnoted
    exact (evalCallee_steady hgo callee levels hcallee).bind fun found =>
      (mapM_steady hgo arguments levels harguments).bind fun values =>
        call_steady hgo limit found.1 found.2 values position levels
  | member object property position =>
    rw [Expr.sites] at hnoted
    exact (hgo.eval object levels hnoted).followed fun _ => .property _ _ _
  | object fields position =>
    rw [Expr.sites] at hnoted
    exact (Steady.quiet .newObject).bind fun object =>
      (evalFields_steady hgo object fields levels hnoted).followed fun _ => .pure _
  | function definition =>
    rw [Expr.sites] at hnoted
    exact .makeClosure hnoted definition.name?

/-! ## Statements and loops -/

theorem execBranch_steady (condition : Expr) (body : Block) (otherwise? : Option Stmt)
    (position : Position) (l : Level) (levels : List Level)
    (hnoted : AllNoted notes
      ((Stmt.branch condition body otherwise? position).sites (l :: levels)))
    (hnames : ∀ name ∈ (Stmt.branch condition body otherwise? position).names, name ∈ l.ever) :
    Steady notes (l :: levels)
      ((Stmt.branch condition body otherwise? position).after (l :: levels))
      (go.execRule (.branch condition body otherwise? position))
      (go'.execRule (.branch condition body otherwise? position)) := by
  cases otherwise? with
  | none =>
    rw [Stmt.sites] at hnoted
    obtain ⟨hcondition, hbody⟩ := AllNoted.append.mp hnoted
    refine (evalCondition_steady hgo condition _ hcondition).bind fun holds => ?_
    cases holds with
    | true => exact execBlock_steady hgo body _ hbody
    | false => exact .pure _
  | some otherwise =>
    rw [Stmt.sites] at hnoted
    obtain ⟨hbefore, hotherwise⟩ := AllNoted.append.mp hnoted
    obtain ⟨hcondition, hbody⟩ := AllNoted.append.mp hbefore
    refine (evalCondition_steady hgo condition _ hcondition).bind fun holds => ?_
    cases holds with
    | true =>
      -- the names that the alternative may leave behind are open after the body as well
      exact (execBlock_steady hgo body _ hbody).weaken (fun _ h => h)
        (fun _ h => List.mem_append_right _ h) rfl
    | false =>
      exact (hgo.exec otherwise l levels hotherwise hnames).weaken
        (fun _ h => List.mem_append_right _ h) (fun _ h => h) rfl

/-- A loop with a header keeps its variables in a frame of their own. -/
theorem execLoop_steady (init? : Option Stmt) (condition? update? : Option Expr) (body : Block)
    (position : Position) (levels : List Level)
    (hnoted : AllNoted notes ((Stmt.loop init? condition? update? body position).sites levels)) :
    Steady notes levels levels (go.execRule (.loop init? condition? update? body position))
      (go'.execRule (.loop init? condition? update? body position)) := by
  intro plan m h
  have hchild : newChild m = .ok (m.store.childFrame m.frame).1
      { m with store := (m.store.childFrame m.frame).2 } := rfl
  have hfresh : m.store.frame? (m.store.childFrame m.frame).1 = none := m.store.frame?_fresh _
  have hempty : ∀ ever : List String, Level.Bounds ⟨[], [], ever⟩
      (Frame.sight ⟨.empty, some m.frame, false, none⟩) := fun ever =>
    ⟨fun name hname => absurd hname List.not_mem_nil,
      fun name hname => absurd hname Bool.false_ne_true⟩
  refine Alike.step hchild ?_
  cases init? with
  | none =>
    rw [Stmt.sites] at hnoted
    obtain ⟨hstands, hlater⟩ := h.newFrame rfl (hempty []) fun _ hname => hname
    refine (hgo.loop condition? update? body ⟨[], [], []⟩ levels hnoted _ _ _ hstands).mono
      fun completion m' hm' => ?_
    obtain ⟨hframe, plan', hplanned, hlater'⟩ := hm'
    exact .of_unchanged h hframe hplanned (hlater.inside hfresh hlater')
  | some init =>
    rw [Stmt.sites] at hnoted
    obtain ⟨hinit, hround⟩ := AllNoted.append.mp hnoted
    obtain ⟨hstands, hlater⟩ := h.newFrame rfl (hempty init.names) fun name hname =>
      absurd hname List.not_mem_nil
    have hfirst := hgo.exec init ⟨[], [], init.names⟩ levels hinit fun _ hname => hname
    refine (hfirst.inFrame hstands).bind fun completion m' hm' => ?_
    obtain ⟨hframe, plan', hstands', hlater'⟩ := hm'
    -- the rounds stand in the frame that the start has been executed in
    refine (hgo.loop condition? update? body ⟨init.declared ++ [], init.names ++ [], init.names⟩
      levels hround _ _ _ hstands').mono fun completion m'' hm'' => ?_
    obtain ⟨hframe', plan'', hplanned, hlater''⟩ := hm''
    exact .of_unchanged h (hframe'.trans hframe) hplanned
      ((hlater.inside hfresh hlater').inside hfresh hlater'')

/-- The rule of statements does the same with evaluators that accord. -/
theorem execRule_steady (s : Stmt) (l : Level) (levels : List Level)
    (hnoted : AllNoted notes (s.sites (l :: levels))) (hnames : ∀ name ∈ s.names, name ∈ l.ever) :
    Steady notes (l :: levels) (s.after (l :: levels)) (go.execRule s) (go'.execRule s) := by
  unfold execRule
  cases s with
  | «variable» name type? value? position =>
    rw [Stmt.sites] at hnoted
    have hdefine : ∀ value : Value, Steady notes (l :: levels) (l.add name :: levels)
        (do Run.define name value; return .normal)
        (do Run.define name value; return Completion.normal) := fun value =>
      (Steady.define (hnames name (List.mem_singleton.mpr rfl)) value).followed fun _ => .pure _
    cases value? with
    | some e => exact (evalNamed_steady hgo e name _ hnoted).bind hdefine
    | none => exact (Steady.pure _).bind hdefine
  | function definition =>
    exact (Steady.pure _).weaken (fun _ h => h) (fun _ h => List.mem_append_right _ h) rfl
  | interface declaration => exact .pure _
  | expression e position =>
    rw [Stmt.sites] at hnoted
    exact (hgo.eval e _ hnoted).followed fun _ => .pure _
  | giveBack value? position =>
    rw [Stmt.sites] at hnoted
    cases value? with
    | some e => exact (hgo.eval e _ hnoted).followed fun _ => .pure _
    | none => exact .pure _
  | branch condition body otherwise? position =>
    exact execBranch_steady hgo condition body otherwise? position l levels hnoted hnames
  | block b =>
    rw [Stmt.sites] at hnoted
    exact execBlock_steady hgo b _ hnoted
  | loop init? condition? update? body position =>
    exact execLoop_steady hgo init? condition? update? body position _ hnoted
  | repeatWhile condition body position =>
    rw [Stmt.sites] at hnoted
    exact hgo.repeatWhile condition body _ hnoted

/-- A round of a loop ends it, or leaves a frame for the next round that is like
the one it started with. -/
theorem loopRound_alike (condition? update? : Option Expr) (body : Block) (l : Level)
    (levels : List Level) (hnoted : AllNoted notes (sitesOfOption (l :: levels) condition? ++
      sitesOfOption (l :: levels) update? ++ body.sites (l :: levels) []))
    {plan : Plan} {m : Machine} {f : FrameId}
    (h : Stands notes (fun _ => False) plan m.store f (l :: levels)) :
    Alike (go.loopRound f condition? update? body) (go'.loopRound f condition? update? body) m
      fun next? m' => m'.frame = m.frame ∧ ∃ plan',
        Planned notes (fun _ => False) plan' m'.store ∧
        Later (· = f) plan plan' m.store m'.store ∧
        ∀ next, next? = .inr next → m.store.frame? next = none ∧
          Stands notes (fun _ => False) plan' m'.store next (l :: levels) := by
  obtain ⟨hheader, hbody⟩ := AllNoted.append.mp hnoted
  obtain ⟨hcondition, hupdate⟩ := AllNoted.append.mp hheader
  have hends : ∀ {plan' : Plan} {m' : Machine} (completion : Completion), m'.frame = m.frame →
      Stands notes (fun _ => False) plan' m'.store f (l :: levels) →
      Later (· = f) plan plan' m.store m'.store →
      m'.frame = m.frame ∧ ∃ plan', Planned notes (fun _ => False) plan' m'.store ∧
        Later (· = f) plan plan' m.store m'.store ∧
        ∀ next, (.inl completion : Completion ⊕ FrameId) = .inr next →
          m.store.frame? next = none ∧
            Stands notes (fun _ => False) plan' m'.store next (l :: levels) := by
    intro plan' m' completion hframe hstands hlater
    refine ⟨hframe, plan', hstands.planned, hlater, fun next heq => ?_⟩
    cases heq
  unfold loopRound
  cases condition?
  case' none =>
    refine Alike.bind (Q := fun _ m' => m'.frame = m.frame ∧ ∃ plan',
      Stands notes (fun _ => False) plan' m'.store f (l :: levels) ∧
        Later (· = f) plan plan' m.store m'.store) (.pure ⟨rfl, plan, h, .refl _ _ _⟩) ?_
  case' some condition =>
    refine ((evalCondition_steady hgo condition _ hcondition).inFrame h).bind ?_
  -- whether or not there is a condition, the round goes on in the same way
  all_goals
    intro goesOn m₁ hpost
    obtain ⟨hframe₁, plan₁, hstands₁, hlater₁⟩ := hpost
    cases goesOn with
    | false => exact .pure (hends .normal hframe₁ hstands₁ hlater₁)
    | true =>
      refine ((execBlock_steady hgo body _ hbody).inFrame hstands₁).bind ?_
      intro completion m₂ hpost
      obtain ⟨hframe₂, plan₂, hstands₂, hlater₂⟩ := hpost
      have hframe := hframe₂.trans hframe₁
      have hlater := hlater₁.trans hlater₂ fun _ _ _ hg => hg
      cases completion with
      | gaveBack value => exact .pure (hends (.gaveBack value) hframe hstands₂ hlater)
      | normal =>
        obtain ⟨hfork, hlater₃⟩ := hstands₂.fork
        have hmake : make (·.fork f) m₂ =
            .ok (m₂.store.fork f).1 { m₂ with store := (m₂.store.fork f).2 } := rfl
        have hfresh : m.store.frame? (m₂.store.fork f).1 = none :=
          hlater.fresh (m₂.store.frame?_fresh _)
        have hlater' := hlater.trans hlater₃ fun _ _ _ hnot => hnot.elim
        refine Alike.step hmake ?_
        cases update? with
        | none =>
          refine .pure ⟨hframe, _, hfork.planned, hlater', fun next heq => ?_⟩
          cases heq
          exact ⟨hfresh, hfork⟩
        | some update =>
          refine ((hgo.eval update _ hupdate).inFrame hfork).bind ?_
          intro value m₃ hpost
          obtain ⟨hframe₃, plan₃, hstands₃, hlater₄⟩ := hpost
          refine .pure ⟨hframe₃.trans hframe, plan₃, hstands₃.planned,
            hlater'.inside hfresh hlater₄, fun next heq => ?_⟩
          cases heq
          exact ⟨hfresh, hstands₃⟩

theorem whileRound_steady (condition : Expr) (body : Block) (levels : List Level)
    (hnoted : AllNoted notes (condition.sites levels ++ body.sites levels [])) :
    Steady notes levels levels (go.whileRound condition body) (go'.whileRound condition body) := by
  obtain ⟨hcondition, hbody⟩ := AllNoted.append.mp hnoted
  refine (evalCondition_steady hgo condition levels hcondition).bind fun goesOn => ?_
  cases goesOn with
  | false => exact .pure _
  | true =>
    refine (execBlock_steady hgo body levels hbody).bind fun completion => ?_
    cases completion with
    | normal => exact .pure _
    | gaveBack value => exact .pure _

end Rules

end Evaluator

/-! ## Any amount of fuel -/

/-- An expression that is evaluated if it finds its name where the notes allow
it is evaluated. -/
theorem Run.heeding_steady {notes : Notes} (refusal : Halt) {e : Expr} {levels : List Level}
    {x y : Run Value} (hnoted : AllNoted notes (e.sites levels))
    (h : Steady notes levels levels x y) :
    Steady notes levels levels x (Run.heeding notes refusal e y) := by
  intro plan m hm
  obtain ⟨heq, hreaches⟩ := h plan m hm
  refine ⟨?_, hreaches⟩
  have hbefore := hm.allow hnoted
  have hheeding : Run.heeding notes refusal e y m =
      (if notes.allow (m.store.sights m.frame) e then do
        let value ← y
        let m ← get
        if notes.allow (m.store.sights m.frame) e then return value else throw refusal
      else throw refusal : Run Value) m := rfl
  rw [hheeding, if_pos hbefore]
  rw [bind_run, heq]
  cases hx : x m with
  | error halt m' => rfl
  | ok value m' =>
    obtain ⟨-, plan', hready, -⟩ := hreaches value m' hx
    have hafter := hready.allow hnoted
    show (if notes.allow (m'.store.sights m'.frame) e then pure value else throw refusal :
      Run Value) m' = _
    rw [if_pos hafter]
    rfl

/-- An evaluator accords with the one that keeps to notes. -/
theorem evaluator_accords (notes : Notes) (refusal : Halt) (limit fuel : Nat) :
    Evaluator.Accord notes (evaluator limit fuel) (evaluatorNoted notes refusal limit fuel) := by
  induction fuel with
  | zero =>
    exact ⟨fun _ _ _ => .outOfFuel, fun _ _ _ _ _ => .outOfFuel, fun _ _ _ _ _ _ _ _ _ _ => .throw,
      fun _ _ _ _ => .outOfFuel⟩
  | succ fuel ih =>
    refine ⟨fun e levels hnoted => ?_, fun s l levels hnoted hnames => ?_,
      fun condition? update? body l levels hnoted plan m f h => ?_,
      fun condition body levels hnoted => ?_⟩
    · exact Run.heeding_steady refusal hnoted (Evaluator.evalRule_steady ih limit e levels hnoted)
    · exact Evaluator.execRule_steady ih s l levels hnoted hnames
    · refine (Evaluator.loopRound_alike ih condition? update? body l levels hnoted h).bind ?_
      intro next? m₁ hpost
      obtain ⟨hframe₁, plan₁, hplanned₁, hlater₁, hnext⟩ := hpost
      cases next? with
      | inl completion => exact .pure ⟨hframe₁, plan₁, hplanned₁, hlater₁⟩
      | inr next =>
        obtain ⟨hfresh, hstands⟩ := hnext next rfl
        refine (ih.loop condition? update? body l levels hnoted plan₁ m₁ next hstands).mono ?_
        intro completion m₂ hpost
        obtain ⟨hframe₂, plan₂, hplanned₂, hlater₂⟩ := hpost
        exact ⟨hframe₂.trans hframe₁, plan₂, hplanned₂, hlater₁.inside hfresh hlater₂⟩
    · refine (Evaluator.whileRound_steady ih condition body levels hnoted).bind fun ended? => ?_
      cases ended? with
      | some completion => exact .pure completion
      | none => exact ih.repeatWhile condition body levels hnoted

/-! ## Whole programs -/

/-- Before a program starts there is one frame, that of the built-in object. It
is planned to have the names that the program declares at its top level. -/
theorem Machine.ready_initial (notes : Notes) {names : List String}
    (hholder : Native.log.holder ∉ names) :
    Ready notes (fun _ => names) Machine.initial [⟨[], [], names⟩, Level.builtin] := by
  -- the name of the built-in object does not count as seen in the outermost frame
  have hsight : ∀ f name, Machine.initial.store.sight f name = false := by
    intro f name
    unfold Store.sight
    cases hframe : Machine.initial.store.frame? f with
    | none => rfl
    | some frame =>
      rw [Machine.frame?_initial hframe, Option.any_some]
      unfold Frame.sight Record.has Record.get?
      rw [List.lookup_cons]
      by_cases heq : name = Native.log.holder
      · rw [heq]
        rfl
      · rw [beq_false_of_ne heq]
        rfl
  have hnone : ∀ f name, Machine.initial.store.sight f name = true → False := by
    intro f name h
    rw [hsight f name] at h
    cases h
  refine ⟨⟨Machine.ordered_initial, fun f name h => (hnone f name h).elim,
    fun _ _ _ _ => hholder, fun c hc => ?_⟩, ?_⟩
  · exact absurd hc (Array.not_mem_empty c)
  · refine .outermost rfl rfl ⟨rfl, fun name hname => ?_, fun name hname => ?_⟩ ⟨?_, ?_⟩
    · exact absurd hname List.not_mem_nil
    · exact (hnone _ name hname).elim
    · intro name hname
      exact decide_eq_true (List.mem_singleton.mp hname)
    · intro name hname
      exact List.mem_singleton.mpr (of_decide_eq_true hname)

/-- If the notes have all scopes in which names may be found, then a run keeps to
them. -/
theorem Program.runsWithin_of_allNoted {program : Program} {notes : Notes}
    (hholder : Native.log.holder ∉ rowNames program.statements)
    (hnoted : AllNoted notes program.sites) (limit fuel : Nat) :
    program.RunsWithin notes limit fuel := by
  intro refusal
  have hready := Machine.ready_initial notes hholder
  rw [← List.append_nil (rowNames program.statements)] at hready
  have hsame := (Evaluator.execStatements_steady (evaluator_accords notes refusal limit fuel)
    program.statements [] [Level.builtin] hnoted _ _ hready).1
  unfold execNoted exec
  rw [bind_run, bind_run, hsame]

end TypedScript
