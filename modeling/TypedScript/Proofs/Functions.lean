import TypedScript.Proofs.InSight

/-!
# The functions of a program

A program defines functions at any depth: in declarations, as values, among the
properties of objects, and inside other functions. A survey that a program passes has
come to each of them (`passes_of_mem_row`), and the functions that a run
makes are among them (`Program.definition_mem_functions`).
-/

namespace TypedScript

mutual

/-- The functions in an expression. -/
def Expr.functions : Expr → List Function
  | .literal _ _ | .reference _ _ | .receiver _ => []
  | .unary _ operand _ => operand.functions
  | .binary left _ right _ => left.functions ++ right.functions
  | .assign target _ value _ => target.functions ++ value.functions
  | .update target _ _ _ => target.functions
  | .call callee arguments _ => callee.functions ++ functionsOfEach arguments
  | .member object _ _ => object.functions
  | .object fields _ => functionsOfFields fields
  | .function definition => definition.functions

/-- The functions in some expressions. -/
def functionsOfEach : List Expr → List Function
  | [] => []
  | e :: rest => e.functions ++ functionsOfEach rest

/-- The functions in an expression that may be missing. -/
def functionsOfOption : Option Expr → List Function
  | none => []
  | some e => e.functions

/-- The functions in the value of a property. -/
def Field.functions : Field → List Function
  | ⟨_, value, _⟩ => value.functions

/-- The functions in the values of properties. -/
def functionsOfFields : List Field → List Function
  | [] => []
  | field :: rest => field.functions ++ functionsOfFields rest

/-- A function and those in its body. -/
def Function.functions : Function → List Function
  | ⟨name?, params, result?, body, position⟩ =>
    ⟨name?, params, result?, body, position⟩ :: body.functions

/-- The functions in a block. -/
def Block.functions : Block → List Function
  | ⟨statements, _⟩ => functionsOfRow statements

/-- The functions in a statement. -/
def Stmt.functions : Stmt → List Function
  | .variable _ _ value? _ => functionsOfOption value?
  | .function definition => definition.functions
  | .interface _ => []
  | .expression e _ => e.functions
  | .giveBack value? _ => functionsOfOption value?
  | .branch condition body none _ => condition.functions ++ body.functions
  | .branch condition body (some otherwise) _ =>
    condition.functions ++ (body.functions ++ otherwise.functions)
  | .block b => b.functions
  | .loop none condition? update? body _ =>
    functionsOfOption condition? ++ (functionsOfOption update? ++ body.functions)
  | .loop (some init) condition? update? body _ =>
    init.functions ++ (functionsOfOption condition? ++
      (functionsOfOption update? ++ body.functions))
  | .repeatWhile condition body _ => condition.functions ++ body.functions

/-- The functions in statements one after the other. -/
def functionsOfRow : List Stmt → List Function
  | [] => []
  | s :: rest => s.functions ++ functionsOfRow rest

end

/-- The functions that a program defines, at any depth. -/
def Program.functions (program : Program) : List Function :=
  functionsOfRow program.statements

/-! ## What a survey has come to -/

section Surveyed

variable {I : Type} {S : Survey I} {f : Function}

set_option linter.unusedSectionVars false in
mutual

theorem Expr.passes_of_mem : ∀ {e : Expr} {i : I}, e.passes S i = true → f ∈ e.functions →
    ∃ j, f.passes S j = true
  | .literal _ _, _, _, hf | .reference _ _, _, _, hf | .receiver _, _, _, hf =>
    absurd hf List.not_mem_nil
  | .unary _ _ _, _, h, hf | .update _ _ _ _, _, h, hf | .member _ _ _, _, h, hf => by
    rw [Expr.passes, Bool.and_eq_true] at h
    rw [Expr.functions] at hf
    exact Expr.passes_of_mem h.2 hf
  | .binary _ _ _ _, _, h, hf | .assign _ _ _ _, _, h, hf => by
    rw [Expr.passes, Bool.and_eq_true, Bool.and_eq_true] at h
    rw [Expr.functions, List.mem_append] at hf
    exact hf.elim (Expr.passes_of_mem h.2.1) (Expr.passes_of_mem h.2.2)
  | .call _ _ _, _, h, hf => by
    rw [Expr.passes, Bool.and_eq_true, Bool.and_eq_true] at h
    rw [Expr.functions, List.mem_append] at hf
    exact hf.elim (Expr.passes_of_mem h.2.1) (passes_of_mem_each h.2.2)
  | .object _ _, _, h, hf => by
    rw [Expr.passes, Bool.and_eq_true] at h
    rw [Expr.functions] at hf
    exact passes_of_mem_fields h.2 hf
  | .function _, _, h, hf => by
    rw [Expr.passes, Bool.and_eq_true] at h
    rw [Expr.functions] at hf
    exact Function.passes_of_mem h.2 hf

theorem passes_of_mem_each : ∀ {l : List Expr} {i : I}, eachPasses S i l = true →
    f ∈ functionsOfEach l → ∃ j, f.passes S j = true
  | [], _, _, hf => absurd hf List.not_mem_nil
  | _ :: _, _, h, hf => by
    rw [eachPasses, Bool.and_eq_true] at h
    rw [functionsOfEach, List.mem_append] at hf
    exact hf.elim (Expr.passes_of_mem h.1) (passes_of_mem_each h.2)

theorem passes_of_mem_option : ∀ {e? : Option Expr} {i : I}, optionPasses S i e? = true →
    f ∈ functionsOfOption e? → ∃ j, f.passes S j = true
  | none, _, _, hf => absurd hf List.not_mem_nil
  | some _, _, h, hf => by
    rw [optionPasses] at h
    rw [functionsOfOption] at hf
    exact Expr.passes_of_mem h hf

theorem passes_of_mem_fields : ∀ {l : List Field} {i : I}, fieldsPass S i l = true →
    f ∈ functionsOfFields l → ∃ j, f.passes S j = true
  | [], _, _, hf => absurd hf List.not_mem_nil
  | ⟨_, _, _⟩ :: _, _, h, hf => by
    rw [fieldsPass, Bool.and_eq_true, Field.passes] at h
    rw [functionsOfFields, List.mem_append, Field.functions] at hf
    exact hf.elim (Expr.passes_of_mem h.1) (passes_of_mem_fields h.2)

theorem Function.passes_of_mem : ∀ {g : Function} {i : I}, g.passes S i = true →
    f ∈ g.functions → ∃ j, f.passes S j = true
  | ⟨_, _, _, _, _⟩, i, h, hf => by
    rw [Function.functions, List.mem_cons] at hf
    rcases hf with rfl | hf
    · exact ⟨i, h⟩
    · rw [Function.passes, Bool.and_eq_true] at h
      exact Block.passes_of_mem h.2 hf

theorem Block.passes_of_mem : ∀ {b : Block} {i : I}, b.passesAt S i = true →
    f ∈ b.functions → ∃ j, f.passes S j = true
  | ⟨_, _⟩, _, h, hf => by
    rw [Block.passesAt] at h
    rw [Block.functions] at hf
    exact passes_of_mem_row h hf

theorem Stmt.passes_of_mem : ∀ {s : Stmt} {i : I}, s.passes S i = true → f ∈ s.functions →
    ∃ j, f.passes S j = true
  | .variable _ _ _ _, _, h, hf => by
    rw [Stmt.passes, Bool.and_eq_true, Bool.and_eq_true] at h
    rw [Stmt.functions] at hf
    exact passes_of_mem_option h.2.2 hf
  | .function _, _, h, hf => by
    rw [Stmt.passes, Bool.and_eq_true, Bool.and_eq_true] at h
    rw [Stmt.functions] at hf
    exact Function.passes_of_mem h.2.2 hf
  | .interface _, _, _, hf => absurd hf List.not_mem_nil
  | .expression _ _, _, h, hf => by
    rw [Stmt.passes, Bool.and_eq_true] at h
    rw [Stmt.functions] at hf
    exact Expr.passes_of_mem h.2 hf
  | .giveBack _ _, _, h, hf => by
    rw [Stmt.passes, Bool.and_eq_true] at h
    rw [Stmt.functions] at hf
    exact passes_of_mem_option h.2 hf
  | .branch _ _ none _, _, h, hf | .repeatWhile _ _ _, _, h, hf => by
    rw [Stmt.passes, Bool.and_eq_true, Bool.and_eq_true] at h
    rw [Stmt.functions, List.mem_append] at hf
    exact hf.elim (Expr.passes_of_mem h.2.1) (Block.passes_of_mem h.2.2)
  | .branch _ _ (some _) _, _, h, hf => by
    rw [Stmt.passes, Bool.and_eq_true, Bool.and_eq_true, Bool.and_eq_true] at h
    rw [Stmt.functions, List.mem_append, List.mem_append] at hf
    exact hf.elim (Expr.passes_of_mem h.2.1) fun hf =>
      hf.elim (Block.passes_of_mem h.2.2.1) (Stmt.passes_of_mem h.2.2.2)
  | .block _, _, h, hf => by
    rw [Stmt.passes, Bool.and_eq_true] at h
    rw [Stmt.functions] at hf
    exact Block.passes_of_mem h.2 hf
  | .loop none _ _ _ _, _, h, hf => by
    rw [Stmt.passes, Bool.and_eq_true, Bool.and_eq_true, Bool.and_eq_true] at h
    rw [Stmt.functions, List.mem_append, List.mem_append] at hf
    exact hf.elim (passes_of_mem_option h.2.1) fun hf =>
      hf.elim (passes_of_mem_option h.2.2.1) (Block.passes_of_mem h.2.2.2)
  | .loop (some _) _ _ _ _, _, h, hf => by
    rw [Stmt.passes, Bool.and_eq_true, Bool.and_eq_true, Bool.and_eq_true,
      Bool.and_eq_true] at h
    rw [Stmt.functions, List.mem_append, List.mem_append, List.mem_append] at hf
    exact hf.elim (Stmt.passes_of_mem h.2.1) fun hf =>
      hf.elim (passes_of_mem_option h.2.2.1) fun hf =>
        hf.elim (passes_of_mem_option h.2.2.2.1) (Block.passes_of_mem h.2.2.2.2)

theorem passes_of_mem_row : ∀ {l : List Stmt} {i : I}, rowPasses S i l = true →
    f ∈ functionsOfRow l → ∃ j, f.passes S j = true
  | [], _, _, hf => absurd hf List.not_mem_nil
  | _ :: _, _, h, hf => by
    rw [rowPasses, Bool.and_eq_true] at h
    rw [functionsOfRow, List.mem_append] at hf
    exact hf.elim (Stmt.passes_of_mem h.1) (passes_of_mem_row h.2)

end

end Surveyed

/-! ## Surveys of functions only -/

/-- The survey that asks of functions only, wherever they are. -/
def Survey.ofFunctions (p : Function → Bool) : Survey (List String) :=
  { Survey.anyNames with function := fun _ f => p f }

section Surveying

variable {p : Function → Bool} {i : List String}

set_option linter.unusedSectionVars false in
mutual

theorem Expr.passes_ofFunctions : ∀ {e : Expr} {i : List String},
    (∀ f ∈ e.functions, p f = true) → e.passes (.ofFunctions p) i = true
  | .literal _ _, _, _ | .reference _ _, _, _ | .receiver _, _, _ => rfl
  | .unary _ _ _, _, h | .update _ _ _ _, _, h | .member _ _ _, _, h => by
    rw [Expr.functions] at h
    rw [Expr.passes, Expr.passes_ofFunctions h]
    rfl
  | .binary _ _ _ _, _, h | .assign _ _ _ _, _, h => by
    rw [Expr.functions, List.forall_mem_append] at h
    rw [Expr.passes, Expr.passes_ofFunctions h.1, Expr.passes_ofFunctions h.2]
    rfl
  | .call _ _ _, _, h => by
    rw [Expr.functions, List.forall_mem_append] at h
    rw [Expr.passes, Expr.passes_ofFunctions h.1, eachPasses_ofFunctions h.2]
    rfl
  | .object _ _, _, h => by
    rw [Expr.functions] at h
    rw [Expr.passes, fieldsPass_ofFunctions h]
    rfl
  | .function _, _, h => by
    rw [Expr.functions] at h
    rw [Expr.passes, Function.passes_ofFunctions h]
    rfl

theorem eachPasses_ofFunctions : ∀ {l : List Expr} {i : List String},
    (∀ f ∈ functionsOfEach l, p f = true) → eachPasses (.ofFunctions p) i l = true
  | [], _, _ => rfl
  | _ :: _, _, h => by
    rw [functionsOfEach, List.forall_mem_append] at h
    rw [eachPasses, Expr.passes_ofFunctions h.1, eachPasses_ofFunctions h.2]
    rfl

theorem optionPasses_ofFunctions : ∀ {e? : Option Expr} {i : List String},
    (∀ f ∈ functionsOfOption e?, p f = true) → optionPasses (.ofFunctions p) i e? = true
  | none, _, _ => rfl
  | some _, _, h => by
    rw [functionsOfOption] at h
    rw [optionPasses, Expr.passes_ofFunctions h]

theorem fieldsPass_ofFunctions : ∀ {l : List Field} {i : List String},
    (∀ f ∈ functionsOfFields l, p f = true) → fieldsPass (.ofFunctions p) i l = true
  | [], _, _ => rfl
  | ⟨_, _, _⟩ :: _, _, h => by
    rw [functionsOfFields, List.forall_mem_append, Field.functions] at h
    rw [fieldsPass, Field.passes, Expr.passes_ofFunctions h.1, fieldsPass_ofFunctions h.2]
    rfl

theorem Function.passes_ofFunctions : ∀ {g : Function} {i : List String},
    (∀ f ∈ g.functions, p f = true) → g.passes (.ofFunctions p) i = true
  | ⟨_, _, _, _, _⟩, _, h => by
    rw [Function.functions, List.forall_mem_cons] at h
    rw [Function.passes, Block.passesAt_ofFunctions h.2, Bool.and_true]
    exact h.1

theorem Block.passesAt_ofFunctions : ∀ {b : Block} {i : List String},
    (∀ f ∈ b.functions, p f = true) → b.passesAt (.ofFunctions p) i = true
  | ⟨_, _⟩, _, h => by
    rw [Block.functions] at h
    rw [Block.passesAt, rowPasses_ofFunctions h]

theorem Stmt.passes_ofFunctions : ∀ {s : Stmt} {i : List String},
    (∀ f ∈ s.functions, p f = true) → s.passes (.ofFunctions p) i = true
  | .variable _ _ _ _, _, h | .giveBack _ _, _, h => by
    rw [Stmt.functions] at h
    rw [Stmt.passes, optionPasses_ofFunctions h]
    rfl
  | .function _, _, h => by
    rw [Stmt.functions] at h
    rw [Stmt.passes, Function.passes_ofFunctions h]
    rfl
  | .interface _, _, _ => rfl
  | .expression _ _, _, h => by
    rw [Stmt.functions] at h
    rw [Stmt.passes, Expr.passes_ofFunctions h]
    rfl
  | .branch _ _ none _, _, h | .repeatWhile _ _ _, _, h => by
    rw [Stmt.functions, List.forall_mem_append] at h
    rw [Stmt.passes, Expr.passes_ofFunctions h.1, Block.passesAt_ofFunctions h.2]
    rfl
  | .branch _ _ (some _) _, _, h => by
    rw [Stmt.functions, List.forall_mem_append, List.forall_mem_append] at h
    rw [Stmt.passes, Expr.passes_ofFunctions h.1, Block.passesAt_ofFunctions h.2.1,
      Stmt.passes_ofFunctions h.2.2]
    rfl
  | .block _, _, h => by
    rw [Stmt.functions] at h
    rw [Stmt.passes, Block.passesAt_ofFunctions h]
    rfl
  | .loop none _ _ _ _, _, h => by
    rw [Stmt.functions, List.forall_mem_append, List.forall_mem_append] at h
    rw [Stmt.passes, optionPasses_ofFunctions h.1, optionPasses_ofFunctions h.2.1,
      Block.passesAt_ofFunctions h.2.2]
    rfl
  | .loop (some _) _ _ _ _, _, h => by
    rw [Stmt.functions, List.forall_mem_append, List.forall_mem_append,
      List.forall_mem_append] at h
    rw [Stmt.passes, Stmt.passes_ofFunctions h.1, optionPasses_ofFunctions h.2.1,
      optionPasses_ofFunctions h.2.2.1, Block.passesAt_ofFunctions h.2.2.2]
    rfl

theorem rowPasses_ofFunctions : ∀ {l : List Stmt} {i : List String},
    (∀ f ∈ functionsOfRow l, p f = true) → rowPasses (.ofFunctions p) i l = true
  | [], _, _ => rfl
  | _ :: _, _, h => by
    rw [functionsOfRow, List.forall_mem_append] at h
    rw [rowPasses, Stmt.passes_ofFunctions h.1, rowPasses_ofFunctions h.2]
    rfl

end

end Surveying

/-- The survey that asks of functions only, at the one index there is. -/
def Survey.ofEach (p : Function → Bool) : Survey Unit :=
  { Survey.nothing with function := fun _ f => p f }

theorem Survey.ofFunctions_refines_ofEach (p : Function → Bool) :
    (ofFunctions p).Refines (ofEach p) (fun _ _ => True) fun _ _ => True :=
  ⟨fun _ => trivial, fun _ _ => rfl, fun _ _ => rfl, fun _ h => h, fun _ _ => rfl,
    fun _ _ => trivial, fun _ => trivial⟩

theorem Function.functions_eq (f : Function) :
    f.functions = f :: functionsOfRow f.body.statements := by
  obtain ⟨name?, params, result?, ⟨statements, place⟩, position⟩ := f
  rfl

theorem Function.of_passes_ofEach {p : Function → Bool} {f : Function}
    (h : f.passes (.ofEach p) () = true) : p f = true := by
  rw [Function.passes_eq, Bool.and_eq_true] at h
  exact h.1

/-- A row passes if each of its functions is as it is asked for. -/
theorem rowPasses_ofEach_iff {p : Function → Bool} {l : List Stmt} :
    rowPasses (.ofEach p) () l = true ↔ ∀ f ∈ functionsOfRow l, p f = true := by
  refine ⟨fun h f hf => ?_, fun h => ?_⟩
  · obtain ⟨_, hpasses⟩ := passes_of_mem_row h hf
    exact Function.of_passes_ofEach hpasses
  · exact rowPasses_refine (Survey.ofFunctions_refines_ofEach p) trivial
      (rowPasses_ofFunctions (i := []) h)

/-- A function passes if it is as it is asked for, and each of those in its body. -/
theorem Function.passes_ofEach_iff {p : Function → Bool} {f : Function} :
    f.passes (.ofEach p) () = true ↔ ∀ g ∈ f.functions, p g = true := by
  have hbody := rowPasses_ofEach_iff (p := p) (l := f.body.statements)
  rw [Function.passes_eq, Function.functions_eq, List.forall_mem_cons, Bool.and_eq_true]
  exact and_congr_right fun _ => hbody

/-! ## Functions in functions -/

/-- With a function a list has all those in its body, in their order. -/
def Function.SpansIn (f : Function) (l : List Function) : Prop :=
  f ∈ l → f.functions.Sublist l

namespace Function.SpansIn

variable {f : Function} {l l' : List Function}

theorem nil : f.SpansIn [] := fun hf => absurd hf List.not_mem_nil

theorem append (h : f.SpansIn l) (h' : f.SpansIn l') : f.SpansIn (l ++ l') := by
  intro hf
  rcases List.mem_append.mp hf with hf | hf
  · exact (h hf).trans (List.sublist_append_left l l')
  · exact (h' hf).trans (List.sublist_append_right l l')

end Function.SpansIn

section Spanning

variable {f : Function}

set_option linter.unusedSectionVars false in
mutual

theorem Expr.functions_span : ∀ e : Expr, f.SpansIn e.functions
  | .literal _ _ | .reference _ _ | .receiver _ => .nil
  | .unary _ operand _ | .update operand _ _ _ | .member operand _ _ => operand.functions_span
  | .binary left _ right _ | .assign left _ right _ =>
    left.functions_span.append right.functions_span
  | .call callee arguments _ => callee.functions_span.append (functionsOfEach_span arguments)
  | .object fields _ => functionsOfFields_span fields
  | .function definition => definition.functions_span

theorem functionsOfEach_span : ∀ l : List Expr, f.SpansIn (functionsOfEach l)
  | [] => .nil
  | e :: rest => e.functions_span.append (functionsOfEach_span rest)

theorem functionsOfOption_span : ∀ e? : Option Expr, f.SpansIn (functionsOfOption e?)
  | none => .nil
  | some e => e.functions_span

theorem functionsOfFields_span : ∀ l : List Field, f.SpansIn (functionsOfFields l)
  | [] => .nil
  | ⟨_, value, _⟩ :: rest => value.functions_span.append (functionsOfFields_span rest)

theorem Function.functions_span : ∀ g : Function, f.SpansIn g.functions
  | ⟨_, _, _, body, _⟩ => by
    intro hf
    rcases List.mem_cons.mp hf with rfl | hf
    · exact List.Sublist.refl _
    · exact (body.functions_span hf).cons _

theorem Block.functions_span : ∀ b : Block, f.SpansIn b.functions
  | ⟨statements, _⟩ => functionsOfRow_span statements

theorem Stmt.functions_span : ∀ s : Stmt, f.SpansIn s.functions
  | .variable _ _ value? _ | .giveBack value? _ => functionsOfOption_span value?
  | .function definition => definition.functions_span
  | .interface _ => .nil
  | .expression e _ => e.functions_span
  | .branch condition body none _ | .repeatWhile condition body _ =>
    condition.functions_span.append body.functions_span
  | .branch condition body (some otherwise) _ =>
    condition.functions_span.append (body.functions_span.append otherwise.functions_span)
  | .block b => b.functions_span
  | .loop none condition? update? body _ =>
    (functionsOfOption_span condition?).append
      ((functionsOfOption_span update?).append body.functions_span)
  | .loop (some init) condition? update? body _ =>
    init.functions_span.append ((functionsOfOption_span condition?).append
      ((functionsOfOption_span update?).append body.functions_span))

/-- With each function a row has all those in its body, in their order. -/
theorem functionsOfRow_span : ∀ l : List Stmt, f.SpansIn (functionsOfRow l)
  | [] => .nil
  | s :: rest => s.functions_span.append (functionsOfRow_span rest)

end

end Spanning

/-! ## Functions in a run -/

theorem Survey.ofFunctions_asks (p : Function → Bool) :
    (ofFunctions p).AsksForSight fun _ => True :=
  { anyNames_asks with hoisted := .inr fun _ _ => rfl }

section Running

variable {S : Survey (List String)}

/-- A function that is there is one that passes a survey, if each of those is that meet. -/
theorem Discipline.Meet.definition_passes {w : { s : Store // s.Ordered }} {m n : Machine}
    (h : (Discipline.inSight fun _ => True).Meet S w m n) {id : ClosureId} {c : Closure}
    (hc : m.store.closure? id = some c) : ∃ i, c.definition.passes S i = true := by
  have hrel := h.closures id
  rw [hc] at hrel
  generalize n.store.closure? id = d? at hrel
  cases hrel with
  | some htwins =>
    obtain ⟨_, _, i, hpasses, _⟩ := htwins
    exact ⟨i, hpasses⟩

/-- The machine that a run of a program has reached when it ends, in whichever way. -/
def Program.reached (program : Program) (limit steps : Nat) : Machine :=
  Run.endOf (program.exec limit steps) Machine.initial

theorem Program.wellFormed_reached (program : Program) (limit steps : Nat) :
    (program.reached limit steps).WellFormed := by
  have hrow := Machine.wellFormed_initial.execStatements limit steps program.statements
  have heq : program.reached limit steps =
      Run.endOf ((evaluator limit steps).execStatements program.statements) Machine.initial := by
    unfold Program.reached Program.exec
    cases hexec : (evaluator limit steps).execStatements program.statements Machine.initial with
    | ok completion m =>
      rw [Run.endOf_of_ok hexec]
      exact Run.endOf_of_ok (bind_of_ok hexec)
    | error halt m =>
      rw [Run.endOf_of_error hexec]
      exact Run.endOf_of_error (bind_of_error hexec)
  rwa [heq]

/-- The functions that a run makes are among those of the program. -/
theorem Program.definition_mem_functions (program : Program) (limit steps : Nat) {id : ClosureId}
    {c : Closure}
    (hc : (program.reached limit steps).store.closure? id = some c) :
    c.definition ∈ program.functions := by
  classical
  have hD := Discipline.lawful_inSight
    (Survey.ofFunctions_asks fun f => decide (f ∈ program.functions)) fun _ _ => trivial
  -- the survey asks of each function that it is one of the program, and keeps watch over closures
  have hpasses : rowPasses (.ofFunctions fun f => decide (f ∈ program.functions)) []
      program.statements = true := rowPasses_ofFunctions fun f hf => decide_eq_true hf
  have hnone : ∀ id c, Machine.initial.store.closure? id = some c →
      c.definition.passes (.ofFunctions fun f => decide (f ∈ program.functions)) [] = true := by
    intro id c hc
    have hnone : Machine.initial.store.closure? id = none :=
      Array.getElem?_eq_none (Nat.zero_le _)
    rw [hnone] at hc
    cases hc
  have hlater : ∀ {w : { s : Store // s.Ordered }} {m n : Machine},
      (Discipline.inSight fun _ => True).Meet
        (.ofFunctions fun f => decide (f ∈ program.functions)) w m n →
      m.store.closure? id = some c → c.definition ∈ program.functions := by
    intro w m n hmeet hc
    obtain ⟨i, hdefinition⟩ := hmeet.definition_passes hc
    rw [Function.passes_eq, Bool.and_eq_true] at hdefinition
    exact of_decide_eq_true hdefinition.1
  have hlimits : (Discipline.inSight fun _ => True).Limits limit limit :=
    ⟨Nat.le_refl _, fun _ _ => trivial, fun _ => .inl ⟨rfl, trivial⟩⟩
  cases agree_of_similar hD (evaluator_similar hD hlimits
      (.inl ⟨rfl, trivial⟩ : (Discipline.inSight fun _ => True).Fuels steps steps)) hpasses
      (Machine.wellFormed_initial.meet_inSight hnone)
      ⟨rfl, Machine.wellFormed_initial.frame, fun _ hname => absurd hname List.not_mem_nil⟩ with
  | ok hexec _ _ _ _ hmeet _ =>
    rw [show program.reached limit steps = _ from Run.endOf_of_ok hexec] at hc
    exact hlater hmeet hc
  | halt hexec _ _ _ hmeet =>
    rw [show program.reached limit steps = _ from Run.endOf_of_error hexec] at hc
    exact hlater hmeet hc
  | cutLeft _ hcut _ => exact hcut.elim
  | cutRight _ hcut _ => exact hcut.elim

end Running

end TypedScript
