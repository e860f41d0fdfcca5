import TypedScript.Evaluation

/-!
# Surveys of a program

Many properties of a program ask something of each of its nodes: that it makes no
function, or that the names it mentions are declared by then. What is asked may
depend on where the node stands. A `Survey` says what is asked of expressions and
statements at an index, and how the index changes where a name is declared and
where a frame is entered. A part of a program `passes` a survey if all its nodes
do, each at its own index.

The functions declared in a row of statements are asked for at the place of their
declaration, and a function may be called only after the row has come further. So
the index at which a function is asked for is one of the past.
-/

namespace TypedScript

/-- What is asked of the nodes of a program and of its functions, at an index. -/
structure Survey (I : Type) where
  expr : I → Expr → Bool
  stmt : I → Stmt → Bool
  function : I → Function → Bool
  /-- Whether names may be declared there. -/
  isOpen : I → Bool
  /-- The index once a name is declared. -/
  declare : I → String → I
  /-- The index in a new frame. -/
  enter : I → I

namespace Survey

variable {I : Type}

/-- The index once several names are declared. -/
def declareAll (S : Survey I) (i : I) (names : List String) : I :=
  names.foldl S.declare i

/-- The survey that asks for nothing. -/
def nothing : Survey Unit where
  expr _ _ := true
  stmt _ _ := true
  function _ _ := true
  isOpen _ := true
  declare _ _ := ()
  enter _ := ()

end Survey

section Passing

variable {I : Type} (S : Survey I)

/-- The index after a statement. -/
def Stmt.indexAfter (i : I) (s : Stmt) : I :=
  match s with
  | .variable name _ _ _ => S.declare i name
  | _ => i

mutual

/-- Whether all nodes of an expression are as a survey asks. -/
def Expr.passes (i : I) : Expr → Bool
  | .literal value position => S.expr i (.literal value position)
  | .reference name position => S.expr i (.reference name position)
  | .receiver position => S.expr i (.receiver position)
  | .unary op operand position => S.expr i (.unary op operand position) && operand.passes i
  | .binary left op right position =>
    S.expr i (.binary left op right position) && (left.passes i && right.passes i)
  | .assign target op? value position =>
    S.expr i (.assign target op? value position) && (target.passes i && value.passes i)
  | .update target op isBefore position =>
    S.expr i (.update target op isBefore position) && target.passes i
  | .call callee arguments position =>
    S.expr i (.call callee arguments position) && (callee.passes i && eachPasses i arguments)
  | .member object property position =>
    S.expr i (.member object property position) && object.passes i
  | .object fields position => S.expr i (.object fields position) && fieldsPass i fields
  | .function definition => S.expr i (.function definition) && definition.passes i

/-- Whether all expressions of a list pass. -/
def eachPasses (i : I) : List Expr → Bool
  | [] => true
  | e :: rest => e.passes i && eachPasses i rest

/-- Whether an expression passes that may be missing. -/
def optionPasses (i : I) : Option Expr → Bool
  | none => true
  | some e => e.passes i

/-- Whether the value of a property passes. -/
def Field.passes (i : I) : Field → Bool
  | ⟨_, value, _⟩ => value.passes i

/-- Whether the values of properties pass. -/
def fieldsPass (i : I) : List Field → Bool
  | [] => true
  | field :: rest => field.passes i && fieldsPass i rest

/-- Whether a function passes, with its body, where the parameters are declared. -/
def Function.passes (i : I) : Function → Bool
  | ⟨name?, params, result?, body, position⟩ =>
    S.function i ⟨name?, params, result?, body, position⟩ &&
      body.passesAt (S.declareAll (S.enter i) (params.map (·.name)))

/-- Whether the statements of a block pass, from an index in its frame on. -/
def Block.passesAt (i : I) : Block → Bool
  | ⟨statements, _⟩ => rowPasses i statements

/-- Whether all nodes of a statement are as a survey asks. -/
def Stmt.passes (i : I) : Stmt → Bool
  | .variable name type? value? position =>
    S.stmt i (.variable name type? value? position) && (S.isOpen i && optionPasses i value?)
  | .function definition =>
    S.stmt i (.function definition) && (S.isOpen i && definition.passes i)
  | .interface declaration => S.stmt i (.interface declaration)
  | .expression e position => S.stmt i (.expression e position) && e.passes i
  | .giveBack value? position => S.stmt i (.giveBack value? position) && optionPasses i value?
  | .branch condition body none position =>
    S.stmt i (.branch condition body none position) &&
      (condition.passes i && body.passesAt (S.enter i))
  | .branch condition body (some otherwise) position =>
    S.stmt i (.branch condition body (some otherwise) position) &&
      (condition.passes i && (body.passesAt (S.enter i) && otherwise.passes i))
  | .block b => S.stmt i (.block b) && b.passesAt (S.enter i)
  | .loop none condition? update? body position =>
    S.stmt i (.loop none condition? update? body position) &&
      (optionPasses (S.enter i) condition? &&
        (optionPasses (S.enter i) update? && body.passesAt (S.enter (S.enter i))))
  | .loop (some init) condition? update? body position =>
    S.stmt i (.loop (some init) condition? update? body position) &&
      (init.passes (S.enter i) &&
        (optionPasses (init.indexAfter S (S.enter i)) condition? &&
          (optionPasses (init.indexAfter S (S.enter i)) update? &&
            body.passesAt (S.enter (init.indexAfter S (S.enter i))))))
  | .repeatWhile condition body position =>
    S.stmt i (.repeatWhile condition body position) &&
      (condition.passes i && body.passesAt (S.enter i))

/-- Whether statements one after the other pass. -/
def rowPasses (i : I) : List Stmt → Bool
  | [] => true
  | s :: rest => s.passes i && rowPasses (s.indexAfter S i) rest

end

end Passing

section Passing

variable {I : Type} {S : Survey I} {i : I}

theorem Block.passesAt_eq (b : Block) : b.passesAt S i = rowPasses S i b.statements := by
  obtain ⟨statements, position⟩ := b
  rw [Block.passesAt]

theorem Function.passes_eq (f : Function) : f.passes S i = (S.function i f &&
    rowPasses S (S.declareAll (S.enter i) (f.params.map (·.name))) f.body.statements) := by
  obtain ⟨name?, params, result?, body, position⟩ := f
  rw [Function.passes, Block.passesAt_eq]

theorem Expr.node_of_passes {e : Expr} (h : e.passes S i = true) : S.expr i e = true := by
  cases e <;> rw [Expr.passes] at h
  case literal => exact h
  case reference => exact h
  case receiver => exact h
  all_goals exact (Bool.and_eq_true_iff.mp h).1

theorem Stmt.node_of_passes {s : Stmt} (h : s.passes S i = true) : S.stmt i s = true := by
  cases s with
  | interface declaration => rw [Stmt.passes] at h; exact h
  | branch condition body otherwise? position =>
    cases otherwise? <;> rw [Stmt.passes] at h <;> exact (Bool.and_eq_true_iff.mp h).1
  | loop init? condition? update? body position =>
    cases init? <;> rw [Stmt.passes] at h <;> exact (Bool.and_eq_true_iff.mp h).1
  | _ => rw [Stmt.passes] at h; exact (Bool.and_eq_true_iff.mp h).1

theorem Field.passes_eq (field : Field) : field.passes S i = field.value.passes S i := by
  obtain ⟨name, value, position⟩ := field
  rw [Field.passes]

theorem eachPasses_iff {l : List Expr} :
    eachPasses S i l = true ↔ ∀ e ∈ l, e.passes S i = true := by
  induction l with
  | nil => simp [eachPasses]
  | cons e rest ih => rw [eachPasses, Bool.and_eq_true, ih, List.forall_mem_cons]

theorem fieldsPass_iff {l : List Field} :
    fieldsPass S i l = true ↔ ∀ field ∈ l, field.passes S i = true := by
  induction l with
  | nil => simp [fieldsPass]
  | cons field rest ih => rw [fieldsPass, Bool.and_eq_true, ih, List.forall_mem_cons]

/-- Without an index each statement of a row passes by itself. -/
theorem rowPasses_iff {S : Survey Unit} {l : List Stmt} :
    rowPasses S () l = true ↔ ∀ s ∈ l, s.passes S () = true := by
  induction l with
  | nil => simp [rowPasses]
  | cons s rest ih => rw [rowPasses, Bool.and_eq_true, ih, List.forall_mem_cons]

end Passing

/-! ## The survey that asks for nothing -/

mutual

theorem Expr.passes_nothing : ∀ e : Expr, e.passes .nothing () = true
  | .literal _ _ | .reference _ _ | .receiver _ => rfl
  | .unary _ operand _ => by rw [Expr.passes, Expr.passes_nothing operand]; rfl
  | .binary left _ right _ => by
    rw [Expr.passes, Expr.passes_nothing left, Expr.passes_nothing right]; rfl
  | .assign target _ value _ => by
    rw [Expr.passes, Expr.passes_nothing target, Expr.passes_nothing value]; rfl
  | .update target _ _ _ => by rw [Expr.passes, Expr.passes_nothing target]; rfl
  | .call callee arguments _ => by
    rw [Expr.passes, Expr.passes_nothing callee, eachPasses_nothing arguments]; rfl
  | .member object _ _ => by rw [Expr.passes, Expr.passes_nothing object]; rfl
  | .object fields _ => by rw [Expr.passes, fieldsPass_nothing fields]; rfl
  | .function definition => by rw [Expr.passes, Function.passes_nothing definition]; rfl

theorem eachPasses_nothing : ∀ l : List Expr, eachPasses .nothing () l = true
  | [] => rfl
  | e :: rest => by rw [eachPasses, Expr.passes_nothing e, eachPasses_nothing rest]; rfl

theorem optionPasses_nothing : ∀ e? : Option Expr, optionPasses .nothing () e? = true
  | none => rfl
  | some e => by rw [optionPasses, Expr.passes_nothing e]

theorem Field.passes_nothing : ∀ field : Field, field.passes .nothing () = true
  | ⟨_, value, _⟩ => by rw [Field.passes, Expr.passes_nothing value]

theorem fieldsPass_nothing : ∀ l : List Field, fieldsPass .nothing () l = true
  | [] => rfl
  | field :: rest => by rw [fieldsPass, Field.passes_nothing field, fieldsPass_nothing rest]; rfl

theorem Function.passes_nothing : ∀ f : Function, f.passes .nothing () = true
  | ⟨_, _, _, body, _⟩ => by rw [Function.passes, Block.passesAt_nothing body]; rfl

theorem Block.passesAt_nothing : ∀ b : Block, b.passesAt .nothing () = true
  | ⟨statements, _⟩ => by rw [Block.passesAt, rowPasses_nothing statements]

theorem Stmt.passes_nothing : ∀ s : Stmt, s.passes .nothing () = true
  | .variable _ _ value? _ => by rw [Stmt.passes, optionPasses_nothing value?]; rfl
  | .function definition => by rw [Stmt.passes, Function.passes_nothing definition]; rfl
  | .interface _ => rfl
  | .expression e _ => by rw [Stmt.passes, Expr.passes_nothing e]; rfl
  | .giveBack value? _ => by rw [Stmt.passes, optionPasses_nothing value?]; rfl
  | .branch condition body none _ => by
    rw [Stmt.passes, Expr.passes_nothing condition, Block.passesAt_nothing body]; rfl
  | .branch condition body (some otherwise) _ => by
    rw [Stmt.passes, Expr.passes_nothing condition, Block.passesAt_nothing body,
      Stmt.passes_nothing otherwise]
    rfl
  | .block b => by rw [Stmt.passes, Block.passesAt_nothing b]; rfl
  | .loop none condition? update? body _ => by
    rw [Stmt.passes, optionPasses_nothing condition?, optionPasses_nothing update?,
      Block.passesAt_nothing body]
    rfl
  | .loop (some init) condition? update? body _ => by
    rw [Stmt.passes, Stmt.passes_nothing init, optionPasses_nothing condition?,
      optionPasses_nothing update?, Block.passesAt_nothing body]
    rfl
  | .repeatWhile condition body _ => by
    rw [Stmt.passes, Expr.passes_nothing condition, Block.passesAt_nothing body]; rfl

theorem rowPasses_nothing : ∀ l : List Stmt, rowPasses .nothing () l = true
  | [] => rfl
  | s :: rest => by rw [rowPasses, Stmt.passes_nothing s, rowPasses_nothing rest]; rfl

end

/-! ## Surveys that ask for less -/

/-- Where indices correspond, the second survey asks for no more than the first. An
expression by itself does not ask whether a frame is open, so its indices may
correspond more loosely. -/
structure Survey.Refines {I J : Type} (S : Survey I) (T : Survey J) (R R' : I → J → Prop) :
    Prop where
  loosen : ∀ {i j}, R i j → R' i j
  expr : ∀ {i j e}, R' i j → S.expr i e = true → T.expr j e = true
  stmt : ∀ {i j s}, R i j → S.stmt i s = true → T.stmt j s = true
  function : ∀ {i j f}, R' i j → S.function i f = true → T.function j f = true
  isOpen : ∀ {i j}, R i j → S.isOpen i = true → T.isOpen j = true
  declare : ∀ {i j} name, R i j → R (S.declare i name) (T.declare j name)
  enter : ∀ {i j}, R' i j → R (S.enter i) (T.enter j)

section Refining

variable {I J : Type} {S : Survey I} {T : Survey J} {R R' : I → J → Prop}
  (hST : S.Refines T R R')
include hST

theorem Survey.Refines.declareAll {i : I} {j : J} (hij : R i j) (names : List String) :
    R (S.declareAll i names) (T.declareAll j names) := by
  induction names generalizing i j with
  | nil => exact hij
  | cons name rest ih => exact ih (hST.declare name hij)

theorem Survey.Refines.indexAfter {i : I} {j : J} (hij : R i j) (s : Stmt) :
    R (s.indexAfter S i) (s.indexAfter T j) := by
  cases s <;> first | exact hij | exact hST.declare _ hij

set_option linter.unusedSectionVars false in
mutual

theorem Expr.passes_refine : ∀ {e : Expr} {i : I} {j : J}, R' i j → e.passes S i = true →
    e.passes T j = true
  | .literal _ _, _, _, hij, h | .reference _ _, _, _, hij, h | .receiver _, _, _, hij, h => by
    rw [Expr.passes] at h ⊢
    exact hST.expr hij h
  | .unary _ _ _, _, _, hij, h | .update _ _ _ _, _, _, hij, h | .member _ _ _, _, _, hij, h => by
    rw [Expr.passes, Bool.and_eq_true] at h ⊢
    exact ⟨hST.expr hij h.1, Expr.passes_refine hij h.2⟩
  | .binary _ _ _ _, _, _, hij, h | .assign _ _ _ _, _, _, hij, h => by
    rw [Expr.passes, Bool.and_eq_true, Bool.and_eq_true] at h ⊢
    exact ⟨hST.expr hij h.1, Expr.passes_refine hij h.2.1, Expr.passes_refine hij h.2.2⟩
  | .call _ _ _, _, _, hij, h => by
    rw [Expr.passes, Bool.and_eq_true, Bool.and_eq_true] at h ⊢
    exact ⟨hST.expr hij h.1, Expr.passes_refine hij h.2.1, eachPasses_refine hij h.2.2⟩
  | .object _ _, _, _, hij, h => by
    rw [Expr.passes, Bool.and_eq_true] at h ⊢
    exact ⟨hST.expr hij h.1, fieldsPass_refine hij h.2⟩
  | .function _, _, _, hij, h => by
    rw [Expr.passes, Bool.and_eq_true] at h ⊢
    exact ⟨hST.expr hij h.1, Function.passes_refine hij h.2⟩

theorem eachPasses_refine : ∀ {l : List Expr} {i : I} {j : J}, R' i j →
    eachPasses S i l = true → eachPasses T j l = true
  | [], _, _, _, _ => rfl
  | _ :: _, _, _, hij, h => by
    rw [eachPasses, Bool.and_eq_true] at h ⊢
    exact ⟨Expr.passes_refine hij h.1, eachPasses_refine hij h.2⟩

theorem optionPasses_refine : ∀ {e? : Option Expr} {i : I} {j : J}, R' i j →
    optionPasses S i e? = true → optionPasses T j e? = true
  | none, _, _, _, _ => rfl
  | some _, _, _, hij, h => by
    rw [optionPasses] at h ⊢
    exact Expr.passes_refine hij h

theorem Field.passes_refine : ∀ {field : Field} {i : I} {j : J}, R' i j →
    field.passes S i = true → field.passes T j = true
  | ⟨_, _, _⟩, _, _, hij, h => by
    rw [Field.passes] at h ⊢
    exact Expr.passes_refine hij h

theorem fieldsPass_refine : ∀ {l : List Field} {i : I} {j : J}, R' i j →
    fieldsPass S i l = true → fieldsPass T j l = true
  | [], _, _, _, _ => rfl
  | _ :: _, _, _, hij, h => by
    rw [fieldsPass, Bool.and_eq_true] at h ⊢
    exact ⟨Field.passes_refine hij h.1, fieldsPass_refine hij h.2⟩

theorem Function.passes_refine : ∀ {f : Function} {i : I} {j : J}, R' i j →
    f.passes S i = true → f.passes T j = true
  | ⟨_, _, _, _, _⟩, _, _, hij, h => by
    rw [Function.passes, Bool.and_eq_true] at h ⊢
    exact ⟨hST.function hij h.1,
      Block.passesAt_refine (hST.declareAll (hST.enter hij) _) h.2⟩

theorem Block.passesAt_refine : ∀ {b : Block} {i : I} {j : J}, R i j →
    b.passesAt S i = true → b.passesAt T j = true
  | ⟨_, _⟩, _, _, hij, h => by
    rw [Block.passesAt] at h ⊢
    exact rowPasses_refine hij h

theorem Stmt.passes_refine : ∀ {s : Stmt} {i : I} {j : J}, R i j → s.passes S i = true →
    s.passes T j = true
  | .variable _ _ _ _, _, _, hij, h => by
    rw [Stmt.passes, Bool.and_eq_true, Bool.and_eq_true] at h ⊢
    exact ⟨hST.stmt hij h.1, hST.isOpen hij h.2.1, optionPasses_refine (hST.loosen hij) h.2.2⟩
  | .function _, _, _, hij, h => by
    rw [Stmt.passes, Bool.and_eq_true, Bool.and_eq_true] at h ⊢
    exact ⟨hST.stmt hij h.1, hST.isOpen hij h.2.1,
      Function.passes_refine (hST.loosen hij) h.2.2⟩
  | .interface _, _, _, hij, h => by
    rw [Stmt.passes] at h ⊢
    exact hST.stmt hij h
  | .expression _ _, _, _, hij, h => by
    rw [Stmt.passes, Bool.and_eq_true] at h ⊢
    exact ⟨hST.stmt hij h.1, Expr.passes_refine (hST.loosen hij) h.2⟩
  | .giveBack _ _, _, _, hij, h => by
    rw [Stmt.passes, Bool.and_eq_true] at h ⊢
    exact ⟨hST.stmt hij h.1, optionPasses_refine (hST.loosen hij) h.2⟩
  | .branch _ _ none _, _, _, hij, h => by
    rw [Stmt.passes, Bool.and_eq_true, Bool.and_eq_true] at h ⊢
    exact ⟨hST.stmt hij h.1, Expr.passes_refine (hST.loosen hij) h.2.1,
      Block.passesAt_refine (hST.enter (hST.loosen hij)) h.2.2⟩
  | .branch _ _ (some _) _, _, _, hij, h => by
    rw [Stmt.passes, Bool.and_eq_true, Bool.and_eq_true, Bool.and_eq_true] at h ⊢
    exact ⟨hST.stmt hij h.1, Expr.passes_refine (hST.loosen hij) h.2.1,
      Block.passesAt_refine (hST.enter (hST.loosen hij)) h.2.2.1, Stmt.passes_refine hij h.2.2.2⟩
  | .block _, _, _, hij, h => by
    rw [Stmt.passes, Bool.and_eq_true] at h ⊢
    exact ⟨hST.stmt hij h.1, Block.passesAt_refine (hST.enter (hST.loosen hij)) h.2⟩
  | .loop none _ _ _ _, _, _, hij, h => by
    rw [Stmt.passes, Bool.and_eq_true, Bool.and_eq_true, Bool.and_eq_true] at h ⊢
    exact ⟨hST.stmt hij h.1, optionPasses_refine (hST.loosen (hST.enter (hST.loosen hij))) h.2.1,
      optionPasses_refine (hST.loosen (hST.enter (hST.loosen hij))) h.2.2.1,
      Block.passesAt_refine (hST.enter (hST.loosen (hST.enter (hST.loosen hij)))) h.2.2.2⟩
  | .loop (some init) _ _ _ _, _, _, hij, h => by
    have hafter := hST.indexAfter (hST.enter (hST.loosen hij)) init
    rw [Stmt.passes, Bool.and_eq_true, Bool.and_eq_true, Bool.and_eq_true,
      Bool.and_eq_true] at h ⊢
    exact ⟨hST.stmt hij h.1, Stmt.passes_refine (hST.enter (hST.loosen hij)) h.2.1,
      optionPasses_refine (hST.loosen hafter) h.2.2.1,
      optionPasses_refine (hST.loosen hafter) h.2.2.2.1,
      Block.passesAt_refine (hST.enter (hST.loosen hafter)) h.2.2.2.2⟩
  | .repeatWhile _ _ _, _, _, hij, h => by
    rw [Stmt.passes, Bool.and_eq_true, Bool.and_eq_true] at h ⊢
    exact ⟨hST.stmt hij h.1, Expr.passes_refine (hST.loosen hij) h.2.1,
      Block.passesAt_refine (hST.enter (hST.loosen hij)) h.2.2⟩

theorem rowPasses_refine : ∀ {l : List Stmt} {i : I} {j : J}, R i j →
    rowPasses S i l = true → rowPasses T j l = true
  | [], _, _, _, _ => rfl
  | s :: _, _, _, hij, h => by
    rw [rowPasses, Bool.and_eq_true] at h ⊢
    exact ⟨Stmt.passes_refine hij h.1, rowPasses_refine (hST.indexAfter hij s) h.2⟩

end

end Refining

/-! ## Two surveys at once -/

/-- What two surveys ask for together. -/
def Survey.both {I J : Type} (S : Survey I) (T : Survey J) : Survey (I × J) where
  expr i e := S.expr i.1 e && T.expr i.2 e
  stmt i s := S.stmt i.1 s && T.stmt i.2 s
  function i f := S.function i.1 f && T.function i.2 f
  isOpen i := S.isOpen i.1 && T.isOpen i.2
  declare i name := (S.declare i.1 name, T.declare i.2 name)
  enter i := (S.enter i.1, T.enter i.2)

section Both

variable {I J : Type} {S : Survey I} {T : Survey J}

theorem Survey.enter_both (i : I) (j : J) :
    (S.both T).enter (i, j) = (S.enter i, T.enter j) := rfl

theorem Survey.declareAll_both (i : I) (j : J) (names : List String) :
    (S.both T).declareAll (i, j) names = (S.declareAll i names, T.declareAll j names) := by
  induction names generalizing i j with
  | nil => rfl
  | cons name rest ih => exact ih (S.declare i name) (T.declare j name)

theorem Stmt.indexAfter_both (i : I) (j : J) (s : Stmt) :
    s.indexAfter (S.both T) (i, j) = (s.indexAfter S i, s.indexAfter T j) := by
  cases s <;> rfl

mutual

theorem Expr.passes_both : ∀ {e : Expr} {i : I} {j : J}, e.passes S i = true →
    e.passes T j = true → e.passes (S.both T) (i, j) = true
  | .literal _ _, _, _, h, h' | .reference _ _, _, _, h, h' | .receiver _, _, _, h, h' => by
    rw [Expr.passes] at h h' ⊢
    exact Bool.and_eq_true_iff.mpr ⟨h, h'⟩
  | .unary _ _ _, _, _, h, h' | .update _ _ _ _, _, _, h, h' | .member _ _ _, _, _, h, h' => by
    rw [Expr.passes, Bool.and_eq_true] at h h' ⊢
    exact ⟨Bool.and_eq_true_iff.mpr ⟨h.1, h'.1⟩, Expr.passes_both h.2 h'.2⟩
  | .binary _ _ _ _, _, _, h, h' | .assign _ _ _ _, _, _, h, h' => by
    rw [Expr.passes, Bool.and_eq_true, Bool.and_eq_true] at h h' ⊢
    exact ⟨Bool.and_eq_true_iff.mpr ⟨h.1, h'.1⟩, Expr.passes_both h.2.1 h'.2.1,
      Expr.passes_both h.2.2 h'.2.2⟩
  | .call _ _ _, _, _, h, h' => by
    rw [Expr.passes, Bool.and_eq_true, Bool.and_eq_true] at h h' ⊢
    exact ⟨Bool.and_eq_true_iff.mpr ⟨h.1, h'.1⟩, Expr.passes_both h.2.1 h'.2.1,
      eachPasses_both h.2.2 h'.2.2⟩
  | .object _ _, _, _, h, h' => by
    rw [Expr.passes, Bool.and_eq_true] at h h' ⊢
    exact ⟨Bool.and_eq_true_iff.mpr ⟨h.1, h'.1⟩, fieldsPass_both h.2 h'.2⟩
  | .function _, _, _, h, h' => by
    rw [Expr.passes, Bool.and_eq_true] at h h' ⊢
    exact ⟨Bool.and_eq_true_iff.mpr ⟨h.1, h'.1⟩, Function.passes_both h.2 h'.2⟩

theorem eachPasses_both : ∀ {l : List Expr} {i : I} {j : J}, eachPasses S i l = true →
    eachPasses T j l = true → eachPasses (S.both T) (i, j) l = true
  | [], _, _, _, _ => rfl
  | _ :: _, _, _, h, h' => by
    rw [eachPasses, Bool.and_eq_true] at h h' ⊢
    exact ⟨Expr.passes_both h.1 h'.1, eachPasses_both h.2 h'.2⟩

theorem optionPasses_both : ∀ {e? : Option Expr} {i : I} {j : J}, optionPasses S i e? = true →
    optionPasses T j e? = true → optionPasses (S.both T) (i, j) e? = true
  | none, _, _, _, _ => rfl
  | some _, _, _, h, h' => by
    rw [optionPasses] at h h' ⊢
    exact Expr.passes_both h h'

theorem Field.passes_both : ∀ {field : Field} {i : I} {j : J}, field.passes S i = true →
    field.passes T j = true → field.passes (S.both T) (i, j) = true
  | ⟨_, _, _⟩, _, _, h, h' => by
    rw [Field.passes] at h h' ⊢
    exact Expr.passes_both h h'

theorem fieldsPass_both : ∀ {l : List Field} {i : I} {j : J}, fieldsPass S i l = true →
    fieldsPass T j l = true → fieldsPass (S.both T) (i, j) l = true
  | [], _, _, _, _ => rfl
  | _ :: _, _, _, h, h' => by
    rw [fieldsPass, Bool.and_eq_true] at h h' ⊢
    exact ⟨Field.passes_both h.1 h'.1, fieldsPass_both h.2 h'.2⟩

theorem Function.passes_both : ∀ {f : Function} {i : I} {j : J}, f.passes S i = true →
    f.passes T j = true → f.passes (S.both T) (i, j) = true
  | ⟨_, _, _, _, _⟩, _, _, h, h' => by
    rw [Function.passes, Bool.and_eq_true] at h h' ⊢
    refine ⟨Bool.and_eq_true_iff.mpr ⟨h.1, h'.1⟩, ?_⟩
    rw [Survey.enter_both, Survey.declareAll_both]
    exact Block.passesAt_both h.2 h'.2

theorem Block.passesAt_both : ∀ {b : Block} {i : I} {j : J}, b.passesAt S i = true →
    b.passesAt T j = true → b.passesAt (S.both T) (i, j) = true
  | ⟨_, _⟩, _, _, h, h' => by
    rw [Block.passesAt] at h h' ⊢
    exact rowPasses_both h h'

theorem Stmt.passes_both : ∀ {s : Stmt} {i : I} {j : J}, s.passes S i = true →
    s.passes T j = true → s.passes (S.both T) (i, j) = true
  | .variable _ _ _ _, _, _, h, h' => by
    rw [Stmt.passes, Bool.and_eq_true, Bool.and_eq_true] at h h' ⊢
    exact ⟨Bool.and_eq_true_iff.mpr ⟨h.1, h'.1⟩, Bool.and_eq_true_iff.mpr ⟨h.2.1, h'.2.1⟩,
      optionPasses_both h.2.2 h'.2.2⟩
  | .function _, _, _, h, h' => by
    rw [Stmt.passes, Bool.and_eq_true, Bool.and_eq_true] at h h' ⊢
    exact ⟨Bool.and_eq_true_iff.mpr ⟨h.1, h'.1⟩, Bool.and_eq_true_iff.mpr ⟨h.2.1, h'.2.1⟩,
      Function.passes_both h.2.2 h'.2.2⟩
  | .interface _, _, _, h, h' => by
    rw [Stmt.passes] at h h' ⊢
    exact Bool.and_eq_true_iff.mpr ⟨h, h'⟩
  | .expression _ _, _, _, h, h' => by
    rw [Stmt.passes, Bool.and_eq_true] at h h' ⊢
    exact ⟨Bool.and_eq_true_iff.mpr ⟨h.1, h'.1⟩, Expr.passes_both h.2 h'.2⟩
  | .giveBack _ _, _, _, h, h' => by
    rw [Stmt.passes, Bool.and_eq_true] at h h' ⊢
    exact ⟨Bool.and_eq_true_iff.mpr ⟨h.1, h'.1⟩, optionPasses_both h.2 h'.2⟩
  | .branch _ _ none _, _, _, h, h' => by
    rw [Stmt.passes, Bool.and_eq_true, Bool.and_eq_true] at h h' ⊢
    exact ⟨Bool.and_eq_true_iff.mpr ⟨h.1, h'.1⟩, Expr.passes_both h.2.1 h'.2.1,
      Block.passesAt_both h.2.2 h'.2.2⟩
  | .branch _ _ (some _) _, _, _, h, h' => by
    rw [Stmt.passes, Bool.and_eq_true, Bool.and_eq_true, Bool.and_eq_true] at h h' ⊢
    exact ⟨Bool.and_eq_true_iff.mpr ⟨h.1, h'.1⟩, Expr.passes_both h.2.1 h'.2.1,
      Block.passesAt_both h.2.2.1 h'.2.2.1, Stmt.passes_both h.2.2.2 h'.2.2.2⟩
  | .block _, _, _, h, h' => by
    rw [Stmt.passes, Bool.and_eq_true] at h h' ⊢
    exact ⟨Bool.and_eq_true_iff.mpr ⟨h.1, h'.1⟩, Block.passesAt_both h.2 h'.2⟩
  | .loop none _ _ _ _, _, _, h, h' => by
    rw [Stmt.passes, Bool.and_eq_true, Bool.and_eq_true, Bool.and_eq_true] at h h' ⊢
    exact ⟨Bool.and_eq_true_iff.mpr ⟨h.1, h'.1⟩, optionPasses_both h.2.1 h'.2.1,
      optionPasses_both h.2.2.1 h'.2.2.1, Block.passesAt_both h.2.2.2 h'.2.2.2⟩
  | .loop (some init) _ _ _ _, _, _, h, h' => by
    rw [Stmt.passes, Bool.and_eq_true, Bool.and_eq_true, Bool.and_eq_true,
      Bool.and_eq_true] at h h' ⊢
    rw [Survey.enter_both, Stmt.indexAfter_both]
    exact ⟨Bool.and_eq_true_iff.mpr ⟨h.1, h'.1⟩, Stmt.passes_both h.2.1 h'.2.1,
      optionPasses_both h.2.2.1 h'.2.2.1, optionPasses_both h.2.2.2.1 h'.2.2.2.1,
      Block.passesAt_both h.2.2.2.2 h'.2.2.2.2⟩
  | .repeatWhile _ _ _, _, _, h, h' => by
    rw [Stmt.passes, Bool.and_eq_true, Bool.and_eq_true] at h h' ⊢
    exact ⟨Bool.and_eq_true_iff.mpr ⟨h.1, h'.1⟩, Expr.passes_both h.2.1 h'.2.1,
      Block.passesAt_both h.2.2 h'.2.2⟩

theorem rowPasses_both : ∀ {l : List Stmt} {i : I} {j : J}, rowPasses S i l = true →
    rowPasses T j l = true → rowPasses (S.both T) (i, j) l = true
  | [], _, _, _, _ => rfl
  | _ :: _, _, _, h, h' => by
    rw [rowPasses, Bool.and_eq_true] at h h' ⊢
    rw [Stmt.indexAfter_both]
    exact ⟨Stmt.passes_both h.1 h'.1, rowPasses_both h.2 h'.2⟩

end

end Both

end TypedScript
