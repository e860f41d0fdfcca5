import TypedScript.Proofs.Similarity

/-!
# What evaluation does alike

Two evaluators are similar under a discipline if they do the parts of a program
that pass a survey similarly. Each rule of evaluation over similar evaluators gives
similar runs, with one lemma for each rule, up to those of expressions
(`Evaluator.Similar.evalRule`), of statements (`Evaluator.Similar.execRule`) and of
the rounds of loops. The limits on the depth of calls may differ.
-/

namespace TypedScript

variable {I World : Type} {D : Discipline I World} {S : Survey I}

/-- Two evaluators that do similarly with parts that pass a survey. -/
structure Evaluator.Similar (D : Discipline I World) (S : Survey I) (go go' : Evaluator) :
    Prop where
  eval : ∀ {i e}, e.passes S i = true → D.Similar S i i (go.eval e) (go'.eval e)
  exec : ∀ {i s}, s.passes S i = true →
    D.Similar S i (s.indexAfter S i) (go.exec s) (go'.exec s)
  loop : ∀ {i condition? update? body}, S.isOpen i = true →
    optionPasses S i condition? = true → optionPasses S i update? = true →
    body.passesAt S (S.enter i) = true →
      D.SimilarIn S i (go.loop · condition? update? body) (go'.loop · condition? update? body)
        fun _ a b => a = b
  repeatWhile : ∀ {i condition body}, condition.passes S i = true →
    body.passesAt S (S.enter i) = true →
      D.Similar S i i (go.repeatWhile condition body) (go'.repeatWhile condition body)
  left : ∀ l, Run.Balanced (go.execStatements l)
  right : ∀ l, Run.Balanced (go'.execStatements l)

/-- A place whose variable passes a survey, if it is one. -/
def Place.Passes (S : Survey I) (i : I) : Place → Prop
  | .variable name position => S.expr i (.reference name position) = true
  | .property _ _ => True

/-- What a discipline says about two limits on the depth of calls. -/
structure Discipline.Limits (D : Discipline I World) (limit limit' : Nat) : Prop where
  le : limit ≤ limit'
  deeper : ∀ {depth}, D.depths depth → depth < limit → D.depths (depth + 1)
  overflow : ∀ position, limit = limit' ∧ D.passes (.fault ⟨.stackOverflow limit, position⟩) ∨
    D.cutsLeft (.fault ⟨.stackOverflow limit, position⟩)

namespace Evaluator

open Run

/-- What a call does when it is certain that it may be made. -/
def enterClosure (go : Evaluator) (c : Closure) (receiver? : Option Value)
    (arguments : List Value) : Run Value := do
  let f ← make (·.callFrame c.frame receiver?)
  change (bindParameters · f c.definition.params arguments)
  match ← deeper (inFrame f (go.execStatements c.definition.body.statements)) with
  | .gaveBack value => return value
  | .normal => return .undefined

theorem callClosure_eq (go : Evaluator) (limit : Nat) (c : Closure) (receiver? : Option Value)
    (arguments : List Value) (position : Position) :
    go.callClosure limit c receiver? arguments position = (do
      requireArity c.arity arguments.length position
      let m ← get
      if limit ≤ m.depth then fail (.stackOverflow limit) position
      else go.enterClosure c receiver? arguments) := by
  unfold callClosure enterClosure
  rfl

/-! ### Rounds in two parts -/

/-- Whether a round of a loop begins. -/
def goesOn (go : Evaluator) (condition? : Option Expr) : Run Bool :=
  match condition? with
  | some condition => go.evalCondition condition
  | none => pure true

/-- What comes of a round if it begins. -/
def finishRound (go : Evaluator) (f : FrameId) (update? : Option Expr) (body : Block)
    (begins : Bool) : Run (Completion ⊕ FrameId) := do
  if begins then
    match ← inFrame f (go.execBlock body) with
    | .gaveBack value => return .inl (.gaveBack value)
    | .normal =>
      let next ← make (·.fork f)
      if let some update := update? then
        let _ ← inFrame next (go.eval update)
      return .inr next
  else return .inl .normal

theorem loopRound_eq (go : Evaluator) (f : FrameId) (condition? update? : Option Expr)
    (body : Block) : go.loopRound f condition? update? body =
      inFrame f (go.goesOn condition?) >>= go.finishRound f update? body := by
  cases condition? <;> rfl

/-! ### Calls are balanced -/

section Balance

variable {go : Evaluator} (hgo : ∀ l, Balanced (go.execStatements l))

include hgo in
theorem balanced_enterClosure (c : Closure) (receiver? : Option Value) (arguments : List Value) :
    Balanced (go.enterClosure c receiver? arguments) := by
  refine (Balanced.make _).bind fun f => (Balanced.change _).bind fun _ => ?_
  refine ((hgo _).inFrame f).deeper.bind fun completion => ?_
  cases completion <;> exact .pure _

theorem balanced_within {x : Run Value} (hx : Balanced x) (limit : Nat) (position : Position) :
    Balanced (do
      let m ← get
      if limit ≤ m.depth then fail (.stackOverflow limit) position else x) := by
  refine Balanced.get.bind fun m => ?_
  split
  · exact .throw _
  · exact hx

include hgo in
theorem balanced_callClosure (limit : Nat) (c : Closure) (receiver? : Option Value)
    (arguments : List Value) (position : Position) :
    Balanced (go.callClosure limit c receiver? arguments position) := by
  rw [callClosure_eq]
  refine Balanced.bind ?_ fun _ =>
    balanced_within (balanced_enterClosure hgo c receiver? arguments) limit position
  unfold Evaluator.requireArity
  split
  · exact .pure _
  · exact .throw _

end Balance

namespace Similar

section Rules

variable {go go' : Evaluator} (hD : D.Lawful S) (hgo : Evaluator.Similar D S go go') {i : I}

/-! ### Statements in a row -/

theorem indexAfter_of_constant (hconstant : ∀ i name, S.declare i name = i) (s : Stmt) :
    s.indexAfter S i = i := by
  cases s <;> first | rfl | exact hconstant _ _

include hD in
theorem isOpen_indexAfter (hopen : S.isOpen i = true) (s : Stmt) :
    S.isOpen (s.indexAfter S i) = true := by
  cases s <;> first | exact hopen | exact hD.isOpen_declare _ hopen

theorem hoist_eq_of_never (hnever : ∀ i definition, S.stmt i (.function definition) = false)
    {l : List Stmt} (h : rowPasses S i l = true) : Evaluator.hoist l = pure () := by
  induction l generalizing i with
  | nil => rfl
  | cons s rest ih =>
    rw [rowPasses, Bool.and_eq_true] at h
    cases s with
    | function definition =>
      have hnode := Stmt.node_of_passes h.1
      rw [hnever] at hnode
      cases hnode
    | _ => exact ih h.2

include hD in
/-- The functions of a row are made before its names are there. -/
theorem hoist {l : List Stmt} (h : rowPasses S i l = true) :
    D.Similar S i i (Evaluator.hoist l) (Evaluator.hoist l) := by
  rcases hD.hoisted with hnever | hconstant
  · rw [hoist_eq_of_never hnever h]
    exact .pure ()
  induction l with
  | nil => exact .pure ()
  | cons s rest ih =>
    rw [rowPasses, Bool.and_eq_true, indexAfter_of_constant hconstant] at h
    have hrest := ih h.2
    cases s with
    | function definition =>
      have hfunction := h.1
      rw [Stmt.passes, Bool.and_eq_true, Bool.and_eq_true] at hfunction
      obtain ⟨_, hopen, hdefinition⟩ := hfunction
      rw [Evaluator.hoist]
      cases definition.name? with
      | none => exact (Discipline.Similar.pure PUnit.unit).bind fun _ => hrest
      | some name =>
        have hdefine : ∀ value, D.Similar S i i (Run.define name value) (Run.define name value) :=
          fun value => (Discipline.Similar.define hD hopen name value).settle hD
        exact (Discipline.Similar.makeClosure hD hdefinition (some name)).bind fun value =>
          (hdefine value).bind fun _ => hrest
    | _ => exact hrest

include hD hgo in
theorem execEach {l : List Stmt} (h : rowPasses S i l = true) :
    D.Similar S i i (go.execEach l) (go'.execEach l) := by
  induction l generalizing i with
  | nil => exact .pure _
  | cons s rest ih =>
    rw [rowPasses, Bool.and_eq_true] at h
    refine Discipline.Similar.settle hD (j := s.indexAfter S i) ?_
    refine (hgo.exec h.1).bind fun completion => ?_
    cases completion with
    | normal => exact ih h.2
    | gaveBack value => exact .pure _

include hD hgo in
theorem execStatements {l : List Stmt} (h : rowPasses S i l = true) :
    D.Similar S i i (go.execStatements l) (go'.execStatements l) :=
  (hoist hD h).bind fun _ => execEach hD hgo h

include hD hgo in
theorem execBlock {b : Block} (h : b.passesAt S (S.enter i) = true) :
    D.Similar S i i (go.execBlock b) (go'.execBlock b) := by
  rw [Block.passesAt_eq] at h
  exact Discipline.SimilarIn.inChild hD (.inFrame (execStatements hD hgo h))

/-! ### Calls -/

/-- Parameters are declared one after the other, whatever their values. -/
theorem bindParameters_frames (s : Store) (f : FrameId) (params : List Parameter)
    (values : List Value) : (bindParameters s f params values).objects = s.objects ∧
      (bindParameters s f params values).closures = s.closures := by
  induction params generalizing s values with
  | nil => exact ⟨rfl, rfl⟩
  | cons param rest ih =>
    cases values with
    | nil => exact ih (s.define f param.name .undefined) []
    | cons value values => exact ih (s.define f param.name value) values

include hD in
theorem bindParameters {w : World} {s t : Store} {f g : FrameId} (params : List Parameter)
    (values : List Value) (hstores : D.stores w s t) (hframes : D.frames w i f g)
    (hopen : S.isOpen i = true) :
    ∃ w', D.le w w' ∧
      D.stores w' (Evaluator.bindParameters s f params values)
        (Evaluator.bindParameters t g params values) ∧
      D.frames w' (S.declareAll i (params.map (·.name))) f g := by
  induction params generalizing w s t i values with
  | nil => exact ⟨w, D.refl w, hstores, hframes⟩
  | cons param rest ih =>
    have hrest : ∀ value values, ∃ w', D.le w w' ∧
        D.stores w' (Evaluator.bindParameters (s.define f param.name value) f rest values)
          (Evaluator.bindParameters (t.define g param.name value) g rest values) ∧
        D.frames w' (S.declareAll (S.declare i param.name) (rest.map (·.name))) f g := by
      intro value values
      obtain ⟨w', hle, hstores', hframes'⟩ := hD.define param.name value hstores hframes hopen
      obtain ⟨w'', hle', hend⟩ :=
        ih values hstores' hframes' (hD.isOpen_declare param.name hopen)
      exact ⟨w'', D.trans hle hle', hend⟩
    cases values with
    | nil => exact hrest .undefined []
    | cons value values => exact hrest value values

include hD hgo in
theorem enterClosure {w : World} {m n : Machine} {c d : Closure} (hmeet : D.Meet S w m n)
    (htwins : D.Twins S w c d) (hdepths : D.depths (m.depth + 1)) (receiver? : Option Value)
    (arguments : List Value) :
    D.Agree S w (go.enterClosure c receiver? arguments) m
      (go'.enterClosure d receiver? arguments) n fun _ a b => a = b := by
  obtain ⟨definition, f, name?⟩ := c
  obtain ⟨definition', g, name?'⟩ := d
  obtain ⟨rfl, rfl, i, hpasses, hframes⟩ := htwins
  dsimp only at hpasses hframes
  rw [Function.passes_eq, Bool.and_eq_true] at hpasses
  obtain ⟨w₁, hle₁, hstores₁, hframes₁⟩ := hD.enter true receiver? hmeet.stores hframes
  obtain ⟨w₂, hle₂, hstores₂, hframes₂⟩ :=
    bindParameters hD definition.params arguments hstores₁ hframes₁ (hD.isOpen_enter i)
  have hleft := bindParameters_frames (m.store.callFrame f receiver?).2
    (m.store.callFrame f receiver?).1 definition.params arguments
  have hright := bindParameters_frames (n.store.callFrame g receiver?).2
    (n.store.callFrame g receiver?).1 definition.params arguments
  have hmeet₂ := hmeet.of_frames hD (D.trans hle₁ hle₂) hstores₂ hleft hright
  have hbody := execStatements hD hgo hpasses.2
  have hmeet₃ := hmeet₂.deepen hdepths
  have hrun := Discipline.Agree.deeper ((hbody.left.inFrame _)) hmeet₂.depths
    (hbody.agree w₂ _ _ (hmeet₃.inFrame _ _) hframes₂).inFrame
  refine (hrun.bind (fun completion => ?_) (fun completion => ?_) (R := fun _ a b => a = b)
    ?_).step rfl rfl rfl rfl (D.trans hle₁ hle₂)
  · cases completion <;> exact .pure _
  · cases completion <;> exact .pure _
  · intro completion completion' m' n' w' _ _ _ hmeet' hpost
    obtain ⟨rfl, _⟩ := hpost
    cases completion <;> exact .pure hmeet' rfl

include hD in
theorem requireArity (arity : Arity) (count : Nat) (position : Position) :
    D.Similar S i i (Evaluator.requireArity arity count position)
      (Evaluator.requireArity arity count position) := by
  unfold Evaluator.requireArity
  split
  · exact .pure ()
  · exact .fail hD rfl position

include hD hgo in
/-- A call that one limit allows may go too deep for the other one, but not the other
way round. -/
theorem callClosure {limit limit' : Nat} (hlimits : D.Limits limit limit') {w : World}
    {m n : Machine} {c d : Closure} (hmeet : D.Meet S w m n)
    (hframes : D.frames w i m.frame n.frame) (htwins : D.Twins S w c d)
    (receiver? : Option Value) (arguments : List Value) (position : Position) :
    D.Agree S w (go.callClosure limit c receiver? arguments position) m
      (go'.callClosure limit' d receiver? arguments position) n fun _ a b => a = b := by
  have hget : ∀ k : Machine, (get : Run Machine) k = .ok k k := fun _ => rfl
  have harity : d.arity = c.arity := by
    unfold Closure.arity
    rw [htwins.definition]
  have henter := balanced_enterClosure hgo.left c receiver? arguments
  have henter' := balanced_enterClosure hgo.right d receiver? arguments
  rw [callClosure_eq, callClosure_eq, harity]
  refine ((requireArity hD c.arity arguments.length position).agree w m n hmeet hframes).bind
    (fun _ => balanced_within henter limit position)
    (fun _ => balanced_within henter' limit' position) ?_
  intro _ _ m' n' w' hm hn hle hmeet' _
  refine Discipline.Agree.congr ?_ (bind_of_ok (hget m')) (bind_of_ok (hget n'))
  rw [← hmeet'.depth]
  by_cases hleft : limit ≤ m'.depth
  · rw [if_pos hleft]
    -- too deep for the lower limit: either both overflow, or the left side is cut there
    rcases hlimits.overflow position with hpasses | hcuts
    · obtain ⟨rfl, hpasses⟩ := hpasses
      rw [if_pos hleft]
      exact .throw hmeet' hpasses
    · refine .throwLeft hmeet' hcuts ?_
      split
      · exact .throw _
      · exact henter'
  · have hright : ¬limit' ≤ m'.depth := fun h => hleft (Nat.le_trans hlimits.le h)
    rw [if_neg hleft, if_neg hright]
    exact enterClosure hD hgo hmeet' (htwins.mono hD hle)
      (hlimits.deeper hmeet'.depths (Nat.lt_of_not_le hleft)) receiver? arguments

include hD hgo in
theorem call {limit limit' : Nat} (hlimits : D.Limits limit limit') (f : Value)
    (receiver? : Option Value) (arguments : List Value) (position : Position) :
    D.Similar S i i (go.call limit f receiver? arguments position)
      (go'.call limit' f receiver? arguments position) := by
  unfold Evaluator.call
  cases f with
  | native f =>
    refine (requireArity hD f.arity arguments.length position).bind fun _ => ?_
    cases f
    refine (Discipline.Similar.ask fun w m n hmeet => ?_).bind fun line =>
      (Discipline.Similar.emit line).bind fun _ => .pure _
    exact congrArg (String.intercalate " ") (List.map_congr_left fun v _ => hmeet.textOf v)
  | closure id =>
    have hbalanced : ∀ {go : Evaluator}, (∀ l, Balanced (go.execStatements l)) → ∀ limit c?,
        Balanced (match c? with
          | some c => go.callClosure limit c receiver? arguments position
          | none => fail (.notCallable (Value.closure id).kindName) position) := by
      intro go hgo limit c?
      cases c? with
      | some c => exact balanced_callClosure hgo limit c receiver? arguments position
      | none => exact .throw _
    refine ⟨(Balanced.ask _).bind (hbalanced hgo.left limit),
      (Balanced.ask _).bind (hbalanced hgo.right limit'), fun w m n hmeet hframes => ?_⟩
    have hask : ∀ k : Machine, ask (·.closure? id) k = .ok (k.store.closure? id) k := fun _ => rfl
    refine Discipline.Agree.congr ?_ (bind_of_ok (hask m)) (bind_of_ok (hask n))
    -- a closure that one side knows is known to the other one, with the same definition
    have hrel := hmeet.closures id
    generalize m.store.closure? id = c? at hrel
    generalize n.store.closure? id = d? at hrel
    cases hrel with
    | some htwins =>
      refine (callClosure hD hgo hlimits hmeet hframes htwins receiver? arguments
        position).mono fun w' a b hle heq => ?_
      exact ⟨heq, hD.frames_mono hle hframes⟩
    | none =>
      refine .throw hmeet (hD.fault ?_)
      rfl
  | _ => exact .fail hD rfl position

/-! ### Expressions -/

include hD hgo in
theorem evalNamed {e : Expr} (h : e.passes S i = true) (name : String) :
    D.Similar S i i (go.evalNamed e name) (go'.evalNamed e name) := by
  unfold Evaluator.evalNamed
  split
  · next definition =>
    split
    · rw [Expr.passes, Bool.and_eq_true] at h
      exact .makeClosure hD h.2 (some name)
    · exact hgo.eval h
  · exact hgo.eval h

include hD hgo in
theorem evalCondition {e : Expr} (h : e.passes S i = true) :
    D.Similar S i i (go.evalCondition e) (go'.evalCondition e) :=
  (hgo.eval h).bind fun v => .ofExcept hD (.asBoolean v _)

include hD hgo in
/-- What is done with the place that an expression denotes. -/
theorem withPlace {target : Expr} (h : target.passes S i = true) {α : Type}
    {f g : Place → Run α} (hfg : ∀ place, place.Passes S i → D.Similar S i i (f place) (g place)) :
    D.Similar S i i (go.resolvePlace target >>= f) (go'.resolvePlace target >>= g) := by
  cases target with
  | reference name position => exact hfg _ (Expr.node_of_passes h)
  | member object property position =>
    rw [Expr.passes, Bool.and_eq_true] at h
    unfold Evaluator.resolvePlace
    rw [bind_assoc, bind_assoc]
    refine (hgo.eval h.2).bind fun v => ?_
    rw [bind_assoc, bind_assoc]
    refine (Discipline.Similar.ofExcept hD (.expectObject v _ _)).bind fun o => ?_
    rw [pure_bind, pure_bind]
    exact hfg _ trivial
  | _ => exact .fail hD rfl _

include hD in
theorem read {place : Place} (h : place.Passes S i) :
    D.Similar S i i place.read place.read := by
  cases place with
  | «variable» name position => exact .lookup hD h
  | property object name =>
    refine (Discipline.Similar.ask fun w m n hmeet => ?_).bind fun _ => .pure _
    rw [Store.properties_congr hmeet.objects]

include hD in
theorem write {place : Place} (h : place.Passes S i) (value : Value) :
    D.Similar S i i (place.write value) (place.write value) := by
  cases place with
  | «variable» name position => exact .assign hD h value
  | property object name => exact .setProperty hD object name value

include hgo in
theorem mapM {l : List Expr} (h : eachPasses S i l = true) :
    D.Similar S i i (l.mapM go.eval) (l.mapM go'.eval) := by
  induction l with
  | nil =>
    rw [List.mapM_nil, List.mapM_nil]
    exact .pure _
  | cons e rest ih =>
    rw [eachPasses, Bool.and_eq_true] at h
    rw [List.mapM_cons, List.mapM_cons]
    exact (hgo.eval h.1).bind fun _ => (ih h.2).bind fun _ => .pure _

include hD hgo in
theorem evalCallee {callee : Expr} (h : callee.passes S i = true) :
    D.Similar S i i (go.evalCallee callee) (go'.evalCallee callee) := by
  unfold Evaluator.evalCallee
  split
  · rw [Expr.passes, Bool.and_eq_true] at h
    exact (hgo.eval h.2).bind fun v =>
      (Discipline.Similar.property hD v _ _).bind fun _ => .pure _
  · exact (hgo.eval h).bind fun _ => .pure _

include hD hgo in
theorem evalFields (object : ObjectId) {fields : List Field} (h : fieldsPass S i fields = true) :
    D.Similar S i i (go.evalFields object fields) (go'.evalFields object fields) := by
  induction fields with
  | nil => exact .pure ()
  | cons field rest ih =>
    obtain ⟨name, value, position⟩ := field
    rw [fieldsPass, Bool.and_eq_true, Field.passes] at h
    exact (evalNamed hD hgo h.1 name).bind fun v =>
      (Discipline.Similar.setProperty hD object name v).bind fun _ => ih h.2

include hD hgo in
theorem evalLogic (op : BinaryOp) {left right : Expr} (hleft : left.passes S i = true)
    (hright : right.passes S i = true) :
    D.Similar S i i (go.evalLogic op left right) (go'.evalLogic op left right) := by
  refine (evalCondition hD hgo hleft).bind fun first => ?_
  have hrest : ∀ decided : Bool, D.Similar S i i
      (if decided then return Value.boolean first
        else return Value.boolean (← go.evalCondition right))
      (if decided then return Value.boolean first
        else return Value.boolean (← go'.evalCondition right)) := by
    intro decided
    cases decided with
    | true => exact .pure _
    | false => exact (evalCondition hD hgo hright).bind fun _ => .pure _
  exact hrest _

include hD hgo in
theorem evalBinary {left right : Expr} (op : BinaryOp) (position : Position)
    (hleft : left.passes S i = true) (hright : right.passes S i = true) :
    D.Similar S i i
      (do
        let a ← go.eval left
        let b ← go.eval right
        ofExcept (← ask (Operation.apply · op a b position)))
      (do
        let a ← go'.eval left
        let b ← go'.eval right
        ofExcept (← ask (Operation.apply · op a b position))) :=
  (hgo.eval hleft).bind fun a => (hgo.eval hright).bind fun b => .apply hD op a b position

include hD hgo in
theorem evalRule {limit limit' : Nat} (hlimits : D.Limits limit limit') {e : Expr}
    (h : e.passes S i = true) :
    D.Similar S i i (go.evalRule limit e) (go'.evalRule limit' e) := by
  cases e with
  | literal value position => exact .pure _
  | reference name position => exact .lookup hD (Expr.node_of_passes h)
  | receiver position => exact .receiver hD (Expr.node_of_passes h)
  | unary op operand position =>
    rw [Expr.passes, Bool.and_eq_true] at h
    refine (hgo.eval h.2).bind fun v => ?_
    cases op with
    | negate => exact (Discipline.Similar.ofExcept hD (.asNumber v _)).bind fun _ => .pure _
    | not => exact (Discipline.Similar.ofExcept hD (.asBoolean v _)).bind fun _ => .pure _
  | binary left op right position =>
    rw [Expr.passes, Bool.and_eq_true, Bool.and_eq_true] at h
    obtain ⟨_, hleft, hright⟩ := h
    cases op
    case and => exact evalLogic hD hgo .and hleft hright
    case or => exact evalLogic hD hgo .or hleft hright
    all_goals exact evalBinary hD hgo _ position hleft hright
  | assign target op? value position =>
    rw [Expr.passes, Bool.and_eq_true, Bool.and_eq_true] at h
    obtain ⟨_, htarget, hvalue⟩ := h
    refine withPlace hD hgo htarget fun place hplace => ?_
    -- with or without an operator, an assignment ends with the write of its value
    have hwrite : ∀ result, D.Similar S i i (do place.write result; return result)
        (do place.write result; return result) :=
      fun result => (write hD hplace result).bind fun _ => .pure _
    cases op? with
    | none => exact (evalNamed hD hgo hvalue place.name).bind hwrite
    | some op =>
      refine (read hD hplace).bind fun current => (hgo.eval hvalue).bind fun operand => ?_
      have happly := (Discipline.Similar.apply hD op current operand position).bind hwrite
      rw [bind_assoc] at happly
      exact happly
  | update target op isBefore position =>
    rw [Expr.passes, Bool.and_eq_true] at h
    refine withPlace hD hgo h.2 fun place hplace => (read hD hplace).bind fun v => ?_
    refine (Discipline.Similar.ofExcept hD (.asNumber v position)).bind fun old => ?_
    exact (write hD hplace _).bind fun _ => .pure _
  | call callee arguments position =>
    rw [Expr.passes, Bool.and_eq_true, Bool.and_eq_true] at h
    obtain ⟨_, hcallee, harguments⟩ := h
    exact (evalCallee hD hgo hcallee).bind fun f => (mapM hgo harguments).bind fun values =>
      call hD hgo hlimits f.1 f.2 values position
  | member object property position =>
    rw [Expr.passes, Bool.and_eq_true] at h
    exact (hgo.eval h.2).bind fun v => .property hD v property position
  | object fields position =>
    rw [Expr.passes, Bool.and_eq_true] at h
    exact (Discipline.Similar.newObject hD).bind fun object =>
      (evalFields hD hgo object h.2).bind fun _ => .pure _
  | function definition =>
    rw [Expr.passes, Bool.and_eq_true] at h
    exact .makeClosure hD h.2 definition.name?

/-! ### Statements -/

include hD hgo in
theorem execRule {s : Stmt} (h : s.passes S i = true) :
    D.Similar S i (s.indexAfter S i) (go.execRule s) (go'.execRule s) := by
  cases s with
  | «variable» name type? value? position =>
    rw [Stmt.passes, Bool.and_eq_true, Bool.and_eq_true] at h
    obtain ⟨_, hopen, hvalue⟩ := h
    -- the value is evaluated before the name is bound, so at the index without the name
    have hdefine : ∀ value, D.Similar S i (S.declare i name)
        (do Run.define name value; return Completion.normal)
        (do Run.define name value; return Completion.normal) :=
      fun value => (Discipline.Similar.define hD hopen name value).bind fun _ => .pure _
    cases value? with
    | none => exact hdefine .undefined
    | some e =>
      rw [optionPasses] at hvalue
      exact (evalNamed hD hgo hvalue name).bind hdefine
  | function definition => exact .pure _
  | interface declaration => exact .pure _
  | expression e position =>
    rw [Stmt.passes, Bool.and_eq_true] at h
    exact (hgo.eval h.2).bind fun _ => .pure _
  | giveBack value? position =>
    rw [Stmt.passes, Bool.and_eq_true] at h
    cases value? with
    | none => exact .pure _
    | some e =>
      rw [optionPasses] at h
      exact (hgo.eval h.2).bind fun _ => .pure _
  | branch condition body otherwise? position =>
    -- what is done otherwise is left open: nothing, or the statement that is the alternative
    have hbranch : ∀ {otherwise otherwise' : Run Completion}, condition.passes S i = true →
        body.passesAt S (S.enter i) = true → D.Similar S i i otherwise otherwise' →
        D.Similar S i i (do if ← go.evalCondition condition then go.execBlock body else otherwise)
          (do if ← go'.evalCondition condition then go'.execBlock body else otherwise') := by
      intro otherwise otherwise' hcondition hbody hotherwise
      refine (evalCondition hD hgo hcondition).bind fun goesOn => ?_
      cases goesOn with
      | true => exact execBlock hD hgo hbody
      | false => exact hotherwise
    cases otherwise? with
    | none =>
      rw [Stmt.passes, Bool.and_eq_true, Bool.and_eq_true] at h
      exact hbranch h.2.1 h.2.2 (.pure _)
    | some otherwise =>
      rw [Stmt.passes, Bool.and_eq_true, Bool.and_eq_true, Bool.and_eq_true] at h
      obtain ⟨_, hcondition, hbody, hotherwise⟩ := h
      exact hbranch hcondition hbody ((hgo.exec hotherwise).settle hD)
  | block b =>
    rw [Stmt.passes, Bool.and_eq_true] at h
    exact execBlock hD hgo h.2
  | loop init? condition? update? body position =>
    cases init? with
    | none =>
      rw [Stmt.passes, Bool.and_eq_true, Bool.and_eq_true, Bool.and_eq_true] at h
      obtain ⟨_, hcondition, hupdate, hbody⟩ := h
      exact Discipline.SimilarIn.inChild hD
        (hgo.loop (hD.isOpen_enter i) hcondition hupdate hbody)
    | some init =>
      rw [Stmt.passes, Bool.and_eq_true, Bool.and_eq_true, Bool.and_eq_true,
        Bool.and_eq_true] at h
      obtain ⟨_, hinit, hcondition, hupdate, hbody⟩ := h
      -- the rounds run at the index that the start leaves behind
      exact Discipline.SimilarIn.inChild hD (.after (hgo.exec hinit)
        (hgo.loop (isOpen_indexAfter hD (hD.isOpen_enter i) init) hcondition hupdate hbody))
  | repeatWhile condition body position =>
    rw [Stmt.passes, Bool.and_eq_true, Bool.and_eq_true] at h
    exact hgo.repeatWhile h.2.1 h.2.2

/-! ### Loops -/

include hD hgo in
/-- One round of a loop with a header ends the loop alike, or leaves it in frames that
correspond. -/
theorem loopRound {condition? update? : Option Expr} {body : Block} (hopen : S.isOpen i = true)
    (hcondition : optionPasses S i condition? = true) (hupdate : optionPasses S i update? = true)
    (hbody : body.passesAt S (S.enter i) = true) :
    D.SimilarIn S i (go.loopRound · condition? update? body)
      (go'.loopRound · condition? update? body) fun w => Sum.LiftRel (· = ·) (D.frames w i) := by
  have heq : ∀ go : Evaluator, (go.loopRound · condition? update? body) =
      fun f => inFrame f (go.goesOn condition?) >>= go.finishRound f update? body :=
    fun go => funext fun f => go.loopRound_eq f condition? update? body
  rw [heq, heq]
  have hgoesOn : D.Similar S i i (go.goesOn condition?) (go'.goesOn condition?) := by
    cases condition? with
    | none => exact .pure true
    | some condition =>
      rw [optionPasses] at hcondition
      exact evalCondition hD hgo hcondition
  refine (Discipline.SimilarIn.inFrame hgoesOn).bind hD fun goesOn => ?_
  cases goesOn with
  | false => exact .pure fun _ => .inl rfl
  | true =>
    refine (Discipline.SimilarIn.inFrame (execBlock hD hgo hbody)).bind hD fun completion => ?_
    cases completion with
    -- the loop ends with the value, and no frame is copied
    | gaveBack value => exact .pure fun _ => .inl rfl
    | normal =>
      cases update? with
      | none => exact .fork hD hopen (.here)
      | some update =>
        rw [optionPasses] at hupdate
        exact .fork hD hopen ((Discipline.SimilarIn.inFrame (hgo.eval hupdate)).bind hD fun _ =>
          .here)

include hD hgo in
theorem whileRound {condition : Expr} {body : Block} (hcondition : condition.passes S i = true)
    (hbody : body.passesAt S (S.enter i) = true) :
    D.Similar S i i (go.whileRound condition body) (go'.whileRound condition body) := by
  refine (evalCondition hD hgo hcondition).bind fun goesOn => ?_
  cases goesOn with
  | false => exact .pure _
  | true =>
    refine (execBlock hD hgo hbody).bind fun completion => ?_
    cases completion <;> exact .pure _

end Rules

end Similar

end Evaluator

end TypedScript
