import TypedScript.Proofs.SimilarRules

/-!
# What programs do alike

The rules of evaluation are balanced whatever the parts are, so all evaluators are
(`evaluator_balanced`): a run restores the frame and the depth and keeps the lines,
however it ends. By induction on the fuel, evaluators are similar under a discipline
(`evaluator_similar`): for two limits on the depth of calls, and for two amounts of
fuel of which the first one may be too small. The simplest discipline is that of
runs in the `same` store.
-/

namespace TypedScript

open Run

variable {I World : Type} {D : Discipline I World} {S : Survey I}

/-! ## Runs in the same store -/

/-- The discipline of runs from the same machine. -/
def Discipline.same (depths : Nat → Prop) (passes cutsLeft : Halt → Prop) :
    Discipline Unit Unit where
  le _ _ := True
  refl _ := trivial
  trans _ _ := trivial
  frames _ _ f g := f = g
  stores _ s t := s.frames = t.frames
  depths := depths
  passes := passes
  cutsLeft := cutsLeft
  cutsRight _ := False

namespace Store

variable {s t : Store}

theorem chain_congr (h : s.frames = t.frames) (f : FrameId) : s.chain f = t.chain f := by
  have hframe : ∀ g, s.frame? g = t.frame? g := fun g => congrArg (·[g.index]?) h
  have hsteps : ∀ steps g, s.chainUpTo steps g = t.chainUpTo steps g := by
    intro steps
    induction steps with
    | zero => exact fun _ => rfl
    | succ steps ih =>
      intro g
      rw [chainUpTo, chainUpTo, hframe]
      simp only [ih]
  exact hsteps _ f

theorem lookup?_congr (h : s.frames = t.frames) (f : FrameId) (name : String) :
    s.lookup? f name = t.lookup? f name := by
  have hbinding : s.binding? name = t.binding? name :=
    funext fun g => congrArg (fun frames : Array Frame =>
      (frames[g.index]?).bind (·.bindings.get? name)) h
  unfold lookup?
  rw [chain_congr h, hbinding]

theorem owner?_congr (h : s.frames = t.frames) (f : FrameId) (name : String) :
    s.owner? f name = t.owner? f name := by
  have hbinding : s.binding? name = t.binding? name :=
    funext fun g => congrArg (fun frames : Array Frame =>
      (frames[g.index]?).bind (·.bindings.get? name)) h
  unfold owner?
  rw [chain_congr h, hbinding]

theorem define_congr (h : s.frames = t.frames) (f : FrameId) (name : String) (value : Value) :
    (s.define f name value).frames = (t.define f name value).frames := by
  unfold define
  rw [h]

theorem newFrame_congr (h : s.frames = t.frames) (frame : Frame) :
    (s.newFrame frame).2.frames = (t.newFrame frame).2.frames ∧
      (s.newFrame frame).1 = (t.newFrame frame).1 := by
  unfold newFrame
  rw [h]
  exact ⟨rfl, rfl⟩

theorem eq_of_parts (hframes : s.frames = t.frames) (hobjects : s.objects = t.objects)
    (hclosures : s.closures = t.closures) : s = t := by
  obtain ⟨_, _, _⟩ := s
  obtain ⟨_, _, _⟩ := t
  cases hframes
  cases hobjects
  cases hclosures
  rfl

theorem receiver?_congr (h : s.frames = t.frames) (f : FrameId) :
    s.receiver? f = t.receiver? f := by
  have hframe : s.frame? = t.frame? := funext fun g => congrArg (·[g.index]?) h
  unfold receiver?
  rw [chain_congr h, hframe]

end Store

namespace Discipline

variable {depths : Nat → Prop} {passes cuts : Halt → Prop}

/-- In the same store all is alike, whatever a survey asks for. -/
theorem lawful_same_of_open {S : Survey Unit} (hopen : S.isOpen () = true)
    (hfault : ∀ fault : RuntimeFault, (∀ limit, fault.cause ≠ .stackOverflow limit) →
      passes (.fault fault)) : (same depths passes cuts).Lawful S where
  frames_mono _ h := h
  stores_congr h hs ht := hs.trans (h.trans ht.symm)
  fault {fault} h := hfault fault fun limit heq => by rw [heq] at h; cases h
  lookup hstores hframes _ := by
    cases hframes
    exact ⟨Store.lookup?_congr hstores _ _, fun _ => hfault _ fun _ heq => by cases heq⟩
  receiver hstores hframes _ := by
    cases hframes
    exact ⟨Store.receiver?_congr hstores _, fun _ => hfault _ fun _ heq => by cases heq⟩
  assign {w s t i f g f' g' name} value hstores hframes hs ht := by
    cases hframes
    rw [Store.owner?_congr hstores, ht] at hs
    cases hs
    exact ⟨(), trivial, Store.define_congr hstores _ _ _⟩
  define name value hstores hframes _ := by
    cases hframes
    exact ⟨(), trivial, Store.define_congr hstores _ _ _, rfl⟩
  enter isCall receiver? hstores hframes := by
    cases hframes
    exact ⟨(), trivial, Store.newFrame_congr hstores _⟩
  fork {w s t i f g} hstores hframes _ := by
    cases hframes
    have hframe : s.frame? f = t.frame? f := congrArg (·[f.index]?) hstores
    unfold Store.fork
    rw [hframe]
    exact ⟨(), trivial, Store.newFrame_congr hstores _⟩
  isOpen_enter _ := hopen
  isOpen_declare _ _ := hopen
  hoisted := .inr fun _ _ => rfl

theorem lawful_same
    (hfault : ∀ fault : RuntimeFault, (∀ limit, fault.cause ≠ .stackOverflow limit) →
      passes (.fault fault)) : (same depths passes cuts).Lawful .nothing :=
  lawful_same_of_open rfl hfault

/-- The discipline under which no machines meet. -/
def never : Discipline Unit Unit :=
  same (fun _ => False) (fun _ => True) fun _ => False

theorem lawful_never : never.Lawful .nothing :=
  lawful_same fun _ _ => trivial

theorem limits_never {limit : Nat} : never.Limits limit limit :=
  ⟨Nat.le_refl _, fun h _ => h.elim, fun _ => .inl ⟨rfl, trivial⟩⟩

/-- A machine meets itself if its functions pass. -/
theorem meet_same_of_passes {S : Survey Unit} {m : Machine} (h : depths m.depth)
    (hpasses : ∀ id c, m.store.closure? id = some c → c.definition.passes S () = true) :
    (same depths passes cuts).Meet S () m m where
  stores := rfl
  objects := rfl
  closures id := by
    cases hfound : m.store.closure? id with
    | none => exact .none
    | some c => exact .some ⟨rfl, rfl, (), hpasses id c hfound, rfl⟩
  depth := rfl
  depths := h
  output := rfl

/-- Every machine meets itself. -/
theorem meet_same {m : Machine} (h : depths m.depth) :
    (same depths passes cuts).Meet .nothing () m m :=
  meet_same_of_passes h fun _ _ _ => Function.passes_nothing _

/-- A discipline of runs that do not differ in anything. -/
structure IsExact {I World : Type} (D : Discipline I World) : Prop where
  frames : ∀ {w i f g}, D.frames w i f g → f = g
  stores : ∀ {w s t}, D.stores w s t → s.frames = t.frames
  cutsLeft : ∀ halt, ¬D.cutsLeft halt
  cutsRight : ∀ halt, ¬D.cutsRight halt

theorem isExact_same : (same depths passes fun _ => False).IsExact where
  frames h := h
  stores h := h
  cutsLeft _ h := h
  cutsRight _ h := h

namespace IsExact

variable {I World : Type} {D : Discipline I World} {S : Survey I} (hD : D.IsExact)
include hD

/-- Machines that meet have the same store. -/
theorem store_eq {w : World} {m n : Machine} (h : D.Meet S w m n) : m.store = n.store := by
  have hclosures : m.store.closures = n.store.closures := by
    refine Array.ext_getElem? fun index => ?_
    have hrel := h.closures ⟨index⟩
    unfold Store.closure? at hrel
    dsimp only at hrel
    generalize m.store.closures[index]? = c? at hrel
    generalize n.store.closures[index]? = d? at hrel
    cases hrel with
    | none => rfl
    | @some c d htwins =>
      obtain ⟨definition, f, name?⟩ := c
      obtain ⟨_, _, _⟩ := d
      obtain ⟨rfl, rfl, _, _, hframes⟩ := htwins
      cases hD.frames hframes
      rfl
  exact Store.eq_of_parts (hD.stores h.stores) h.objects hclosures

/-- Balanced runs that agree from the same machine are the same. -/
theorem eq_of_agree {α : Type} {x y : Run α} {m : Machine} {w : World}
    (h : D.Agree S w x m y m fun _ a b => a = b) (hx : Balanced x) (hy : Balanced y) :
    y m = x m := by
  have hmachine : ∀ {w' : World} {m' n' : Machine}, m'.frame = m.frame → n'.frame = m.frame →
      D.Meet S w' m' n' → n' = m' := by
    intro w' m' n' hm hn hmeet
    obtain ⟨store, frame, depth, output⟩ := m'
    obtain ⟨store', frame', depth', output'⟩ := n'
    have hstore := hD.store_eq hmeet
    have hdepth := hmeet.depth
    have houtput := hmeet.output
    dsimp only at hm hn hstore hdepth houtput
    rw [hstore, hdepth, houtput, hm, hn]
  have hmx := hx m
  have hmy := hy m
  cases h with
  | ok hxm hym hm hn _ hmeet heq => rw [hxm, hym, hmachine hm hn hmeet, heq]
  | halt hxm hym _ _ hmeet =>
    rw [endOf_of_error hxm] at hmx
    rw [endOf_of_error hym] at hmy
    rw [hxm, hym, hmachine hmx.frame hmy.frame hmeet]
  | cutLeft _ hcut _ => exact absurd hcut (hD.cutsLeft _)
  | cutRight _ hcut _ => exact absurd hcut (hD.cutsRight _)

end IsExact

end Discipline

/-! ## Balanced evaluators -/

/-- What the parts of a program do, whichever they are, is balanced. -/
structure Evaluator.IsBalanced (go : Evaluator) : Prop where
  eval : ∀ e, Balanced (go.eval e)
  exec : ∀ s, Balanced (go.exec s)
  loop : ∀ f condition? update? body, Balanced (go.loop f condition? update? body)
  repeatWhile : ∀ condition body, Balanced (go.repeatWhile condition body)

namespace Evaluator

/-- Statements in a row are balanced if each statement is. -/
theorem balanced_execStatements {go : Evaluator} (hgo : ∀ s, Balanced (go.exec s))
    (l : List Stmt) : Balanced (go.execStatements l) := by
  have hhoist : Balanced (hoist l) := by
    induction l with
    | nil => exact .pure ()
    | cons s rest ih =>
      cases s with
      | function definition =>
        rw [hoist]
        cases definition.name? with
        | none => exact (Balanced.pure PUnit.unit).bind fun _ => ih
        | some name =>
          refine (Balanced.frame.bind fun _ => (Balanced.make _).bind fun _ => .pure _).bind
            fun _ => ?_
          exact (Balanced.frame.bind fun _ => .change _).bind fun _ => ih
      | _ => exact ih
  refine hhoist.bind fun _ => ?_
  clear hhoist
  induction l with
  | nil => exact .pure _
  | cons s rest ih =>
    refine (hgo s).bind fun completion => ?_
    cases completion with
    | normal => exact ih
    | gaveBack value => exact .pure _

/-- What follows a round of a loop with a header. -/
theorem balanced_loop {round : Run (Completion ⊕ FrameId)} {x : FrameId → Run Completion}
    (hround : Balanced round) (hrest : ∀ f, Balanced (x f)) :
    Balanced (do match ← round with
      | .inl completion => return completion
      | .inr next => x next) := by
  refine hround.bind fun next => ?_
  cases next with
  | inl completion => exact .pure _
  | inr next => exact hrest next

/-- What follows a round of a loop with a condition only. -/
theorem balanced_repeatWhile {round : Run (Option Completion)} {x : Run Completion}
    (hround : Balanced round) (hrest : Balanced x) :
    Balanced (do match ← round with
      | some completion => return completion
      | none => x) := by
  refine hround.bind fun completion? => ?_
  cases completion? with
  | some completion => exact .pure _
  | none => exact hrest

/-- The evaluator with one more unit of fuel, under which expressions and statements are run
as given. -/
def withRules (go : Evaluator) (eval : Expr → Run Value) (exec : Stmt → Run Completion) :
    Evaluator where
  eval := eval
  exec := exec
  loop f condition? update? body := do
    match ← go.loopRound f condition? update? body with
    | .inl completion => return completion
    | .inr next => go.loop next condition? update? body
  repeatWhile condition body := do
    match ← go.whileRound condition body with
    | some completion => return completion
    | none => go.repeatWhile condition body

namespace IsBalanced

variable {go : Evaluator} (hgo : go.IsBalanced)
include hgo

/-- Where no machines meet, there is nothing to a similarity but balance. -/
theorem similar_never : Evaluator.Similar .never .nothing go go where
  eval _ := ⟨hgo.eval _, hgo.eval _, fun _ _ _ hmeet => hmeet.depths.elim⟩
  exec _ := ⟨hgo.exec _, hgo.exec _, fun _ _ _ hmeet => hmeet.depths.elim⟩
  loop _ _ _ _ := ⟨fun f => hgo.loop f _ _ _, fun f => hgo.loop f _ _ _,
    fun _ _ _ _ _ hmeet => hmeet.depths.elim⟩
  repeatWhile _ _ := ⟨hgo.repeatWhile _ _, hgo.repeatWhile _ _,
    fun _ _ _ hmeet => hmeet.depths.elim⟩
  left := balanced_execStatements hgo.exec
  right := balanced_execStatements hgo.exec

theorem evalRule (limit : Nat) (e : Expr) : Balanced (go.evalRule limit e) :=
  (Similar.evalRule Discipline.lawful_never hgo.similar_never Discipline.limits_never
    (Expr.passes_nothing e)).left

theorem execRule (s : Stmt) : Balanced (go.execRule s) :=
  (Similar.execRule Discipline.lawful_never hgo.similar_never (Stmt.passes_nothing s)).left

theorem loopRound (f : FrameId) (condition? update? : Option Expr) (body : Block) :
    Balanced (go.loopRound f condition? update? body) :=
  (Similar.loopRound Discipline.lawful_never hgo.similar_never (i := ()) rfl
    (optionPasses_nothing condition?) (optionPasses_nothing update?)
    (Block.passesAt_nothing body)).left f

theorem whileRound (condition : Expr) (body : Block) :
    Balanced (go.whileRound condition body) :=
  (Similar.whileRound Discipline.lawful_never hgo.similar_never
    (Expr.passes_nothing condition) (Block.passesAt_nothing body)).left

theorem withRules {eval : Expr → Run Value} {exec : Stmt → Run Completion}
    (heval : ∀ e, Balanced (eval e)) (hexec : ∀ s, Balanced (exec s)) :
    (go.withRules eval exec).IsBalanced where
  eval := heval
  exec := hexec
  loop f condition? update? body := balanced_loop (hgo.loopRound f condition? update? body)
    fun next => hgo.loop next condition? update? body
  repeatWhile condition body := balanced_repeatWhile (hgo.whileRound condition body)
    (hgo.repeatWhile condition body)

end IsBalanced

end Evaluator

/-- Whatever a run does, it restores the frame and the depth and keeps the lines. -/
theorem evaluator_balanced (limit fuel : Nat) : (evaluator limit fuel).IsBalanced := by
  induction fuel with
  | zero => exact ⟨fun _ => .throw _, fun _ => .throw _, fun _ _ _ _ => .throw _,
      fun _ _ => .throw _⟩
  | succ fuel ih => exact ih.withRules (ih.evalRule limit) ih.execRule

/-! ## Evaluators with fuel -/

namespace Evaluator.Similar

variable {i : I}

/-- A loop with a header goes on from frames that correspond. -/
theorem loop_of_round {x y : FrameId → Run Completion}
    {round round' : FrameId → Run (Completion ⊕ FrameId)}
    (hround : D.SimilarIn S i round round' fun w => Sum.LiftRel (· = ·) (D.frames w i))
    (hrest : D.SimilarIn S i x y fun _ a b => a = b) :
    D.SimilarIn S i
      (fun f => do match ← round f with
        | .inl completion => return completion
        | .inr next => x next)
      (fun g => do match ← round' g with
        | .inl completion => return completion
        | .inr next => y next)
      fun _ a b => a = b := by
  refine ⟨fun f => balanced_loop (hround.left f) hrest.left,
    fun g => balanced_loop (hround.right g) hrest.right, fun w m n f g hmeet hfg => ?_⟩
  refine (hround.agree w m n f g hmeet hfg).bind (fun next => ?_) (fun next => ?_) ?_
  · cases next with
    | inl completion => exact .pure _
    | inr next => exact hrest.left next
  · cases next with
    | inl completion => exact .pure _
    | inr next => exact hrest.right next
  intro a b m' n' w' _ _ _ hmeet' hnext
  cases hnext with
  | inl heq =>
    cases heq
    exact .pure hmeet' rfl
  | inr hframes => exact hrest.agree w' m' n' _ _ hmeet' hframes

/-- A loop with a condition only goes on after similar rounds. -/
theorem repeatWhile_of_round {x y : Run Completion}
    {round round' : Run (Option Completion)} (hround : D.Similar S i i round round')
    (hrest : D.Similar S i i x y) :
    D.Similar S i i
      (do match ← round with
        | some completion => return completion
        | none => x)
      (do match ← round' with
        | some completion => return completion
        | none => y) := by
  refine hround.bind fun completion? => ?_
  cases completion? with
  | some completion => exact .pure _
  | none => exact hrest

/-- Loops are alike if their rounds are. -/
theorem withRules (hD : D.Lawful S) {go go' : Evaluator} (hgo : Evaluator.Similar D S go go')
    {eval eval' : Expr → Run Value} {exec exec' : Stmt → Run Completion}
    (heval : ∀ {i e}, e.passes S i = true → D.Similar S i i (eval e) (eval' e))
    (hexec : ∀ {i s}, s.passes S i = true →
      D.Similar S i (s.indexAfter S i) (exec s) (exec' s))
    (hleft : ∀ s, Balanced (exec s)) (hright : ∀ s, Balanced (exec' s)) :
    Evaluator.Similar D S (go.withRules eval exec) (go'.withRules eval' exec') where
  eval := heval
  exec := hexec
  loop hopen hcondition hupdate hbody := loop_of_round
    (loopRound hD hgo hopen hcondition hupdate hbody) (hgo.loop hopen hcondition hupdate hbody)
  repeatWhile hcondition hbody := repeatWhile_of_round (whileRound hD hgo hcondition hbody)
    (hgo.repeatWhile hcondition hbody)
  left := balanced_execStatements hleft
  right := balanced_execStatements hright

end Evaluator.Similar

/-- Two amounts of fuel, of which one may be too small if that is a halt that cuts its
run short. -/
def Discipline.Fuels (D : Discipline I World) (fuel fuel' : Nat) : Prop :=
  fuel = fuel' ∧ D.passes .outOfFuel ∨ fuel ≤ fuel' ∧ D.cutsLeft .outOfFuel ∨
    fuel' ≤ fuel ∧ D.cutsRight .outOfFuel

/-- Two amounts of fuel of which one is used up. -/
theorem Discipline.Fuels.agree {fuel fuel' : Nat} (hfuel : D.Fuels fuel fuel')
    (hzero : fuel = 0 ∨ fuel' = 0) {α : Type} {x y : Run α} (hx : Balanced x) (hy : Balanced y)
    (hleft : fuel = 0 → x = Run.outOfFuel) (hright : fuel' = 0 → y = Run.outOfFuel) {w : World}
    {m n : Machine} (hmeet : D.Meet S w m n) {Q : World → α → α → Prop} :
    D.Agree S w x m y n Q := by
  rcases hfuel with ⟨heq, hpasses⟩ | ⟨hle, hcuts⟩ | ⟨hle, hcuts⟩
  · rw [hleft (by omega), hright (by omega)]
    exact .throw hmeet hpasses
  · rw [hleft (by omega)]
    exact .throwLeft hmeet hcuts hy
  · rw [hright (by omega)]
    exact .throwRight hmeet hcuts hx

/-- Without fuel there is nothing that would have to be alike. -/
theorem Evaluator.Similar.of_zero {limit limit' fuel fuel' : Nat}
    (hfuel : D.Fuels fuel fuel') (hzero : fuel = 0 ∨ fuel' = 0) :
    Evaluator.Similar D S (evaluator limit fuel) (evaluator limit' fuel') := by
  have hleft := evaluator_balanced limit fuel
  have hright := evaluator_balanced limit' fuel'
  exact {
    eval := fun {i e} _ => ⟨hleft.eval e, hright.eval e, fun _ _ _ hmeet _ =>
      hfuel.agree hzero (hleft.eval e) (hright.eval e) (fun h => by subst h; rfl)
        (fun h => by subst h; rfl) hmeet⟩
    exec := fun {i s} _ => ⟨hleft.exec s, hright.exec s, fun _ _ _ hmeet _ =>
      hfuel.agree hzero (hleft.exec s) (hright.exec s) (fun h => by subst h; rfl)
        (fun h => by subst h; rfl) hmeet⟩
    loop := fun _ _ _ _ => ⟨fun f => hleft.loop f _ _ _, fun g => hright.loop g _ _ _,
      fun _ _ _ f g hmeet _ =>
        hfuel.agree hzero (hleft.loop f _ _ _) (hright.loop g _ _ _)
          (fun h => by subst h; rfl) (fun h => by subst h; rfl) hmeet⟩
    repeatWhile := fun _ _ => ⟨hleft.repeatWhile _ _, hright.repeatWhile _ _,
      fun _ _ _ hmeet _ =>
        hfuel.agree hzero (hleft.repeatWhile _ _) (hright.repeatWhile _ _)
          (fun h => by subst h; rfl) (fun h => by subst h; rfl) hmeet⟩
    left := balanced_execStatements hleft.exec
    right := balanced_execStatements hright.exec }

/-- The parts of a program that pass a survey run similarly. -/
theorem evaluator_similar (hD : D.Lawful S) {limit limit' : Nat} (hlimits : D.Limits limit limit')
    {fuel fuel' : Nat} (hfuel : D.Fuels fuel fuel') :
    Evaluator.Similar D S (evaluator limit fuel) (evaluator limit' fuel') := by
  induction fuel generalizing fuel' with
  | zero => exact .of_zero hfuel (.inl rfl)
  | succ fuel ih =>
    cases fuel' with
    | zero => exact .of_zero hfuel (.inr rfl)
    | succ fuel' =>
      have hgo := ih (hfuel.imp (And.imp_left Nat.succ.inj)
        (Or.imp (And.imp_left Nat.le_of_succ_le_succ) (And.imp_left Nat.le_of_succ_le_succ)))
      exact hgo.withRules hD (fun h => Evaluator.Similar.evalRule hD hgo hlimits h)
        (fun h => Evaluator.Similar.execRule hD hgo h)
        (evaluator_balanced limit fuel).execRule (evaluator_balanced limit' fuel').execRule

/-- The statements of a program under two similar evaluators. -/
theorem Program.agree_of_similar (hD : D.Lawful S) {go go' : Evaluator}
    (hgo : Evaluator.Similar D S go go') {program : Program} {i : I}
    (hprogram : rowPasses S i program.statements = true) {w : World}
    (hmeet : D.Meet S w Machine.initial Machine.initial)
    (hframes : D.frames w i Machine.initial.frame Machine.initial.frame) :
    D.Agree S w (do let _ ← go.execStatements program.statements) Machine.initial
      (do let _ ← go'.execStatements program.statements) Machine.initial fun _ a b => a = b := by
  refine ((Evaluator.Similar.execStatements hD hgo hprogram).agree w _ _ hmeet hframes).bind
    (fun _ => .pure _) (fun _ => .pure _) ?_
  intro _ _ _ _ _ _ _ _ hmeet' _
  exact .pure hmeet' rfl

end TypedScript
