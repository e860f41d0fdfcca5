import TypedScript.Proofs.FirstOrder
import TypedScript.Proofs.Pairing
import TypedScript.Proofs.SimilarPrograms

/-!
# Two forms of a loop

A loop with a header copies the frame of its variables before each update, which shows
only in functions that were made in the loop. If it makes none, it does the same as a
block with the first part of the header and a loop with a condition only, whose body
is the body in a block and the update (`Stmt.asWhile`): one of them ends if the other
one does, and in the same way, in machines that are the same up to the frames that
were made on the way (`Stmt.loop_like_asWhile`).

In each round the condition, the body and the update are similar in their settings;
after the round the frames are paired anew. So the worlds of the rounds keep no pairs
but those outside of the loop (`Discipline.rounds`).
-/

namespace TypedScript

open Run

/-- The block that does without a header what a loop does with one. -/
def Stmt.asWhile (init? : Option Stmt) (condition? update? : Option Expr) (body : Block)
    (position : Position) : Stmt :=
  .block ⟨init?.toList ++ [.repeatWhile (condition?.getD (.literal (.boolean true) position))
    ⟨.block body :: (update?.map (.expression · position)).toList, position⟩ position], position⟩

/-! ## Machines that are the same up to frames -/

/-- A renaming of the frames of one store to those of another one, which keeps all that
were there before. -/
structure Store.Renaming (old : Store) (R : FrameId → FrameId → Prop) (s t : Store) : Prop where
  single : ∀ {f g f' g'}, R f g → R f' g' → (f = f' ↔ g = g')
  kept : ∀ f, (old.frame? f).isSome = true → R f f
  frames : ∀ {f g}, R f g → ∃ p q, s.frame? f = some p ∧ t.frame? g = some q ∧ p.Alike R q
  closures : ∀ id, Option.Rel
    (fun c d : Closure => c.definition = d.definition ∧ c.name? = d.name? ∧ R c.frame d.frame)
    (s.closure? id) (t.closure? id)

/-- Two machines that are the same up to a renaming of the frames that were not there
before. -/
structure Machine.SameUpToFrames (old : Store) (m n : Machine) : Prop where
  frame : m.frame = n.frame
  depth : m.depth = n.depth
  output : m.output = n.output
  objects : m.store.objects = n.store.objects
  renamed : ∃ R, Store.Renaming old R m.store n.store

/-- Two runs that end in the same way, neither of them for want of fuel. -/
inductive Run.SameEnd {α : Type} (old : Store) :
    EStateM.Result Halt Machine α → EStateM.Result Halt Machine α → Prop
  | value (a : α) {m n : Machine} : m.SameUpToFrames old n → SameEnd old (.ok a m) (.ok a n)
  | fault (fault : RuntimeFault) {m n : Machine} : m.SameUpToFrames old n →
    SameEnd old (.error (.fault fault) m) (.error (.fault fault) n)

/-- A run that does not stop for want of fuel. -/
def Run.ends {α : Type} : EStateM.Result Halt Machine α → Bool
  | .error .outOfFuel _ => false
  | _ => true

/-! ## Rounds of two forms -/

/-- Whether a loop is over once its body is. -/
def Completion.over? : Completion → Option Completion
  | .gaveBack value => some (.gaveBack value)
  | .normal => none

namespace Evaluator

variable (go : Evaluator)

/-- What follows the body in a round of a loop with a header. -/
def nextRound (f : FrameId) (update? : Option Expr) : Completion → Run (Completion ⊕ FrameId)
  | .gaveBack value => return .inl (.gaveBack value)
  | .normal => do
    let next ← make (·.fork f)
    if let some update := update? then
      let _ ← inFrame next (go.eval update)
    return .inr next

/-- The statements that follow another one. -/
def goOn (rest : List Stmt) : Completion → Run Completion
  | .normal => go.execEach rest
  | .gaveBack value => return .gaveBack value

theorem finishRound_true (f : FrameId) (update? : Option Expr) (body : Block) :
    go.finishRound f update? body true =
      inFrame f (go.execBlock body) >>= go.nextRound f update? := by
  refine congrArg (inFrame f (go.execBlock body) >>= ·) (funext fun completion => ?_)
  cases completion <;> rfl

theorem execEach_cons (s : Stmt) (rest : List Stmt) :
    go.execEach (s :: rest) = go.exec s >>= go.goOn rest := by
  refine congrArg (go.exec s >>= ·) (funext fun completion => ?_)
  cases completion <;> rfl

variable {go} in
/-- A round of the loop that a loop with a header is written as. -/
theorem whileRound_eq (hgo : ∀ s, Balanced (go.exec s)) (condition : Expr) (update? : Option Expr)
    (body : Block) (position : Position) :
    go.whileRound condition
        ⟨.block body :: (update?.map (.expression · position)).toList, position⟩ =
      go.evalCondition condition >>= fun begins =>
        if begins then do
          let k ← newChild
          let completion ← inFrame k (go.exec (.block body))
          let last ← inFrame k (go.goOn (update?.map (.expression · position)).toList completion)
          return last.over?
        else return some .normal := by
  refine congrArg (go.evalCondition condition >>= ·) (funext fun begins => ?_)
  cases begins with
  | false => rfl
  | true =>
    -- neither a block nor an expression is hoisted
    have hhoist : hoist (.block body :: (update?.map (.expression · position)).toList) =
        pure () := by
      cases update? <;> rfl
    have hrow : go.execStatements
        (.block body :: (update?.map (.expression · position)).toList) =
        go.exec (.block body) >>= go.goOn (update?.map (.expression · position)).toList := by
      rw [← execEach_cons]
      unfold execStatements
      rw [hhoist]
      rfl
    unfold execBlock
    dsimp only
    rw [hrow]
    simp only [inFrame_bind _ (hgo _), if_true, bind_assoc]
    refine congrArg (newChild >>= ·) (funext fun k => ?_)
    refine congrArg (inFrame k (go.exec (.block body)) >>= ·) (funext fun completion => ?_)
    refine congrArg (inFrame k (go.goOn _ completion) >>= ·) (funext fun last => ?_)
    -- the rounds end with a value that is given back only
    cases last <;> rfl

end Evaluator

/-! ## Rounds -/

section Loops

variable {onLeft : Bool}

/-- The discipline of whole rounds: only the frames outside the loop remain paired. -/
def Discipline.rounds (onLeft : Bool) : Discipline Setting Pairing :=
  { pairing onLeft with
    le := fun w w' => ∀ f g, w .outside f g → w' .outside f g
    refl := fun _ _ _ h => h
    trans := fun h h' _ _ hfg => h' _ _ (h _ _ hfg) }

variable {w w' : Pairing} {m n : Machine} {f g : FrameId}

/-- After a round, what was made in it is forgotten. -/
theorem Discipline.Meet.round (h : (Discipline.pairing onLeft).Meet .settings w m n)
    (hle : ∀ f g, w .outside f g → w' .outside f g) {s t : Store} (hst : w'.InPairs s t)
    (hs : s.objects = m.store.objects ∧ s.closures = m.store.closures)
    (ht : t.objects = n.store.objects ∧ t.closures = n.store.closures) :
    (Discipline.rounds onLeft).Meet .settings w' { m with store := s } { n with store := t } where
  stores := hst
  objects := hs.1.trans (h.objects.trans ht.1.symm)
  closures id := by
    unfold Store.closure?
    dsimp only
    rw [hs.2, ht.2]
    have hrel := h.closures id
    unfold Store.closure? at hrel
    generalize m.store.closures[id.index]? = c? at hrel ⊢
    generalize n.store.closures[id.index]? = d? at hrel ⊢
    cases hrel with
    | none => exact .none
    | some htwins =>
      obtain ⟨hdefinition, hname, i, hpasses, hframes⟩ := htwins
      have hi : i = .outside := by
        rw [Function.passes_eq, Bool.and_eq_true] at hpasses
        exact of_decide_eq_true hpasses.1
      subst hi
      exact .some ⟨hdefinition, hname, .outside, hpasses, hle _ _ hframes⟩
  depth := h.depth
  depths := trivial
  output := h.output

theorem Discipline.Meet.toRounds (h : (Discipline.pairing onLeft).Meet .settings w m n) :
    (Discipline.rounds onLeft).Meet .settings w m n :=
  h.round (fun _ _ h => h) h.stores ⟨rfl, rfl⟩ ⟨rfl, rfl⟩

theorem Discipline.Meet.ofRounds (h : (Discipline.rounds onLeft).Meet .settings w m n) :
    (Discipline.pairing onLeft).Meet .settings w m n :=
  ⟨h.stores, h.objects, fun id => (h.closures id).casesOn (motive := fun c? d? _ =>
    Option.Rel ((Discipline.pairing onLeft).Twins .settings w) c? d?)
    (fun h => .some ⟨h.definition, h.name, h.placed⟩) .none, h.depth, h.depths, h.output⟩

/-- Runs that agree within a round, seen from outside the loop. -/
theorem Discipline.Agree.toRounds {α β : Type} {x : Run α} {y : Run β}
    {Q : Pairing → α → β → Prop}
    (h : (Discipline.pairing onLeft).Agree .settings w x m y n Q) :
    (Discipline.rounds onLeft).Agree .settings w x m y n fun w' a b =>
      Q w' a b ∧ ∀ i f g, w i f g → w' i f g := by
  cases h with
  | ok left right frame frame' le meet post =>
    exact .ok left right frame frame' (fun f g => le .outside f g) meet.toRounds ⟨post, le⟩
  | halt left right passes le meet =>
    exact .halt left right passes (fun f g => le .outside f g) meet.toRounds
  | cutLeft left cuts output => exact .cutLeft left cuts output
  | cutRight right cuts output => exact .cutRight right cuts output

/-- The fuel that may be used up is the lesser one; on the right some is needed in
addition. -/
def Headroom (onLeft : Bool) (more a b : Nat) : Prop :=
  if onLeft then a + more ≤ b else b ≤ a

theorem Headroom.left_iff {more a b : Nat} : Headroom true more a b ↔ a + more ≤ b := Iff.rfl

theorem Headroom.right_iff {more a b : Nat} : Headroom false more a b ↔ b ≤ a := Iff.rfl

theorem Headroom.fuels {a b : Nat} (h : Headroom onLeft 0 a b) :
    (Discipline.pairing onLeft).Fuels a b := by
  cases onLeft with
  | true => exact .inr (.inl ⟨h, rfl, rfl⟩)
  | false => exact .inr (.inr ⟨h, rfl, rfl⟩)

theorem Headroom.less {more less a b : Nat} (h : Headroom onLeft more a b) (hle : less ≤ more) :
    Headroom onLeft less a b := by
  cases onLeft <;> simp only [left_iff, right_iff] at h ⊢ <;> omega

/-- What one unit of fuel on the right is used for. -/
theorem Headroom.pred {more a b : Nat} (h : Headroom onLeft (more + 1) a (b + 1)) :
    Headroom onLeft more a b := by
  cases onLeft <;> simp only [left_iff, right_iff] at h ⊢ <;> omega

theorem Headroom.round {more a b : Nat} (h : Headroom onLeft more (a + 1) (b + 1)) :
    Headroom onLeft more a b := by
  cases onLeft <;> simp only [left_iff, right_iff] at h ⊢ <;> omega

/-- Without fuel on the right, it is the right run that may be cut. -/
theorem Headroom.agree_zero {more a : Nat} (h : Headroom onLeft (more + 1) a 0) {α β : Type}
    {x : Run α} (hx : Balanced x) (hmeet : (Discipline.pairing onLeft).Meet .settings w m n)
    {Q : Pairing → α → β → Prop} :
    (Discipline.pairing onLeft).Agree .settings w x m (Run.outOfFuel : Run β) n Q := by
  cases onLeft with
  | true => exact absurd h (Nat.not_succ_le_zero _)
  | false => exact .throwRight hmeet ⟨rfl, rfl⟩ hx

variable {limit a b : Nat} {init? : Option Stmt} {condition? update? : Option Expr} {body : Block}
  {position : Position}

variable (limit) in
theorem Headroom.similar (h : Headroom onLeft 0 a b) :
    Evaluator.Similar (Discipline.pairing onLeft) .settings (evaluator limit a)
      (evaluator limit b) :=
  evaluator_similar (Discipline.lawful_pairing onLeft)
    ⟨Nat.le_refl _, fun _ _ => trivial, fun _ => .inl ⟨rfl, fun heq => by cases heq⟩⟩ h.fuels

/-! ### The parts of a round -/

variable (limit position) in
/-- The condition of a loop, and that of the loop without a header. -/
theorem similar_condition (h : Headroom onLeft 1 a b)
    (hcondition : optionPasses .settings .header condition? = true) :
    (Discipline.pairing onLeft).Similar .settings .header .header
      ((evaluator limit a).goesOn condition?)
      ((evaluator limit b).evalCondition
        (condition?.getD (.literal (.boolean true) position))) := by
  cases condition? with
  | some condition =>
    rw [optionPasses] at hcondition
    exact Evaluator.Similar.evalCondition (Discipline.lawful_pairing onLeft)
      ((h.less (Nat.zero_le _)).similar limit) hcondition
  | none =>
    refine ⟨.pure true, ((evaluator_balanced limit b).eval _).bind fun _ => .ofExcept _, ?_⟩
    intro w m n hmeet hframes
    cases b with
    | zero => exact h.agree_zero (.pure true) hmeet
    | succ b => exact .pure hmeet ⟨rfl, hframes⟩

variable (limit) in
/-- The body of a loop, and the body in a block. -/
theorem similar_body (h : Headroom onLeft 1 a b)
    (hbody : body.passesAt .settings .inside = true) :
    (Discipline.pairing onLeft).Similar .settings .between .between
      ((evaluator limit a).execBlock body) ((evaluator limit b).exec (.block body)) := by
  have hleft : Balanced ((evaluator limit a).execBlock body) :=
    (Balanced.frame.bind fun _ => .make _).bind fun f =>
      (Evaluator.balanced_execStatements (evaluator_balanced limit a).exec _).inFrame f
  cases b with
  | zero => exact ⟨hleft, .throw _, fun _ _ _ hmeet _ => h.agree_zero hleft hmeet⟩
  | succ b =>
    exact Evaluator.Similar.execBlock (Discipline.lawful_pairing onLeft) (h.pred.similar _) hbody

variable (limit position) in
/-- The update of a loop, and the update as a statement. -/
theorem agree_update (h : Headroom onLeft 1 a b) {update : Expr}
    (hupdate : update.passes .settings .between = true)
    (hmeet : (Discipline.pairing onLeft).Meet .settings w m n)
    (hframes : w .between m.frame n.frame) :
    (Discipline.pairing onLeft).Agree .settings w ((evaluator limit a).eval update) m
      ((evaluator limit b).execEach [.expression update position]) n
      fun _ _ completion => completion = .normal := by
  have hleft := (evaluator_balanced limit a).eval update
  cases b with
  | zero => exact h.agree_zero hleft hmeet
  | succ b =>
    have heq : (evaluator limit (b + 1)).execEach [.expression update position] =
        (evaluator limit b).eval update >>= fun _ => pure .normal := by
      have hexec : (evaluator limit (b + 1)).exec (.expression update position) =
          (evaluator limit b).eval update >>= fun _ => pure .normal := rfl
      rw [Evaluator.execEach, hexec, bind_assoc]
      simp only [pure_bind]
      rfl
    rw [heq, ← bind_pure ((evaluator limit a).eval update)]
    refine (((h.pred.similar _).eval hupdate).agree w m n hmeet hframes).bind (fun _ => .pure _)
      (fun _ => .pure _) ?_
    intro _ _ m' n' w' _ _ _ hmeet' _
    exact .pure hmeet' rfl

/-! ### A round -/

/-- How the ends of two rounds correspond: the loop is over, or there is a frame for the
next round. -/
inductive RoundEnd (w : Pairing) (g : FrameId) : Completion ⊕ FrameId → Option Completion → Prop
  | ends (completion : Completion) : RoundEnd w g (.inl completion) (some completion)
  | goesOn {f : FrameId} : w .header f g → RoundEnd w g (.inr f) none

theorem balanced_nextRound (completion : Completion) :
    Balanced ((evaluator limit a).nextRound f update? completion) := by
  cases completion with
  | gaveBack value => exact .pure _
  | normal =>
    refine (Balanced.make _).bind fun next => ?_
    cases update? with
    | none => exact .pure _
    | some update =>
      exact (((evaluator_balanced limit a).eval update).inFrame next).bind fun _ => .pure _

theorem balanced_goOn (rest : List Stmt) (completion : Completion) :
    Balanced ((evaluator limit a).goOn rest completion) := by
  cases completion with
  | gaveBack value => exact .pure _
  | normal =>
    induction rest with
    | nil => exact .pure _
    | cons s rest ih =>
      refine ((evaluator_balanced limit a).exec s).bind fun completion => ?_
      cases completion with
      | normal => exact ih
      | gaveBack value => exact .pure _

/-- After the body, the frame of the variables is copied on the left, and the copy takes
its place. -/
theorem agree_nextRound (h : Headroom onLeft 1 a b)
    (hupdate : optionPasses .settings .between update? = true)
    (hmeet : (Discipline.pairing onLeft).Meet .settings w m n) {k : FrameId}
    (hheader : w .header f g) (hbetween : w .between f k) (completion : Completion) :
    (Discipline.rounds onLeft).Agree .settings w
      ((evaluator limit a).nextRound f update? completion) m
      (do
        let last ← inFrame k ((evaluator limit b).goOn
          (update?.map (.expression · position)).toList completion)
        return last.over?) n fun w' => RoundEnd w' g := by
  cases completion with
  | gaveBack value => exact .ok rfl rfl rfl rfl (fun _ _ h => h) hmeet.toRounds (.ends _)
  | normal =>
    have houtside : ∀ f' g', w .outside f' g' →
        (w.next (m.store.fork f).1 g k) .outside f' g' := fun _ _ h => h
    have hmeet' : (Discipline.rounds onLeft).Meet .settings (w.next (m.store.fork f).1 g k)
        { m with store := (m.store.fork f).2 } n :=
      hmeet.round houtside (hmeet.stores.next hheader hbetween) ⟨rfl, rfl⟩ ⟨rfl, rfl⟩
    cases update? with
    | none =>
      exact .ok rfl rfl rfl rfl houtside hmeet' (.goesOn ⟨rfl, rfl⟩)
    | some update =>
      rw [optionPasses] at hupdate
      have hround := (agree_update limit position h hupdate
        (hmeet'.ofRounds.inFrame (m.store.fork f).1 k) ⟨rfl, rfl⟩).inFrame.toRounds
      have hnext : (Discipline.rounds onLeft).Agree .settings (w.next (m.store.fork f).1 g k)
          (do
            let _ ← inFrame (m.store.fork f).1 ((evaluator limit a).eval update)
            return .inr (m.store.fork f).1)
          { m with store := (m.store.fork f).2 }
          (do
            let last ← inFrame k ((evaluator limit b).execEach [.expression update position])
            return last.over?) n fun w' => RoundEnd w' g := by
        refine hround.bind (fun _ => .pure _) (fun _ => .pure _) ?_
        intro _ last m' n' w' _ _ _ hmeet'' hpost
        obtain ⟨rfl, hle⟩ := hpost
        exact .pure hmeet'' (.goesOn (hle .header _ _ ⟨rfl, rfl⟩))
      exact hnext.step rfl rfl rfl rfl houtside

/-- A round of a loop with a header, and one of the loop it is written as. -/
theorem agree_round (h : Headroom onLeft 1 a b)
    (hcondition : optionPasses .settings .header condition? = true)
    (hupdate : optionPasses .settings .between update? = true)
    (hbody : body.passesAt .settings .inside = true)
    (hmeet : (Discipline.rounds onLeft).Meet .settings w m n) (hheader : w .header f n.frame) :
    (Discipline.rounds onLeft).Agree .settings w
      ((evaluator limit a).loopRound f condition? update? body) m
      ((evaluator limit b).whileRound (condition?.getD (.literal (.boolean true) position))
        ⟨.block body :: (update?.map (.expression · position)).toList, position⟩) n
      fun w' => RoundEnd w' n.frame := by
  have hgo := (evaluator_balanced limit b).exec
  have hbody' := similar_body limit h hbody
  have hright : ∀ k completion, Balanced (do
      let last ← inFrame k ((evaluator limit b).goOn
        (update?.map (.expression · position)).toList completion)
      return last.over?) :=
    fun k completion => ((balanced_goOn _ completion).inFrame k).bind fun _ => .pure _
  rw [Evaluator.loopRound_eq, Evaluator.whileRound_eq hgo]
  have hconditions := similar_condition limit position h hcondition
  have hbegins := (hconditions.agree w { m with frame := f } n (hmeet.ofRounds.inFrame f n.frame)
    hheader).inFrameLeft hconditions.right
  refine hbegins.toRounds.bind (fun begins => ?_) (fun begins => ?_) ?_
  · cases begins with
    | false => exact .pure _
    | true =>
      rw [Evaluator.finishRound_true]
      exact (hbody'.left.inFrame f).bind balanced_nextRound
  · cases begins with
    | false => exact .pure _
    | true => exact (Balanced.frame.bind fun _ => .make _).bind fun k =>
        (hbody'.right.inFrame k).bind (hright k)
  intro begins begins' m' n' w' _ hn _ hmeet' hpost
  obtain ⟨⟨rfl, hheader'⟩, _⟩ := hpost
  rw [← hn] at hheader' ⊢
  cases begins with
  -- no round begins, so both loops end where they are
  | false => exact .ok rfl rfl rfl rfl (fun _ _ h => h) hmeet' (.ends .normal)
  | true =>
    rw [Evaluator.finishRound_true]
    -- the other form opens one frame more around the body and the update
    let k := (n'.store.newFrame (Pairing.spare n'.frame)).1
    have hmeet'' : (Discipline.pairing onLeft).Meet .settings (w'.add .between f k) m'
        { n' with store := (n'.store.newFrame (Pairing.spare n'.frame)).2 } :=
      hmeet'.ofRounds.of_frames (Discipline.lawful_pairing onLeft) (fun _ _ _ => .inl)
        (hmeet'.stores.addSpare hheader') ⟨rfl, rfl⟩ ⟨rfl, rfl⟩
    have hbodies := (hbody'.agree _ _ _ (hmeet''.inFrame f k) (w'.add_self _ _ _)).inFrame
    refine Discipline.Agree.step (hbodies.toRounds.bind balanced_nextRound (hright k) ?_)
      rfl rfl rfl rfl fun _ _ => .inl
    intro completion completion' m'' n'' w'' _ _ _ hmeet₃ hpost
    obtain ⟨⟨rfl, hbetween⟩, hle⟩ := hpost
    exact agree_nextRound h hupdate hmeet₃.ofRounds (hle _ _ _ (.inl hheader')) hbetween completion

/-! ### All rounds -/

/-- One of the fuels is used up. -/
theorem Headroom.agree_end (h : Headroom onLeft 1 a b) (hzero : a = 0 ∨ b = 0) {α β : Type}
    {x : Run α} {y : Run β} (hx : Balanced x) (hy : Balanced y) (hleft : a = 0 → x = Run.outOfFuel)
    (hright : b = 0 → y = Run.outOfFuel)
    (hmeet : (Discipline.rounds onLeft).Meet .settings w m n) {Q : Pairing → α → β → Prop} :
    (Discipline.rounds onLeft).Agree .settings w x m y n Q := by
  cases onLeft with
  | true =>
    rw [left_iff] at h
    rw [hleft (by omega)]
    exact .throwLeft hmeet ⟨rfl, rfl⟩ hy
  | false =>
    rw [right_iff] at h
    rw [hright (by omega)]
    exact .throwRight hmeet ⟨rfl, rfl⟩ hx

/-- A loop with a header, and the loop it is written as. -/
theorem agree_rounds (h : Headroom onLeft 1 a b)
    (hcondition : optionPasses .settings .header condition? = true)
    (hupdate : optionPasses .settings .between update? = true)
    (hbody : body.passesAt .settings .inside = true)
    (hmeet : (Discipline.rounds onLeft).Meet .settings w m n) (hheader : w .header f n.frame) :
    (Discipline.rounds onLeft).Agree .settings w
      ((evaluator limit a).loop f condition? update? body) m
      ((evaluator limit b).repeatWhile (condition?.getD (.literal (.boolean true) position))
        ⟨.block body :: (update?.map (.expression · position)).toList, position⟩) n
      fun _ completion completion' => completion = completion' := by
  -- by the fuel of the left side: one side has enough, the other one may be cut at any round
  induction a generalizing b w m n f with
  | zero =>
    exact h.agree_end (.inl rfl) ((evaluator_balanced limit 0).loop _ _ _ _)
      ((evaluator_balanced limit b).repeatWhile _ _) (fun _ => rfl) (fun hb => by subst hb; rfl)
      hmeet
  | succ a ih =>
    cases b with
    | zero =>
      exact h.agree_end (.inr rfl) ((evaluator_balanced limit (a + 1)).loop _ _ _ _)
        ((evaluator_balanced limit 0).repeatWhile _ _) (fun ha => by cases ha) (fun _ => rfl) hmeet
    | succ b =>
      refine (agree_round h.round hcondition hupdate hbody hmeet hheader).bind (fun last => ?_)
        (fun last => ?_) ?_
      · cases last with
        | inl completion => exact .pure _
        | inr next => exact (evaluator_balanced limit a).loop _ _ _ _
      · cases last with
        | some completion => exact .pure _
        | none => exact (evaluator_balanced limit b).repeatWhile _ _
      intro last last' m' n' w' _ hn _ hmeet' hpost
      cases hpost with
      | ends completion => exact .pure hmeet' rfl
      | goesOn hheader' => exact ih h.round hmeet' (hn ▸ hheader')

/-- The loop as the last statement of the block. -/
theorem agree_last (h : Headroom onLeft 2 a b)
    (hcondition : optionPasses .settings .header condition? = true)
    (hupdate : optionPasses .settings .between update? = true)
    (hbody : body.passesAt .settings .inside = true)
    (hmeet : (Discipline.rounds onLeft).Meet .settings w m n) (hheader : w .header f g) :
    (Discipline.rounds onLeft).Agree .settings w
      ((evaluator limit a).loop f condition? update? body) m
      (inFrame g ((evaluator limit b).goOn
        [.repeatWhile (condition?.getD (.literal (.boolean true) position))
          ⟨.block body :: (update?.map (.expression · position)).toList, position⟩ position]
        .normal)) n
      fun _ completion completion' => completion = completion' := by
  have hleft := (evaluator_balanced limit a).loop f condition? update? body
  refine Discipline.Agree.inFrameRight hleft ?_
  have hgoOn : (evaluator limit b).goOn [] = pure := by
    funext completion
    cases completion <;> rfl
  rw [Evaluator.goOn, Evaluator.execEach_cons, hgoOn, bind_pure]
  cases b with
  | zero =>
    cases onLeft with
    | true => exact absurd h (Nat.not_succ_le_zero _)
    | false => exact .throwRight (hmeet.inFrame m.frame g) ⟨rfl, rfl⟩ hleft
  | succ b => exact agree_rounds h.pred hcondition hupdate hbody (hmeet.inFrame m.frame g) hheader

/-- What begins a loop ends normally. -/
theorem exec_bind_of_isLoopStart {init : Stmt} (h : init.isLoopStart = true) {α : Type}
    (k : Completion → Run α) :
    (evaluator limit a).exec init >>= k = (evaluator limit a).exec init >>= fun _ => k .normal := by
  cases a with
  | zero => rfl
  | succ a =>
    cases init with
    | «variable» name type? value? position =>
      have hexec : ∃ x : Run Unit, (evaluator limit (a + 1)).exec
          (.variable name type? value? position) = x >>= fun _ => pure .normal := by
        cases value? with
        | none => exact ⟨define name .undefined, rfl⟩
        | some e =>
          refine ⟨(evaluator limit a).evalNamed e name >>= define name, ?_⟩
          rw [bind_assoc]
          rfl
      obtain ⟨x, hexec⟩ := hexec
      rw [hexec]
      simp only [bind_assoc, pure_bind]
    | expression e position =>
      have hexec : (evaluator limit (a + 1)).exec (.expression e position) =
          (evaluator limit a).eval e >>= fun _ => pure .normal := rfl
      rw [hexec]
      simp only [bind_assoc, pure_bind]
    | _ => cases h

end Loops

/-! ## The two forms -/

section Forms

variable {onLeft : Bool} {limit a b : Nat} {init? : Option Stmt} {condition? update? : Option Expr}
  {body : Block} {position : Position} {m : Machine}

/-- The parts of a loop that makes no function, each in its setting. -/
theorem Stmt.parts_of_loop
    (h : (Stmt.loop init? condition? update? body position).passes .noFunctions () = true) :
    optionPasses .settings .header condition? = true ∧
      optionPasses .settings .between update? = true ∧
      body.passesAt .settings .inside = true ∧
      ∀ init, init? = some init → init.passes .settings .header = true := by
  have hrefine := Survey.noFunctions_refines
  cases init? with
  | none =>
    rw [Stmt.passes, Bool.and_eq_true, Bool.and_eq_true, Bool.and_eq_true] at h
    exact ⟨optionPasses_refine hrefine trivial h.2.1, optionPasses_refine hrefine trivial h.2.2.1,
      Block.passesAt_refine hrefine rfl h.2.2.2, fun _ heq => by cases heq⟩
  | some init =>
    rw [Stmt.passes, Bool.and_eq_true, Bool.and_eq_true, Bool.and_eq_true, Bool.and_eq_true] at h
    refine ⟨optionPasses_refine hrefine trivial h.2.2.1,
      optionPasses_refine hrefine trivial h.2.2.2.1,
      Block.passesAt_refine hrefine rfl h.2.2.2.2, fun init' heq => ?_⟩
    cases heq
    exact Stmt.passes_refine hrefine rfl h.2.1

/-- A well-formed machine meets itself. -/
theorem Machine.WellFormed.meet (h : m.WellFormed) :
    (Discipline.pairing onLeft).Meet .settings (.same m.store) m m where
  stores := .same h.ordered
  objects := rfl
  closures id := by
    cases hc : m.store.closure? id with
    | none => exact .none
    | some c =>
      refine .some ⟨rfl, rfl, .outside, ?_, rfl, rfl, h.closures id c hc⟩
      exact Function.passes_refine Survey.nothing_refines rfl (Function.passes_nothing _)
  depth := rfl
  depths := trivial
  output := rfl

/-- A loop with a header agrees with its other form, with fuel enough on one side. -/
theorem agree_asWhile (h : Headroom onLeft 2 a b) (hinit : init?.all Stmt.isLoopStart = true)
    (hparts : (Stmt.loop init? condition? update? body position).passes .noFunctions () = true)
    (hm : m.WellFormed) :
    (Discipline.rounds onLeft).Agree .settings (.same m.store)
      ((evaluator limit (a + 1)).exec (.loop init? condition? update? body position)) m
      ((evaluator limit (b + 1)).exec (.asWhile init? condition? update? body position)) m
      fun _ completion completion' => completion = completion' := by
  obtain ⟨hcondition, hupdate, hbody, hstart⟩ := Stmt.parts_of_loop hparts
  have hlawful := Discipline.lawful_pairing onLeft
  -- both forms open a frame of the same number, in which the loop starts
  let f := (m.store.newFrame (Pairing.spare m.frame)).1
  let k : Machine := { m with store := (m.store.newFrame (Pairing.spare m.frame)).2 }
  have hadd : ((Pairing.same m.store).add .header f f).InPairs k.store k.store :=
    (Pairing.InPairs.same hm.ordered).add rfl
      ⟨rfl, rfl, rfl, .some ⟨.outside, rfl, rfl, rfl, hm.frame⟩⟩
  have hmeet : (Discipline.pairing onLeft).Meet .settings ((Pairing.same m.store).add .header f f)
      k k :=
    hm.meet.of_frames hlawful (fun _ _ _ => .inl) hadd ⟨rfl, rfl⟩ ⟨rfl, rfl⟩
  cases init? with
  | none =>
    exact (agree_last h hcondition hupdate hbody hmeet.toRounds (Pairing.add_self _ _ _ _)).step
      rfl rfl rfl rfl fun _ _ => .inl
  | some init =>
    let whole := [init, Stmt.repeatWhile (condition?.getD (.literal (.boolean true) position))
      ⟨.block body :: (update?.map (.expression · position)).toList, position⟩ position]
    have hexec := (evaluator_balanced limit b).exec
    -- the start of a loop is no declaration of a function
    have hhoist : Evaluator.hoist whole = pure () := by
      cases init <;> first | rfl | cases hinit
    have hrow : inFrame f ((evaluator limit b).execStatements whole) =
        inFrame f ((evaluator limit b).exec init) >>= fun _ =>
          inFrame f ((evaluator limit b).goOn whole.tail .normal) := by
      unfold Evaluator.execStatements
      rw [hhoist, pure_bind, Evaluator.execEach_cons, exec_bind_of_isLoopStart hinit,
        inFrame_bind _ (hexec _)]
      rfl
    have hinits := ((h.less (Nat.zero_le _)).similar limit).exec (hstart init rfl)
    have hbegin := (hinits.agree _ _ _ (hmeet.inFrame f f) (Pairing.add_self _ _ _ _)).inFrame
    have hblock : (Discipline.rounds onLeft).Agree .settings
        ((Pairing.same m.store).add .header f f)
        (do
          let _ ← inFrame f ((evaluator limit a).exec init)
          (evaluator limit a).loop f condition? update? body) k
        (inFrame f ((evaluator limit b).execStatements whole)) k
        fun _ completion completion' => completion = completion' := by
      rw [hrow]
      refine hbegin.toRounds.bind (fun _ => (evaluator_balanced limit a).loop _ _ _ _)
        (fun _ => (balanced_goOn _ _).inFrame f) ?_
      intro _ _ m' n' w' _ _ _ hmeet' hpost
      exact agree_last h hcondition hupdate hbody hmeet' (hpost.2 _ _ _ (Pairing.add_self _ _ _ _))
    exact hblock.step rfl rfl rfl rfl fun _ _ => .inl

/-- Runs that agree end in the same way, unless the fuel is used up. -/
theorem Discipline.Agree.sameEnd {x y : Run Completion} (hx : Balanced x) (hy : Balanced y)
    (h : (Discipline.rounds onLeft).Agree .settings (.same m.store) x m y m
      fun _ completion completion' => completion = completion')
    (hends : (if onLeft then ends (x m) else ends (y m)) = true) : SameEnd m.store (x m) (y m) := by
  -- the pairs of frames outside of the loop are all that is left of the pairing at the end
  have hsame : ∀ {w : Pairing} {m' n' : Machine}, BalancedAt m m' → BalancedAt m n' →
      (∀ f g, Pairing.same m.store .outside f g → w .outside f g) →
      (Discipline.rounds onLeft).Meet .settings w m' n' → m'.SameUpToFrames m.store n' := by
    intro w m' n' hm hn hle hmeet
    refine ⟨hm.frame.trans hn.frame.symm, hmeet.depth, hmeet.output, hmeet.objects,
      w .outside, ?_, ?_, ?_, ?_⟩
    · exact fun h h' => (hmeet.stores.single rfl rfl h h').1
    · exact fun f hf => hle f f ⟨rfl, rfl, hf⟩
    · intro f g hfg
      obtain ⟨p, q, hp, hq, halike⟩ := hmeet.stores.alike rfl hfg
      refine ⟨p, q, hp, hq, halike.mono ?_⟩
      rintro f' g' _ _ ⟨j, hj, hpair⟩
      cases of_decide_eq_true hj
      exact hpair
    · intro id
      have hrel := hmeet.closures id
      generalize m'.store.closure? id = c? at hrel ⊢
      generalize n'.store.closure? id = d? at hrel ⊢
      cases hrel with
      | none => exact .none
      | some htwins =>
        obtain ⟨hdefinition, hname, i, hpasses, hframes⟩ := htwins
        rw [Function.passes_eq, Bool.and_eq_true] at hpasses
        cases of_decide_eq_true hpasses.1
        exact .some ⟨hdefinition, hname, hframes⟩
  have hmx := hx m
  have hmy := hy m
  cases h with
  | ok hxm hym _ _ hle hmeet heq =>
    rw [endOf_of_ok hxm] at hmx
    rw [endOf_of_ok hym] at hmy
    rw [hxm, hym]
    cases heq
    exact .value _ (hsame hmx hmy hle hmeet)
  | @halt halt _ _ _ hxm hym hpasses hle hmeet =>
    rw [endOf_of_error hxm] at hmx
    rw [endOf_of_error hym] at hmy
    rw [hxm, hym]
    cases halt with
    | fault fault => exact .fault fault (hsame hmx hmy hle hmeet)
    -- a halt that both sides come to is a fault: one for want of fuel is a cut of one side
    | outOfFuel => exact absurd rfl hpasses
  | cutLeft hxm hcut _ =>
    obtain ⟨rfl, rfl⟩ := hcut
    -- the side that is cut is the one that is said to end
    rw [if_pos rfl, hxm] at hends
    cases hends
  | cutRight hym hcut _ =>
    obtain ⟨rfl, rfl⟩ := hcut
    rw [if_neg Bool.false_ne_true, hym] at hends
    cases hends

end Forms

/-- A loop with a header that makes no function does the same as the block it is written
as: if one of them ends with some fuel, so does the other one, with the same completion
or fault, and in machines that are the same up to the frames that were made on the
way. -/
theorem Stmt.loop_like_asWhile (limit : Nat) {init? : Option Stmt}
    {condition? update? : Option Expr} {body : Block} {position : Position}
    (hinit : init?.all Stmt.isLoopStart = true)
    (hparts : (Stmt.loop init? condition? update? body position).passes .noFunctions () = true)
    {m : Machine} (hm : m.WellFormed) :
    (∀ fuel,
      ends ((evaluator limit fuel).exec (.loop init? condition? update? body position) m) = true →
      ∃ more, SameEnd m.store
        ((evaluator limit fuel).exec (.loop init? condition? update? body position) m)
        ((evaluator limit more).exec (.asWhile init? condition? update? body position) m)) ∧
    (∀ fuel,
      ends ((evaluator limit fuel).exec (.asWhile init? condition? update? body position) m) =
        true →
      ∃ more, SameEnd m.store
        ((evaluator limit more).exec (.loop init? condition? update? body position) m)
        ((evaluator limit fuel).exec (.asWhile init? condition? update? body position) m)) := by
  constructor
  · intro fuel hends
    cases fuel with
    | zero => cases hends
    | succ fuel =>
      have hroom : Headroom true 2 fuel (fuel + 2) := Nat.le_refl _
      exact ⟨fuel + 3, (agree_asWhile hroom hinit hparts hm).sameEnd
        ((evaluator_balanced limit _).exec _) ((evaluator_balanced limit _).exec _) hends⟩
  · intro fuel hends
    cases fuel with
    | zero => cases hends
    | succ fuel =>
      have hroom : Headroom false 2 fuel fuel := Nat.le_refl _
      exact ⟨fuel + 1, (agree_asWhile hroom hinit hparts hm).sameEnd
        ((evaluator_balanced limit _).exec _) ((evaluator_balanced limit _).exec _) hends⟩

/-- A loop that counts and prints. -/
theorem Stmt.loop_like_asWhile_of_counting : ∃ init? condition? update? body position,
    init?.all Stmt.isLoopStart = true ∧
    (Stmt.loop init? condition? update? body position).passes .noFunctions () = true ∧
    Machine.initial.WellFormed ∧
    (endOf ((evaluator 8 20).exec (.loop init? condition? update? body position))
      Machine.initial).output = #["0", "1", "2"] ∧
    ends ((evaluator 8 20).exec (.loop init? condition? update? body position)
      Machine.initial) = true ∧
    ∃ more, SameEnd Machine.initial.store
      ((evaluator 8 20).exec (.loop init? condition? update? body position) Machine.initial)
      ((evaluator 8 more).exec (.asWhile init? condition? update? body position)
        Machine.initial) := by
  let i : Expr := .reference "i" ⟨1, 1⟩
  let number : Float → Expr := fun value => .literal (.number value) ⟨1, 1⟩
  let init : Stmt := .variable "i" none (some (number 0)) ⟨1, 1⟩
  let print : Stmt := .expression
    (.call (.member (.reference "console" ⟨1, 1⟩) "log" ⟨1, 1⟩) [i] ⟨1, 1⟩) ⟨1, 1⟩
  have hparts : (Stmt.loop (some init) (some (.binary i .less (number 3) ⟨1, 1⟩))
      (some (.update i .increment false ⟨1, 1⟩)) ⟨[print], ⟨1, 1⟩⟩ ⟨1, 1⟩).passes
        .noFunctions () = true := rfl
  refine ⟨some init, some (.binary i .less (number 3) ⟨1, 1⟩),
    some (.update i .increment false ⟨1, 1⟩), ⟨[print], ⟨1, 1⟩⟩, ⟨1, 1⟩, rfl, hparts,
    Machine.wellFormed_initial, by decide +kernel, by decide +kernel,
    (Stmt.loop_like_asWhile 8 rfl hparts Machine.wellFormed_initial).1 20 (by decide +kernel)⟩

end TypedScript
