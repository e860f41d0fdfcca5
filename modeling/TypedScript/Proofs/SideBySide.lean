import Mathlib
import TypedScript.Proofs.Keeping
import TypedScript.Proofs.References
import TypedScript.Proofs.Survey
import TypedScript.Proofs.TypeProblems

/-!
# Checks side by side

Two checks of the same thing are compared from the same knowledge on. A `Comparison` says
what is asked of them: which names and which functions the scopes may have, which
diagnostics are counted, and why the checks may stop without an answer. Two checks are
`Like` each other at a place if they end in the same way, with scopes as they may be, and
if they add so many counted diagnostics in their turn.

Checks are put together in a few ways, each of which has a rule here. From them comes one
lemma for each rule of the checker: if two checkers do alike on the parts of an expression
or statement, they do so on the whole (`exprRule_like`, `stmtRule_like`, `rowRule_like`).
-/

namespace TypedScript

/-! ## Checks for the time of an action -/

namespace Check

variable {α : Type}

theorem inferring_apply (position : Position) (x : Check α) (k : Knowledge) :
    Check.inferring position x k =
      match x { k with inferring := position :: k.inferring } with
      | .ok a k₁ => .ok a { k₁ with inferring := k₁.inferring.tail }
      | .error unfinished k₁ => .error unfinished k₁ := by
  show EStateM.bind x _ { k with inferring := position :: k.inferring } = _
  unfold EStateM.bind
  generalize x { k with inferring := position :: k.inferring } = result
  cases result <;> rfl

theorem aside_apply (name : String) (x : Check α) (k : Knowledge) :
    Check.aside name x k =
      match x { k with
        scopes := k.scopes.dropWhile fun scope => !scope.has name, ahead := k.ahead + 1 } with
      | .ok a k₁ => .ok a { k₁ with
          scopes := (k.scopes.takeWhile fun scope => !scope.has name) ++ k₁.scopes
          ahead := k₁.ahead - 1
          diagnostics := k.diagnostics }
      | .error unfinished k₁ => .error unfinished k₁ := by
  show EStateM.bind x (fun a => do
      modify fun k₁ => { k₁ with
        scopes := (k.scopes.span fun scope => !scope.has name).1 ++ k₁.scopes
        ahead := k₁.ahead - 1
        diagnostics := k.diagnostics }
      return a)
    { k with
      scopes := (k.scopes.span fun scope => !scope.has name).2, ahead := k.ahead + 1 } = _
  rw [List.span_eq_takeWhile_dropWhile]
  unfold EStateM.bind
  dsimp only
  generalize x _ = result
  cases result <;> rfl

end Check

/-! ## Stages -/

/-- Where in the course of a check a part of it is made: the functions that are being
looked at for their results, and how many of them ahead of their turn. -/
structure Stage where
  inferring : List Position
  ahead : Nat

/-- The stage that a check has come to. -/
def Knowledge.stage (k : Knowledge) : Stage :=
  ⟨k.inferring, k.ahead⟩

/-- The stage at which the body of a declared function is looked at. -/
def Stage.turn (c : Stage) (position : Position) : Stage :=
  { c with inferring := position :: c.inferring }

/-- The stage of something that is looked at ahead of its turn. -/
def Stage.aside (c : Stage) : Stage :=
  { c with ahead := c.ahead + 1 }

/-! ## Comparisons -/

/-- What is asked of two checks that are made side by side. The parts of a program that
they come to at a stage pass a survey. -/
structure Comparison where
  /-- The names that scopes may have. -/
  names : String → Prop
  /-- The functions that may be waiting for their results. -/
  functions : Function → Prop
  /-- The diagnostics that are counted. -/
  notices : Diagnostic → Bool
  /-- Why a check may stop without an answer. -/
  stops : Unfinished → Prop
  survey : Stage → Survey Unit
  question : stops .question
  names_param : ∀ {f param}, functions f → param ∈ f.params → names param.name
  names_variable : ∀ {c name type? value? position},
    (survey c).stmt () (.variable name type? value? position) = true → names name
  names_function : ∀ {c f name}, (survey c).stmt () (.function f) = true →
    f.name? = some name → names name
  functions_passes : ∀ {c f}, f.passes (survey c) () = true → functions f
  /-- Only names that no scope has are counted, and the receiver is not one. -/
  noticed : ∀ {d}, notices d = true →
    ∃ name, d.cause = .unknownName name ∧ name ≠ "this" ∧ ¬names name

namespace Comparison

/-- The comparison that counts nothing and lets scopes have any names. -/
def uncounted (functions : Function → Prop) (stops : Unfinished → Prop)
    (survey : Stage → Survey Unit) (question : stops .question)
    (passes : ∀ {c f}, f.passes (survey c) () = true → functions f) : Comparison where
  names _ := True
  functions := functions
  notices _ := false
  stops := stops
  survey := survey
  question := question
  names_param _ _ := trivial
  names_variable _ := trivial
  names_function _ _ := trivial
  functions_passes := passes
  noticed h := nomatch h

/-- How many of some references are counted if no scope has their names. -/
def weight (T : Comparison) (l : List (String × Position)) : Nat :=
  l.countP fun reference => T.notices ⟨.unknownName reference.1, reference.2⟩

/-- How many diagnostics are counted. -/
def count (T : Comparison) (k : Knowledge) : Nat :=
  k.diagnostics.countP T.notices

/-- What is known at a stage, with scopes as they may be. -/
structure At (T : Comparison) (c : Stage) (k : Knowledge) : Prop where
  stage : k.stage = c
  entry : ∀ scope ∈ k.scopes, ∀ name binding, scope.get? name = some binding →
    T.names name ∧ ∀ f, binding.pending? = some f → T.functions f

/-- An end of a check as it is asked for, with so many diagnostics counted if the check is
in its turn. -/
def Ends {α : Type} (T : Comparison) (c : Stage) (n : Nat) :
    EStateM.Result Unfinished Knowledge α → Prop
  | .ok _ k => T.At c k ∧ (c.ahead = 0 → T.count k = n)
  | .error unfinished _ => T.stops unfinished

/-- Two checks that do alike at a stage, and count so many diagnostics. -/
def Like {α : Type} (T : Comparison) (c : Stage) (n : Nat) (x y : Check α) : Prop :=
  ∀ k, T.At c k → y k = x k ∧ T.Ends c (T.count k + n) (x k)

variable {α β : Type} {T : Comparison} {c : Stage} {n m : Nat} {k : Knowledge}

/-! ### What is counted -/

theorem weight_append (l l' : List (String × Position)) :
    T.weight (l ++ l') = T.weight l + T.weight l' :=
  List.countP_append

theorem notices_eq_false {d : Diagnostic} (h : d.cause.isUnknownName = false) :
    T.notices d = false := by
  cases hnotices : T.notices d with
  | false => rfl
  | true =>
    obtain ⟨name, hname, _⟩ := T.noticed hnotices
    rw [hname] at h
    cases h

theorem countP_eq_zero {found : List Diagnostic} (h : OfTypes found) :
    found.countP T.notices = 0 := by
  rw [List.countP_eq_zero]
  intro d hd
  rw [notices_eq_false (h d hd)]
  exact Bool.false_ne_true

/-- A name that a scope has is not counted. -/
theorem weight_of_names {name : String} (h : T.names name) (position : Position) :
    T.weight [(name, position)] = 0 := by
  unfold weight
  rw [List.countP_eq_zero]
  intro reference hreference hnotices
  obtain ⟨other, hother, _, hnames⟩ := T.noticed hnotices
  rw [List.mem_singleton.mp hreference] at hother
  cases hother
  exact hnames h

theorem notices_receiver (position : Position) :
    T.notices ⟨.unknownName "this", position⟩ = false := by
  cases hnotices : T.notices ⟨.unknownName "this", position⟩ with
  | false => rfl
  | true =>
    obtain ⟨name, hname, hthis, _⟩ := T.noticed hnotices
    cases hname
    exact absurd rfl hthis

/-! ### What is known at a stage -/

/-- What is known of a name is what some scope says. -/
theorem At.lookup (h : T.At c k) {name : String} {binding : Binding}
    (hlookup : k.lookup? name = some binding) :
    T.names name ∧ ∀ f, binding.pending? = some f → T.functions f := by
  obtain ⟨scope, hscope, hget⟩ := List.exists_of_findSome?_eq_some hlookup
  exact h.entry scope hscope name binding hget

theorem At.opened (h : T.At c k) : T.At c { k with scopes := .empty :: k.scopes } where
  stage := h.stage
  entry scope hscope name binding hget := by
    rcases List.mem_cons.mp hscope with rfl | hscope
    · cases hget
    · exact h.entry scope hscope name binding hget

/-- Fewer scopes may be there as well. -/
theorem At.of_subset (h : T.At c k) {k' : Knowledge} {c' : Stage} (hstage : k'.stage = c')
    (hscopes : ∀ scope ∈ k'.scopes, scope ∈ k.scopes) : T.At c' k' where
  stage := hstage
  entry scope hscope := h.entry scope (hscopes scope hscope)

/-- An entry may be written into a scope. -/
theorem At.set (h : T.At c k) {k' : Knowledge} (hstage : k'.stage = c) {scope : Scope}
    {rest : List Scope} (hscopes : k.scopes = scope :: rest) {name : String} {binding : Binding}
    (hscopes' : k'.scopes = scope.set name binding :: rest) (hname : T.names name)
    (hpending : ∀ f, binding.pending? = some f → T.functions f) : T.At c k' where
  stage := hstage
  entry other hother := by
    intro name' binding' hget
    rw [hscopes'] at hother
    rcases List.mem_cons.mp hother with rfl | hother
    · rw [Record.get?_set] at hget
      split at hget
      · next heq =>
        cases hget
        rw [heq]
        exact ⟨hname, hpending⟩
      · exact h.entry scope (hscopes ▸ List.mem_cons_self) name' binding' hget
    · exact h.entry other (hscopes ▸ List.mem_cons_of_mem _ hother) name' binding' hget

/-! ## How checks are put together -/

theorem Ends.congr {r : EStateM.Result Unfinished Knowledge α} (h : T.Ends c n r)
    (hnm : c.ahead = 0 → n = m) : T.Ends c m r := by
  cases r with
  | ok a k => exact ⟨h.1, fun hahead => (h.2 hahead).trans (hnm hahead)⟩
  | error unfinished k => exact h

namespace Like

variable {x y : Check α} {f g : α → Check β}

theorem congr (h : T.Like c n x y) (hnm : c.ahead = 0 → n = m) : T.Like c m x y := by
  intro k hk
  refine ⟨(h k hk).1, (h k hk).2.congr fun hahead => ?_⟩
  rw [hnm hahead]

theorem pure (a : α) : T.Like c 0 (Pure.pure a) (Pure.pure a) :=
  fun _ hk => ⟨rfl, hk, fun _ => rfl⟩

/-- One check after the other, where something is known of what the first one gives. -/
theorem bind_of {P : α → Prop} (hx : T.Like c n x y) (hgives : ∀ k a k', x k = .ok a k' → P a)
    (hf : ∀ a, P a → T.Like c m (f a) (g a)) : T.Like c (n + m) (x >>= f) (y >>= g) := by
  intro k hk
  obtain ⟨hsame, hends⟩ := hx k hk
  have hleft : (x >>= f) k = EStateM.bind x f k := rfl
  have hright : (y >>= g) k = EStateM.bind y g k := rfl
  rw [hleft, hright]
  unfold EStateM.bind
  -- Both have come to the same knowledge, from which what follows is compared.
  rw [hsame]
  cases hxk : x k with
  | error unfinished k' =>
    rw [hxk] at hends
    exact ⟨rfl, hends⟩
  | ok a k' =>
    rw [hxk] at hends
    obtain ⟨hk', hcount⟩ := hends
    obtain ⟨hsame', hends'⟩ := hf a (hgives k a k' hxk) k' hk'
    refine ⟨hsame', hends'.congr fun hahead => ?_⟩
    rw [hcount hahead, Nat.add_assoc]

theorem bind (hx : T.Like c n x y) (hf : ∀ a, T.Like c m (f a) (g a)) :
    T.Like c (n + m) (x >>= f) (y >>= g) :=
  hx.bind_of (P := fun _ => True) (fun _ _ _ _ => trivial) fun a _ => hf a

/-- A check after one that counts nothing. -/
theorem preceded (hx : T.Like c 0 x y) (hf : ∀ a, T.Like c n (f a) (g a)) :
    T.Like c n (x >>= f) (y >>= g) :=
  (hx.bind hf).congr fun _ => Nat.zero_add n

theorem preceded_of {P : α → Prop} (hx : T.Like c 0 x y)
    (hgives : ∀ k a k', x k = .ok a k' → P a) (hf : ∀ a, P a → T.Like c n (f a) (g a)) :
    T.Like c n (x >>= f) (y >>= g) :=
  (hx.bind_of hgives hf).congr fun _ => Nat.zero_add n

/-- A check before one that counts nothing. -/
theorem followed (hx : T.Like c n x y) (hf : ∀ a, T.Like c 0 (f a) (g a)) :
    T.Like c n (x >>= f) (y >>= g) :=
  hx.bind hf

theorem get {f g : Knowledge → Check α} (hf : ∀ k, T.At c k → T.Like c n (f k) (g k)) :
    T.Like c n (MonadState.get >>= f) (MonadState.get >>= g) :=
  fun k hk => hf k hk k hk

/-- A change of what is known that counts nothing. -/
theorem modify {f : Knowledge → Knowledge} (hat : ∀ k, T.At c k → T.At c (f k))
    (hcount : ∀ k, (f k).diagnostics = k.diagnostics) :
    T.Like c 0 (MonadStateOf.modifyGet fun k => ((), f k) : Check Unit)
      (MonadStateOf.modifyGet fun k => ((), f k)) := by
  intro k hk
  refine ⟨rfl, hat k hk, fun _ => ?_⟩
  exact congrArg (List.countP T.notices) (hcount k)

/-- What follows is compared for the answer, if there is one. -/
theorem ask {answer : Answer α} (hf : ∀ a, answer = some a → T.Like c n (f a) (g a)) :
    T.Like c n (Check.ask answer >>= f) (Check.ask answer >>= g) := by
  cases answer with
  | some a => exact hf a rfl
  | none => exact fun k hk => ⟨rfl, T.question⟩

theorem reportAll (found : List Diagnostic) :
    T.Like c (found.countP T.notices) (Check.reportAll found) (Check.reportAll found) := by
  intro k hk
  refine ⟨rfl, hk.of_subset hk.stage fun _ h => h, fun _ => ?_⟩
  exact List.countP_append

theorem report {cause : TypeCause} (hcause : cause.isUnknownName = false)
    (position : Position) :
    T.Like c 0 (Check.report cause position) (Check.report cause position) :=
  (reportAll _).congr fun _ => countP_eq_zero (OfTypes.nil.cons hcause)

theorem enter {name : String} {binding : Binding} (hname : T.names name)
    (hpending : ∀ f, binding.pending? = some f → T.functions f) :
    T.Like c 0 (Check.enter name binding) (Check.enter name binding) := by
  refine get fun k hk => ?_
  cases hscopes : k.scopes with
  | nil => exact .pure ()
  | cons scope rest =>
    dsimp only
    split
    · exact report rfl _
    · exact modify (fun k' hk' => hk.set hk'.stage hscopes rfl hname hpending) fun _ => rfl

theorem declare {name : String} (hname : T.names name) (type : Ty) (position : Position) :
    T.Like c 0 (Check.declare name type position) (Check.declare name type position) :=
  enter hname fun _ h => nomatch h

theorem declareParams {params : List Parameter} (hnames : ∀ param ∈ params, T.names param.name)
    (types : List Ty) :
    T.Like c 0 (Check.declareParams params types) (Check.declareParams params types) := by
  induction params generalizing types with
  | nil => exact .pure ()
  | cons param params ih =>
    cases types with
    | nil => exact .pure ()
    | cons type types =>
      rw [List.forall_mem_cons] at hnames
      exact (declare hnames.1 type _).preceded fun _ => ih hnames.2 types

theorem noteReturn (type : Ty) :
    T.Like c 0 (Check.noteReturn type) (Check.noteReturn type) :=
  modify (fun _ hk => hk.of_subset hk.stage fun _ h => h) fun _ => rfl

theorem refine (name : String) (type : Ty) :
    T.Like c 0 (Check.refine name type) (Check.refine name type) := by
  refine modify (fun k hk => ?_) fun _ => rfl
  cases hscopes : k.scopes with
  | nil => exact hk.of_subset hk.stage fun _ h => hscopes ▸ h
  | cons scope rest =>
    dsimp only
    cases hget : scope.get? name with
    | none => exact hk.of_subset hk.stage fun _ h => hscopes ▸ h
    | some binding =>
      have hentry := hk.entry scope (hscopes ▸ List.mem_cons_self) name binding hget
      exact hk.set hk.stage hscopes rfl hentry.1 fun _ h => nomatch h

theorem inScope (h : T.Like c n x y) : T.Like c n (Check.inScope x) (Check.inScope y) := by
  refine preceded (modify (fun _ hk => hk.opened) fun _ => rfl) fun _ => h.followed fun a => ?_
  refine preceded (modify (fun k hk => ?_) fun _ => rfl) fun _ => .pure a
  exact hk.of_subset hk.stage fun _ h => List.mem_of_mem_tail h

theorem inFunction {x y : Check Unit} (declared? : Option Ty) (receiver : Ty)
    (h : T.Like c n x y) : T.Like c n (Check.inFunction declared? receiver x)
      (Check.inFunction declared? receiver y) := by
  have hsame : ∀ {k k' : Knowledge}, T.At c k → k'.stage = k.stage → k'.scopes = k.scopes →
      T.At c k' :=
    fun hk hstage hscopes => hk.of_subset (hstage.trans hk.stage) fun _ h => hscopes ▸ h
  refine preceded (modify (fun _ hk => hsame hk rfl rfl) fun _ => rfl) fun _ => ?_
  refine h.followed fun _ => get fun k hk => ?_
  exact preceded (modify (fun _ hk => hsame hk rfl rfl) fun _ => rfl) fun _ => .pure _

/-- A body that is looked at for its result. -/
theorem inferring (position : Position) (h : T.Like (c.turn position) n x y) :
    T.Like c n (Check.inferring position x) (Check.inferring position y) := by
  intro k hk
  obtain ⟨hsame, hends⟩ := h { k with inferring := position :: k.inferring }
    (hk.of_subset (by rw [← hk.stage]; rfl) fun _ h => h)
  rw [Check.inferring_apply, Check.inferring_apply, hsame]
  generalize x { k with inferring := position :: k.inferring } = result at hends ⊢
  cases result with
  | error unfinished k₁ => exact ⟨rfl, hends⟩
  | ok a k₁ =>
    obtain ⟨hk₁, hcount⟩ := hends
    -- Behind the body its place is taken off again, so the stage is the one before.
    refine ⟨rfl, hk₁.of_subset ?_ fun _ h => h, hcount⟩
    have hstage := congrArg (fun c' : Stage => (⟨c'.inferring.tail, c'.ahead⟩ : Stage)) hk₁.stage
    exact hstage

/-- Something that is looked at ahead of its turn counts nothing. -/
theorem aside {x y : Check Unit} (name : String) (h : T.Like c.aside n x y) :
    T.Like c 0 (Check.aside name x) (Check.aside name y) := by
  intro k hk
  obtain ⟨hsame, hends⟩ := h
    { k with scopes := k.scopes.dropWhile fun scope => !scope.has name, ahead := k.ahead + 1 }
    (hk.of_subset (by rw [← hk.stage]; rfl) fun _ h => (List.dropWhile_sublist _).subset h)
  rw [Check.aside_apply, Check.aside_apply, hsame]
  generalize x { k with
    scopes := k.scopes.dropWhile fun scope => !scope.has name, ahead := k.ahead + 1 } = result
    at hends ⊢
  cases result with
  | error unfinished k₁ => exact ⟨rfl, hends⟩
  | ok a k₁ =>
    obtain ⟨hk₁, -⟩ := hends
    -- The inner scopes come back as they were, and so do the diagnostics.
    refine ⟨rfl, ⟨?_, fun scope hscope => ?_⟩, fun _ => rfl⟩
    · have hstage := congrArg (fun c' : Stage => (⟨c'.inferring, c'.ahead - 1⟩ : Stage)) hk₁.stage
      exact hstage
    · rcases List.mem_append.mp hscope with hscope | hscope
      · exact hk.entry scope ((List.takeWhile_sublist _).subset hscope)
      · exact hk₁.entry scope hscope

theorem mapM {f g : β → Check α} {l : List β} (weight : β → Nat)
    (h : ∀ b ∈ l, T.Like c (weight b) (f b) (g b)) :
    T.Like c (l.map weight).sum (l.mapM f) (l.mapM g) := by
  induction l with
  | nil => exact .pure _
  | cons b rest ih =>
    rw [List.forall_mem_cons] at h
    rw [List.mapM_cons, List.mapM_cons, List.map_cons, List.sum_cons]
    exact h.1.bind fun _ => (ih h.2).followed fun _ => .pure _

end Like

/-! ### Whole programs -/

/-- Before a program is checked, the built-in object is all that is known. -/
theorem At.initial (hholder : T.names Native.log.holder) : T.At ⟨[], 0⟩ .initial where
  stage := rfl
  entry scope hscope name binding hget := by
    rw [List.mem_singleton.mp hscope] at hget
    change (Record.empty.set Native.log.holder _).get? name = some binding at hget
    rw [Record.get?_set] at hget
    split at hget
    · next heq =>
      cases hget
      exact ⟨heq ▸ hholder, fun _ hpending => nomatch hpending⟩
    · cases hget

/-- If the statements of a program are checked alike, so is the program. -/
theorem Like.whole {x y : Check Unit} (h : T.Like ⟨[], 0⟩ n x y)
    (hholder : T.names Native.log.holder) (program : Program) (effort : Nat) :
    program.checkBy effort y = program.checkBy effort x ∧
      (∀ problems, program.checkBy effort x = .ok problems → problems.countP T.notices = n) ∧
      ∀ unfinished, program.checkBy effort x = .error unfinished → T.stops unfinished := by
  obtain ⟨hsame, hends⟩ := h.inScope _ (.initial hholder)
  unfold Program.checkBy
  rw [hsame]
  refine ⟨rfl, ?_⟩
  cases hproblems : program.interfaceProblems? effort with
  | none =>
    refine ⟨fun problems h => ?_, fun unfinished h => ?_⟩
    · cases h
    · cases h
      exact T.question
  | some found =>
    dsimp only
    cases hwhole : Check.inScope x Knowledge.initial with
    | error stopped k =>
      rw [hwhole] at hends
      refine ⟨fun problems h => ?_, fun unfinished h => ?_⟩
      · cases h
      · cases h
        exact hends
    | ok u k =>
      rw [hwhole] at hends
      refine ⟨fun problems h => ?_, fun unfinished h => ?_⟩
      · cases h
        have hstatements : k.diagnostics.countP T.notices = n :=
          (hends.2 rfl).trans (Nat.zero_add n)
        -- The interfaces add nothing, as their problems are never about names of variables.
        have hinterfaces := T.countP_eq_zero (Program.interfaceProblems?_ofTypes hproblems)
        rw [List.countP_append, hinterfaces, hstatements, Nat.zero_add]
      · cases h

end Comparison

/-! ## The rules of the checker -/

/-- Two checkers that get the same answers to the questions that they ask about types. -/
structure Checker.AsksAlike (go go' : Checker) : Prop where
  fits : go'.table.fits? go'.effort = go.table.fits? go.effort
  property : go'.table.property? go'.effort = go.table.property? go.effort
  problems : go'.table.problems? go'.effort = go.table.problems? go.effort
  denote : go'.table.denote = go.table.denote

namespace Checker

open Comparison

variable {T : Comparison} {c : Stage} {n : Nat} {go go' : Checker}

section Questions

variable (hasks : go.AsksAlike go')
include hasks

theorem expect_like (found expected : Ty) (position : Position) :
    T.Like c 0 (go.expect found expected position) (go'.expect found expected position) := by
  unfold expect
  rw [hasks.fits]
  refine .ask fun fits _ => ?_
  cases fits with
  | true => exact .pure ()
  | false => exact .report rfl _

theorem readType_like (type : TypeExpr) :
    T.Like c 0 (go.readType type) (go'.readType type) := by
  unfold readType
  rw [hasks.problems, hasks.denote]
  refine .ask fun found hfound => Like.followed ?_ fun _ => .pure _
  exact (Like.reportAll found).congr fun _ => countP_eq_zero (Table.problems?_ofTypes hfound)

theorem signature_like (f : Function) :
    T.Like c 0 (go.signature f) (go'.signature f) := by
  have hparam : ∀ param : Parameter, T.Like c 0 (go.readParam param) (go'.readParam param) := by
    intro param
    unfold readParam
    split
    · exact readType_like hasks _
    · exact .pure _
  have hparams : T.Like c 0 (f.params.mapM go.readParam) (f.params.mapM go'.readParam) := by
    have hsum := Like.mapM (T := T) (c := c) (fun _ => 0) fun param (_ : param ∈ f.params) =>
      hparam param
    rwa [List.map_const', List.sum_replicate_nat, Nat.mul_zero] at hsum
  unfold signature
  refine hparams.preceded fun _ => ?_
  split
  · exact (readType_like hasks _).preceded fun _ => .pure _
  · exact Like.preceded (.pure _) fun _ => .pure _

theorem typeOfProperty_like (object : Ty) (property : String) (position : Position) :
    T.Like c 0 (go.typeOfProperty object property position)
      (go'.typeOfProperty object property position) := by
  unfold typeOfProperty
  rw [hasks.property]
  refine .ask fun type? _ => ?_
  cases type? with
  | some type => exact .pure type
  | none => exact (Like.report rfl _).preceded fun _ => .pure _

theorem typeOfBinary_like (op : BinaryOp) (left right : Ty) (position : Position) :
    T.Like c 0 (go.typeOfBinary op left right position)
      (go'.typeOfBinary op left right position) := by
  have hboth : ∀ operand result : Ty, T.Like c 0 (do
      go.expect left operand position
      go.expect right operand position
      return result) (do
      go'.expect left operand position
      go'.expect right operand position
      return result) := fun operand result =>
    (expect_like hasks _ _ _).preceded fun _ =>
      (expect_like hasks _ _ _).preceded fun _ => .pure _
  unfold typeOfBinary
  cases op <;> dsimp only <;>
    first
    | exact .pure _
    | exact hboth _ _
    | skip
  split
  · exact .pure _
  · split
    · exact .pure _
    · exact hboth _ _

theorem expectArguments_like (signature : Signature) (index : Nat)
    (found : List (Ty × Position)) :
    T.Like c 0 (go.expectArguments signature index found)
      (go'.expectArguments signature index found) := by
  induction found generalizing index with
  | nil => exact .pure ()
  | cons first rest ih =>
    rw [expectArguments, expectArguments]
    split
    · exact (expect_like hasks _ _ _).preceded fun _ => ih _
    · exact ih _

theorem hoist_like {statements : List Stmt}
    (hfunctions : ∀ f ∈ hoistedFunctions statements,
      T.functions f ∧ ∀ name, f.name? = some name → T.names name) :
    T.Like c 0 (go.hoist statements) (go'.hoist statements) := by
  induction statements with
  | nil => exact .pure []
  | cons s rest ih =>
    cases s with
    | function f =>
      rw [hoistedFunctions, List.forall_mem_cons] at hfunctions
      rw [hoist, hoist]
      refine (signature_like hasks f).preceded fun signature => ?_
      have hrest := (ih hfunctions.2).followed fun others =>
        .pure (T := T) (c := c) ((f, signature) :: others)
      split
      · next name hname =>
        refine Like.preceded (.enter (hfunctions.1.2 name hname) ?_) fun _ => hrest
        intro g hg
        dsimp only at hg
        split at hg
        · cases hg
          exact hfunctions.1.1
        · cases hg
      · exact hrest
    | _ => exact ih hfunctions

end Questions

/-! ### Bodies and rows -/

/-- A body is looked at alike if its statements are. -/
theorem checkBody_like {f : Function} (hf : T.functions f)
    (hbody : T.Like c n (go.checkAll f.body.statements) (go'.checkAll f.body.statements))
    (signature : Signature) (receiver : Ty) :
    T.Like c n (go.checkBody f signature receiver) (go'.checkBody f signature receiver) := by
  refine Like.followed (.inScope ?_) fun _ => .pure _
  exact (Like.declareParams (fun _ hparam => T.names_param hf hparam) _).preceded fun _ =>
    hbody.inFunction _ _

theorem checkEach_like {statements : List Stmt}
    (h : ∀ s ∈ statements, T.Like c (T.weight s.references) (go.check s) (go'.check s)) :
    T.Like c (statements.map fun s => T.weight s.references).sum (go.checkEach statements)
      (go'.checkEach statements) := by
  induction statements with
  | nil => exact .pure ()
  | cons s rest ih =>
    rw [List.forall_mem_cons] at h
    rw [List.map_cons, List.sum_cons]
    exact h.1.bind fun _ => ih h.2

theorem awaitsResult_like (f : Function) (name : String) :
    T.Like c 0 (awaitsResult f name) (awaitsResult f name) := by
  refine .get fun k hk => ?_
  split
  · exact .pure _
  · split <;> exact .pure _

theorem checkHoisted_like (hoisted : List (Function × Signature))
    (h : ∀ f ∈ hoisted.map (·.1), T.functions f ∧ T.Like (c.turn f.position)
      (T.weight f.references) (go.checkAll f.body.statements) (go'.checkAll f.body.statements)) :
    T.Like c ((hoisted.map (·.1)).map fun f => T.weight f.references).sum
      (go.checkHoisted hoisted) (go'.checkHoisted hoisted) := by
  induction hoisted with
  | nil => exact .pure ()
  | cons first rest ih =>
    obtain ⟨f, signature⟩ := first
    rw [List.map_cons, List.forall_mem_cons] at h
    obtain ⟨⟨hf, hbody⟩, hrest⟩ := h
    rw [checkHoisted, checkHoisted, List.map_cons, List.map_cons, List.sum_cons]
    refine (Like.inferring _ (checkBody_like hf hbody signature _)).bind fun result => ?_
    split
    · refine (awaitsResult_like f _).preceded fun awaits => ?_
      split
      · exact (Like.refine _ _).preceded fun _ => ih hrest
      · exact ih hrest
    · exact ih hrest

/-- The functions whose bodies are left for the end of a row are those that it declares. -/
theorem definitions_of_hoist {statements : List Stmt} {k k' : Knowledge}
    {hoisted : List (Function × Signature)} (h : go.hoist statements k = .ok hoisted k') :
    hoisted.map (·.1) = hoistedFunctions statements := by
  induction statements generalizing k k' hoisted with
  | nil =>
    rw [hoist] at h
    rw [(Check.pure_eq_ok.mp h).1]
    rfl
  | cons s rest ih =>
    cases s with
    | function f =>
      rw [hoist] at h
      obtain ⟨signature, k₁, -, h⟩ := bind_eq_ok.mp h
      have hrest : ∀ {k₂ : Knowledge}, (do return (f, signature) :: (← go.hoist rest)) k₂ =
          EStateM.Result.ok hoisted k' →
          hoisted.map (·.1) = hoistedFunctions (.function f :: rest) := by
        intro k₂ h
        obtain ⟨others, k₃, hothers, h⟩ := bind_eq_ok.mp h
        rw [(Check.pure_eq_ok.mp h).1, List.map_cons, ih hothers]
        rfl
      cases hname : f.name? with
      | none =>
        rw [hname] at h
        exact hrest h
      | some name =>
        rw [hname] at h
        obtain ⟨_, k₂, -, h⟩ := bind_eq_ok.mp h
        exact hrest h
    | _ => exact ih h

/-- The references in a row are those in its statements and those in the functions that
it declares. -/
theorem weight_row (statements : List Stmt) : T.weight (referencesOfRow statements) =
    (statements.map fun s => T.weight s.references).sum +
      ((hoistedFunctions statements).map fun f => T.weight f.references).sum := by
  induction statements with
  | nil => rfl
  | cons s rest ih =>
    cases s <;> simp only [referencesOfRow, hoistedFunctions, weight_append, List.map_cons,
      List.sum_cons, ih]
    case function f =>
      have hnone : T.weight (Stmt.function f).references = 0 := rfl
      omega
    all_goals omega

/-- Bodies are looked at in their turn only. -/
theorem rowRule_like (hasks : go.AsksAlike go') {statements : List Stmt}
    (hstatements : ∀ s ∈ statements, T.Like c (T.weight s.references) (go.check s) (go'.check s))
    (hfunctions : ∀ f ∈ hoistedFunctions statements,
      T.functions f ∧ ∀ name, f.name? = some name → T.names name)
    (hbodies : c.ahead = 0 → ∀ f ∈ hoistedFunctions statements, T.Like (c.turn f.position)
      (T.weight f.references) (go.checkAll f.body.statements) (go'.checkAll f.body.statements)) :
    T.Like c (T.weight (referencesOfRow statements)) (go.rowRule statements)
      (go'.rowRule statements) := by
  rw [weight_row]
  refine Like.preceded_of (hoist_like hasks hfunctions) (fun _ _ _ h => definitions_of_hoist h)
    fun hoisted hhoisted => (checkEach_like hstatements).bind fun _ => .get fun k hk => ?_
  have hahead : k.ahead = c.ahead := congrArg Stage.ahead hk.stage
  -- Ahead of its turn a row leaves the bodies to where their functions are used.
  split
  · next hturn =>
    rw [← hhoisted]
    refine checkHoisted_like hoisted fun f hf => ?_
    rw [hhoisted] at hf
    exact ⟨(hfunctions f hf).1, hbodies (hahead ▸ hturn) f hf⟩
  · next hturn => exact (Like.pure ()).congr fun h => absurd (hahead.trans h) hturn

/-! ### Names -/

/-- A function is inferred ahead of its turn only where it is not being inferred yet. -/
theorem infer_like {f : Function} (hf : T.functions f)
    (hbody : f.position ∉ c.inferring → T.Like (c.aside.turn f.position) n
      (go.checkAll f.body.statements) (go'.checkAll f.body.statements))
    (name : String) (signature : Signature) :
    T.Like c 0 (go.infer name f signature) (go'.infer name f signature) := by
  refine .get fun k hk => ?_
  have hinferring : k.inferring = c.inferring := congrArg Stage.inferring hk.stage
  rw [hinferring]
  -- A function that is being inferred keeps the type that it has.
  split
  · exact .pure ()
  · next hmem =>
    have hresult := Like.inferring _ (checkBody_like hf (hbody hmem) signature .unknown)
    exact .aside _ (hresult.followed fun _ => .refine _ _)

theorem typeOfName_like (hbodies : ∀ f, T.functions f → f.position ∉ c.inferring →
      T.Like (c.aside.turn f.position) (T.weight f.references)
        (go.checkAll f.body.statements) (go'.checkAll f.body.statements))
    (name : String) (position : Position) :
    T.Like c (T.weight [(name, position)]) (go.typeOfName name position)
      (go'.typeOfName name position) := by
  refine .get fun k hk => ?_
  cases hlookup : k.lookup? name with
  | none =>
    refine Like.followed ((Like.reportAll _).congr fun _ => ?_) fun _ => .pure _
    simp [weight, List.countP_singleton]
  | some binding =>
    obtain ⟨hname, hpending⟩ := hk.lookup hlookup
    rw [weight_of_names hname]
    dsimp only
    split
    · next f hbinding =>
      have hf := hpending f (Prod.mk.inj hbinding).2
      exact (infer_like hf (hbodies f hf) name _).preceded fun _ =>
        .get fun _ _ => .pure _
    · exact .get fun _ _ => .pure _

/-! ### Expressions -/

theorem weight_each (l : List Expr) :
    T.weight (referencesOfEach l) = (l.map fun e => T.weight e.references).sum := by
  induction l with
  | nil => rfl
  | cons e rest ih => rw [referencesOfEach, weight_append, ih, List.map_cons, List.sum_cons]

theorem typeOfCall_like (hasks : go.AsksAlike go') {callee : Expr} {arguments : List Expr}
    (hcallee : T.Like c (T.weight callee.references) (go.typeOf callee) (go'.typeOf callee))
    (harguments : ∀ e ∈ arguments, T.Like c (T.weight e.references) (go.typeOf e) (go'.typeOf e))
    (position : Position) :
    T.Like c (T.weight (callee.references ++ referencesOfEach arguments))
      (go.typeOfCall callee arguments position) (go'.typeOfCall callee arguments position) := by
  rw [weight_append, weight_each]
  refine hcallee.bind fun type => Like.followed (Like.mapM _ fun e he =>
    (harguments e he).followed fun _ => .pure _) fun found => ?_
  split
  · exact .pure _
  · split
    · exact (Like.report rfl _).preceded fun _ => .pure _
    · split
      · exact (expectArguments_like hasks _ _ _).preceded fun _ => .pure _
      · exact (Like.report rfl _).preceded fun _ =>
          (expectArguments_like hasks _ _ _).preceded fun _ => .pure _

/-- The references in an object literal are those in its values and those in its
methods. -/
theorem weight_fields (fields : List Field) : T.weight (referencesOfFields fields) =
    T.weight (referencesOfValues fields) +
      ((methodsOf fields).map fun f => T.weight f.references).sum := by
  induction fields with
  | nil => rfl
  | cons field rest ih =>
    obtain ⟨name, value, position⟩ := field
    cases value <;> simp only [referencesOfFields, referencesOfValues, methodsOf, weight_append,
      Field.references, Expr.references, List.map_cons, List.sum_cons, ih] <;> omega

theorem fieldsBehind_like {rest : List Field} {n : Nat}
    (hrest : ∀ shape, T.Like c n (go.fieldTypes shape rest) (go'.fieldTypes shape rest))
    (field : Field) (shape : Shape) (type : Ty) (methods : List Method) :
    T.Like c n (go.fieldsBehind field rest shape type methods)
      (go'.fieldsBehind field rest shape type methods) := by
  have hothers := fun extended => (hrest extended).followed fun found =>
    .pure (T := T) (c := c) (found.1, methods ++ found.2)
  unfold fieldsBehind
  split
  · exact (Like.report rfl _).preceded fun _ => hothers _
  · exact hothers _

theorem fieldTypes_like (hasks : go.AsksAlike go') {fields : List Field}
    (hvalues : ∀ field ∈ fields, T.Like c (T.weight field.value.references)
      (go.typeOf field.value) (go'.typeOf field.value)) (shape : Shape) :
    T.Like c (T.weight (referencesOfValues fields)) (go.fieldTypes shape fields)
      (go'.fieldTypes shape fields) := by
  induction fields generalizing shape with
  | nil => exact .pure _
  | cons field rest ih =>
    rw [List.forall_mem_cons] at hvalues
    obtain ⟨hvalue, hrest⟩ := hvalues
    have hbehind := fieldsBehind_like (ih hrest)
    obtain ⟨name, value, position⟩ := field
    rw [fieldTypes_cons, fieldTypes_cons]
    cases value with
    | function f =>
      exact (signature_like hasks f).preceded fun _ => hbehind _ _ _ _
    | _ =>
      rw [referencesOfValues, weight_append]
      · exact hvalue.bind fun _ => hbehind _ _ _ _
      · intro _ _ _ heq
        cases heq

/-- The methods whose bodies are left for later are those among the properties. -/
theorem definitions_of_fieldTypes {fields : List Field} {shape : Shape} {k k' : Knowledge}
    {found : Shape × List Method} (h : go.fieldTypes shape fields k = .ok found k') :
    found.2.map (·.definition) = methodsOf fields := by
  induction fields generalizing shape k k' found with
  | nil =>
    rw [fieldTypes] at h
    rw [(Check.pure_eq_ok.mp h).1]
    rfl
  | cons field rest ih =>
    have hbehind : ∀ {type : Ty} {methods : List Method} {k₁ : Knowledge},
        go.fieldsBehind field rest shape type methods k₁ = .ok found k' →
        found.2.map (·.definition) = methods.map (·.definition) ++ methodsOf rest := by
      intro type methods k₁ h
      obtain ⟨_, _, others, hothers, rfl, -⟩ := exists_of_fieldsBehind h
      rw [List.map_append, ih hothers]
    obtain ⟨name, value, position⟩ := field
    rw [fieldTypes_cons] at h
    cases value with
    | function f =>
      obtain ⟨signature, k₁, -, h⟩ := bind_eq_ok.mp h
      exact hbehind h
    | _ =>
      obtain ⟨type, k₁, -, h⟩ := bind_eq_ok.mp h
      exact hbehind h

theorem checkMethods_like (methods : List Method)
    (h : ∀ f ∈ methods.map (·.definition), T.functions f ∧ T.Like c (T.weight f.references)
      (go.checkAll f.body.statements) (go'.checkAll f.body.statements)) (shape : Shape) :
    T.Like c ((methods.map (·.definition)).map fun f => T.weight f.references).sum
      (go.checkMethods shape methods) (go'.checkMethods shape methods) := by
  induction methods generalizing shape with
  | nil => exact .pure shape
  | cons method rest ih =>
    rw [List.map_cons, List.forall_mem_cons] at h
    obtain ⟨⟨hf, hbody⟩, hrest⟩ := h
    rw [checkMethods, checkMethods, List.map_cons, List.map_cons, List.sum_cons]
    exact (checkBody_like hf hbody _ _).bind fun result => ih hrest _

/-! ## Parts and wholes -/

/-- Two checkers that do alike on the parts below a size of what is checked at a stage: on
expressions and statements at that stage, on the body of a function that is looked at in
its turn, and on that of any function that is looked at ahead of its turn. -/
structure Alike (T : Comparison) (go go' : Checker) (c : Stage) (size : Nat) : Prop where
  asks : go.AsksAlike go'
  typeOf : ∀ e : Expr, sizeOf e < size → e.passes (T.survey c) () = true →
    T.Like c (T.weight e.references) (go.typeOf e) (go'.typeOf e)
  check : ∀ s : Stmt, sizeOf s < size → s.passes (T.survey c) () = true →
    T.Like c (T.weight s.references) (go.check s) (go'.check s)
  checkAll : ∀ l : List Stmt, sizeOf l < size → rowPasses (T.survey c) () l = true →
    T.Like c (T.weight (referencesOfRow l)) (go.checkAll l) (go'.checkAll l)
  inTurn : c.ahead = 0 → ∀ f : Function, sizeOf f < size → f.passes (T.survey c) () = true →
    T.Like (c.turn f.position) (T.weight f.references) (go.checkAll f.body.statements)
      (go'.checkAll f.body.statements)
  ahead : ∀ f : Function, T.functions f → f.position ∉ c.inferring →
    T.Like (c.aside.turn f.position) (T.weight f.references) (go.checkAll f.body.statements)
      (go'.checkAll f.body.statements)

theorem sizeOf_statements_lt (b : Block) : sizeOf b.statements < sizeOf b := by
  obtain ⟨statements, position⟩ := b
  simp only [Block.mk.sizeOf_spec]
  omega

theorem sizeOf_body_lt (f : Function) : sizeOf f.body.statements < sizeOf f := by
  obtain ⟨name?, params, result?, body, position⟩ := f
  have hbody := sizeOf_statements_lt body
  simp only [Function.mk.sizeOf_spec]
  omega

namespace Alike

variable {size : Nat}

/-- The body of a function that is a value is looked at where the function stands. -/
theorem body (h : Alike T go go' c size) {f : Function} (hsize : sizeOf f < size)
    (hf : f.passes (T.survey c) () = true) :
    T.Like c (T.weight f.references) (go.checkAll f.body.statements)
      (go'.checkAll f.body.statements) := by
  rw [f.references_eq]
  rw [Function.passes_eq, Bool.and_eq_true] at hf
  exact h.checkAll _ (Nat.lt_trans (sizeOf_body_lt f) hsize) hf.2

theorem block (h : Alike T go go' c size) {b : Block} (hsize : sizeOf b < size)
    (hb : b.passesAt (T.survey c) () = true) :
    T.Like c (T.weight b.references) (go.checkBlock b) (go'.checkBlock b) := by
  rw [b.references_eq]
  rw [Block.passesAt_eq] at hb
  exact .inScope (h.checkAll _ (Nat.lt_trans (sizeOf_statements_lt b) hsize) hb)

theorem condition (h : Alike T go go' c size) {e : Expr} (hsize : sizeOf e < size)
    (he : e.passes (T.survey c) () = true) :
    T.Like c (T.weight e.references) (go.checkCondition e) (go'.checkCondition e) :=
  (h.typeOf e hsize he).followed fun _ => expect_like h.asks _ _ _

end Alike

/-- The rule of expressions does alike if the parts do. -/
theorem exprRule_like {e : Expr} (h : Alike T go go' c (sizeOf e))
    (he : e.passes (T.survey c) () = true) :
    T.Like c (T.weight e.references) (go.exprRule e) (go'.exprRule e) := by
  unfold exprRule
  cases e with
  | literal value position => cases value <;> exact .pure _
  | reference name position => exact typeOfName_like h.ahead name position
  | receiver position =>
    refine .get fun k hk => ?_
    split
    · exact .pure _
    · refine Like.followed ((Like.reportAll _).congr fun _ => ?_) fun _ => .pure _
      simp [notices_receiver, Expr.references, weight]
  | unary op operand position =>
    rw [Expr.passes, Bool.and_eq_true] at he
    have hoperand := h.typeOf operand (by simp only [Expr.unary.sizeOf_spec]; omega) he.2
    rw [Expr.references]
    exact hoperand.followed fun _ => (expect_like h.asks _ _ _).preceded fun _ => .pure _
  | binary left op right position =>
    rw [Expr.passes, Bool.and_eq_true, Bool.and_eq_true] at he
    have hleft := h.typeOf left (by simp only [Expr.binary.sizeOf_spec]; omega) he.2.1
    have hright := h.typeOf right (by simp only [Expr.binary.sizeOf_spec]; omega) he.2.2
    rw [Expr.references, weight_append]
    exact hleft.bind fun _ => hright.followed fun _ => typeOfBinary_like h.asks _ _ _ _
  | assign target op? value position =>
    rw [Expr.passes, Bool.and_eq_true, Bool.and_eq_true] at he
    have htarget := h.typeOf target (by simp only [Expr.assign.sizeOf_spec]; omega) he.2.1
    have hvalue := h.typeOf value (by simp only [Expr.assign.sizeOf_spec]; omega) he.2.2
    rw [Expr.references, weight_append]
    refine htarget.bind fun expected => hvalue.followed fun given => ?_
    -- with an operator the type of the result is compared, without one that of the value
    have hfound := fun found => (expect_like (T := T) (c := c) h.asks found expected
      value.position).preceded fun _ => .pure expected
    split
    · exact (typeOfBinary_like h.asks _ _ _ _).preceded hfound
    · exact hfound given
  | update target op isBefore position =>
    rw [Expr.passes, Bool.and_eq_true] at he
    have htarget := h.typeOf target (by simp only [Expr.update.sizeOf_spec]; omega) he.2
    rw [Expr.references]
    exact htarget.followed fun _ => (expect_like h.asks _ _ _).preceded fun _ => .pure _
  | call callee arguments position =>
    rw [Expr.passes, Bool.and_eq_true, Bool.and_eq_true, eachPasses_iff] at he
    have hcallee := h.typeOf callee (by simp only [Expr.call.sizeOf_spec]; omega) he.2.1
    rw [Expr.references]
    refine typeOfCall_like h.asks hcallee (fun e hmem => ?_) position
    have hsize := List.sizeOf_lt_of_mem hmem
    exact h.typeOf e (by simp only [Expr.call.sizeOf_spec]; omega) (he.2.2 e hmem)
  | member object property position =>
    rw [Expr.passes, Bool.and_eq_true] at he
    have hobject := h.typeOf object (by simp only [Expr.member.sizeOf_spec]; omega) he.2
    rw [Expr.references]
    exact hobject.followed fun _ => typeOfProperty_like h.asks _ _ _
  | object fields position =>
    rw [Expr.passes, Bool.and_eq_true, fieldsPass_iff] at he
    have hvalue : ∀ field ∈ fields, sizeOf field.value < sizeOf (Expr.object fields position) ∧
        field.value.passes (T.survey c) () = true := by
      intro field hfield
      have hpasses := he.2 field hfield
      rw [Field.passes_eq] at hpasses
      have hsize := List.sizeOf_lt_of_mem hfield
      obtain ⟨name, value, _⟩ := field
      simp only [Field.mk.sizeOf_spec, Expr.object.sizeOf_spec] at hsize ⊢
      exact ⟨by omega, hpasses⟩
    rw [Expr.references, weight_fields]
    -- the methods that are checked afterwards are functions among the values of the fields
    refine Like.bind_of (fieldTypes_like h.asks (fun field hfield =>
      h.typeOf _ (hvalue field hfield).1 (hvalue field hfield).2) []) (fun _ _ _ hgives =>
        definitions_of_fieldTypes hgives) fun found hfound => ?_
    rw [← hfound]
    refine Like.followed (checkMethods_like found.2 (fun f hf => ?_) _) fun _ => .pure _
    rw [hfound] at hf
    obtain ⟨field, hfield, heq⟩ := mem_methodsOf.mp hf
    obtain ⟨hsize, hpasses⟩ := hvalue field hfield
    rw [heq, Expr.function.sizeOf_spec] at hsize
    rw [heq, Expr.passes, Bool.and_eq_true] at hpasses
    exact ⟨T.functions_passes hpasses.2, h.body (by omega) hpasses.2⟩
  | function f =>
    rw [Expr.passes, Bool.and_eq_true] at he
    have hbody := h.body (by simp only [Expr.function.sizeOf_spec]; omega) he.2
    rw [Expr.references]
    refine (signature_like h.asks f).preceded fun signature => ?_
    exact (checkBody_like (T.functions_passes he.2) hbody _ _).followed fun _ => .pure _

/-! ### Statements -/

theorem loopRest_like (update? : Option Expr) (body : Block) (h : Alike T go go' c n)
    (hupdate : ∀ e, update? = some e → sizeOf e < n) (hbody : sizeOf body < n)
    (hupdate' : optionPasses (T.survey c) () update? = true)
    (hbody' : body.passesAt (T.survey c) () = true) :
    T.Like c (T.weight (referencesOfOption update? ++ body.references))
      (go.loopRest update? body) (go'.loopRest update? body) := by
  have hblock := h.block hbody hbody'
  cases update? with
  | none => exact hblock
  | some update =>
    rw [referencesOfOption, weight_append]
    exact ((h.typeOf update (hupdate _ rfl) hupdate').followed fun _ => .pure _).bind
      fun _ => hblock

theorem loopRound_like (condition? update? : Option Expr) (body : Block)
    (h : Alike T go go' c n)
    (hcondition : ∀ e, condition? = some e → sizeOf e < n)
    (hupdate : ∀ e, update? = some e → sizeOf e < n) (hbody : sizeOf body < n)
    (hpasses : optionPasses (T.survey c) () condition? = true ∧
      optionPasses (T.survey c) () update? = true ∧ body.passesAt (T.survey c) () = true) :
    T.Like c (T.weight (referencesOfOption condition? ++
        (referencesOfOption update? ++ body.references)))
      (go.loopRound condition? update? body) (go'.loopRound condition? update? body) := by
  obtain ⟨hcondition', hupdate', hbody'⟩ := hpasses
  have hrest := loopRest_like update? body h hupdate hbody hupdate' hbody'
  cases condition? with
  | none => exact hrest
  | some condition =>
    rw [referencesOfOption, weight_append]
    exact (h.condition (hcondition _ rfl) hcondition').bind fun _ => hrest

/-- An expression that may be missing. -/
theorem optional_like (e? : Option Expr) (h : Alike T go go' c n)
    (hsize : ∀ e, e? = some e → sizeOf e < n) (hpasses : optionPasses (T.survey c) () e? = true) :
    T.Like c (T.weight (referencesOfOption e?)) (e?.mapM go.typeOf) (e?.mapM go'.typeOf) := by
  cases e? with
  | none => exact .pure none
  | some e => exact (h.typeOf e (hsize e rfl) hpasses).followed fun _ => .pure _

theorem noteGiven_like (hasks : go.AsksAlike go') (type : Ty) (blamed position : Position) :
    T.Like c 0 (go.noteGiven type blamed position) (go'.noteGiven type blamed position) := by
  have hnoted : T.Like c 0 (Check.noteReturn type) (Check.noteReturn type) := .noteReturn type
  refine .get fun k hk => ?_
  split
  · exact .report rfl _
  · split
    · exact (expect_like hasks _ _ _).preceded fun _ => hnoted
    · exact hnoted

theorem giveBack_like {value? : Option Expr} {position : Position} (h : Alike T go go' c n)
    (hsize : ∀ e, value? = some e → sizeOf e < n)
    (hpasses : optionPasses (T.survey c) () value? = true) :
    T.Like c (T.weight (referencesOfOption value?)) (go.stmtRule (.giveBack value? position))
      (go'.stmtRule (.giveBack value? position)) := by
  cases value? with
  | none => exact noteGiven_like h.asks _ _ _
  | some value =>
    exact (h.typeOf value (hsize value rfl) hpasses).followed fun type =>
      noteGiven_like h.asks type _ _

/-- The rule of statements does alike if the parts do. -/
theorem stmtRule_like {s : Stmt} (h : Alike T go go' c (sizeOf s))
    (hs : s.passes (T.survey c) () = true) :
    T.Like c (T.weight s.references) (go.stmtRule s) (go'.stmtRule s) := by
  cases s with
  | «variable» name type? value? position =>
    rw [Stmt.passes, Bool.and_eq_true, Bool.and_eq_true] at hs
    have hvalue := optional_like value? h (by
      rintro e rfl
      simp only [Stmt.variable.sizeOf_spec, Option.some.sizeOf_spec]
      omega) hs.2.2
    -- reading an annotation mentions no variable, so all the weight is that of the value
    have htype : T.Like c 0 (type?.mapM go.readType) (type?.mapM go'.readType) := by
      cases type? with
      | none => exact .pure none
      | some type => exact (readType_like h.asks type).preceded fun _ => .pure _
    have hdeclare := fun type => Like.declare (c := c) (T.names_variable hs.1) type position
    rw [Stmt.references]
    refine htype.preceded fun declared? => hvalue.followed fun found? => ?_
    split
    · exact (expect_like h.asks _ _ _).preceded fun _ => hdeclare _
    · exact hdeclare _
  -- a declaration has been checked when the row that it stands in was hoisted
  | function f => exact .pure ()
  | interface declaration => exact .pure ()
  | expression e position =>
    rw [Stmt.passes, Bool.and_eq_true] at hs
    have he := h.typeOf e (by simp only [Stmt.expression.sizeOf_spec]; omega) hs.2
    rw [Stmt.references]
    exact he.followed fun _ => .pure ()
  | giveBack value? position =>
    rw [Stmt.passes, Bool.and_eq_true] at hs
    rw [Stmt.references]
    refine giveBack_like h ?_ hs.2
    rintro e rfl
    simp only [Stmt.giveBack.sizeOf_spec, Option.some.sizeOf_spec]
    omega
  | branch condition body otherwise? position =>
    have hcondition :
        sizeOf condition < sizeOf (Stmt.branch condition body otherwise? position) := by
      simp only [Stmt.branch.sizeOf_spec]
      omega
    have hbody : sizeOf body < sizeOf (Stmt.branch condition body otherwise? position) := by
      simp only [Stmt.branch.sizeOf_spec]
      omega
    cases otherwise? with
    | none =>
      rw [Stmt.passes, Bool.and_eq_true, Bool.and_eq_true] at hs
      rw [Stmt.references, weight_append]
      exact (h.condition hcondition hs.2.1).bind fun _ =>
        (h.block hbody hs.2.2).followed fun _ => .pure ()
    | some otherwise =>
      rw [Stmt.passes, Bool.and_eq_true, Bool.and_eq_true, Bool.and_eq_true] at hs
      have hotherwise := h.check otherwise (by
        simp only [Stmt.branch.sizeOf_spec, Option.some.sizeOf_spec]
        omega) hs.2.2.2
      rw [Stmt.references, weight_append, weight_append]
      exact (h.condition hcondition hs.2.1).bind fun _ =>
        (h.block hbody hs.2.2.1).bind fun _ => hotherwise
  | block b =>
    rw [Stmt.passes, Bool.and_eq_true] at hs
    rw [Stmt.references]
    exact h.block (by simp only [Stmt.block.sizeOf_spec]; omega) hs.2
  | loop init? condition? update? body position =>
    -- the parts of a loop that are there are smaller than the loop
    have hround := loopRound_like condition? update? body h (by
      rintro e rfl
      simp only [Stmt.loop.sizeOf_spec, Option.some.sizeOf_spec]
      omega) (by
      rintro e rfl
      simp only [Stmt.loop.sizeOf_spec, Option.some.sizeOf_spec]
      omega) (by
      simp only [Stmt.loop.sizeOf_spec]
      omega)
    cases init? with
    | none =>
      rw [Stmt.passes, Bool.and_eq_true, Bool.and_eq_true, Bool.and_eq_true] at hs
      rw [Stmt.references]
      exact .inScope (hround hs.2)
    | some init =>
      rw [Stmt.passes, Bool.and_eq_true, Bool.and_eq_true, Bool.and_eq_true,
        Bool.and_eq_true] at hs
      have hinit := h.check init (by
        simp only [Stmt.loop.sizeOf_spec, Option.some.sizeOf_spec]
        omega) hs.2.1
      rw [Stmt.references, weight_append]
      exact .inScope (hinit.bind fun _ => hround hs.2.2)
  | repeatWhile condition body position =>
    rw [Stmt.passes, Bool.and_eq_true, Bool.and_eq_true] at hs
    rw [Stmt.references, weight_append]
    refine (h.condition ?_ hs.2.1).bind fun _ => h.block ?_ hs.2.2
    · simp only [Stmt.repeatWhile.sizeOf_spec]
      omega
    · simp only [Stmt.repeatWhile.sizeOf_spec]
      omega

/-- The rule of rows does alike if the parts do. -/
theorem row_like {l : List Stmt} (h : Alike T go go' c (sizeOf l))
    (hl : rowPasses (T.survey c) () l = true) :
    T.Like c (T.weight (referencesOfRow l)) (go.rowRule l) (go'.rowRule l) := by
  rw [rowPasses_iff] at hl
  have hfunction : ∀ f ∈ hoistedFunctions l, sizeOf f < sizeOf l ∧
      (T.survey c).stmt () (.function f) = true ∧ f.passes (T.survey c) () = true := by
    intro f hf
    have hmem := mem_hoistedFunctions.mp hf
    have hsize := List.sizeOf_lt_of_mem hmem
    have hpasses := hl _ hmem
    rw [Stmt.passes, Bool.and_eq_true, Bool.and_eq_true] at hpasses
    rw [Stmt.function.sizeOf_spec] at hsize
    exact ⟨by omega, hpasses.1, hpasses.2.2⟩
  refine rowRule_like h.asks (fun s hs => ?_) (fun f hf => ?_) fun hahead f hf => ?_
  · exact h.check s (List.sizeOf_lt_of_mem hs) (hl s hs)
  · obtain ⟨-, hdeclared, hpasses⟩ := hfunction f hf
    exact ⟨T.functions_passes hpasses, fun _ => T.names_function hdeclared⟩
  · obtain ⟨hsize, -, hpasses⟩ := hfunction f hf
    exact h.inTurn hahead f hsize hpasses

end Checker

section Knot

variable {T : Comparison} {table table' : Table} {effort effort' fuel fuel' : Nat}

theorem checkAll_like {c : Stage} {l : List Stmt}
    (h : Checker.Alike T (checker table effort fuel) (checker table' effort' fuel') c (sizeOf l))
    (hl : rowPasses (T.survey c) () l = true) :
    T.Like c (T.weight (referencesOfRow l)) (Block.checkAll table effort (fuel + 1) l)
      (Block.checkAll table' effort' (fuel' + 1) l) :=
  Checker.row_like h hl

/-- The bodies of functions may be looked at alike where their rows may. -/
theorem checkBody_like_of_row {c : Stage} {f : Function}
    (h : Checker.Alike T (checker table effort fuel) (checker table' effort' fuel') c
      (sizeOf f.body.statements))
    (hf : rowPasses (T.survey c) () f.body.statements = true) :
    T.Like c (T.weight f.references) (Block.checkAll table effort (fuel + 1) f.body.statements)
      (Block.checkAll table' effort' (fuel' + 1) f.body.statements) := by
  rw [f.references_eq]
  exact checkAll_like h hf

/-- With more fuel on either side checkers do alike on more: on what is larger than the
parts on which they do already, and on bodies at the stages to which those lead. -/
theorem checker_alike_succ {c : Stage} {size : Nat}
    (hasks : (checker table effort (fuel + 1)).AsksAlike (checker table' effort' (fuel' + 1)))
    (hparts : ∀ n < size,
      Checker.Alike T (checker table effort fuel) (checker table' effort' fuel') c n)
    (hturn : c.ahead = 0 → ∀ f : Function, sizeOf f < size →
      f.passes (T.survey c) () = true →
      rowPasses (T.survey (c.turn f.position)) () f.body.statements = true ∧
        Checker.Alike T (checker table effort fuel) (checker table' effort' fuel')
          (c.turn f.position) (sizeOf f.body.statements))
    (hahead : ∀ f : Function, T.functions f → f.position ∉ c.inferring →
      rowPasses (T.survey (c.aside.turn f.position)) () f.body.statements = true ∧
        Checker.Alike T (checker table effort fuel) (checker table' effort' fuel')
          (c.aside.turn f.position) (sizeOf f.body.statements)) :
    Checker.Alike T (checker table effort (fuel + 1)) (checker table' effort' (fuel' + 1)) c
      size where
  asks := hasks
  typeOf _ he hpasses := Checker.exprRule_like (hparts _ he) hpasses
  check _ hs hpasses := Checker.stmtRule_like (hparts _ hs) hpasses
  checkAll _ hl hpasses := checkAll_like (hparts _ hl) hpasses
  inTurn hc f hf hpasses :=
    checkBody_like_of_row (hturn hc f hf hpasses).2 (hturn hc f hf hpasses).1
  ahead f hf hmem := checkBody_like_of_row (hahead f hf hmem).2 (hahead f hf hmem).1

/-- Checkers with the same fuel do alike on everything, if a check may stop for any reason
and the bodies of functions are as they may be at every stage. -/
theorem checker_alike
    (hasks : ∀ fuel, (checker table effort fuel).AsksAlike (checker table' effort' fuel))
    (hstops : ∀ unfinished, T.stops unfinished)
    (hbodies : ∀ c f, T.functions f → rowPasses (T.survey c) () f.body.statements = true)
    (fuel : Nat) : ∀ c size, Checker.Alike T (checker table effort fuel)
      (checker table' effort' fuel) c size := by
  induction fuel with
  | zero =>
    have hstop : ∀ {α : Type} {c : Stage} {n : Nat},
        T.Like c n (throw .descent : Check α) (throw .descent) := fun _ _ => ⟨rfl, hstops _⟩
    exact fun c size => ⟨hasks 0, fun _ _ _ => hstop, fun _ _ _ => hstop, fun _ _ _ => hstop,
      fun _ _ _ _ => hstop, fun _ _ _ => hstop⟩
  | succ fuel ih =>
    exact fun c size => checker_alike_succ (hasks _) (fun n _ => ih c n)
      (fun _ f _ hf => ⟨hbodies _ f (T.functions_passes hf), ih _ _⟩)
      fun f hf _ => ⟨hbodies _ f hf, ih _ _⟩

end Knot

end TypedScript
