import TypedScript.Proofs.EnoughEffort
import TypedScript.Proofs.Functions
import TypedScript.Proofs.Settling
import TypedScript.Proofs.SideBySide
import TypedScript.Proofs.Standing

/-!
# Checks end

The checker does not follow the structure of a program: the body of a declared function
is looked at wherever its name is used first. But a function is looked at ahead of its
turn only where it is not being looked at already, so each time there are fewer
functions left of which this may be said. Their number, and below it the size of what is
checked, bounds how deep a check descends (`Stage.depth`).

So with enough fuel every check ends, unless a question about types is not answered with
the effort given; and with enough effort none is left unanswered that can be answered at
all. If the functions of a program are told apart by their positions, as they are in every
program from a source, no function is ever among those being looked at twice
(`Program.check_ends`).
-/

namespace TypedScript

/-! ## How deep a check descends -/

section Depth

variable {whole : List Function}

/-- How many of some functions are not being looked at. -/
def Stage.untouched (whole : List Function) (c : Stage) : Nat :=
  whole.countP fun f => f.position ∉ c.inferring

theorem Stage.untouched_turn_le (c : Stage) (position : Position) :
    (c.turn position).untouched whole ≤ c.untouched whole := by
  refine List.countP_mono_left fun f _ hf => ?_
  rw [decide_eq_true_eq] at hf ⊢
  exact fun hmem => hf (List.mem_cons_of_mem _ hmem)

/-- A function that is looked at ahead of its turn is one less that may be. -/
theorem Stage.untouched_aside_lt {c : Stage} {f : Function} (hf : f ∈ whole)
    (hmem : f.position ∉ c.inferring) :
    (c.aside.turn f.position).untouched whole < c.untouched whole := by
  refine countP_lt_countP (fun g _ hg => ?_) hf ?_ (decide_eq_true hmem)
  · rw [decide_eq_true_eq] at hg ⊢
    exact fun hmem => hg (List.mem_cons_of_mem _ hmem)
  · exact decide_eq_false (not_not_intro List.mem_cons_self)

/-- How deep the bodies of functions may lead that are looked at ahead of their turn. -/
noncomputable def Stage.depth (whole : List Function) (c : Stage) : Nat :=
  c.untouched whole * sizeOf whole

theorem Stage.depth_turn_le (c : Stage) (position : Position) :
    (c.turn position).depth whole ≤ c.depth whole :=
  Nat.mul_le_mul_right _ (c.untouched_turn_le position)

theorem Stage.depth_aside {c : Stage} {f : Function} (hf : f ∈ whole)
    (hmem : f.position ∉ c.inferring) :
    (c.aside.turn f.position).depth whole + sizeOf whole ≤ c.depth whole := by
  unfold depth
  rw [← Nat.succ_mul]
  exact Nat.mul_le_mul_right _ (untouched_aside_lt hf hmem)

open Classical in
/-- The comparison of checks of something whose functions are some of a list. They may stop
only where a question about types is not answered. -/
noncomputable def Comparison.ending (whole : List Function) : Comparison :=
  .uncounted (fun f => ∀ g ∈ f.functions, g ∈ whole) (fun unfinished => unfinished = .question)
    (fun _ => .ofEach fun f => decide (f ∈ whole)) rfl
    fun h g hg => of_decide_eq_true (Function.passes_ofEach_iff.mp h g hg)

section Ending

variable {c : Stage} {f : Function}

theorem Comparison.ending_mem (hf : (ending whole).functions f) : f ∈ whole := by
  refine hf f ?_
  rw [Function.functions_eq]
  exact List.mem_cons_self

theorem Comparison.ending_body (c : Stage) (hf : (ending whole).functions f) :
    rowPasses ((ending whole).survey c) () f.body.statements = true := by
  classical
  refine rowPasses_ofEach_iff.mpr fun g hg => decide_eq_true (hf g ?_)
  rw [Function.functions_eq]
  exact List.mem_cons_of_mem _ hg

/-- Where no function is left that may be looked at ahead of its turn, checkers do alike on
what is smaller than anything. -/
theorem Checker.Alike.of_depth_eq_zero {go go' : Checker} (hasks : go.AsksAlike go')
    (hdepth : c.depth whole = 0) : Alike (.ending whole) go go' c 0 where
  asks := hasks
  typeOf _ he := absurd he (Nat.not_lt_zero _)
  check _ hs := absurd hs (Nat.not_lt_zero _)
  checkAll _ hl := absurd hl (Nat.not_lt_zero _)
  inTurn _ _ hf := absurd hf (Nat.not_lt_zero _)
  ahead f hf hinferring := by
    have hmem := Comparison.ending_mem hf
    have haside := Stage.depth_aside hmem hinferring
    have hsize := List.sizeOf_lt_of_mem hmem
    omega

end Ending

/-- With fuel for the depth and for the size of what is checked, checks do not run out of
it, and it does not matter how much there is. -/
theorem checker_alike_of_depth (table : Table) (effort fuel : Nat) :
    ∀ fuel' c size, c.depth whole + size ≤ fuel → c.depth whole + size ≤ fuel' →
      Checker.Alike (.ending whole) (checker table effort fuel) (checker table effort fuel') c
        size := by
  have hasks : ∀ fuel fuel', (checker table effort fuel).AsksAlike (checker table effort fuel') :=
    fun _ _ => ⟨rfl, rfl, rfl, rfl⟩
  induction fuel with
  | zero =>
    intro fuel' c size hfuel _
    obtain ⟨hdepth, rfl⟩ : c.depth whole = 0 ∧ size = 0 := by omega
    exact .of_depth_eq_zero (hasks _ _) hdepth
  | succ fuel ih =>
    intro fuel' c size hfuel hfuel'
    cases fuel' with
    | zero =>
      obtain ⟨hdepth, rfl⟩ : c.depth whole = 0 ∧ size = 0 := by omega
      exact .of_depth_eq_zero (hasks _ _) hdepth
    | succ fuel' =>
      refine checker_alike_succ (hasks _ _) (fun n hn => ih fuel' c n (by omega) (by omega))
        (fun _ f hsize hf => ?_) fun f hf hinferring => ?_
      -- A body is smaller than its function, and no more functions are left than before.
      · have hbody := Checker.sizeOf_body_lt f
        have hturn : (c.turn f.position).depth whole ≤ c.depth whole :=
          c.depth_turn_le f.position
        exact ⟨Comparison.ending_body _ ((Comparison.ending whole).functions_passes hf),
          ih fuel' _ _ (by omega) (by omega)⟩
      -- A body may be larger than what is checked, but one function less is left.
      · have hmem := Comparison.ending_mem hf
        have hbody := Checker.sizeOf_body_lt f
        have hsize := List.sizeOf_lt_of_mem hmem
        have haside := Stage.depth_aside hmem hinferring
        exact ⟨Comparison.ending_body _ hf, ih fuel' _ _ (by omega) (by omega)⟩

end Depth

/-! ## Checks under watch -/

/-- A check that goes on only if something holds of what is known. -/
def Check.ensuring {α : Type} (refusal : Unfinished) (holds : Knowledge → Bool) (x : Check α) :
    Check α := do
  if holds (← get) then x else throw refusal

section Watch

variable (holds : Knowledge → Bool) (refusal : Unfinished) (table : Table) (effort : Nat)

mutual

/-- The type of an expression, under watch. -/
def Expr.typeOfWatched : (fuel : Nat) → Expr → Check Ty
  | 0, _ => throw .descent
  | fuel + 1, e =>
    Check.ensuring refusal holds <| Checker.exprRule
      ⟨table, effort, Expr.typeOfWatched fuel, Stmt.checkWatched fuel,
        Block.checkAllWatched fuel⟩ e

/-- The check of a statement, under watch. -/
def Stmt.checkWatched : (fuel : Nat) → Stmt → Check Unit
  | 0, _ => throw .descent
  | fuel + 1, s =>
    Check.ensuring refusal holds <| Checker.stmtRule
      ⟨table, effort, Expr.typeOfWatched fuel, Stmt.checkWatched fuel,
        Block.checkAllWatched fuel⟩ s

/-- The check of statements in a row, under watch. -/
def Block.checkAllWatched : (fuel : Nat) → List Stmt → Check Unit
  | 0, _ => throw .descent
  | fuel + 1, statements =>
    Check.ensuring refusal holds <| Checker.rowRule
      ⟨table, effort, Expr.typeOfWatched fuel, Stmt.checkWatched fuel,
        Block.checkAllWatched fuel⟩ statements

end

/-- The checker under watch, with a given amount of fuel. -/
def checkerWatched (fuel : Nat) : Checker :=
  ⟨table, effort, Expr.typeOfWatched holds refusal table effort fuel,
    Stmt.checkWatched holds refusal table effort fuel,
    Block.checkAllWatched holds refusal table effort fuel⟩

end Watch

/-- Whether no function is among those being looked at twice. -/
def Knowledge.isApart (k : Knowledge) : Bool :=
  decide k.inferring.Nodup

/-- A check of a program never comes to look at a function that it is looking at already: if
it stopped wherever one is among those being looked at twice, for whichever reason, it
would do the same. -/
def Program.InfersApart (effort fuel : Nat) (program : Program) : Prop :=
  ∀ refusal, program.checkBy effort (Block.checkAllWatched Knowledge.isApart refusal
    program.table effort fuel program.statements) = program.check effort fuel

/-! ## Functions that are looked at -/

/-- Whether the functions in the body of a function stand elsewhere. -/
def Function.standsApart (f : Function) : Bool :=
  (functionsOfRow f.body.statements).all fun g => g.position ≠ f.position

/-- The comparison of checks that may stop for any reason. No function has the position of
one in its body, and none that is looked at in its turn is being looked at already. -/
def Comparison.apart : Comparison :=
  .uncounted (fun f => ∀ g ∈ f.functions, g.standsApart = true) (fun _ => True)
    (fun c => .ofEach fun f => f.standsApart && (c.ahead ≠ 0 || f.position ∉ c.inferring))
    trivial fun h g hg => (Bool.and_eq_true_iff.mp (Function.passes_ofEach_iff.mp h g hg)).1

section Apart

variable {c : Stage} {f : Function}

/-- What is ensured all the time changes nothing. -/
theorem Comparison.Like.ensuring {α : Type} {T : Comparison} {n : Nat} {x y : Check α}
    {holds : Knowledge → Bool} (h : T.Like c n x y) (hholds : ∀ k, T.At c k → holds k = true)
    (refusal : Unfinished) : T.Like c n x (Check.ensuring refusal holds y) := by
  intro k hk
  have hsame : Check.ensuring refusal holds y k = y k := by
    show (if holds k then y else throw refusal : Check α) k = y k
    rw [hholds k hk, if_pos rfl]
  rw [hsame]
  exact h k hk

theorem Comparison.isApart_of_at (hc : c.inferring.Nodup) (k : Knowledge)
    (hk : Comparison.apart.At c k) : k.isApart = true := by
  have hinferring : k.inferring = c.inferring := congrArg Stage.inferring hk.stage
  exact decide_eq_true (hinferring ▸ hc)

theorem Function.ne_of_standsApart (h : f.standsApart = true) {g : Function}
    (hg : g ∈ functionsOfRow f.body.statements) : g.position ≠ f.position :=
  of_decide_eq_true (List.all_eq_true.mp h g hg)

/-- A function that is looked at in its turn is not being looked at already, and neither are
those in its body, which stand elsewhere. -/
theorem Comparison.apart_turn (hahead : c.ahead = 0)
    (hf : f.passes (apart.survey c) () = true) : f.position ∉ c.inferring ∧
      rowPasses (apart.survey (c.turn f.position)) () f.body.statements = true := by
  have heach : ∀ g ∈ f.functions, g.standsApart = true ∧ g.position ∉ c.inferring := by
    intro g hg
    have hpasses := Function.passes_ofEach_iff.mp hf g hg
    rw [hahead] at hpasses
    simpa using hpasses
  rw [Function.functions_eq, List.forall_mem_cons] at heach
  obtain ⟨⟨hstands, hinferring⟩, hbody⟩ := heach
  -- What is being looked at in the body is what was, and the function itself.
  refine ⟨hinferring, rowPasses_ofEach_iff.mpr fun g hg => ?_⟩
  obtain ⟨hstands', hinferring'⟩ := hbody g hg
  have hturn : g.position ∉ (c.turn f.position).inferring := by
    intro hmem
    rcases List.mem_cons.mp hmem with heq | hmem
    · exact Function.ne_of_standsApart hstands hg heq
    · exact hinferring' hmem
  rw [hstands', decide_eq_true hturn, Bool.or_true]
  rfl

/-- Ahead of their turn functions are told apart when they are come upon. -/
theorem Comparison.apart_ahead (hf : apart.functions f) :
    rowPasses (apart.survey (c.aside.turn f.position)) () f.body.statements = true := by
  refine rowPasses_ofEach_iff.mpr fun g hg => ?_
  have hstands : g.standsApart = true := hf g (by
    rw [Function.functions_eq]
    exact List.mem_cons_of_mem _ hg)
  rw [hstands]
  rfl

theorem checker_alike_watched (refusal : Unfinished) (table : Table) (effort fuel : Nat) :
    ∀ c size, c.inferring.Nodup → Checker.Alike .apart (checker table effort fuel)
      (checkerWatched Knowledge.isApart refusal table effort fuel) c size := by
  induction fuel with
  | zero =>
    have hstop : ∀ {α : Type} {c : Stage} {n : Nat},
        Comparison.apart.Like c n (throw .descent : Check α) (throw .descent) :=
      fun _ _ => ⟨rfl, trivial⟩
    exact fun c size _ => ⟨⟨rfl, rfl, rfl, rfl⟩, fun _ _ _ => hstop, fun _ _ _ => hstop,
      fun _ _ _ => hstop, fun _ _ _ _ => hstop, fun _ _ _ => hstop⟩
  | succ fuel ih =>
    have hrow : ∀ (c : Stage) l, c.inferring.Nodup →
        rowPasses (Comparison.apart.survey c) () l = true →
        Comparison.apart.Like c (Comparison.apart.weight (referencesOfRow l))
          (Block.checkAll table effort (fuel + 1) l)
          (Block.checkAllWatched Knowledge.isApart refusal table effort (fuel + 1) l) :=
      fun c l hc hl =>
        (Checker.row_like (ih c _ hc) hl).ensuring (Comparison.isApart_of_at hc) refusal
    have hbody : ∀ (c : Stage) (f : Function), c.inferring.Nodup →
        rowPasses (Comparison.apart.survey c) () f.body.statements = true →
        Comparison.apart.Like c (Comparison.apart.weight f.references)
          (Block.checkAll table effort (fuel + 1) f.body.statements)
          (Block.checkAllWatched Knowledge.isApart refusal table effort (fuel + 1)
            f.body.statements) := by
      intro c f hc hf
      rw [f.references_eq]
      exact hrow c _ hc hf
    intro c size hc
    exact {
      asks := ⟨rfl, rfl, rfl, rfl⟩
      typeOf := fun e _ he =>
        (Checker.exprRule_like (ih c _ hc) he).ensuring (Comparison.isApart_of_at hc) refusal
      check := fun s _ hs =>
        (Checker.stmtRule_like (ih c _ hc) hs).ensuring (Comparison.isApart_of_at hc) refusal
      checkAll := fun l _ hl => hrow c l hc hl
      inTurn := fun hahead f _ hf => by
        obtain ⟨hmem, hpasses⟩ := Comparison.apart_turn hahead hf
        exact hbody _ f (List.nodup_cons.mpr ⟨hmem, hc⟩) hpasses
      ahead := fun f hf hmem =>
        hbody _ f (List.nodup_cons.mpr ⟨hmem, hc⟩) (Comparison.apart_ahead hf) }

end Apart

/-! ## Programs -/

namespace Program

variable {program : Program}

/-- How much fuel a check of a program may need. -/
noncomputable def descent (program : Program) : Nat :=
  Stage.depth program.functions ⟨[], 0⟩ + (sizeOf program.statements + 1)

/-- With enough fuel a check stops only where a question about types is not answered, and
more fuel changes nothing. -/
theorem check_of_descent (program : Program) (effort : Nat) {fuel : Nat}
    (hfuel : program.descent ≤ fuel) :
    program.check effort fuel = program.check effort program.descent ∧
      ∀ unfinished, program.check effort program.descent = .error unfinished →
        unfinished = .question := by
  classical
  have hpasses : rowPasses ((Comparison.ending program.functions).survey ⟨[], 0⟩) ()
      program.statements = true := rowPasses_ofEach_iff.mpr fun f hf => decide_eq_true hf
  have halike := checker_alike_of_depth program.table effort program.descent fuel ⟨[], 0⟩
    (sizeOf program.statements + 1) (Nat.le_refl _) hfuel
  have hlike := halike.checkAll program.statements (Nat.lt_succ_self _) hpasses
  obtain ⟨hsame, -, hends⟩ := hlike.whole trivial program effort
  exact ⟨hsame, hends⟩

/-- The functions in a body stand elsewhere if no two functions have one position. -/
theorem standsApart_of_nodup (h : (program.functions.map Function.position).Nodup) {f : Function}
    (hf : f ∈ program.functions) : f.standsApart = true := by
  have hspan := functionsOfRow_span program.statements hf
  have hnodup := h.sublist (hspan.map Function.position)
  rw [Function.functions_eq, List.map_cons, List.nodup_cons] at hnodup
  refine List.all_eq_true.mpr fun g hg => decide_eq_true fun heq => hnodup.1 ?_
  rw [← heq]
  exact List.mem_map_of_mem hg

/-- If no two functions have one position, none is come upon again while it is being looked
at. -/
theorem infersApart (h : (program.functions.map Function.position).Nodup) (effort fuel : Nat) :
    program.InfersApart effort fuel := by
  intro refusal
  have hpasses : rowPasses (Comparison.apart.survey ⟨[], 0⟩) () program.statements = true := by
    refine rowPasses_ofEach_iff.mpr fun f hf => ?_
    rw [standsApart_of_nodup h hf]
    rfl
  have halike := checker_alike_watched refusal program.table effort fuel ⟨[], 0⟩
    (sizeOf program.statements + 1) List.nodup_nil
  have hlike := halike.checkAll program.statements (Nat.lt_succ_self _) hpasses
  exact (hlike.whole trivial program effort).1

/-- To the depth that it may descend a check has an answer, with enough effort, unless it
comes upon a question that is not answered with any effort. -/
theorem answered_or_open (program : Program) :
    (∃ effort problems, ∀ more, effort ≤ more →
      program.check more program.descent = .ok problems) ∨
    program.table.LeavesOpen ∧ ∃ effort, ∀ more, effort ≤ more →
      program.check more program.descent = .error .question := by
  obtain ⟨result, hsettles, hopen⟩ := program.check_settles program.descent
  obtain ⟨effort, hresult⟩ := Filter.eventually_atTop.mp hsettles
  cases result with
  | ok problems => exact .inl ⟨effort, problems, hresult⟩
  | error unfinished =>
    obtain ⟨-, hends⟩ := program.check_of_descent effort (Nat.le_refl _)
    obtain rfl := hends unfinished (hresult effort (Nat.le_refl _))
    exact .inr ⟨hopen rfl, effort, hresult⟩

/-- Every check ends. There is a depth beyond which no fuel is needed: whatever the effort,
to this depth either there is an answer or a question about types is not answered. If there
is no answer with however much effort, it is because some question is not answered with any
effort. If the functions of the program are told apart by their positions, none of them is
among those being looked at twice at any time; and so they are in a program that was read
from a source. -/
theorem check_ends (program : Program) :
    (∃ depth,
      (∀ effort,
        (program.check effort depth = .error .question ∨
          ∃ problems, program.check effort depth = .ok problems) ∧
        ∀ fuel, depth ≤ fuel → program.check effort fuel = program.check effort depth) ∧
      ((∃ effort problems, ∀ more, effort ≤ more → program.check more depth = .ok problems) ∨
        program.table.LeavesOpen ∧ ∃ effort, ∀ more, effort ≤ more →
          program.check more depth = .error .question)) ∧
    ((program.functions.map Function.position).Nodup →
      ∀ effort fuel, program.InfersApart effort fuel) ∧
    ∀ source, ofSource? source = .ok program →
      (program.functions.map Function.position).Nodup := by
  refine ⟨⟨program.descent, fun effort => ⟨?_, fun fuel hfuel =>
    (program.check_of_descent effort hfuel).1⟩, program.answered_or_open⟩, infersApart,
    fun _ => nodup_functions⟩
  cases hcheck : program.check effort program.descent with
  | ok problems => exact .inr ⟨problems, rfl⟩
  | error unfinished =>
    obtain ⟨-, hends⟩ := program.check_of_descent effort (Nat.le_refl _)
    rw [hends unfinished hcheck]
    exact .inl rfl

/-- Two functions one of which stands in the other, each giving back what the other one
gives. -/
theorem check_ends_of_nested_calls : ∃ program,
    ofSource? "f(); function f() \x7b
      function g() \x7b return f(); \x7d return g(); \x7d" = .ok program ∧
    program.functions.map (·.name?) = [some "f", some "g"] ∧
    program.check 20 20 = .ok [] ∧
    (∃ depth, ∀ effort,
      (program.check effort depth = .error .question ∨
        ∃ problems, program.check effort depth = .ok problems) ∧
      ∀ fuel, depth ≤ fuel → program.check effort fuel = program.check effort depth) ∧
    ∀ effort fuel, program.InfersApart effort fuel := by
  have hread : (ofSource? "f(); function f() \x7b
      function g() \x7b return f(); \x7d return g(); \x7d").toOption.any (fun program =>
        decide (program.functions.map (·.name?) = [some "f", some "g"]) &&
          (program.check 20 20).toOption.any (·.isEmpty)) = true := by
    decide +kernel
  obtain ⟨program, hsource, h⟩ := exists_ofSource hread
  rw [Bool.and_eq_true] at h
  obtain ⟨⟨depth, hdepth, -⟩, hapart, hnodup⟩ := check_ends program
  exact ⟨program, hsource, of_decide_eq_true h.1, check_of_isEmpty h.2, ⟨depth, hdepth⟩,
    hapart (hnodup _ hsource)⟩

end Program

end TypedScript
