import TypedScript.Proofs.CallDepth
import TypedScript.Proofs.Guiding

/-!
# Names in sight

A run never takes a name away from a frame, and a new frame has the names of its parent
in sight. So the names that are in sight where a function is made are in sight wherever
it is called (`Discipline.inSight`). If each name of a program is declared before it is
mentioned, no run fails to find one, other than the receiver.

A check that gives no diagnostic has seen that of all names, if there are no
declarations of functions, whose names are known before they are there. So a checked
program without them has no unbound names (`Program.binds_all_names`).

The same discipline, with no names in sight, tells that a machine stays well-formed
(`Machine.WellFormed.endOf`).
-/

namespace TypedScript

open Run

/-! ## Frames that keep their names -/

namespace Store

/-- All frames of a store are there in another one, with the same parents and with all
their names. -/
def Extends (s t : Store) : Prop :=
  ∀ f p, s.frame? f = some p → ∃ q, t.frame? f = some q ∧ q.parent? = p.parent? ∧
    ∀ name, p.bindings.has name = true → q.bindings.has name = true

theorem Extends.refl (s : Store) : s.Extends s :=
  fun _ p hp => ⟨p, hp, rfl, fun _ h => h⟩

theorem Extends.trans {s t u : Store} (h : s.Extends t) (h' : t.Extends u) : s.Extends u := by
  intro f p hp
  obtain ⟨q, hq, hparent, hnames⟩ := h f p hp
  obtain ⟨r, hr, hparent', hnames'⟩ := h' f q hq
  exact ⟨r, hr, hparent'.trans hparent, fun name hname => hnames' name (hnames name hname)⟩

theorem extends_define (s : Store) (f : FrameId) (name : String) (value : Value) :
    s.Extends (s.define f name value) := by
  intro g p hp
  by_cases hg : g = f
  · subst hg
    refine ⟨_, frame?_define_self hp name value, rfl, fun other hother => ?_⟩
    exact (Record.has_set _ _ _ _).trans (Bool.or_eq_true_iff.mpr (.inr hother))
  · exact ⟨p, (frame?_define_of_ne s hg name value).trans hp, rfl, fun _ h => h⟩

theorem extends_newFrame (s : Store) (frame : Frame) : s.Extends (s.newFrame frame).2 := by
  intro g p hp
  have hne : g ≠ (s.newFrame frame).1 := by
    intro heq
    rw [heq, frame?_fresh] at hp
    cases hp
  exact ⟨p, (frame?_newFrame_of_ne s hne).trans hp, rfl, fun _ h => h⟩

/-- A frame that exists, from which names can be looked up. -/
structure Sees (s : Store) (f : FrameId) (names : List String) : Prop where
  frame : (s.frame? f).isSome = true
  lookup : ∀ name ∈ names, (s.lookup? f name).isSome = true

/-- A look-up finds a name in the frame itself or from the parent on. -/
theorem isSome_lookup? {s : Store} (hs : s.Ordered) {f : FrameId} {p : Frame}
    (hp : s.frame? f = some p) (name : String) :
    (s.lookup? f name).isSome = (p.bindings.has name ||
      (p.parent?.bind fun parent => s.lookup? parent name).isSome) := by
  rw [lookup?_eq hs hp]
  unfold Record.has
  cases p.bindings.get? name with
  | some value => rfl
  | none => rfl

/-- What can be looked up can be looked up later. -/
theorem Extends.isSome_lookup? {s t : Store} (h : s.Extends t) (hs : s.Ordered) (ht : t.Ordered)
    {f : FrameId} {name : String} (hname : (s.lookup? f name).isSome = true) :
    (t.lookup? f name).isSome = true := by
  induction hindex : f.index using Nat.strongRecOn generalizing f with
  | ind n ih =>
    cases hp : s.frame? f with
    | none =>
      have hchain : s.chain f = [] := by
        unfold chain chainUpTo
        rw [hp]
      unfold lookup? at hname
      rw [hchain] at hname
      cases hname
    | some p =>
      obtain ⟨q, hq, hparent, hnames⟩ := h f p hp
      rw [Store.isSome_lookup? hs hp] at hname
      rw [Store.isSome_lookup? ht hq, hparent]
      rcases Bool.or_eq_true_iff.mp hname with hhere | houter
      · exact Bool.or_eq_true_iff.mpr (.inl (hnames name hhere))
      · refine Bool.or_eq_true_iff.mpr (.inr ?_)
        cases hpp : p.parent? with
        | none => rw [hpp] at houter; cases houter
        | some parent =>
          rw [hpp] at houter
          exact ih parent.index (hindex ▸ hs f p parent hp hpp) houter rfl

namespace Sees

variable {s t : Store} {f : FrameId} {names : List String}

theorem mono (h : s.Sees f names) (hst : s.Extends t) (hs : s.Ordered) (ht : t.Ordered) :
    t.Sees f names := by
  refine ⟨?_, fun name hname => hst.isSome_lookup? hs ht (h.lookup name hname)⟩
  obtain ⟨p, hp⟩ := Option.isSome_iff_exists.mp h.frame
  obtain ⟨q, hq, _⟩ := hst f p hp
  rw [hq]
  rfl

/-- A name that is given a value in a frame is in sight there. -/
theorem define (h : s.Sees f names) (hs : s.Ordered) {name : String} {names' : List String}
    (hnames : ∀ other ∈ names', other = name ∨ other ∈ names) (value : Value) :
    (s.define f name value).Sees f names' := by
  have hlater := h.mono (s.extends_define f name value) hs (hs.define f name value)
  refine ⟨hlater.frame, fun other hother => ?_⟩
  rcases hnames other hother with rfl | hother
  · obtain ⟨p, hp⟩ := Option.isSome_iff_exists.mp h.frame
    rw [Store.isSome_lookup? (hs.define f other value) (frame?_define_self hp other value)]
    refine Bool.or_eq_true_iff.mpr (.inl ?_)
    exact (Record.has_set _ _ _ _).trans (Bool.or_eq_true_iff.mpr (.inl (decide_eq_true rfl)))
  · exact hlater.lookup other hother

/-- A new frame inside another one keeps the order. -/
theorem ordered_child (h : s.Sees f names) (hs : s.Ordered) (isCall : Bool)
    (receiver? : Option Value) :
    (s.newFrame ⟨.empty, some f, isCall, receiver?⟩).2.Ordered := by
  obtain ⟨p, hp⟩ := Option.isSome_iff_exists.mp h.frame
  refine hs.newFrame fun parent heq => ?_
  cases heq
  exact index_lt_of_frame? hp

/-- A new frame has the names in sight that its parent has. -/
theorem child (h : s.Sees f names) (hs : s.Ordered) (isCall : Bool) (receiver? : Option Value) :
    (s.newFrame ⟨.empty, some f, isCall, receiver?⟩).2.Sees
      (s.newFrame ⟨.empty, some f, isCall, receiver?⟩).1 names := by
  have hs' := h.ordered_child hs isCall receiver?
  have hself := frame?_newFrame_self s ⟨.empty, some f, isCall, receiver?⟩
  refine ⟨by rw [hself]; rfl, fun name hname => ?_⟩
  rw [Store.isSome_lookup? hs' hself]
  exact (s.extends_newFrame _).isSome_lookup? hs hs' (h.lookup name hname)

/-- A copy of a frame keeps the order. -/
theorem ordered_fork (h : s.Sees f names) (hs : s.Ordered) : (s.fork f).2.Ordered := by
  obtain ⟨p, hp⟩ := Option.isSome_iff_exists.mp h.frame
  exact hs.fork hp

/-- A copy of a frame has the same names in sight. -/
theorem fork (h : s.Sees f names) (hs : s.Ordered) : (s.fork f).2.Sees (s.fork f).1 names := by
  obtain ⟨p, hp⟩ := Option.isSome_iff_exists.mp h.frame
  have hs' := hs.fork hp
  rw [Store.fork_eq hp] at hs' ⊢
  have hself := frame?_newFrame_self s p
  refine ⟨by rw [hself]; rfl, fun name hname => ?_⟩
  have hname' := h.lookup name hname
  rw [Store.isSome_lookup? hs hp] at hname'
  rw [Store.isSome_lookup? hs' hself]
  rcases Bool.or_eq_true_iff.mp hname' with hhere | houter
  · exact Bool.or_eq_true_iff.mpr (.inl hhere)
  · refine Bool.or_eq_true_iff.mpr (.inr ?_)
    cases hpp : p.parent? with
    | none => rw [hpp] at houter; cases houter
    | some parent =>
      rw [hpp] at houter
      exact (s.extends_newFrame p).isSome_lookup? hs hs' houter

end Sees

end Store

/-! ## Runs with names in sight -/

/-- The discipline of runs from the same machine in whose frames names are in sight. -/
def Discipline.inSight (passes : Halt → Prop) :
    Discipline (List String) { s : Store // s.Ordered } where
  le w w' := w.1.Extends w'.1
  refl w := .refl w.1
  trans := .trans
  frames w i f g := f = g ∧ w.1.Sees f i
  stores w s t := s.frames = w.1.frames ∧ t.frames = w.1.frames
  depths _ := True
  passes := passes
  cutsLeft _ := False
  cutsRight _ := False

/-- A survey that asks of a name that it is in sight, unless it may be unbound. -/
structure Survey.AsksForSight (S : Survey (List String)) (passes : Halt → Prop) : Prop where
  reference : ∀ {i name position}, S.expr i (.reference name position) = true →
    name ∈ i ∨ passes (.fault ⟨.unknownVariable name, position⟩)
  isOpen : ∀ i, S.isOpen i = true
  declare : ∀ {i name other}, other ∈ S.declare i name → other = name ∨ other ∈ i
  enter : ∀ {i other}, other ∈ S.enter i → other ∈ i
  hoisted : (∀ i definition, S.stmt i (.function definition) = false) ∨
    ∀ i name, S.declare i name = i

section InSight

variable {S : Survey (List String)} {passes : Halt → Prop}

theorem Store.Sees.subset {s : Store} {f : FrameId} {names names' : List String}
    (h : s.Sees f names) (hnames : ∀ name ∈ names', name ∈ names) : s.Sees f names' :=
  ⟨h.frame, fun name hname => h.lookup name (hnames name hname)⟩

theorem Discipline.lawful_inSight (hS : S.AsksForSight passes)
    (hfault : ∀ fault : RuntimeFault,
      (∀ name, fault.cause = .unknownVariable name → name = "this") → passes (.fault fault)) :
    (Discipline.inSight passes).Lawful S where
  frames_mono {w w' i f g} hle hframes :=
    ⟨hframes.1, hframes.2.mono hle w.2 w'.2⟩
  stores_congr h hs ht := ⟨hs.trans h.1, ht.trans h.2⟩
  fault {fault} h := hfault fault fun name heq => by rw [heq] at h; cases h
  lookup {w s t i f g name position} hstores hframes h := by
    obtain ⟨rfl, hsees⟩ := hframes
    have hleft := Store.lookup?_congr hstores.1 f name
    refine ⟨hleft.trans (Store.lookup?_congr hstores.2 f name).symm, fun hnone => ?_⟩
    -- a name that the survey knows to be in sight is found; any other fault is let pass
    rcases hS.reference h with hname | hpasses
    · have hsome := hsees.lookup name hname
      rw [← hleft, hnone] at hsome
      cases hsome
    · exact hpasses
  receiver {w s t i f g position} hstores hframes _ := by
    obtain ⟨rfl, _⟩ := hframes
    refine ⟨(Store.receiver?_congr hstores.1 f).trans (Store.receiver?_congr hstores.2 f).symm,
      fun _ => hfault _ fun name heq => ?_⟩
    cases heq
    rfl
  assign {w s t i f g f' g' name} value hstores hframes hs ht := by
    obtain ⟨rfl, _⟩ := hframes
    rw [Store.owner?_congr (hstores.1.trans hstores.2.symm), ht] at hs
    cases hs
    exact ⟨⟨w.1.define f' name value, w.2.define f' name value⟩, w.1.extends_define f' name value,
      Store.define_congr hstores.1 _ _ _, Store.define_congr hstores.2 _ _ _⟩
  define {w s t i f g} name value hstores hframes _ := by
    obtain ⟨rfl, hsees⟩ := hframes
    exact ⟨⟨w.1.define f name value, w.2.define f name value⟩, w.1.extends_define f name value,
      ⟨Store.define_congr hstores.1 _ _ _, Store.define_congr hstores.2 _ _ _⟩, rfl,
      hsees.define w.2 (fun _ => hS.declare) value⟩
  enter {w s t i f g} isCall receiver? hstores hframes := by
    obtain ⟨rfl, hsees⟩ := hframes
    have hs := Store.newFrame_congr hstores.1 ⟨.empty, some f, isCall, receiver?⟩
    have ht := Store.newFrame_congr hstores.2 ⟨.empty, some f, isCall, receiver?⟩
    refine ⟨⟨_, hsees.ordered_child w.2 isCall receiver?⟩, w.1.extends_newFrame _,
      ⟨hs.1, ht.1⟩, hs.2.trans ht.2.symm, ?_⟩
    rw [hs.2]
    exact (hsees.child w.2 isCall receiver?).subset fun _ => hS.enter
  fork {w s t i f g} hstores hframes _ := by
    obtain ⟨rfl, hsees⟩ := hframes
    -- a copy depends on the frames only, which both stores share with the one of the pair
    have hforks : ∀ {u : Store}, u.frames = w.1.frames →
        (u.fork f).2.frames = (w.1.fork f).2.frames ∧ (u.fork f).1 = (w.1.fork f).1 := by
      intro u hu
      have hframe : u.frame? f = w.1.frame? f := congrArg (·[f.index]?) hu
      unfold Store.fork
      rw [hframe]
      exact Store.newFrame_congr hu _
    have hs := hforks hstores.1
    have ht := hforks hstores.2
    refine ⟨⟨_, hsees.ordered_fork w.2⟩, ?_, ⟨hs.1, ht.1⟩, hs.2.trans ht.2.symm, ?_⟩
    · exact w.1.extends_newFrame _
    · rw [hs.2]
      exact hsees.fork w.2
  isOpen_enter i := hS.isOpen _
  isOpen_declare _ _ := hS.isOpen _
  hoisted := hS.hoisted

/-- A well-formed machine meets itself, if its functions pass. -/
theorem Machine.WellFormed.meet_inSight {m : Machine} (h : m.WellFormed)
    (hfunctions : ∀ id c, m.store.closure? id = some c → c.definition.passes S [] = true) :
    (Discipline.inSight passes).Meet S ⟨m.store, h.ordered⟩ m m where
  stores := ⟨rfl, rfl⟩
  objects := rfl
  closures id := by
    cases hc : m.store.closure? id with
    | none => exact .none
    | some c =>
      exact .some ⟨rfl, rfl, [], hfunctions id c hc, rfl, h.closures id c hc,
        fun _ h => absurd h List.not_mem_nil⟩
  depth := rfl
  depths := trivial
  output := rfl

end InSight

/-! ## Machines that stay well-formed -/

/-- The survey of all programs, where names may be unbound. -/
def Survey.anyNames : Survey (List String) where
  expr _ _ := true
  stmt _ _ := true
  function _ _ := true
  isOpen _ := true
  declare i _ := i
  enter i := i

theorem Survey.anyNames_asks : Survey.anyNames.AsksForSight fun _ => True where
  reference _ := .inr trivial
  isOpen _ := rfl
  declare h := .inr h
  enter h := h
  hoisted := .inr fun _ _ => rfl

theorem Survey.nothing_refines_anyNames :
    nothing.Refines anyNames (fun _ _ => True) fun _ _ => True :=
  ⟨fun _ => trivial, fun _ _ => rfl, fun _ _ => rfl, fun _ _ => rfl, fun _ _ => rfl,
    fun _ _ => trivial, fun _ => trivial⟩

/-- What is similar to itself, whatever names there are, takes a well-formed machine to
another one. -/
theorem Discipline.Similar.wellFormed {α : Type} {x : Run α} {j : List String}
    (h : (Discipline.inSight fun _ => True).Similar .anyNames [] j x x) {m : Machine}
    (hm : m.WellFormed) : (endOf x m).WellFormed := by
  -- the store that both sides share is ordered, and so is that of the machine, frame by frame
  have hlater : ∀ {w : { s : Store // s.Ordered }} {m' n' : Machine},
      Store.Extends m.store w.1 → m'.frame = m.frame →
      (Discipline.inSight fun _ => True).Meet .anyNames w m' n' → m'.WellFormed := by
    intro w m' n' hle hframe hmeet
    have hframes : m'.store.frame? = w.1.frame? :=
      funext fun f => congrArg (·[f.index]?) hmeet.stores.1
    refine ⟨?_, ?_, fun id c hc => ?_⟩
    · unfold Store.Ordered
      rw [hframes]
      exact w.2
    · obtain ⟨p, hp⟩ := Option.isSome_iff_exists.mp hm.frame
      obtain ⟨q, hq, _⟩ := hle m.frame p hp
      rw [hframe, hframes, hq]
      rfl
    · have hrel := hmeet.closures id
      rw [hc] at hrel
      generalize n'.store.closure? id = d? at hrel
      cases hrel with
      | some htwins =>
        obtain ⟨_, _, i, _, _, hsees⟩ := htwins
        rw [hframes]
        exact hsees.frame
  have hmeet : (Discipline.inSight fun _ => True).Meet .anyNames ⟨m.store, hm.ordered⟩ m m :=
    hm.meet_inSight fun _ _ _ => Function.passes_refine Survey.nothing_refines_anyNames trivial
      (Function.passes_nothing _)
  have hbalanced := h.left m
  cases h.agree _ m m hmeet ⟨rfl, hm.frame, fun _ hname => absurd hname List.not_mem_nil⟩ with
  | ok hx _ hframe _ hle hmeet' _ =>
    rw [endOf_of_ok hx]
    exact hlater hle hframe hmeet'
  | halt hx _ _ hle hmeet' =>
    rw [endOf_of_error hx] at hbalanced ⊢
    exact hlater hle hbalanced.frame hmeet'
  | cutLeft _ hcut _ => exact hcut.elim
  | cutRight _ hcut _ => exact hcut.elim

/-- Whatever statements are executed, a well-formed machine stays so. -/
theorem Machine.WellFormed.execStatements {m : Machine} (h : m.WellFormed) (limit fuel : Nat)
    (statements : List Stmt) :
    (endOf ((evaluator limit fuel).execStatements statements) m).WellFormed := by
  have hlawful := Discipline.lawful_inSight Survey.anyNames_asks fun _ _ => trivial
  have hgo : Evaluator.Similar (Discipline.inSight fun _ => True) .anyNames
      (evaluator limit fuel) (evaluator limit fuel) :=
    evaluator_similar hlawful ⟨Nat.le_refl _, fun _ _ => trivial, fun _ => .inl ⟨rfl, trivial⟩⟩
      (.inl ⟨rfl, trivial⟩)
  exact (Evaluator.Similar.execStatements hlawful hgo
    (rowPasses_refine Survey.nothing_refines_anyNames trivial
      (rowPasses_nothing statements))).wellFormed h

/-! ## Checked programs -/

/-- Whether a statement declares a function. -/
def Stmt.isFunction : Stmt → Bool
  | .function _ => true
  | _ => false

/-- Whether an expression mentions no other variable than those given. -/
def Expr.mentions (names : List String) : Expr → Bool
  | .reference name _ => names.contains name
  | _ => true

namespace Survey

/-- The survey of programs without declarations of functions. -/
def noDeclarations : Survey Unit where
  expr _ _ := true
  stmt _ s := !s.isFunction
  function _ _ := true
  isOpen _ := true
  declare _ _ := ()
  enter _ := ()

/-- The survey of programs without declarations of functions that have the forms of the
grammar. -/
def expressive : Survey Unit :=
  { noDeclarations with stmt := fun _ s => s.isBuilt && !s.isFunction }

/-- The survey of names that are in sight where they are mentioned. -/
def inSight : Survey (List String) where
  expr i e := e.mentions i
  stmt _ s := !s.isFunction
  function _ _ := true
  isOpen _ := true
  declare i name := name :: i
  enter i := i

theorem both_refines_expressive :
    (grammar.both noDeclarations).Refines expressive (fun _ _ => True) fun _ _ => True :=
  ⟨fun _ => trivial, fun _ _ => rfl, fun _ h => h, fun _ _ => rfl, fun _ _ => rfl,
    fun _ _ => trivial, fun _ => trivial⟩

/-- A clean check has seen that names are in sight. -/
theorem inSight_guided (table : Table) (effort : Nat) :
    Guided expressive inSight (fun levels => levels.flatMap (·.here)) table effort where
  built h := (Bool.and_eq_true_iff.mp h).1
  enter _ _ := rfl
  add _ _ _ := rfl
  isOpen _ := rfl
  reference _ hl hname := List.contains_iff_mem.mpr (List.mem_flatMap.mpr ⟨_, hl, hname⟩)
  expr {e} levels h := by
    cases e with
    | reference name position => exact absurd rfl (h name position)
    | _ => rfl
  stmt _ h := (Bool.and_eq_true_iff.mp h).2
  late {f} h := by cases (h : ((Stmt.function f).isBuilt && false) = true)
  function _ _ := rfl

theorem inSight_asks {passes : Halt → Prop} : inSight.AsksForSight passes where
  reference h := .inl (List.contains_iff_mem.mp h)
  isOpen _ := rfl
  declare h := List.mem_cons.mp h
  enter h := h
  hoisted := .inl fun _ _ => rfl

end Survey

/-- Whether a run halts because a name is unbound, other than that of the receiver. -/
def Halt.isUnbound : Halt → Bool
  | .fault ⟨.unknownVariable name, _⟩ => name ≠ "this"
  | _ => false

/-- The name that an expression looks up, to read it or to write to it, is in some frame
from the current one outward. -/
def Watch.bound : Watch where
  expr e m := e.name?.all fun named => (m.store.owner? m.frame named.1).isSome
  stmt _ _ := true

section Checked

variable {limit : Nat}

theorem Discipline.lawful_bound :
    (Discipline.inSight (·.isUnbound = false)).Lawful .inSight := by
  refine Discipline.lawful_inSight Survey.inSight_asks fun fault h => ?_
  obtain ⟨cause, position⟩ := fault
  cases cause with
  | unknownVariable name => exact decide_eq_false fun hne => hne (h name rfl)
  | _ => rfl

theorem Watch.bound_sound :
    Watch.bound.Sound (Discipline.inSight (·.isUnbound = false)) .inSight where
  expr {w m n i e} hmeet hframes h := by
    obtain ⟨hframe, hsees⟩ := hframes
    have hbound : ∀ name position, Survey.inSight.expr i (.reference name position) = true →
        (n.store.owner? n.frame name).isSome = true := by
      intro name position hname
      rw [Store.owner?_isSome, Store.lookup?_congr hmeet.stores.2, ← hframe]
      exact hsees.lookup name (List.contains_iff_mem.mp hname)
    cases e with
    | reference name position => exact hbound name position (Expr.node_of_passes h)
    | assign target op? value position =>
      cases target with
      | reference name position =>
        rw [Expr.passes, Bool.and_eq_true, Bool.and_eq_true] at h
        exact hbound name position (Expr.node_of_passes h.2.1)
      | _ => rfl
    | update target op isBefore position =>
      cases target with
      | reference name position =>
        rw [Expr.passes, Bool.and_eq_true] at h
        exact hbound name position (Expr.node_of_passes h.2)
      | _ => rfl
    | _ => rfl
  stmt _ _ _ := rfl

theorem Discipline.isExact_bound : (Discipline.inSight (·.isUnbound = false)).IsExact where
  frames h := h.1
  stores h := h.1.trans h.2.symm
  cutsLeft _ h := h
  cutsRight _ h := h

theorem Discipline.limits_bound (limit : Nat) :
    (Discipline.inSight (·.isUnbound = false)).Limits limit limit :=
  ⟨Nat.le_refl _, fun _ _ => trivial, fun _ => .inl ⟨rfl, rfl⟩⟩

/-- The machine before a program starts meets itself, and has the built-in object in
sight. -/
theorem Machine.meet_initial :
    (Discipline.inSight (·.isUnbound = false)).Meet .inSight
        ⟨Machine.initial.store, Machine.ordered_initial⟩ Machine.initial Machine.initial ∧
      (Discipline.inSight (·.isUnbound = false)).frames
        ⟨Machine.initial.store, Machine.ordered_initial⟩ [Native.log.holder]
        Machine.initial.frame Machine.initial.frame := by
  refine ⟨Machine.wellFormed_initial.meet_inSight fun id c hc => ?_, rfl, rfl, fun name hname => ?_⟩
  · have hnone : Machine.initial.store.closure? id = none := Array.getElem?_eq_none (Nat.zero_le _)
    rw [hnone] at hc
    cases hc
  · rw [List.mem_singleton.mp hname]
    rfl

namespace Program

/-- A checked program without declarations of functions mentions names in sight only. -/
theorem passes_inSight {source : String} {program : Program}
    (hsource : Program.ofSource? source = .ok program)
    (hfunctions : rowPasses .noDeclarations () program.statements = true) {effort fuel : Nat}
    (hcheck : program.check effort fuel = .ok []) :
    rowPasses .inSight [Native.log.holder] program.statements = true := by
  have hforms := rowPasses_both (passes_of_ofSource hsource) hfunctions
  have hprogram := rowPasses_refine (j := ()) Survey.both_refines_expressive trivial hforms
  exact passes_of_check (Survey.inSight_guided program.table effort) hprogram hcheck

/-- A checked program without declarations of functions has no unbound names, other than
the receiver: no run of it halts for one, and at each expression that is evaluated to
read a variable or to write to it, some frame has the name. -/
theorem binds_all_names {source : String} {program : Program}
    (hsource : Program.ofSource? source = .ok program)
    (hfunctions : rowPasses .noDeclarations () program.statements = true) {effort fuel : Nat}
    (hcheck : program.check effort fuel = .ok []) (limit steps : Nat) :
    (∀ outcome name position, program.run limit steps = some outcome →
      outcome.fault? = some ⟨.unknownVariable name, position⟩ → name = "this") ∧
    program.Shows .bound limit steps := by
  have hpasses := passes_inSight hsource hfunctions hcheck
  have hD := Discipline.lawful_bound
  obtain ⟨hmeet, hframes⟩ := Machine.meet_initial
  constructor
  · intro outcome name position hrun hfault
    have hgo := evaluator_similar hD (Discipline.limits_bound limit)
      (.inl ⟨rfl, rfl⟩ : (Discipline.inSight (·.isUnbound = false)).Fuels steps steps)
    unfold run at hrun
    cases agree_of_similar hD hgo hpasses hmeet hframes with
    | ok hexec _ _ _ _ _ _ =>
      rw [show program.exec limit steps Machine.initial = _ from hexec] at hrun
      cases hrun
      cases hfault
    | @halt halt _ _ _ hexec _ hbound _ _ =>
      rw [show program.exec limit steps Machine.initial = _ from hexec] at hrun
      cases halt with
      | outOfFuel => cases hrun
      | fault fault =>
        cases hrun
        cases hfault
        exact of_not_not (of_decide_eq_false hbound)
    | cutLeft _ hcut _ => exact hcut.elim
    | cutRight _ hcut _ => exact hcut.elim
  · exact shows_of_sound hD Discipline.isExact_bound Watch.bound_sound
      (Discipline.limits_bound _) rfl hpasses hmeet hframes steps

/-- A function that adds to a variable of the program, in a program that prints a sum. -/
theorem binds_all_names_of_closure : ∃ program,
    Program.ofSource? "let n = 1; let add = function (m: number): number \x7b
      n += m; return n; \x7d; console.log(add(2));" = .ok program ∧
    rowPasses .noDeclarations () program.statements = true ∧ program.check 20 40 = .ok [] ∧
    (program.run 8 60).any (fun outcome => outcome.output = ["3"]) = true ∧
    (∀ outcome name position, program.run 8 60 = some outcome →
      outcome.fault? = some ⟨.unknownVariable name, position⟩ → name = "this") ∧
    program.Shows .bound 8 60 := by
  have hread : (Program.ofSource? "let n = 1; let add = function (m: number): number \x7b
      n += m; return n; \x7d; console.log(add(2));").toOption.any
      (fun program => rowPasses .noDeclarations () program.statements &&
        ((program.check 20 40).toOption.any (·.isEmpty) &&
          (program.run 8 60).any fun outcome => outcome.output = ["3"])) = true := by
    decide +kernel
  obtain ⟨program, hsource, h⟩ := exists_ofSource hread
  obtain ⟨hfunctions, h⟩ := Bool.and_eq_true_iff.mp h
  obtain ⟨hcheck, hrun⟩ := Bool.and_eq_true_iff.mp h
  have hclean := check_of_isEmpty hcheck
  exact ⟨program, hsource, hfunctions, hclean, hrun,
    binds_all_names hsource hfunctions hclean 8 60⟩

end Program

end Checked

end TypedScript
