import TypedScript.Proofs.FirstOrderCheck
import TypedScript.Proofs.Frames

/-!
# Frames that model scopes

The scopes of the checker say which names there are and of which types. `Models`
relates them to the frames of a run: the frames from one outward have the names
of the scopes, with values that conform to their types. So a name that the
scopes know is found (`Models.lookup`), and can be assigned a value of its type
(`Models.assign`). What a run does to its frames leads to models again: a new
name in a frame is one in its scope (`Models.declare`), a frame inside another
starts with an empty scope (`Models.child`), and a copy of a frame is a model of
what the frame was a model of (`Models.fork`).
-/

namespace TypedScript

/-- Whether the names of a frame are those of a scope, with values that conform
to their types. The name of the object that prints is left out. -/
def Agrees (table : Table) (s : Store) (scope : Scope) (bindings : Record Value) : Prop :=
  ∀ name, name ≠ Native.log.holder →
    match scope.get? name, bindings.get? name with
    | some known, some value =>
      known.pending? = none ∧ table.Plain known.type ∧ Conforms table s known.type value
    | none, none => True
    | _, _ => False

/-- The frames from one outward as models of scopes: one frame for each scope,
and at the end one for the scope of the program and the given names. -/
inductive Models (table : Table) (s : Store) : FrameId → List Scope → Prop
  | outermost {f : FrameId} {frame : Frame} {scope : Scope} {o : ObjectId} :
    s.frame? f = some frame → frame.parent? = none → Agrees table s scope frame.bindings →
    scope.get? Native.log.holder = none →
    frame.bindings.get? Native.log.holder = some (.object o) →
    (s.properties o).get? Native.log.name = some (.native .log) →
    Models table s f (scope :: Knowledge.initial.scopes)
  | inner {f parent : FrameId} {frame : Frame} {scope : Scope} {scopes : List Scope} :
    s.frame? f = some frame → frame.parent? = some parent →
    Agrees table s scope frame.bindings → scope.get? Native.log.holder = none →
    frame.bindings.get? Native.log.holder = none → Models table s parent scopes →
    Models table s f (scope :: scopes)

variable {table : Table} {s : Store} {f : FrameId} {scopes : List Scope}

theorem Agrees.known {scope : Scope} {bindings : Record Value}
    (h : Agrees table s scope bindings) {name : String} (hname : name ≠ Native.log.holder)
    {known : Binding} (hget : scope.get? name = some known) :
    known.pending? = none ∧ table.Plain known.type ∧
      ∃ value, bindings.get? name = some value ∧ Conforms table s known.type value := by
  have hagree := h name hname
  rw [hget] at hagree
  cases hvalue : bindings.get? name with
  | none => rw [hvalue] at hagree; exact absurd hagree id
  | some value =>
    rw [hvalue] at hagree
    exact ⟨hagree.1, hagree.2.1, value, rfl, hagree.2.2⟩

theorem Agrees.get?_eq_none {scope : Scope} {bindings : Record Value}
    (h : Agrees table s scope bindings) {name : String} (hname : name ≠ Native.log.holder)
    (hget : scope.get? name = none) : bindings.get? name = none := by
  have hagree := h name hname
  rw [hget] at hagree
  cases hvalue : bindings.get? name with
  | none => rfl
  | some value => rw [hvalue] at hagree; exact absurd hagree id

theorem Agrees.empty {bindings : Record Value}
    (h : ∀ name, name ≠ Native.log.holder → bindings.get? name = none) :
    Agrees table s .empty bindings := by
  intro name hname
  rw [h name hname]
  trivial

theorem Agrees.mono (htable : table.AllPlain) {s' : Store} (hgrow : s.ObjectsGrow s')
    {scope : Scope} {bindings : Record Value} (h : Agrees table s scope bindings) :
    Agrees table s' scope bindings := by
  intro name hname
  have hagree := h name hname
  split at hagree
  · exact ⟨hagree.1, hagree.2.1, hagree.2.2.mono htable hgrow hagree.2.1⟩
  · trivial
  · exact absurd hagree id

/-- A value of the right type under a name of the scope. -/
theorem Agrees.assign {scope : Scope} {bindings : Record Value}
    (h : Agrees table s scope bindings) {name : String} {known : Binding}
    (hget : scope.get? name = some known) {value : Value}
    (hvalue : Conforms table s known.type value) :
    Agrees table s scope (bindings.set name value) := by
  intro other hother
  have hagree := h other hother
  rw [Record.get?_set]
  by_cases heq : other = name
  · subst heq
    rw [if_pos rfl, hget]
    rw [hget] at hagree
    cases hold : bindings.get? other with
    | none => rw [hold] at hagree; exact absurd hagree id
    | some old => rw [hold] at hagree; exact ⟨hagree.1, hagree.2.1, hvalue⟩
  · rw [if_neg heq]
    exact hagree

/-- A new name in the scope and in the frame. -/
theorem Agrees.declare {scope : Scope} {bindings : Record Value}
    (h : Agrees table s scope bindings) {name : String} {known : Binding}
    (hpending : known.pending? = none) (hplain : table.Plain known.type) {value : Value}
    (hvalue : Conforms table s known.type value) :
    Agrees table s (scope.set name known) (bindings.set name value) := by
  intro other hother
  rw [Record.get?_set, Record.get?_set]
  by_cases heq : other = name
  · rw [if_pos heq, if_pos heq]
    exact ⟨hpending, hplain, hvalue⟩
  · rw [if_neg heq, if_neg heq]
    exact h other hother

namespace Models

theorem frame (h : Models table s f scopes) : ∃ frame, s.frame? f = some frame := by
  cases h with
  | outermost hframe => exact ⟨_, hframe⟩
  | inner hframe => exact ⟨_, hframe⟩

/-- At the start no name but the one of the object that prints is known. -/
theorem findBinding_initial {name : String} (hname : name ≠ Native.log.holder) :
    findBinding Knowledge.initial.scopes name = none := by
  unfold Knowledge.initial Record.ofList
  rw [List.foldl_cons, List.foldl_nil, findBinding_cons, Record.get?_set, if_neg hname]
  rfl

/-- What the scopes of modelled frames know is plain. -/
theorem knownPlain (h : Models table s f scopes) : KnownPlain table scopes := by
  induction h with
  | @outermost f frame scope o hframe hparent hagree hscope hprint hlog =>
    have hinitial := knownPlain_initial table
    refine ⟨fun scope' hmem name known hname hget => ?_, ?_⟩
    · rcases List.mem_cons.mp hmem with rfl | hmem
      · obtain ⟨hpending, hplain, _⟩ := hagree.known hname hget
        exact ⟨hpending, hplain⟩
      · exact hinitial.plain scope' (List.mem_cons_of_mem _ hmem) name known hname hget
    · rw [findBinding_cons, hscope, Option.none_or]
      exact hinitial.print
  | @inner f parent frame scope scopes hframe hparent hagree hscope hprint hrest ih =>
    refine ⟨fun scope' hmem name known hname hget => ?_, ?_⟩
    · rcases List.mem_cons.mp hmem with rfl | hmem
      · obtain ⟨hpending, hplain, _⟩ := hagree.known hname hget
        exact ⟨hpending, hplain⟩
      · exact ih.plain scope' hmem name known hname hget
    · rw [findBinding_cons, hscope, Option.none_or]
      exact ih.print

/-- A name that the scopes know has a value that conforms to its type. -/
theorem lookup (h : Models table s f scopes) (hs : s.Ordered) {name : String}
    (hname : name ≠ Native.log.holder) {known : Binding}
    (hfind : findBinding scopes name = some known) :
    ∃ value, s.lookup? f name = some value ∧ Conforms table s known.type value := by
  induction h with
  | @outermost f frame scope o hframe hparent hagree hscope hprint hlog =>
    rw [findBinding_cons] at hfind
    rw [Store.lookup?_eq hs hframe]
    cases hget : scope.get? name with
    | some found =>
      rw [hget] at hfind
      cases hfind
      obtain ⟨_, _, value, hvalue, hconf⟩ := hagree.known hname hget
      exact ⟨value, by rw [hvalue], hconf⟩
    | none =>
      -- around the outermost frame only the object that prints is known
      rw [hget, findBinding_initial hname] at hfind
      cases hfind
  | @inner f parent frame scope scopes hframe hparent hagree hscope hprint hrest ih =>
    rw [findBinding_cons] at hfind
    rw [Store.lookup?_eq hs hframe]
    cases hget : scope.get? name with
    | some found =>
      rw [hget] at hfind
      cases hfind
      obtain ⟨_, _, value, hvalue, hconf⟩ := hagree.known hname hget
      exact ⟨value, by rw [hvalue], hconf⟩
    | none =>
      rw [hget] at hfind
      -- the frame does not have the name either, so the search goes on in the parent
      rw [hagree.get?_eq_none hname hget, hparent]
      exact ih hfind

/-- The function that prints can be reached. -/
theorem print (h : Models table s f scopes) (hs : s.Ordered) :
    ∃ o, s.lookup? f Native.log.holder = some (.object o) ∧
      (s.properties o).get? Native.log.name = some (.native .log) := by
  induction h with
  | @outermost f frame scope o hframe hparent hagree hscope hprint hlog =>
    exact ⟨o, by rw [Store.lookup?_eq hs hframe, hprint], hlog⟩
  | @inner f parent frame scope scopes hframe hparent hagree hscope hprint hrest ih =>
    rw [Store.lookup?_eq hs hframe, hprint, hparent]
    exact ih

/-- Frames that are the same in a store whose objects have grown are models of
the same scopes. -/
theorem of_frames (htable : table.AllPlain) (h : Models table s f scopes) (hs : s.Ordered)
    {s' : Store} (hgrow : s.ObjectsGrow s')
    (hframes : ∀ g, g.index ≤ f.index → s'.frame? g = s.frame? g) : Models table s' f scopes := by
  induction h with
  | @outermost f frame scope o hframe hparent hagree hscope hprint hlog =>
    exact .outermost ((hframes f (Nat.le_refl _)).trans hframe) hparent (hagree.mono htable hgrow)
      hscope hprint (hgrow _ _ _ hlog)
  | @inner f parent frame scope scopes hframe hparent hagree hscope hprint hrest ih =>
    have hlt := hs f frame parent hframe hparent
    exact .inner ((hframes f (Nat.le_refl _)).trans hframe) hparent (hagree.mono htable hgrow)
      hscope hprint (ih fun g hg => hframes g (by omega))

theorem objectsGrow_define (s : Store) (f : FrameId) (name : String) (value : Value) :
    s.ObjectsGrow (s.define f name value) := fun _ _ _ h => h

/-- A change of a younger frame does not show. -/
theorem define_younger (htable : table.AllPlain) (h : Models table s f scopes) (hs : s.Ordered)
    {g : FrameId} (hlt : f.index < g.index) (name : String) (value : Value) :
    Models table (s.define g name value) f scopes := by
  refine h.of_frames htable hs (objectsGrow_define s g name value) fun other hle => ?_
  refine Store.frame?_define_of_ne s ?_ name value
  rintro rfl
  omega

/-- An assignment finds a frame, and a value of the right type keeps the frames
models of the scopes. -/
theorem assign (htable : table.AllPlain) (h : Models table s f scopes) (hs : s.Ordered)
    {name : String} (hname : name ≠ Native.log.holder) {known : Binding}
    (hfind : findBinding scopes name = some known) {value : Value}
    (hvalue : Conforms table s known.type value) :
    ∃ g, s.owner? f name = some g ∧ Models table (s.define g name value) f scopes := by
  induction h with
  | @outermost f frame scope o hframe hparent hagree hscope hprint hlog =>
    rw [findBinding_cons] at hfind
    rw [Store.owner?_eq hs hframe]
    cases hget : scope.get? name with
    | some found =>
      rw [hget] at hfind
      cases hfind
      obtain ⟨_, _, old, hold, _⟩ := hagree.known hname hget
      refine ⟨f, by rw [hold]; rfl, ?_⟩
      refine .outermost (Store.frame?_define_self hframe name value) hparent ?_ hscope ?_ hlog
      · exact (hagree.assign hget hvalue).mono htable (objectsGrow_define s f name value)
      · rw [Record.get?_set, if_neg (Ne.symm hname)]
        exact hprint
    | none =>
      rw [hget, findBinding_initial hname] at hfind
      cases hfind
  | @inner f parent frame scope scopes hframe hparent hagree hscope hprint hrest ih =>
    have hlt := hs f frame parent hframe hparent
    rw [findBinding_cons] at hfind
    rw [Store.owner?_eq hs hframe]
    cases hget : scope.get? name with
    | some found =>
      rw [hget] at hfind
      cases hfind
      obtain ⟨_, _, old, hold, _⟩ := hagree.known hname hget
      refine ⟨f, by rw [hold]; rfl, ?_⟩
      refine .inner (Store.frame?_define_self hframe name value) hparent ?_ hscope ?_
        (hrest.define_younger htable hs hlt name value)
      · exact (hagree.assign hget hvalue).mono htable (objectsGrow_define s f name value)
      · rw [Record.get?_set, if_neg (Ne.symm hname)]
        exact hprint
    | none =>
      rw [hget] at hfind
      obtain ⟨g, hg, hmodels⟩ := ih hfind
      -- the frame that has the name is further out, and so older
      have hne : f ≠ g := by
        rintro rfl
        have := Store.owner?_le hs hg
        omega
      refine ⟨g, ?_, ?_⟩
      · rw [hagree.get?_eq_none hname hget, hparent]
        exact hg
      · exact .inner ((Store.frame?_define_of_ne s hne name value).trans hframe) hparent
          (hagree.mono htable (objectsGrow_define s g name value)) hscope hprint hmodels

/-- A new name with a value of its type. -/
theorem declare (htable : table.AllPlain) {scope : Scope} {rest : List Scope}
    (h : Models table s f (scope :: rest)) (hs : s.Ordered) {name : String}
    (hname : name ≠ Native.log.holder) {known : Binding} (hpending : known.pending? = none)
    (hplain : table.Plain known.type) {value : Value}
    (hvalue : Conforms table s known.type value) :
    Models table (s.define f name value) f (scope.set name known :: rest) := by
  have hgrow := objectsGrow_define s f name value
  generalize hscopes : scope :: rest = scopes at h
  cases h with
  | @outermost _ frame scope' o hframe hparent hagree hscope hprint hlog =>
    cases hscopes
    refine .outermost (Store.frame?_define_self hframe name value) hparent
      ((hagree.declare hpending hplain hvalue).mono htable hgrow) ?_ ?_ hlog
    · rw [Record.get?_set, if_neg (Ne.symm hname)]
      exact hscope
    · rw [Record.get?_set, if_neg (Ne.symm hname)]
      exact hprint
  | @inner _ parent frame scope' scopes hframe hparent hagree hscope hprint hrest =>
    cases hscopes
    have hlt := hs f frame parent hframe hparent
    refine .inner (Store.frame?_define_self hframe name value) hparent
      ((hagree.declare hpending hplain hvalue).mono htable hgrow) ?_ ?_
      (hrest.define_younger htable hs hlt name value)
    · rw [Record.get?_set, if_neg (Ne.symm hname)]
      exact hscope
    · rw [Record.get?_set, if_neg (Ne.symm hname)]
      exact hprint

theorem objectsGrow_newFrame (s : Store) (frame : Frame) :
    s.ObjectsGrow (s.newFrame frame).2 := fun _ _ _ h => h

/-- A new frame does not show in the older ones. -/
theorem newFrame (htable : table.AllPlain) (h : Models table s f scopes) (hs : s.Ordered)
    (frame : Frame) : Models table (s.newFrame frame).2 f scopes := by
  obtain ⟨_, hframe⟩ := h.frame
  have hlt := Store.index_lt_of_frame? hframe
  refine h.of_frames htable hs (objectsGrow_newFrame s frame) fun g hg => ?_
  rw [Store.frame?_newFrame, if_neg]
  rintro rfl
  dsimp only at hg
  omega

/-- A frame inside another for a scope without names. -/
theorem child (htable : table.AllPlain) (h : Models table s f scopes) (hs : s.Ordered) :
    Models table (s.childFrame f).2 (s.childFrame f).1 (.empty :: scopes) := by
  have hframe : (s.childFrame f).2.frame? (s.childFrame f).1 =
      some ⟨.empty, some f, false, none⟩ := s.frame?_newFrame_self _
  exact .inner hframe rfl (.empty fun _ _ => rfl) rfl rfl (h.newFrame htable hs _)

/-- What a frame inside another is a model of. -/
theorem inside {scope : Scope} {parent : FrameId} {frame : Frame}
    (h : Models table s f (scope :: scopes)) (hframe : s.frame? f = some frame)
    (hparent : frame.parent? = some parent) :
    Agrees table s scope frame.bindings ∧ scope.get? Native.log.holder = none ∧
      frame.bindings.get? Native.log.holder = none ∧ Models table s parent scopes := by
  generalize hscopes : scope :: scopes = all at h
  cases h with
  | outermost hframe' hparent' =>
    rw [hframe] at hframe'
    cases hframe'
    rw [hparent] at hparent'
    cases hparent'
  | inner hframe' hparent' hagree hscope hprint hrest =>
    cases hscopes
    rw [hframe] at hframe'
    cases hframe'
    rw [hparent] at hparent'
    cases hparent'
    exact ⟨hagree, hscope, hprint, hrest⟩

/-- A copy of a frame inside another. -/
theorem fork (htable : table.AllPlain) {scope : Scope} {parent : FrameId} {frame : Frame}
    (h : Models table s f (scope :: scopes)) (hs : s.Ordered) (hframe : s.frame? f = some frame)
    (hparent : frame.parent? = some parent) :
    Models table (s.fork f).2 (s.fork f).1 (scope :: scopes) := by
  obtain ⟨hagree, hscope, hprint, hrest⟩ := h.inside hframe hparent
  rw [Store.fork_eq hframe]
  exact .inner (s.frame?_newFrame_self frame) hparent
    (hagree.mono htable (objectsGrow_newFrame s frame)) hscope hprint
    (hrest.newFrame htable hs frame)

end Models

end TypedScript
