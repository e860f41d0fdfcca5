import TypedScript.Proofs.Expressions

/-!
# What surrounds a function

The body of a function is checked once, in scopes that are known then, and run many
times, in frames that have changed meanwhile. `Surroundings` are what the body may take
for granted of the world outside: plain types of some names. Inside, each block has a
scope of its own, and while the body runs each of these local scopes has a frame.

The frames `Honour` the local scopes if they have the same names with values of the
types that are known, and if the names outside, as far as they are bound, have values of
their types. Each change that a first-order body makes keeps that: an assignment of a
value that conforms (`Honours.assign`), a declaration (`Honours.declare`), a new frame
(`Honours.child`), and a copy of a frame (`Honours.fork`).
-/

namespace TypedScript

/-- What is known outside a function: the interfaces of the program, the plain ones
among them that the function is written with, the scopes around it, and the names of
these scopes that it may mention, whose types are plain. -/
structure Surroundings where
  table : Table
  part : Table
  isPart : part.IsPlainPartOf table
  scopes : List Scope
  names : List String
  plain : ∀ name ∈ names, ∀ known, findBinding scopes name = some known → part.Plain known.type

namespace Surroundings

/-! ## Local scopes -/

/-- Whether a name is local or among the names outside. -/
def Offers (O : Surroundings) (locals : List Scope) (name : String) : Prop :=
  name ∈ O.names ∨ ∃ scope ∈ locals, (scope.get? name).isSome = true

/-- What is known of the names that may be mentioned inside: they are local or among the
names outside, and local names have plain types. -/
structure Knows (O : Surroundings) (locals : List Scope) (names : List String) : Prop where
  plain : ∀ scope ∈ locals, ∀ name known, scope.get? name = some known → O.part.Plain known.type
  offers : ∀ name ∈ names, O.Offers locals name

variable {O : Surroundings} {locals : List Scope} {names : List String} {name : String}

theorem Offers.push (h : O.Offers locals name) (scope : Scope) : O.Offers (scope :: locals) name :=
  h.imp_right fun ⟨scope', hmem, hsome⟩ => ⟨scope', List.mem_cons_of_mem _ hmem, hsome⟩

/-- A name that the innermost scope does not have is offered by those around it. -/
theorem Offers.pop {scope : Scope} (h : O.Offers (scope :: locals) name)
    (hget : scope.get? name = none) : O.Offers locals name := by
  refine h.imp_right ?_
  rintro ⟨scope', hmem, hsome⟩
  rcases List.mem_cons.mp hmem with rfl | hmem
  · rw [hget] at hsome
    cases hsome
  · exact ⟨scope', hmem, hsome⟩

/-- Outside all local scopes only the names outside are offered. -/
theorem Offers.outside (h : O.Offers [] name) : name ∈ O.names :=
  h.resolve_right fun ⟨_, hmem, _⟩ => absurd hmem List.not_mem_nil

namespace Knows

theorem plain_of_find (h : O.Knows locals names) (hname : name ∈ names) {known : Binding}
    (hfind : findBinding (locals ++ O.scopes) name = some known) : O.part.Plain known.type := by
  have hoffers := h.offers name hname
  have hplain := h.plain
  clear h
  induction locals with
  | nil => exact O.plain name hoffers.outside known hfind
  | cons scope rest ih =>
    rw [List.cons_append, findBinding_cons] at hfind
    cases hget : scope.get? name with
    | some found =>
      rw [hget] at hfind
      cases hfind
      exact hplain scope (List.mem_cons_self ..) name known hget
    | none =>
      rw [hget] at hfind
      exact ih hfind (hoffers.pop hget) fun scope hscope =>
        hplain scope (List.mem_cons_of_mem _ hscope)

theorem child (h : O.Knows locals names) : O.Knows (.empty :: locals) names where
  plain scope hscope name known hget := by
    rcases List.mem_cons.mp hscope with rfl | hscope
    · cases hget
    · exact h.plain scope hscope name known hget
  offers name hname := (h.offers name hname).push _

theorem declare {scope : Scope} (h : O.Knows (scope :: locals) names) (name : String)
    {known : Binding} (hplain : O.part.Plain known.type) :
    O.Knows (scope.set name known :: locals) (name :: names) where
  plain scope' hscope other found hget := by
    rcases List.mem_cons.mp hscope with rfl | hscope
    · rw [Record.get?_set] at hget
      split at hget
      · cases hget
        exact hplain
      · exact h.plain scope (List.mem_cons_self ..) other found hget
    · exact h.plain scope' (List.mem_cons_of_mem _ hscope) other found hget
  offers other hother := by
    have hset : ∀ sought, sought = name ∨ (scope.get? sought).isSome = true →
        ((scope.set name known).get? sought).isSome = true := by
      intro sought hsought
      rw [Record.get?_set]
      split
      · rfl
      · next hne => exact hsought.resolve_left hne
    rcases List.mem_cons.mp hother with rfl | hother
    · exact .inr ⟨_, List.mem_cons_self .., hset other (.inl rfl)⟩
    · refine (h.offers other hother).imp_right ?_
      rintro ⟨scope', hmem, hsome⟩
      rcases List.mem_cons.mp hmem with rfl | hmem
      · exact ⟨_, List.mem_cons_self .., hset other (.inr hsome)⟩
      · exact ⟨scope', List.mem_cons_of_mem _ hmem, hsome⟩

end Knows

/-! ## Frames -/

/-- Whether the names of a frame are those of a scope, with values that conform to their
types. -/
def Agrees (O : Surroundings) (s : Store) (scope : Scope) (bindings : Record Value) : Prop :=
  ∀ name, Option.Rel
    (fun known value => O.part.Plain known.type ∧ Conforms O.table s known.type value)
    (scope.get? name) (bindings.get? name)

/-- The frames from one outward honour the local scopes: one frame for each of them, and
around these a frame from where the names outside have values of their types, as far as
they are bound. -/
inductive Honours (O : Surroundings) (s : Store) : FrameId → List Scope → Prop
  | outside {f : FrameId} {frame : Frame} : s.frame? f = some frame →
    (∀ name ∈ O.names, ∀ known value, findBinding O.scopes name = some known →
      s.lookup? f name = some value → Conforms O.table s known.type value) →
    Honours O s f []
  | inside {f parent : FrameId} {frame : Frame} {scope : Scope} {locals : List Scope} :
    s.frame? f = some frame → frame.parent? = some parent → O.Agrees s scope frame.bindings →
    Honours O s parent locals → Honours O s f (scope :: locals)

variable {s s' : Store} {f : FrameId} {scope : Scope} {bindings : Record Value}

/-- What conforms to a plain type goes on to do so as objects gain properties. -/
theorem conforms_mono (hgrow : s.ObjectsGrow s') {type : Ty} (hplain : O.part.Plain type)
    {value : Value} (h : Conforms O.table s type value) : Conforms O.table s' type value :=
  (O.isPart.conforms_iff hplain).mp
    (((O.isPart.conforms_iff hplain).mpr h).mono O.isPart.plain hgrow hplain)

theorem Agrees.has (h : O.Agrees s scope bindings) {known : Binding}
    (hget : scope.get? name = some known) :
    ∃ value, bindings.get? name = some value ∧ Conforms O.table s known.type value := by
  have hname := h name
  rw [hget] at hname
  generalize bindings.get? name = value? at hname
  cases hname with
  | some hsome => exact ⟨_, rfl, hsome.2⟩

theorem Agrees.lacks (h : O.Agrees s scope bindings) (hget : scope.get? name = none) :
    bindings.get? name = none := by
  have hname := h name
  rw [hget] at hname
  generalize bindings.get? name = value? at hname
  cases hname
  rfl

theorem Agrees.mono (hgrow : s.ObjectsGrow s') (h : O.Agrees s scope bindings) :
    O.Agrees s' scope bindings := by
  intro name
  have hname := h name
  generalize scope.get? name = known? at hname
  generalize bindings.get? name = value? at hname
  cases hname with
  | some hsome => exact .some ⟨hsome.1, conforms_mono hgrow hsome.1 hsome.2⟩
  | none => exact .none

/-- A name with a value of its type, new or not. -/
theorem Agrees.set (h : O.Agrees s scope bindings) (name : String) {known : Binding}
    (hplain : O.part.Plain known.type) {value : Value}
    (hvalue : Conforms O.table s known.type value) :
    O.Agrees s (scope.set name known) (bindings.set name value) := by
  intro other
  rw [Record.get?_set, Record.get?_set]
  split
  · exact .some ⟨hplain, hvalue⟩
  · exact h other

/-- A new value for a name that the scope has. -/
theorem Agrees.assign (h : O.Agrees s scope bindings) {known : Binding}
    (hget : scope.get? name = some known) {value : Value}
    (hvalue : Conforms O.table s known.type value) :
    O.Agrees s scope (bindings.set name value) := by
  intro other
  rw [Record.get?_set]
  have hother := h other
  split
  · next heq =>
    rw [heq] at hother ⊢
    rw [hget] at hother ⊢
    generalize bindings.get? name = old? at hother
    cases hother with
    | some hsome => exact .some ⟨hsome.1, hvalue⟩
  · exact hother

namespace Honours

theorem frame (h : O.Honours s f locals) : ∃ frame, s.frame? f = some frame := by
  cases h with
  | outside hframe _ => exact ⟨_, hframe⟩
  | inside hframe => exact ⟨_, hframe⟩

/-- A name that may be mentioned has a value of the type that is known. -/
theorem conforms (h : O.Honours s f locals) (hs : s.Ordered) (hname : O.Offers locals name)
    {known : Binding} (hfind : findBinding (locals ++ O.scopes) name = some known)
    {value : Value} (hlookup : s.lookup? f name = some value) :
    Conforms O.table s known.type value := by
  induction h with
  | outside hframe hnames => exact hnames name hname.outside known value hfind hlookup
  | @inside f parent frame scope locals hframe hparent hagree hrest ih =>
    rw [List.cons_append, findBinding_cons] at hfind
    rw [Store.lookup?_eq hs hframe] at hlookup
    cases hget : scope.get? name with
    | some found =>
      rw [hget] at hfind
      cases hfind
      obtain ⟨value, hvalue, hconf⟩ := hagree.has hget
      rw [hvalue] at hlookup
      cases hlookup
      exact hconf
    | none =>
      rw [hget] at hfind
      rw [hagree.lacks hget, hparent] at hlookup
      exact ih (hname.pop hget) hfind hlookup

/-- Frames that are the same in a store whose objects have grown honour the same
scopes. -/
theorem of_frames (h : O.Honours s f locals) (hs : s.Ordered) (hs' : s'.Ordered)
    (hgrow : s.ObjectsGrow s') (hframes : ∀ g, g.index ≤ f.index → s'.frame? g = s.frame? g) :
    O.Honours s' f locals := by
  induction h with
  | @outside f frame hframe hnames =>
    refine .outside ((hframes f (Nat.le_refl _)).trans hframe) fun name hname known value hfind
      hlookup => ?_
    rw [Store.lookup?_of_frames hs hs' name hframes] at hlookup
    exact conforms_mono hgrow (O.plain name hname known hfind)
      (hnames name hname known value hfind hlookup)
  | @inside f parent frame scope locals hframe hparent hagree hrest ih =>
    have hlt := hs f frame parent hframe hparent
    exact .inside ((hframes f (Nat.le_refl _)).trans hframe) hparent (hagree.mono hgrow)
      (ih fun g hg => hframes g (by omega))

/-- A change of a younger frame does not show. -/
theorem define_younger (h : O.Honours s f locals) (hs : s.Ordered) {g : FrameId}
    (hlt : f.index < g.index) (name : String) (value : Value) :
    O.Honours (s.define g name value) f locals := by
  refine h.of_frames hs (hs.define g name value) (fun _ _ _ hget => hget) fun other hle => ?_
  refine Store.frame?_define_of_ne s ?_ name value
  rintro rfl
  omega

/-- A new frame does not show in the older ones. -/
theorem newFrame (h : O.Honours s f locals) (hs : s.Ordered) {frame : Frame}
    (hs' : (s.newFrame frame).2.Ordered) : O.Honours (s.newFrame frame).2 f locals := by
  obtain ⟨_, hframe⟩ := h.frame
  have hlt := Store.index_lt_of_frame? hframe
  refine h.of_frames hs hs' (fun _ _ _ hget => hget) fun g hg => ?_
  refine Store.frame?_newFrame_of_ne s ?_
  rintro rfl
  have hindex : (s.newFrame frame).1.index = s.frames.size := rfl
  omega

/-- An assignment of a value of the type that is known. -/
theorem assign (h : O.Honours s f locals) (hs : s.Ordered) (hname : O.Offers locals name)
    {known : Binding} (hfind : findBinding (locals ++ O.scopes) name = some known)
    {value : Value} (hvalue : Conforms O.table s known.type value) {g : FrameId}
    (howner : s.owner? f name = some g) : O.Honours (s.define g name value) f locals := by
  have hgrow : s.ObjectsGrow (s.define g name value) := fun _ _ _ hget => hget
  induction h with
  | @outside f frame hframe hnames =>
    obtain ⟨frame', hframe'⟩ : ∃ frame', (s.define g name value).frame? f = some frame' := by
      rw [Store.frame?_define, hframe]
      exact ⟨_, rfl⟩
    refine .outside hframe' fun other hother known' value' hfind' hlookup => ?_
    have hplain := O.plain other hother known' hfind'
    rw [Store.lookup?_define_owner hs value other howner] at hlookup
    split at hlookup
    · next heq =>
      -- what is known of the name is known of it from here
      have hfind : findBinding O.scopes name = some known := hfind
      rw [heq, hfind] at hfind'
      cases hfind'
      cases hlookup
      exact conforms_mono hgrow hplain hvalue
    · exact conforms_mono hgrow hplain (hnames other hother known' value' hfind' hlookup)
  | @inside f parent frame scope locals hframe hparent hagree hrest ih =>
    have hlt := hs f frame parent hframe hparent
    rw [List.cons_append, findBinding_cons] at hfind
    rw [Store.owner?_eq hs hframe] at howner
    cases hget : scope.get? name with
    | some found =>
      rw [hget] at hfind
      cases hfind
      obtain ⟨old, hold, _⟩ := hagree.has hget
      rw [hold] at howner
      cases howner
      exact .inside (Store.frame?_define_self hframe name value) hparent
        ((hagree.assign hget hvalue).mono hgrow) (hrest.define_younger hs hlt name value)
    | none =>
      rw [hget] at hfind
      rw [hagree.lacks hget, hparent] at howner
      have hle : g.index ≤ parent.index := Store.owner?_le hs howner
      have hne : f ≠ g := by
        rintro rfl
        omega
      exact .inside ((Store.frame?_define_of_ne s hne name value).trans hframe) hparent
        (hagree.mono hgrow) (ih (hname.pop hget) hfind howner)

/-- A new name with a value of its type. -/
theorem declare (h : O.Honours s f (scope :: locals)) (hs : s.Ordered) (name : String)
    {known : Binding} (hplain : O.part.Plain known.type) {value : Value}
    (hvalue : Conforms O.table s known.type value) :
    O.Honours (s.define f name value) f (scope.set name known :: locals) := by
  have hgrow : s.ObjectsGrow (s.define f name value) := fun _ _ _ hget => hget
  cases h with
  | @inside _ parent frame _ _ hframe hparent hagree hrest =>
    have hlt := hs f frame parent hframe hparent
    exact .inside (Store.frame?_define_self hframe name value) hparent
      ((hagree.set name hplain hvalue).mono hgrow) (hrest.define_younger hs hlt name value)

/-- A new frame without names inside another, for a scope without names. -/
theorem child (h : O.Honours s f locals) (hs : s.Ordered) {frame : Frame}
    (hparent : frame.parent? = some f) (hbindings : frame.bindings = .empty) :
    (s.newFrame frame).2.Ordered ∧
      O.Honours (s.newFrame frame).2 (s.newFrame frame).1 (.empty :: locals) := by
  obtain ⟨_, hframe⟩ := h.frame
  have hs' : (s.newFrame frame).2.Ordered := by
    refine hs.newFrame fun parent hp => ?_
    rw [hparent] at hp
    cases hp
    exact Store.index_lt_of_frame? hframe
  refine ⟨hs', .inside (s.frame?_newFrame_self frame) hparent (fun name => ?_)
    (h.newFrame hs hs')⟩
  rw [hbindings]
  exact .none

/-- A copy of a frame inside another. -/
theorem fork (h : O.Honours s f (scope :: locals)) (hs : s.Ordered) :
    (s.fork f).2.Ordered ∧ O.Honours (s.fork f).2 (s.fork f).1 (scope :: locals) := by
  cases h with
  | @inside _ parent frame _ _ hframe hparent hagree hrest =>
    have hs' := hs.fork hframe
    rw [Store.fork_eq hframe] at hs' ⊢
    have hgrow : s.ObjectsGrow (s.newFrame frame).2 := fun _ _ _ hget => hget
    exact ⟨hs', .inside (s.frame?_newFrame_self frame) hparent (hagree.mono hgrow)
      (hrest.newFrame hs hs')⟩

end Honours

end Surroundings

end TypedScript
