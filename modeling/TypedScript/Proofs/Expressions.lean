import TypedScript.Execution
import TypedScript.Proofs.Landing
import TypedScript.Proofs.Models
import TypedScript.Proofs.Operators

/-!
# Running first-order expressions

An expression that has a type lands on a value of that type, and the frames stay
models of the same scopes (`evaluator_evaluates`). The only fault on the way is a
division by zero, which no rule of typing can foresee.
-/

namespace TypedScript

variable {table part : Table} {s : Store} {scopes : List Scope}

/-! ## What a run leads to -/

/-- A later machine in the same frame: frames keep their parents, and the first
objects, as many as said, their properties. -/
structure Machine.Later (count : Nat) (m m' : Machine) : Prop where
  frame : m'.frame = m.frame
  parents : ∀ f frame, m.store.frame? f = some frame →
    ∃ frame', m'.store.frame? f = some frame' ∧ frame'.parent? = frame.parent?
  size : m.store.objects.size ≤ m'.store.objects.size
  kept : ∀ o, o.index < count → m'.store.properties o = m.store.properties o

/-- A later machine that keeps all objects. -/
abbrev Machine.Follows (m m' : Machine) : Prop :=
  m.Later m.store.objects.size m'

/-- A machine that stands in a model of scopes. -/
structure Machine.Stands (table : Table) (m : Machine) (scopes : List Scope) : Prop where
  ordered : m.store.Ordered
  models : Models table m.store m.frame scopes

namespace Machine

variable {m m' m'' : Machine}

theorem Later.refl (count : Nat) (m : Machine) : m.Later count m :=
  ⟨rfl, fun _ frame hframe => ⟨frame, hframe, rfl⟩, Nat.le_refl _, fun _ _ => rfl⟩

theorem Later.trans {count : Nat} (h : m.Later count m') (h' : m'.Later count m'') :
    m.Later count m'' where
  frame := h'.frame.trans h.frame
  parents f frame hframe := by
    obtain ⟨frame', hframe', hparent⟩ := h.parents f frame hframe
    obtain ⟨frame'', hframe'', hparent'⟩ := h'.parents f frame' hframe'
    exact ⟨frame'', hframe'', hparent'.trans hparent⟩
  size := Nat.le_trans h.size h'.size
  kept o ho := (h'.kept o ho).trans (h.kept o ho)

theorem Later.of_le {count fewer : Nat} (h : m.Later count m') (hle : fewer ≤ count) :
    m.Later fewer m' :=
  ⟨h.frame, h.parents, h.size, fun o ho => h.kept o (Nat.lt_of_lt_of_le ho hle)⟩

theorem follows_define (m : Machine) (g : FrameId) (name : String) (value : Value) :
    m.Follows { m with store := m.store.define g name value } := by
  refine ⟨rfl, fun f frame hframe => ?_, Nat.le_refl _, fun _ _ => rfl⟩
  refine ⟨_, (Store.frame?_define m.store g f name value).trans (by rw [hframe]; rfl), ?_⟩
  split <;> rfl

theorem Follows.trans (h : m.Follows m') (h' : m'.Follows m'') : m.Follows m'' :=
  Later.trans h (Later.of_le h' h.size)

/-- An object that is not there has no properties to lose. -/
theorem Follows.objectsGrow (h : m.Follows m') : m.store.ObjectsGrow m'.store := by
  intro o name value hget
  rw [h.kept o ?_]
  · exact hget
  · refine Nat.lt_of_not_le fun hle => ?_
    rw [Store.properties_of_size_le hle] at hget
    cases hget

end Machine

open Run

/-! ## Expressions -/

section Expressions

/-- A run of an expression that stays in a model of scopes and ends with a value
of a type. -/
def Run.LandsOn (table : Table) (x : Run Value) (scopes : List Scope) (type : Ty) : Prop :=
  ∀ m, m.Stands table scopes → Lands IsDivisionByZero x m fun value m' =>
    m.Follows m' ∧ m'.Stands table scopes ∧ Conforms table m'.store type value

/-- How the parts of first-order expressions have to be run: those with a type
end with a value of the type, and the object that prints is found. -/
structure Evaluator.Evaluates (table : Table) (go : Evaluator) : Prop where
  typed : ∀ e scopes type, e.isFirstOrder = true → e.HasType table scopes type →
    LandsOn table (go.eval e) scopes type
  print : ∀ position scopes m, m.Stands table scopes →
    Lands IsDivisionByZero (go.eval (.reference Native.log.holder position)) m fun value m' =>
      m' = m ∧ ∃ o, value = .object o ∧
        (m.store.properties o).get? Native.log.name = some (.native .log)

namespace Evaluator

variable {go : Evaluator} (hgo : go.Evaluates table)
include hgo

theorem evalNamed_lands {e : Expr} (he : e.isFirstOrder = true) {type : Ty}
    (h : e.HasType table scopes type) (name : String) :
    LandsOn table (go.evalNamed e name) scopes type := by
  cases e with
  | function definition => exact absurd he (by simp [Expr.isFirstOrder])
  | _ => exact hgo.typed _ scopes type he h

/-- The value of an expression as one of a type where that of the expression
fits. -/
theorem eval_lands_of_fits (htable : table.AllPlain) {e : Expr} (he : e.isFirstOrder = true)
    {found type : Ty}
    (h : e.HasType table scopes found) (hfits : table.Fits found type)
    (htype : table.Plain type) : LandsOn table (go.eval e) scopes type := by
  intro m hm
  obtain ⟨effort, hfits⟩ := hfits
  have hfound := h.plain htable hm.models.knownPlain e he
  refine (hgo.typed e scopes found he h m hm).mono ?_
  intro value m' hpost
  obtain ⟨hfollows, hm', hconf⟩ := hpost
  exact ⟨hfollows, hm', conforms_of_fits htable.isPlainPart hfits hfound htype hconf⟩

theorem evalCondition_lands (htable : table.AllPlain) {e : Expr} (he : e.isFirstOrder = true)
    (h : e.IsCondition table scopes) (m : Machine) (hm : m.Stands table scopes) :
    Lands IsDivisionByZero (go.evalCondition e) m fun _ m' =>
      m.Follows m' ∧ m'.Stands table scopes := by
  obtain ⟨type, htype, hfits⟩ := h
  refine (eval_lands_of_fits hgo htable he htype hfits (Table.plain_primitive _) m hm).bind ?_
  intro value m' hpost
  obtain ⟨hfollows, hm', hconf⟩ := hpost
  obtain ⟨b, rfl⟩ := Conforms.boolean_iff.mp hconf
  exact Lands.pure ⟨hfollows, hm'⟩

theorem evalEach_lands : ∀ (arguments : List Expr), areFirstOrder arguments = true →
    haveTypes table scopes arguments → ∀ m, m.Stands table scopes →
      Lands IsDivisionByZero (arguments.mapM go.eval) m fun _ m' =>
        m.Follows m' ∧ m'.Stands table scopes := by
  intro arguments
  induction arguments with
  | nil => exact fun _ _ m hm => Lands.pure ⟨.refl _ m, hm⟩
  | cons e rest ih =>
    intro hfirst h m hm
    rw [List.mapM_cons]
    unfold haveTypes at h
    obtain ⟨⟨type, htype⟩, hrest⟩ := h
    obtain ⟨he, hothers⟩ := Bool.and_eq_true_iff.mp hfirst
    refine (hgo.typed e scopes type he htype m hm).bind ?_
    intro value m₁ hpost
    obtain ⟨hfollows₁, hm₁, _⟩ := hpost
    refine (ih hothers hrest m₁ hm₁).bind ?_
    intro values m₂ hpost
    obtain ⟨hfollows₂, hm₂⟩ := hpost
    exact Lands.pure ⟨hfollows₁.trans hfollows₂, hm₂⟩

theorem evalLogic_lands (htable : table.AllPlain) (op : BinaryOp) {left right : Expr}
    (hleft : left.isFirstOrder = true) (hright : right.isFirstOrder = true)
    (hl : left.IsCondition table scopes) (hr : right.IsCondition table scopes) :
    LandsOn table (go.evalLogic op left right) scopes .boolean := by
  intro m hm
  refine (evalCondition_lands hgo htable hleft hl m hm).bind ?_
  intro first m₁ hpost
  obtain ⟨hfollows₁, hm₁⟩ := hpost
  dsimp only
  -- which operand decides does not matter here: either way a truth value is left
  generalize (if op = .and then !first else first) = decided
  cases decided with
  | true => exact Lands.pure ⟨hfollows₁, hm₁, Conforms.boolean_iff.mpr ⟨_, rfl⟩⟩
  | false =>
    refine (evalCondition_lands hgo htable hright hr m₁ hm₁).bind ?_
    intro second m₂ hpost
    obtain ⟨hfollows₂, hm₂⟩ := hpost
    exact Lands.pure ⟨hfollows₁.trans hfollows₂, hm₂, Conforms.boolean_iff.mpr ⟨_, rfl⟩⟩

end Evaluator

/-! ### Object literals -/

namespace Store

theorem properties_newObject_of_lt (s : Store) (properties : Record Value) (o : ObjectId)
    (ho : o.index < s.objects.size) : (s.newObject properties).2.properties o = s.properties o := by
  rw [properties_newObject, if_neg (Nat.ne_of_lt ho)]

theorem properties_newObject_self (s : Store) (properties : Record Value) :
    (s.newObject properties).2.properties (s.newObject properties).1 = properties := by
  rw [properties_newObject]
  exact if_pos rfl

theorem properties_setProperty_of_ne (s : Store) {o o' : ObjectId} (hne : o' ≠ o) (name : String)
    (value : Value) : (s.setProperty o name value).properties o' = s.properties o' := by
  rw [properties_setProperty, if_neg fun h => hne h.1]

theorem properties_setProperty_self (s : Store) {o : ObjectId} (ho : o.index < s.objects.size)
    (name : String) (value : Value) :
    (s.setProperty o name value).properties o = (s.properties o).set name value := by
  rw [properties_setProperty, if_pos ⟨rfl, ho⟩]

/-- A property that an object does not have is no loss. -/
theorem objectsGrow_setProperty {o : ObjectId} (ho : o.index < s.objects.size) {name : String}
    (hnew : (s.properties o).get? name = none) (value : Value) :
    s.ObjectsGrow (s.setProperty o name value) := by
  intro o' other old hget
  by_cases heq : o' = o
  · subst heq
    rw [properties_setProperty_self s ho, Record.get?_set, if_neg]
    · exact hget
    · rintro rfl
      rw [hnew] at hget
      cases hget
  · rw [properties_setProperty_of_ne s heq]
    exact hget

end Store

theorem Shape.has_append_singleton (shape : Shape) (p : Property) (name : String) :
    Shape.has (shape ++ [p]) name = (shape.has name || decide (p.name = name)) := by
  unfold Shape.has Shape.find?
  rw [List.isSome_find?, List.isSome_find?, List.any_append]
  simp

/-- An object in the making: it has the properties of a shape and no others. -/
structure Store.Makes (table : Table) (s : Store) (o : ObjectId) (shape : Shape) : Prop where
  lt : o.index < s.objects.size
  only : ∀ name, shape.has name = false → (s.properties o).get? name = none
  holds : ∀ p ∈ shape, table.Plain p.type ∧ ∃ value, (s.properties o).get? p.name = some value ∧
    Conforms table s p.type value

/-- A new property of an object in the making. -/
theorem Store.Makes.setProperty (htable : table.AllPlain) {o : ObjectId} {shape : Shape}
    (h : s.Makes table o shape) {name : String} (hname : shape.has name = false) {type : Ty}
    (htype : table.Plain type) {value : Value} (hvalue : Conforms table s type value) :
    (s.setProperty o name value).Makes table o (shape ++ [⟨name, type, false⟩]) where
  lt := by
    unfold Store.setProperty
    rw [Array.size_modify]
    exact h.lt
  only other hother := by
    rw [Shape.has_append_singleton, Bool.or_eq_false_iff] at hother
    rw [properties_setProperty_self s h.lt, Record.get?_set, if_neg]
    · exact h.only other hother.1
    · rintro rfl
      exact absurd rfl (of_decide_eq_false hother.2)
  holds p hp := by
    have hgrow := objectsGrow_setProperty h.lt (h.only name hname) value
    rcases List.mem_append.mp hp with hp | hp
    · obtain ⟨hplain, old, hold, hconf⟩ := h.holds p hp
      exact ⟨hplain, old, hgrow _ _ _ hold, hconf.mono htable hgrow hplain⟩
    · rw [List.mem_singleton.mp hp]
      refine ⟨htype, value, ?_, hvalue.mono htable hgrow htype⟩
      rw [properties_setProperty_self s h.lt, Record.get?_set, if_pos rfl]

/-- An object in the making stays so if it is kept. -/
theorem Store.Makes.of_follows (htable : table.AllPlain) {m m' : Machine} {o : ObjectId}
    {shape : Shape} (h : m.store.Makes table o shape) (hfollows : m.Follows m') :
    m'.store.Makes table o shape where
  lt := Nat.lt_of_lt_of_le h.lt hfollows.size
  only name hname := by
    rw [hfollows.kept o h.lt]
    exact h.only name hname
  holds p hp := by
    obtain ⟨hplain, value, hvalue, hconf⟩ := h.holds p hp
    have hgrow := hfollows.objectsGrow
    exact ⟨hplain, value, hgrow _ _ _ hvalue, hconf.mono htable hgrow hplain⟩

theorem Store.Makes.conforms {o : ObjectId} {shape : Shape} (h : s.Makes table o shape) :
    Conforms table s (.object shape) (.object o) := by
  refine Conforms.object_iff.mpr ⟨o, rfl, fun p hp => ?_⟩
  obtain ⟨_, value, hvalue, hconf⟩ := h.holds p hp
  unfold Property.HoldsIn
  rw [hvalue]
  exact hconf

/-- A change of the store that keeps the frames and lets objects grow. -/
theorem Machine.Stands.of_frames (htable : table.AllPlain) {m : Machine}
    (hm : m.Stands table scopes) {s' : Store} (hgrow : m.store.ObjectsGrow s')
    (hframes : ∀ g, s'.frame? g = m.store.frame? g) :
    ({ m with store := s' } : Machine).Stands table scopes where
  ordered f frame parent hframe hparent :=
    hm.ordered f frame parent ((hframes f).symm.trans hframe) hparent
  models := hm.models.of_frames htable hm.ordered hgrow fun g _ => hframes g

namespace Evaluator

variable {go : Evaluator} (hgo : go.Evaluates table)
include hgo

/-- The properties of an object literal, from the one that comes next. -/
theorem evalFields_lands (htable : table.AllPlain) (o : ObjectId) :
    ∀ (fields : List Field), fieldsAreFirstOrder fields = true → ∀ before shape,
      fieldsHaveShape table scopes before fields shape → ∀ m, m.Stands table scopes →
        m.store.Makes table o before →
          Lands IsDivisionByZero (go.evalFields o fields) m fun _ m' =>
            m.Later o.index m' ∧ m'.Stands table scopes ∧ m'.store.Makes table o shape := by
  intro fields
  induction fields with
  | nil =>
    intro _ before shape h m hm hmakes
    unfold fieldsHaveShape at h
    rw [h]
    exact Lands.pure ⟨.refl _ m, hm, hmakes⟩
  | cons field rest ih =>
    obtain ⟨name, value, position⟩ := field
    intro hfirst before shape h m hm hmakes
    unfold fieldsHaveShape at h
    obtain ⟨type, htype, hname, hrest⟩ := h
    obtain ⟨hvalue, hothers⟩ := Bool.and_eq_true_iff.mp hfirst
    have hplain := Expr.HasType.plain htable hm.models.knownPlain value hvalue htype
    rw [evalFields]
    refine (evalNamed_lands hgo hvalue htype name m hm).bind ?_
    intro given m₁ hpost
    obtain ⟨hfollows₁, hm₁, hconf⟩ := hpost
    -- evaluating the value leaves the object in the making alone, and the write only adds to it,
    -- as its shape has no property of this name so far
    have hmakes₁ := hmakes.of_follows htable hfollows₁
    have hgrow := Store.objectsGrow_setProperty hmakes₁.lt (hmakes₁.only name hname) given
    refine Lands.bind (Q := fun _ m₂ => m₁.Later o.index m₂ ∧ m₂.Stands table scopes ∧
      m₂.store.Makes table o (before ++ [⟨name, type, false⟩])) (Lands.change ?_) ?_
    · refine ⟨⟨rfl, fun f frame hframe => ⟨frame, hframe, rfl⟩, ?_, fun o' ho' => ?_⟩,
        hm₁.of_frames htable hgrow fun _ => rfl, hmakes₁.setProperty htable hname hplain hconf⟩
      · unfold Store.setProperty
        exact Nat.le_of_eq Array.size_modify.symm
      · refine Store.properties_setProperty_of_ne _ (fun heq => ?_) _ _
        rw [heq] at ho'
        exact absurd ho' (Nat.lt_irrefl _)
    · intro _ m₂ hpost
      obtain ⟨hlater₂, hm₂, hmakes₂⟩ := hpost
      refine (ih hothers _ shape hrest m₂ hm₂ hmakes₂).mono ?_
      intro _ m₃ hpost
      obtain ⟨hlater₃, hm₃, hmakes₃⟩ := hpost
      exact ⟨((hfollows₁.of_le (Nat.le_of_lt hmakes.lt)).trans hlater₂).trans hlater₃, hm₃, hmakes₃⟩

/-- An object literal makes a new object of its shape. -/
theorem evalObject_lands (htable : table.AllPlain) (limit : Nat) {fields : List Field}
    (hfields : fieldsAreFirstOrder fields = true) {shape : Shape}
    (h : fieldsHaveShape table scopes [] fields shape) (position : Position) :
    LandsOn table (go.evalRule limit (.object fields position)) scopes (.object shape) := by
  intro m hm
  unfold evalRule
  dsimp only
  have hfollows : m.Follows { m with store := (m.store.newObject .empty).2 } :=
    ⟨rfl, fun f frame hframe => ⟨frame, hframe, rfl⟩, by simp [Store.newObject],
      fun o ho => Store.properties_newObject_of_lt m.store .empty o ho⟩
  refine Lands.bind (Q := fun o m₁ => m.Follows m₁ ∧ m₁.Stands table scopes ∧
    o.index = m.store.objects.size ∧ m₁.store.Makes table o []) (Lands.make ?_) ?_
  · refine ⟨hfollows, hm.of_frames htable hfollows.objectsGrow fun _ => rfl, rfl, ?_, ?_,
      fun _ hp => absurd hp List.not_mem_nil⟩
    · simp [Store.newObject]
    · intro name _
      rw [Store.properties_newObject_self]
      rfl
  · intro o m₁ hpost
    obtain ⟨hfollows₁, hm₁, hindex, hmakes₁⟩ := hpost
    refine (evalFields_lands hgo htable o fields hfields [] shape h m₁ hm₁ hmakes₁).bind ?_
    intro _ m₂ hpost
    obtain ⟨hlater₂, hm₂, hmakes₂⟩ := hpost
    rw [hindex] at hlater₂
    exact Lands.pure ⟨Machine.Later.trans hfollows₁ hlater₂, hm₂, hmakes₂.conforms⟩

/-! ### The rule of expressions -/

omit hgo in
theorem reference_lands {name : String} (hname : name ≠ Native.log.holder) {known : Binding}
    (hfind : findBinding scopes name = some known) (position : Position) :
    LandsOn table (Run.lookup name position) scopes known.type := by
  intro m hm
  obtain ⟨value, hlookup, hconf⟩ := hm.models.lookup hm.ordered hname hfind
  exact Lands.lookup hlookup ⟨.refl _ m, hm, hconf⟩

omit hgo in
/-- An assignment of a value of the right type. -/
theorem assign_lands (htable : table.AllPlain) {name : String} (hname : name ≠ Native.log.holder)
    {known : Binding} (hfind : findBinding scopes name = some known) {value : Value}
    (position : Position) {m : Machine} (hm : m.Stands table scopes)
    (hvalue : Conforms table m.store known.type value) :
    Lands IsDivisionByZero (Run.assign name value position) m fun _ m' =>
      m.Follows m' ∧ m'.Stands table scopes := by
  obtain ⟨g, howner, hmodels⟩ := hm.models.assign htable hm.ordered hname hfind hvalue
  exact Lands.assign howner
    ⟨Machine.follows_define m g name value, hm.ordered.define g name value, hmodels⟩

/-- An operator in front. -/
theorem evalUnary_lands (htable : table.AllPlain) (limit : Nat) (op : UnaryOp) {operand : Expr}
    (he : operand.isFirstOrder = true) {found : Ty} (h : operand.HasType table scopes found)
    (hfits : table.Fits found op.type) (position : Position) :
    LandsOn table (go.evalRule limit (.unary op operand position)) scopes op.type := by
  intro m hm
  have hplain : table.Plain op.type := by cases op <;> exact Table.plain_primitive _
  unfold evalRule
  dsimp only
  refine (eval_lands_of_fits hgo htable he h hfits hplain m hm).bind ?_
  intro value m₁ hpost
  obtain ⟨hfollows₁, hm₁, hconf⟩ := hpost
  cases op with
  | negate =>
    obtain ⟨x, rfl⟩ := Conforms.number_iff.mp hconf
    exact Lands.pure ⟨hfollows₁, hm₁, Conforms.number_iff.mpr ⟨_, rfl⟩⟩
  | not =>
    obtain ⟨b, rfl⟩ := Conforms.boolean_iff.mp hconf
    exact Lands.pure ⟨hfollows₁, hm₁, Conforms.boolean_iff.mpr ⟨_, rfl⟩⟩

omit hgo in
/-- The result of an operator, in the machine that has its operands. -/
theorem apply_lands (hpart : part.IsPlainPartOf table) {op : BinaryOp} {a b type : Ty}
    (hop : op.HasType table a b type) (ha : part.Plain a) (hb : part.Plain b) {m : Machine}
    {left right : Value} (hleft : Conforms table m.store a left)
    (hright : Conforms table m.store b right) (position : Position) :
    Lands IsDivisionByZero
      (do Run.ofExcept (← Run.ask (Operation.apply · op left right position))) m fun value m' =>
        m' = m ∧ Conforms table m.store type value := by
  have hyields := Operation.yields_apply hpart hop ha hb hleft hright position
  refine Lands.bind (Q := fun result m' =>
    result = Operation.apply m.store op left right position ∧ m' = m) (Lands.ask ⟨rfl, rfl⟩) ?_
  intro result _ hpost
  obtain ⟨rfl, rfl⟩ := hpost
  refine Lands.ofExcept (fun value heq => ?_) fun fault heq => ?_
  · rw [heq] at hyields
    exact ⟨rfl, hyields⟩
  · rw [heq] at hyields
    exact hyields

theorem evalBinary_lands (htable : table.AllPlain) (limit : Nat) {left right : Expr}
    {op : BinaryOp} (hleft : left.isFirstOrder = true) (hright : right.isFirstOrder = true)
    {type : Ty} (position : Position)
    (h : (Expr.binary left op right position).HasType table scopes type) :
    LandsOn table (go.evalRule limit (.binary left op right position)) scopes type := by
  unfold Expr.HasType at h
  obtain ⟨a, b, ha, hb, hop⟩ := h
  by_cases hlogic : op = .and ∨ op = .or
  · have hconditions : left.IsCondition table scopes ∧ right.IsCondition table scopes ∧
        type = .boolean := by
      rcases hlogic with rfl | rfl <;> exact ⟨⟨a, ha, hop.1⟩, ⟨b, hb, hop.2.1⟩, hop.2.2⟩
    obtain ⟨hl, hr, rfl⟩ := hconditions
    have heq : go.evalRule limit (.binary left op right position) = go.evalLogic op left right := by
      rcases hlogic with rfl | rfl <;> rfl
    rw [heq]
    exact evalLogic_lands hgo htable op hleft hright hl hr
  · have heq : go.evalRule limit (.binary left op right position) = (do
        let x ← go.eval left
        let y ← go.eval right
        Run.ofExcept (← Run.ask (Operation.apply · op x y position))) := by
      cases op <;> first | rfl | exact absurd (.inl rfl) hlogic | exact absurd (.inr rfl) hlogic
    rw [heq]
    intro m hm
    have haplain := ha.plain htable hm.models.knownPlain left hleft
    have hbplain := hb.plain htable hm.models.knownPlain right hright
    refine (hgo.typed left scopes a hleft ha m hm).bind ?_
    intro x m₁ hpost
    obtain ⟨hfollows₁, hm₁, hx⟩ := hpost
    refine (hgo.typed right scopes b hright hb m₁ hm₁).bind ?_
    intro y m₂ hpost
    obtain ⟨hfollows₂, hm₂, hy⟩ := hpost
    -- the left value still conforms after the right operand has run: objects only grow
    refine (apply_lands htable.isPlainPart hop haplain hbplain
      (hx.mono htable hfollows₂.objectsGrow haplain) hy position).mono ?_
    intro value _ hpost
    obtain ⟨rfl, hconf⟩ := hpost
    exact ⟨hfollows₁.trans hfollows₂, hm₂, hconf⟩

/-- An assignment, compound or not. The variable is read before the value is
evaluated. -/
theorem evalAssign_lands (htable : table.AllPlain) (limit : Nat) {name : String} {place : Position}
    {op? : Option BinaryOp} {value : Expr} {position : Position}
    (hname : name ≠ Native.log.holder) (hvalue : value.isFirstOrder = true) {type : Ty}
    (h : (Expr.assign (.reference name place) op? value position).HasType table scopes type) :
    LandsOn table (go.evalRule limit (.assign (.reference name place) op? value position)) scopes
      type := by
  unfold Expr.HasType at h
  obtain ⟨htarget, given, found, hgiven, hop, effort, hfits⟩ := h
  unfold Expr.HasType at htarget
  obtain ⟨known, hfind, rfl⟩ := htarget
  intro m hm
  have hknown := (hm.models.knownPlain.binding hname hfind).2
  have hplain := hgiven.plain htable hm.models.knownPlain value hvalue
  -- both forms end with a write of a value that conforms to the type of the variable
  have hwrite : ∀ result m', m.Follows m' → m'.Stands table scopes →
      Conforms table m'.store known.type result →
      Lands IsDivisionByZero (do Run.assign name result place; return result) m'
        fun value m'' => m.Follows m'' ∧ m''.Stands table scopes ∧
          Conforms table m''.store known.type value := by
    intro result m' hfollows hm' hconf
    refine (assign_lands htable hname hfind place hm' hconf).bind ?_
    intro _ m'' hpost
    obtain ⟨hfollows', hm''⟩ := hpost
    exact Lands.pure ⟨hfollows.trans hfollows', hm'',
      hconf.mono htable hfollows'.objectsGrow hknown⟩
  cases op? with
  | none =>
    have hop : found = given := hop
    rw [hop] at hfits
    refine (evalNamed_lands hgo hvalue hgiven name m hm).bind ?_
    intro result m₁ hpost
    obtain ⟨hfollows₁, hm₁, hconf⟩ := hpost
    exact hwrite result m₁ hfollows₁ hm₁
      (conforms_of_fits htable.isPlainPart hfits hplain hknown hconf)
  | some op =>
    have hop : op.HasType table known.type given found := hop
    refine (reference_lands hname hfind place m hm).bind ?_
    intro current m₁ hpost
    obtain ⟨hfollows₁, hm₁, hcurrent⟩ := hpost
    refine (hgo.typed value scopes given hvalue hgiven m₁ hm₁).bind ?_
    intro operand m₂ hpost
    obtain ⟨hfollows₂, hm₂, hoperand⟩ := hpost
    -- the variable was read before its new value was made
    have hcurrent := hcurrent.mono htable hfollows₂.objectsGrow hknown
    rw [← bind_assoc]
    refine (apply_lands htable.isPlainPart hop hknown hplain hcurrent hoperand position).bind ?_
    intro result _ hpost
    obtain ⟨rfl, hconf⟩ := hpost
    exact hwrite result _ (hfollows₁.trans hfollows₂) hm₂
      (conforms_of_fits htable.isPlainPart hfits hop.plain hknown hconf)

omit hgo in
/-- A change of a variable by one. -/
theorem evalUpdate_lands (htable : table.AllPlain) (limit : Nat) {name : String} {place : Position}
    {op : UpdateOp} {isBefore : Bool} {position : Position} (hname : name ≠ Native.log.holder)
    {type : Ty}
    (h : (Expr.update (.reference name place) op isBefore position).HasType table scopes type) :
    LandsOn table (go.evalRule limit (.update (.reference name place) op isBefore position)) scopes
      type := by
  unfold Expr.HasType at h
  obtain ⟨rfl, found, htarget, effort, hfits⟩ := h
  unfold Expr.HasType at htarget
  obtain ⟨known, hfind, rfl⟩ := htarget
  intro m hm
  have hknown := (hm.models.knownPlain.binding hname hfind).2
  refine (reference_lands hname hfind place m hm).bind ?_
  intro current m₁ hpost
  obtain ⟨hfollows₁, hm₁, hcurrent⟩ := hpost
  have hnumber :=
    conforms_of_fits htable.isPlainPart hfits hknown (Table.plain_primitive _) hcurrent
  obtain ⟨x, rfl⟩ := Conforms.number_iff.mp hnumber
  refine (assign_lands htable hname hfind place hm₁ (hcurrent.of_number (x + op.delta))).bind ?_
  intro _ m₂ hpost
  obtain ⟨hfollows₂, hm₂⟩ := hpost
  exact Lands.pure ⟨hfollows₁.trans hfollows₂, hm₂, Conforms.number_iff.mpr ⟨_, rfl⟩⟩

/-- A call of the function that prints. -/
theorem evalCall_lands (limit : Nat) {callee : Expr} {arguments : List Expr}
    (hcallee : callee.isPrint = true) (harguments : areFirstOrder arguments = true)
    (h : haveTypes table scopes arguments) (position : Position) :
    LandsOn table (go.evalRule limit (.call callee arguments position)) scopes .void := by
  match callee with
  | .member (.reference name place) property memberPosition =>
    obtain ⟨hname, hproperty⟩ := Bool.and_eq_true_iff.mp hcallee
    have hname := of_decide_eq_true hname
    have hproperty := of_decide_eq_true hproperty
    subst hname hproperty
    intro m hm
    -- the callee is found in the object that holds it, whatever the scopes are, and the machine
    -- stays as it is until the arguments are evaluated
    refine Lands.bind (Q := fun f m₁ => m₁ = m ∧ f.1 = .native .log)
      (Lands.bind (hgo.print place scopes m hm) ?_) ?_
    · intro _ m hpost
      obtain ⟨rfl, o, rfl, hlog⟩ := hpost
      refine Lands.bind (Q := fun f m₁ => m₁ = m ∧ f = .native .log) ?_ ?_
      · refine Lands.bind (Q := fun result m₁ => result = .ok (.native .log) ∧ m₁ = m)
          (Lands.ask ⟨?_, rfl⟩) ?_
        · unfold Store.getProperty Value.expectObject Value.asObject?
          dsimp only
          rw [hlog, Option.getD_some]
        · intro _ _ hpost
          obtain ⟨rfl, rfl⟩ := hpost
          exact Lands.pure ⟨rfl, rfl⟩
      · intro _ _ hpost
        obtain ⟨rfl, rfl⟩ := hpost
        exact Lands.pure ⟨rfl, rfl⟩
    · rintro ⟨f, receiver?⟩ _ ⟨rfl, rfl⟩
      refine (evalEach_lands hgo arguments harguments h _ hm).bind ?_
      intro values m₁ hpost
      obtain ⟨hfollows₁, hm₁⟩ := hpost
      exact ⟨⟨hfollows₁.frame, hfollows₁.parents, hfollows₁.size, hfollows₁.kept⟩,
        ⟨hm₁.ordered, hm₁.models⟩, Conforms.void_iff.mpr rfl⟩
  | .member (.literal ..) .. | .member (.receiver ..) .. | .member (.unary ..) ..
  | .member (.binary ..) .. | .member (.assign ..) .. | .member (.update ..) ..
  | .member (.call ..) .. | .member (.member ..) .. | .member (.object ..) ..
  | .member (.function ..) .. => cases hcallee
  | .literal .. | .receiver .. | .unary .. | .binary .. | .assign .. | .update .. | .call ..
  | .object .. | .function .. | .reference .. => cases hcallee

/-- A property of an object. -/
theorem evalMember_lands (htable : table.AllPlain) (limit : Nat) {inner : Expr}
    {property : String} {position : Position} (he : inner.isFirstOrder = true) {type : Ty}
    (h : (Expr.member inner property position).HasType table scopes type) :
    LandsOn table (go.evalRule limit (.member inner property position)) scopes type := by
  unfold Expr.HasType at h
  obtain ⟨found, effort, hinner, hproperty⟩ := h
  intro m hm
  have hplain := hinner.plain htable hm.models.knownPlain inner he
  refine (hgo.typed inner scopes found he hinner m hm).bind ?_
  intro value m₁ hpost
  obtain ⟨hfollows₁, hm₁, hconf⟩ := hpost
  obtain ⟨o, w, rfl, hget, hw⟩ :=
    (exists_property_of_conforms htable.isPlainPart found hplain hproperty).2 value hconf
  refine Lands.bind (Q := fun result m₂ => result = .ok w ∧ m₂ = m₁) (Lands.ask ⟨?_, rfl⟩) ?_
  · unfold Store.getProperty Value.expectObject Value.asObject?
    dsimp only
    rw [hget, Option.getD_some]
  · intro _ _ hpost
    obtain ⟨rfl, rfl⟩ := hpost
    exact Lands.pure ⟨hfollows₁, hm₁, hw⟩

/-- The rule of expressions: what has a type ends with a value of the type. -/
theorem evalRule_lands (htable : table.AllPlain) (limit : Nat) {e : Expr}
    (he : e.isFirstOrder = true) {type : Ty} (h : e.HasType table scopes type) :
    LandsOn table (go.evalRule limit e) scopes type := by
  cases e with
  | literal value position =>
    unfold Expr.HasType at h
    rw [h]
    intro m hm
    cases value with
    | number x => exact Lands.pure ⟨.refl _ m, hm, Conforms.number_iff.mpr ⟨x, rfl⟩⟩
    | text x => exact Lands.pure ⟨.refl _ m, hm, Conforms.text_iff.mpr ⟨x, rfl⟩⟩
    | boolean x => exact Lands.pure ⟨.refl _ m, hm, Conforms.boolean_iff.mpr ⟨x, rfl⟩⟩
    | undefined => exact Lands.pure ⟨.refl _ m, hm, Conforms.void_iff.mpr rfl⟩
  | reference name position =>
    unfold Expr.HasType at h
    obtain ⟨known, hfind, rfl⟩ := h
    unfold Expr.isFirstOrder at he
    exact reference_lands (of_decide_eq_true he) hfind position
  | receiver position => unfold Expr.isFirstOrder at he; cases he
  | unary op operand position =>
    unfold Expr.HasType at h
    obtain ⟨rfl, found, h, hfits⟩ := h
    unfold Expr.isFirstOrder at he
    exact evalUnary_lands hgo htable limit op he h hfits position
  | binary left op right position =>
    unfold Expr.isFirstOrder at he
    obtain ⟨hleft, hright⟩ := Bool.and_eq_true_iff.mp he
    exact evalBinary_lands hgo htable limit hleft hright position h
  | assign target op? value position =>
    cases target with
    | reference name place =>
      unfold Expr.isFirstOrder at he
      obtain ⟨hname, hvalue⟩ := Bool.and_eq_true_iff.mp he
      exact evalAssign_lands hgo htable limit (of_decide_eq_true hname) hvalue h
    | _ => unfold Expr.isFirstOrder at he; cases he
  | update target op isBefore position =>
    cases target with
    | reference name place =>
      unfold Expr.isFirstOrder at he
      exact evalUpdate_lands htable limit (of_decide_eq_true he) h
    | _ => unfold Expr.isFirstOrder at he; cases he
  | call callee arguments position =>
    unfold Expr.HasType at h
    obtain ⟨rfl, h⟩ := h
    unfold Expr.isFirstOrder at he
    obtain ⟨hcallee, harguments⟩ := Bool.and_eq_true_iff.mp he
    exact evalCall_lands hgo limit hcallee harguments h position
  | member inner property position =>
    unfold Expr.isFirstOrder at he
    exact evalMember_lands hgo htable limit he h
  | object fields position =>
    unfold Expr.HasType at h
    obtain ⟨shape, rfl, h⟩ := h
    unfold Expr.isFirstOrder at he
    exact evalObject_lands hgo htable limit he h position
  | function definition => unfold Expr.isFirstOrder at he; cases he

end Evaluator

/-- The evaluator runs first-order expressions as their types say. -/
theorem evaluator_evaluates (htable : table.AllPlain) (limit fuel : Nat) :
    (evaluator limit fuel).Evaluates table := by
  induction fuel with
  | zero =>
    exact ⟨fun _ _ _ _ _ _ _ => lands_outOfFuel, fun _ _ _ _ => lands_outOfFuel⟩
  | succ fuel ih =>
    refine ⟨fun e scopes type he h => Evaluator.evalRule_lands ih htable limit he h, ?_⟩
    intro position scopes m hm
    obtain ⟨o, hlookup, hlog⟩ := hm.models.print hm.ordered
    exact Lands.lookup hlookup ⟨rfl, o, rfl, hlog⟩

end Expressions

end TypedScript
