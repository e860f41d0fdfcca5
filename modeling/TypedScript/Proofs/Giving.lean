import TypedScript.Proofs.Surroundings

/-!
# What expressions give

An expression `Gives` a type if each of its runs, from any machine whose frames honour
the local scopes, ends with a value of the type, in a machine that honours them again.
Runs that fail or take too long are not asked about, so what is said holds of names that
are not bound yet as well.

This is a meaning of types, not a way to find them: each rule below says what an
expression gives if its parts give certain types, whatever they look like.
-/

namespace TypedScript

open Run

/-- Every fault. -/
def IsAnyFault (_ : RuntimeFault) : Prop :=
  True

/-- A machine in a frame that honours local scopes. -/
structure Surroundings.Houses (O : Surroundings) (m : Machine) (locals : List Scope) : Prop where
  ordered : m.store.Ordered
  honours : O.Honours m.store m.frame locals

/-- A run that gives a value of a type, if it ends with a value. -/
def Run.Gives (O : Surroundings) (x : Run Value) (locals : List Scope) (type : Ty) : Prop :=
  ∀ m, O.Houses m locals → Lands IsAnyFault x m fun value m' =>
    m.Follows m' ∧ O.Houses m' locals ∧ Conforms O.table m'.store type value

/-- An expression that gives a value of a type, whenever it gives one. -/
def Expr.Gives (O : Surroundings) (e : Expr) (locals : List Scope) (type : Ty) : Prop :=
  ∀ limit fuel, Run.Gives O ((evaluator limit fuel).eval e) locals type

variable {O : Surroundings} {locals : List Scope}

namespace Surroundings

variable {m m' : Machine}

theorem conforms_follows (hfollows : m.Follows m') {type : Ty} (hplain : O.part.Plain type)
    {value : Value} (h : Conforms O.table m.store type value) :
    Conforms O.table m'.store type value :=
  conforms_mono hfollows.objectsGrow hplain h

/-- A change of the store that keeps the frames and lets objects grow. -/
theorem Houses.of_objects (hm : O.Houses m locals) {s' : Store}
    (hgrow : m.store.ObjectsGrow s') (hframes : ∀ g, s'.frame? g = m.store.frame? g) :
    O.Houses { m with store := s' } locals := by
  have hs' : s'.Ordered := fun f frame parent hframe hparent =>
    hm.ordered f frame parent ((hframes f).symm.trans hframe) hparent
  exact ⟨hs', hm.honours.of_frames hm.ordered hs' hgrow fun g _ => hframes g⟩

end Surroundings

/-! ## Names -/

section Names

variable {name : String} (hname : O.Offers locals name) {known : Binding}
  (hfind : findBinding (locals ++ O.scopes) name = some known)
include hname hfind

theorem Run.lookup_gives (position : Position) :
    Run.Gives O (Run.lookup name position) locals known.type := by
  intro m hm
  refine Lands.bind (Q := fun f m' => f = m.frame ∧ m' = m) (Lands.frame ⟨rfl, rfl⟩) ?_
  intro _ m hpost
  obtain ⟨rfl, rfl⟩ := hpost
  refine Lands.bind (Q := fun found m' => found = m.store.lookup? m.frame name ∧ m' = m)
    (Lands.ask ⟨rfl, rfl⟩) ?_
  intro found _ hpost
  obtain ⟨hfound, rfl⟩ := hpost
  cases found with
  | none => exact trivial
  | some value =>
    exact Lands.pure ⟨.refl _ _, hm, hm.honours.conforms hm.ordered hname hfind hfound.symm⟩

theorem Run.assign_houses {m : Machine} (hm : O.Houses m locals) {value : Value}
    (hvalue : Conforms O.table m.store known.type value) (position : Position) :
    Lands IsAnyFault (Run.assign name value position) m fun _ m' =>
      m.Follows m' ∧ O.Houses m' locals := by
  refine Lands.bind (Q := fun f m' => f = m.frame ∧ m' = m) (Lands.frame ⟨rfl, rfl⟩) ?_
  intro _ m hpost
  obtain ⟨rfl, rfl⟩ := hpost
  refine Lands.bind (Q := fun found m' => found = m.store.owner? m.frame name ∧ m' = m)
    (Lands.ask ⟨rfl, rfl⟩) ?_
  intro found m hpost
  obtain ⟨hfound, rfl⟩ := hpost
  cases found with
  | none => exact trivial
  | some owner =>
    exact Lands.change ⟨Machine.follows_define m owner name value,
      hm.ordered.define owner name value,
      hm.honours.assign hm.ordered hname hfind hvalue hfound.symm⟩

end Names

/-! ## Expressions -/

namespace Expr.Gives

/-- With no fuel nothing is given, and with some the rule of expressions is used. -/
theorem of_rule {e : Expr} {type : Ty}
    (h : ∀ limit fuel, Run.Gives O ((evaluator limit fuel).evalRule limit e) locals type) :
    e.Gives O locals type := by
  intro limit fuel
  cases fuel with
  | zero => exact fun _ _ => lands_outOfFuel
  | succ fuel => exact h limit fuel

theorem fits {e : Expr} {found type : Ty} (h : e.Gives O locals found)
    (hfits : O.table.Fits found type) (hfound : O.part.Plain found) (htype : O.part.Plain type) :
    e.Gives O locals type := by
  intro limit fuel m hm
  obtain ⟨effort, hfits⟩ := hfits
  refine (h limit fuel m hm).mono ?_
  intro value m' hpost
  obtain ⟨hfollows, hm', hconf⟩ := hpost
  exact ⟨hfollows, hm', conforms_of_fits O.isPart hfits hfound htype hconf⟩

/-- Only functions take the name that they are given to. -/
theorem named {e : Expr} (hne : ∀ f, e ≠ .function f) {type : Ty} (h : e.Gives O locals type)
    (name : String) (limit fuel : Nat) :
    Run.Gives O ((evaluator limit fuel).evalNamed e name) locals type := by
  cases e with
  | function f => exact absurd rfl (hne f)
  | _ => exact h limit fuel

theorem condition {e : Expr} {type : Ty} (h : e.Gives O locals type) (limit fuel : Nat)
    {m : Machine} (hm : O.Houses m locals) :
    Lands IsAnyFault ((evaluator limit fuel).evalCondition e) m fun _ m' =>
      m.Follows m' ∧ O.Houses m' locals := by
  refine (h limit fuel m hm).bind ?_
  intro value m₁ hpost
  obtain ⟨hfollows₁, hm₁, _⟩ := hpost
  exact Lands.ofExcept (fun _ _ => ⟨hfollows₁, hm₁⟩) fun _ _ => trivial

theorem literal (value : Literal) (position : Position) :
    (Expr.literal value position).Gives O locals value.type := by
  refine of_rule fun limit fuel m hm => ?_
  cases value with
  | number x => exact Lands.pure ⟨.refl _ m, hm, Conforms.number_iff.mpr ⟨x, rfl⟩⟩
  | text x => exact Lands.pure ⟨.refl _ m, hm, Conforms.text_iff.mpr ⟨x, rfl⟩⟩
  | boolean x => exact Lands.pure ⟨.refl _ m, hm, Conforms.boolean_iff.mpr ⟨x, rfl⟩⟩
  | undefined => exact Lands.pure ⟨.refl _ m, hm, Conforms.void_iff.mpr rfl⟩

theorem reference {name : String} (hname : O.Offers locals name) {known : Binding}
    (hfind : findBinding (locals ++ O.scopes) name = some known) (position : Position) :
    (Expr.reference name position).Gives O locals known.type :=
  of_rule fun _ _ => Run.lookup_gives hname hfind position

theorem unary (op : UnaryOp) {operand : Expr} {found : Ty} (h : operand.Gives O locals found)
    (position : Position) : (Expr.unary op operand position).Gives O locals op.type := by
  refine of_rule fun limit fuel m hm => ?_
  refine (h limit fuel m hm).bind ?_
  intro value m₁ hpost
  obtain ⟨hfollows₁, hm₁, _⟩ := hpost
  cases op with
  | negate =>
    refine Lands.bind (Q := fun _ m₂ => m₂ = m₁) (Lands.ofExcept (fun _ _ => rfl)
      fun _ _ => trivial) ?_
    rintro x _ rfl
    exact Lands.pure ⟨hfollows₁, hm₁, Conforms.number_iff.mpr ⟨_, rfl⟩⟩
  | not =>
    refine Lands.bind (Q := fun _ m₂ => m₂ = m₁) (Lands.ofExcept (fun _ _ => rfl)
      fun _ _ => trivial) ?_
    rintro b _ rfl
    exact Lands.pure ⟨hfollows₁, hm₁, Conforms.boolean_iff.mpr ⟨_, rfl⟩⟩

theorem logic (op : BinaryOp) {left right : Expr} {a b : Ty} (hl : left.Gives O locals a)
    (hr : right.Gives O locals b) (limit fuel : Nat) :
    Run.Gives O ((evaluator limit fuel).evalLogic op left right) locals .boolean := by
  intro m hm
  refine (hl.condition limit fuel hm).bind ?_
  intro first m₁ hpost
  obtain ⟨hfollows₁, hm₁⟩ := hpost
  dsimp only
  generalize (if op = .and then !first else first) = decided
  cases decided with
  | true => exact Lands.pure ⟨hfollows₁, hm₁, Conforms.boolean_iff.mpr ⟨_, rfl⟩⟩
  | false =>
    refine (hr.condition limit fuel hm₁).bind ?_
    intro second m₂ hpost
    obtain ⟨hfollows₂, hm₂⟩ := hpost
    exact Lands.pure ⟨hfollows₁.trans hfollows₂, hm₂, Conforms.boolean_iff.mpr ⟨_, rfl⟩⟩

theorem binary {op : BinaryOp} {left right : Expr} {a b type : Ty} (hl : left.Gives O locals a)
    (hr : right.Gives O locals b) (ha : O.part.Plain a) (hb : O.part.Plain b)
    (hop : op.HasType O.table a b type) (position : Position) :
    (Expr.binary left op right position).Gives O locals type := by
  refine of_rule fun limit fuel => ?_
  -- two operators may leave their right operand out, so they are evaluated in another way
  by_cases hlogic : op = .and ∨ op = .or
  · have htype : type = .boolean := by
      rcases hlogic with rfl | rfl <;> exact hop.2.2
    have heq : (evaluator limit fuel).evalRule limit (.binary left op right position) =
        (evaluator limit fuel).evalLogic op left right := by
      rcases hlogic with rfl | rfl <;> rfl
    rw [heq, htype]
    exact logic op hl hr limit fuel
  · have heq : (evaluator limit fuel).evalRule limit (.binary left op right position) = (do
        let x ← (evaluator limit fuel).eval left
        let y ← (evaluator limit fuel).eval right
        Run.ofExcept (← Run.ask (Operation.apply · op x y position))) := by
      cases op <;> first | rfl | exact absurd (.inl rfl) hlogic | exact absurd (.inr rfl) hlogic
    rw [heq]
    intro m hm
    refine (hl limit fuel m hm).bind ?_
    intro x m₁ hpost
    obtain ⟨hfollows₁, hm₁, hx⟩ := hpost
    refine (hr limit fuel m₁ hm₁).bind ?_
    intro y m₂ hpost
    obtain ⟨hfollows₂, hm₂, hy⟩ := hpost
    refine ((Evaluator.apply_lands O.isPart hop ha hb (O.conforms_follows hfollows₂ ha hx) hy
      position).allow fun _ _ => trivial).mono ?_
    intro value _ hpost
    obtain ⟨rfl, hconf⟩ := hpost
    exact ⟨hfollows₁.trans hfollows₂, hm₂, hconf⟩

/-- An assignment, compound or not. -/
theorem assign {name : String} (hname : O.Offers locals name) {known : Binding}
    (hfind : findBinding (locals ++ O.scopes) name = some known)
    (hknown : O.part.Plain known.type) {op? : Option BinaryOp} {value : Expr}
    (hne : ∀ f, value ≠ .function f) {given found : Ty} (hvalue : value.Gives O locals given)
    (hgiven : O.part.Plain given) (hfound : O.part.Plain found)
    (hop : match op? with
      | some op => op.HasType O.table known.type given found
      | none => found = given)
    (hfits : O.table.Fits found known.type) (place position : Position) :
    (Expr.assign (.reference name place) op? value position).Gives O locals known.type := by
  refine of_rule fun limit fuel m hm => ?_
  obtain ⟨effort, hfits⟩ := hfits
  -- with or without an operator, a value of the type found is written and given back
  have hwrite : ∀ result m', m.Follows m' → O.Houses m' locals →
      Conforms O.table m'.store found result →
      Lands IsAnyFault (do Run.assign name result place; return result) m'
        fun value m'' => m.Follows m'' ∧ O.Houses m'' locals ∧
          Conforms O.table m''.store known.type value := by
    intro result m' hfollows hm' hconf
    have hconf := conforms_of_fits O.isPart hfits hfound hknown hconf
    refine (Run.assign_houses hname hfind hm' hconf place).bind ?_
    intro _ m'' hpost
    obtain ⟨hfollows', hm''⟩ := hpost
    exact Lands.pure ⟨hfollows.trans hfollows', hm'', O.conforms_follows hfollows' hknown hconf⟩
  cases op? with
  | none =>
    have hop : found = given := hop
    subst hop
    refine (hvalue.named hne name limit fuel m hm).bind ?_
    intro result m₁ hpost
    obtain ⟨hfollows₁, hm₁, hconf⟩ := hpost
    exact hwrite result m₁ hfollows₁ hm₁ hconf
  | some op =>
    have hop : op.HasType O.table known.type given found := hop
    refine (Run.lookup_gives hname hfind place m hm).bind ?_
    intro current m₁ hpost
    obtain ⟨hfollows₁, hm₁, hcurrent⟩ := hpost
    refine (hvalue limit fuel m₁ hm₁).bind ?_
    intro operand m₂ hpost
    obtain ⟨hfollows₂, hm₂, hoperand⟩ := hpost
    -- the operand is evaluated after the look-up, and may have made objects
    have hcurrent := O.conforms_follows hfollows₂ hknown hcurrent
    rw [← bind_assoc]
    refine ((Evaluator.apply_lands O.isPart hop hknown hgiven hcurrent hoperand
      position).allow fun _ _ => trivial).bind ?_
    intro result _ hpost
    obtain ⟨rfl, hconf⟩ := hpost
    exact hwrite result _ (hfollows₁.trans hfollows₂) hm₂ hconf

/-- A change of a variable by one: what is a number stays one. -/
theorem update {name : String} (hname : O.Offers locals name) {known : Binding}
    (hfind : findBinding (locals ++ O.scopes) name = some known) (place : Position)
    (op : UpdateOp) (isBefore : Bool) (position : Position) :
    (Expr.update (.reference name place) op isBefore position).Gives O locals .number := by
  refine of_rule fun limit fuel m hm => ?_
  refine (Run.lookup_gives hname hfind place m hm).bind ?_
  intro current m₁ hpost
  obtain ⟨hfollows₁, hm₁, hcurrent⟩ := hpost
  refine Lands.bind (Q := fun x m₂ => current = .number x ∧ m₂ = m₁)
    (Lands.ofExcept (fun x heq => ⟨?_, rfl⟩) fun _ _ => trivial) ?_
  · cases current <;> cases heq
    rfl
  · intro x m₂ hpost
    obtain ⟨rfl, rfl⟩ := hpost
    refine (Run.assign_houses hname hfind hm₁ (hcurrent.of_number (x + op.delta)) place).bind ?_
    intro _ m₃ hpost
    obtain ⟨hfollows₃, hm₃⟩ := hpost
    exact Lands.pure ⟨hfollows₁.trans hfollows₃, hm₃, Conforms.number_iff.mpr ⟨_, rfl⟩⟩

theorem member {inner : Expr} {found : Ty} (h : inner.Gives O locals found)
    (hplain : O.part.Plain found) {property : String} {effort : Nat} {type : Ty}
    (hproperty : O.table.property? effort property found = some (some type))
    (position : Position) : (Expr.member inner property position).Gives O locals type := by
  refine of_rule fun limit fuel m hm => ?_
  refine (h limit fuel m hm).bind ?_
  intro value m₁ hpost
  obtain ⟨hfollows₁, hm₁, hconf⟩ := hpost
  obtain ⟨o, w, rfl, hget, hw⟩ :=
    (exists_property_of_conforms O.isPart found hplain hproperty).2 value hconf
  refine Lands.bind (Q := fun result m₂ => result = .ok w ∧ m₂ = m₁) (Lands.ask ⟨?_, rfl⟩) ?_
  · unfold Store.getProperty Value.expectObject Value.asObject?
    dsimp only
    rw [hget, Option.getD_some]
  · intro _ _ hpost
    obtain ⟨rfl, rfl⟩ := hpost
    exact Lands.pure ⟨hfollows₁, hm₁, hw⟩

end Expr.Gives

/-! ### Object literals -/

/-- Properties whose values give what a shape says, after those of another shape. -/
def fieldsGive (O : Surroundings) (locals : List Scope) (before : Shape) :
    List Field → Shape → Prop
  | [], shape => shape = before
  | field :: rest, shape =>
    ∃ type, O.part.Plain type ∧ field.value.Gives O locals type ∧
      (∀ f, field.value ≠ .function f) ∧ before.has field.name = false ∧
        fieldsGive O locals (before ++ [⟨field.name, type, false⟩]) rest shape

theorem plain_of_fieldsGive {fields : List Field} {before shape : Shape}
    (h : fieldsGive O locals before fields shape) (hbefore : O.part.Plain (.object before)) :
    O.part.Plain (.object shape) := by
  induction fields generalizing before with
  | nil =>
    unfold fieldsGive at h
    rw [h]
    exact hbefore
  | cons field rest ih =>
    unfold fieldsGive at h
    obtain ⟨type, hplain, _, _, _, hrest⟩ := h
    refine ih hrest (Table.plain_object fun p hp => ?_)
    rcases List.mem_append.mp hp with hp | hp
    · exact hbefore.property p hp
    · rw [List.mem_singleton.mp hp]
      exact ⟨hplain, rfl⟩

/-- The properties of an object literal, from the one that comes next. -/
theorem evalFields_gives (o : ObjectId) (limit fuel : Nat) :
    ∀ (fields : List Field) before shape, fieldsGive O locals before fields shape →
      ∀ m, O.Houses m locals → m.store.Makes O.part o before →
        Lands IsAnyFault ((evaluator limit fuel).evalFields o fields) m fun _ m' =>
          m.Later o.index m' ∧ O.Houses m' locals ∧ m'.store.Makes O.part o shape := by
  have hpart := O.isPart.plain
  intro fields
  induction fields with
  | nil =>
    intro before shape h m hm hmakes
    unfold fieldsGive at h
    rw [h]
    exact Lands.pure ⟨.refl _ m, hm, hmakes⟩
  | cons field rest ih =>
    obtain ⟨name, value, position⟩ := field
    intro before shape h m hm hmakes
    unfold fieldsGive at h
    obtain ⟨type, hplain, hvalue, hne, hname, hrest⟩ := h
    rw [Evaluator.evalFields]
    refine (hvalue.named hne name limit fuel m hm).bind ?_
    intro given m₁ hpost
    obtain ⟨hfollows₁, hm₁, hconf⟩ := hpost
    have hmakes₁ := hmakes.of_follows hpart hfollows₁
    have hgrow := Store.objectsGrow_setProperty hmakes₁.lt (hmakes₁.only name hname) given
    refine Lands.bind (Q := fun _ m₂ => m₁.Later o.index m₂ ∧ O.Houses m₂ locals ∧
      m₂.store.Makes O.part o (before ++ [⟨name, type, false⟩])) (Lands.change ?_) ?_
    · refine ⟨⟨rfl, fun f frame hframe => ⟨frame, hframe, rfl⟩, ?_, fun o' ho' => ?_⟩,
        hm₁.of_objects hgrow fun _ => rfl,
        hmakes₁.setProperty hpart hname hplain ((O.isPart.conforms_iff hplain).mpr hconf)⟩
      · unfold Store.setProperty
        exact Nat.le_of_eq Array.size_modify.symm
      · refine Store.properties_setProperty_of_ne _ (fun heq => ?_) _ _
        rw [heq] at ho'
        exact absurd ho' (Nat.lt_irrefl _)
    · intro _ m₂ hpost
      obtain ⟨hlater₂, hm₂, hmakes₂⟩ := hpost
      refine (ih _ shape hrest m₂ hm₂ hmakes₂).mono ?_
      intro _ m₃ hpost
      obtain ⟨hlater₃, hm₃, hmakes₃⟩ := hpost
      exact ⟨((hfollows₁.of_le (Nat.le_of_lt hmakes.lt)).trans hlater₂).trans hlater₃, hm₃, hmakes₃⟩

/-- An object literal gives a new object of its shape. -/
theorem Expr.Gives.object {fields : List Field} {shape : Shape}
    (h : fieldsGive O locals [] fields shape) (hplain : O.part.Plain (.object shape))
    (position : Position) : (Expr.object fields position).Gives O locals (.object shape) := by
  refine of_rule fun limit fuel m hm => ?_
  have hfollows : m.Follows { m with store := (m.store.newObject .empty).2 } :=
    ⟨rfl, fun f frame hframe => ⟨frame, hframe, rfl⟩, by simp [Store.newObject],
      fun o ho => Store.properties_newObject_of_lt m.store .empty o ho⟩
  refine Lands.bind (Q := fun o m₁ => m.Follows m₁ ∧ O.Houses m₁ locals ∧
    o.index = m.store.objects.size ∧ m₁.store.Makes O.part o []) (Lands.make ?_) ?_
  · refine ⟨hfollows, hm.of_objects hfollows.objectsGrow fun _ => rfl, rfl, ?_, ?_,
      fun _ hp => absurd hp List.not_mem_nil⟩
    · simp [Store.newObject]
    · intro name _
      rw [Store.properties_newObject_self]
      rfl
  · intro o m₁ hpost
    obtain ⟨hfollows₁, hm₁, hindex, hmakes₁⟩ := hpost
    refine (evalFields_gives o limit fuel fields [] shape h m₁ hm₁ hmakes₁).bind ?_
    intro _ m₂ hpost
    obtain ⟨hlater₂, hm₂, hmakes₂⟩ := hpost
    rw [hindex] at hlater₂
    exact Lands.pure ⟨Machine.Later.trans hfollows₁ hlater₂, hm₂,
      (O.isPart.conforms_iff hplain).mp hmakes₂.conforms⟩

end TypedScript
