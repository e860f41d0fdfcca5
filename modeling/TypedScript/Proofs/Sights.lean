import Mathlib.Data.List.TakeDrop
import TypedScript.Proofs.Notes

/-!
# The names that a check adds

Checking an expression leaves the names in the scopes as they are, and checking
a statement adds names to the innermost scope only (`sights_discipline`). So the
scopes that a check comes to are as levels say if they were so before, and
`Check.Finds` says what is known at the end of a check that starts in its turn
and gives no diagnostic. Checks are put together in a few ways, each of which has
a rule here.
-/

namespace TypedScript

namespace Check

variable {α β : Type}

/-! ## Names in the scopes -/

/-- All scopes have the same names as before. -/
structure SameSights (k k' : Knowledge) : Prop where
  sights : k'.sights = k.sights
  ahead : k'.ahead = k.ahead
  grows : Grows k k'

/-- All scopes but the innermost one have the same names as before. -/
structure SameOuterSights (k k' : Knowledge) : Prop where
  sights : k'.sights.tail = k.sights.tail
  ahead : k'.ahead = k.ahead
  grows : Grows k k'

theorem SameSights.refl (k : Knowledge) : SameSights k k :=
  ⟨rfl, rfl, List.prefix_refl _⟩

theorem SameSights.trans (a b c : Knowledge) (h : SameSights a b) (h' : SameSights b c) :
    SameSights a c :=
  ⟨h'.sights.trans h.sights, h'.ahead.trans h.ahead, Grows.trans _ _ _ h.grows h'.grows⟩

theorem SameOuterSights.trans (a b c : Knowledge) (h : SameOuterSights a b)
    (h' : SameOuterSights b c) : SameOuterSights a c :=
  ⟨h'.sights.trans h.sights, h'.ahead.trans h.ahead, Grows.trans _ _ _ h.grows h'.grows⟩

theorem SameSights.outer (k k' : Knowledge) (h : SameSights k k') : SameOuterSights k k' :=
  ⟨congrArg List.tail h.sights, h.ahead, h.grows⟩

theorem Knowledge.sights_cons {k : Knowledge} {scope : Scope} {rest : List Scope}
    (h : k.scopes = scope :: rest) :
    k.sights = (fun name => scope.has name) :: rest.map fun scope name => scope.has name := by
  unfold Knowledge.sights
  rw [h, List.map_cons]

/-- A name that is entered is in the innermost scope then, reported or not. -/
theorem sights_of_enter {name : String} {binding : Binding} {k k' : Knowledge} {u : Unit}
    (h : enter name binding k = .ok u k') {sight : String → Bool} {rest : List (String → Bool)}
    (hsights : k.sights = sight :: rest) :
    k'.sights = (fun other => decide (other = name) || sight other) :: rest := by
  have hk' := enter_eq_ok.mp h
  cases hscopes : k.scopes with
  | nil =>
    unfold Knowledge.sights at hsights
    rw [hscopes] at hsights
    cases hsights
  | cons scope outer =>
    rw [Knowledge.sights_cons hscopes] at hsights
    cases hsights
    rw [hscopes] at hk'
    dsimp only at hk'
    -- a name that is there already is reported, and the scope stays as it is
    cases hhas : scope.has name with
    | true =>
      rw [if_pos hhas] at hk'
      rw [hk', Knowledge.sights_cons rfl]
      congr 1
      funext other
      by_cases heq : other = name
      · dsimp only
        rw [heq, hhas, Bool.or_true]
      · rw [decide_eq_false heq, Bool.false_or]
    | false =>
      rw [if_neg (by rw [hhas]; exact Bool.false_ne_true)] at hk'
      rw [hk', Knowledge.sights_cons rfl]
      congr 1
      funext other
      exact Record.has_set scope name other binding

theorem enter_keeps_sights (name : String) (binding : Binding) :
    Keeps SameOuterSights (Check.enter name binding) := by
  intro k a k' h
  refine ⟨?_, ?_, enter_keeps_grows name binding k a k' h⟩
  · cases hsights : k.sights with
    | nil =>
      rw [enter_eq_ok.mp h, List.map_eq_nil_iff.mp hsights]
      exact congrArg List.tail hsights
    | cons sight rest =>
      rw [sights_of_enter h hsights]
      rfl
  · rw [enter_eq_ok.mp h]
    split
    · rfl
    · split <;> rfl

theorem refine_keeps_sights (name : String) (type : Ty) :
    Keeps SameSights (Check.refine name type) := by
  intro k a k' h
  rw [modify_eq_ok.mp h]
  refine ⟨?_, rfl, List.prefix_refl _⟩
  unfold Knowledge.sights
  dsimp only
  cases hscopes : k.scopes with
  | nil => rfl
  | cons scope rest =>
    dsimp only
    cases hget : scope.get? name with
    | none => rfl
    | some binding =>
      dsimp only
      rw [List.map_cons, List.map_cons]
      congr 1
      funext other
      rw [Record.has_set]
      by_cases heq : other = name
      · rw [heq]
        unfold Record.has
        rw [hget, Option.isSome_some, Bool.or_true]
      · rw [decide_eq_false heq, Bool.false_or]

theorem noteReturn_keeps_sights (type : Ty) : Keeps SameSights (noteReturn type) := by
  intro k a k' h
  cases h
  exact ⟨rfl, rfl, List.prefix_refl _⟩

theorem declareParams_keeps_sights (params : List Parameter) (types : List Ty) :
    Keeps SameOuterSights (declareParams params types) := by
  induction params generalizing types with
  | nil => intro k a k' h; cases h; exact (SameSights.refl k).outer
  | cons param params ih =>
    cases types with
    | nil => intro k a k' h; cases h; exact (SameSights.refl k).outer
    | cons type types =>
      exact Keeps.bind SameOuterSights.trans (enter_keeps_sights _ _) fun _ => ih types

/-- The scope of an action is gone after it. -/
theorem inScope_keeps_sights {x : Check α} (hx : Keeps SameOuterSights x) :
    Keeps SameSights (inScope x) := by
  intro k a k' h
  obtain ⟨k₁, h₁, rfl⟩ := inScope_eq_ok.mp h
  have hbody := hx _ _ _ h₁
  have hsights : k₁.sights.tail = k.sights := hbody.sights
  refine ⟨?_, hbody.ahead, hbody.grows⟩
  rw [← hsights]
  exact List.map_tail

theorem inFunction_keeps_sights (declared? : Option Ty) (receiver : Ty) {x : Check Unit}
    (hx : Keeps SameOuterSights x) : Keeps SameOuterSights (inFunction declared? receiver x) := by
  intro k returns k' h
  obtain ⟨k₁, h₁, _, rfl⟩ := inFunction_eq_ok.mp h
  have hbody := hx _ _ _ h₁
  exact ⟨hbody.sights, hbody.ahead, hbody.grows⟩

/-- The scopes that were left out come back after an action ahead of its turn. -/
theorem aside_keeps_sights (name : String) {x : Check α} (hx : Keeps SameSights x) :
    Keeps SameSights (aside name x) := by
  intro k a k' h
  obtain ⟨k₁, h₁, rfl⟩ := aside_eq_ok.mp h
  have hbody := hx _ _ _ h₁
  refine ⟨?_, ?_, List.prefix_refl _⟩
  · have hsights : k₁.sights = ((k.scopes.span fun scope => !scope.has name).2).map
        fun scope name => scope.has name := hbody.sights
    show ((k.scopes.span fun scope => !scope.has name).1 ++ k₁.scopes).map _ = _
    rw [List.map_append]
    unfold Knowledge.sights at hsights ⊢
    rw [hsights, ← List.map_append, List.span_eq_takeWhile_dropWhile,
      List.takeWhile_append_dropWhile]
  · dsimp only
    rw [hbody.ahead]
    exact Nat.add_sub_cancel _ _

/-- Names are added to the innermost scope only, and by statements only. -/
theorem sights_discipline : Discipline SameSights SameOuterSights where
  refl := .refl
  trans := SameSights.trans
  trans' := SameOuterSights.trans
  le := SameSights.outer
  reportAll found _ := by
    intro k a k' h
    cases h
    exact ⟨rfl, rfl, List.prefix_append _ _⟩
  refine name type := (refine_keeps_sights name type).mono SameSights.outer
  enter := enter_keeps_sights
  noteReturn type := (noteReturn_keeps_sights type).mono SameSights.outer
  inScope hx := (inScope_keeps_sights hx).mono SameSights.outer
  inBody params types declared? receiver hx :=
    inScope_keeps_sights (Keeps.bind SameOuterSights.trans (declareParams_keeps_sights _ _)
      fun _ => inFunction_keeps_sights declared? receiver hx)
  inferring _ hx k a k' h := by
    obtain ⟨k₁, h₁, rfl⟩ := inferring_eq_ok.mp h
    have hbody := hx _ _ _ h₁
    exact ⟨hbody.sights, hbody.ahead, hbody.grows⟩
  infer _ _ _ hx _ _ _ h :=
    aside_keeps_sights _ (Keeps.bind SameSights.trans hx fun _ => refine_keeps_sights _ _) _ _ _ h

end Check

/-! ## Checks that find names -/

/-- Whether the scopes have the names that levels say. -/
def Knowledge.Sighted (k : Knowledge) (levels : List Level) : Prop :=
  List.Forall₂ Level.Bounds levels k.sights

/-- A check, in its turn, between scopes as levels say. If it ends without a
diagnostic, so much holds of what it gives. -/
structure Check.Finds {α : Type} (levels after : List Level) (x : Check α) (P : α → Prop) :
    Prop where
  keeps : Keeps SameOuterSights x
  finds : ∀ k a k', x k = .ok a k' → k'.diagnostics = [] → k.ahead = 0 → k.Sighted levels →
    P a ∧ k'.Sighted after

namespace Check.Finds

open Check

variable {α β : Type} {levels between after : List Level} {P : α → Prop}

theorem pure {a : α} (h : P a) : Finds levels levels (Pure.pure a) P where
  keeps := sights_discipline.lift (sights_discipline.pure a)
  finds k b k' h' _ _ hk := by
    obtain ⟨rfl, rfl⟩ := pure_eq_ok.mp h'
    exact ⟨h, hk⟩

/-- What comes after a check may rely on what that gave. -/
theorem bind {P' : β → Prop} {x : Check α} {f : α → Check β} (hx : Finds levels between x P)
    (hf : ∀ a, Finds between after (f a) fun b => P a → P' b) :
    Finds levels after (x >>= f) P' where
  keeps := sights_discipline.bind' hx.keeps fun a => (hf a).keeps
  finds k b k'' h hclean hahead hk := by
    obtain ⟨a, k', h₁, h₂⟩ := bind_eq_ok.mp h
    have hclean₁ : k'.diagnostics = [] := by
      have hgrows := ((hf a).keeps k' b k'' h₂).grows
      unfold Grows at hgrows
      rw [hclean] at hgrows
      exact List.prefix_nil.mp hgrows
    obtain ⟨ha, hk'⟩ := hx.finds k a k' h₁ hclean₁ hahead hk
    have hahead' : k'.ahead = 0 := (hx.keeps k a k' h₁).ahead.trans hahead
    obtain ⟨hb, hk''⟩ := (hf a).finds k' b k'' h₂ hclean hahead' hk'
    exact ⟨hb ha, hk''⟩

theorem mono {P' : α → Prop} {x : Check α} (h : Finds levels after x P)
    (himp : ∀ a, P a → P' a) : Finds levels after x P' :=
  ⟨h.keeps, fun k a k' hx hclean hahead hk =>
    have hfound := h.finds k a k' hx hclean hahead hk
    ⟨himp a hfound.1, hfound.2⟩⟩

/-- A check that leaves the names as they are. -/
theorem of_keeps {x : Check α} (h : Keeps SameSights x)
    (hP : ∀ k a k', x k = .ok a k' → P a) : Finds levels levels x P where
  keeps := sights_discipline.lift h
  finds k a k' hx _ _ hk := by
    refine ⟨hP k a k' hx, ?_⟩
    unfold Knowledge.Sighted
    rw [(h k a k' hx).sights]
    exact hk

/-- What comes after a check may leave the names as they are. -/
theorem followed {p : Prop} {x : Check α} {f : α → Check β} (hx : Finds levels after x fun _ => p)
    (hf : ∀ a, Keeps SameSights (f a)) : Finds levels after (x >>= f) fun _ => p :=
  bind hx fun a => of_keeps (hf a) fun _ _ _ _ hp => hp

/-- A check that leaves the names as they are may come before. -/
theorem preceded {x : Check α} {f : α → Check β} {P' : β → Prop} (hx : Keeps SameSights x)
    (hf : ∀ a, Finds levels after (f a) P') : Finds levels after (x >>= f) P' :=
  bind (P := fun _ => True) (of_keeps hx fun _ _ _ _ => trivial) fun a =>
    (hf a).mono fun _ hb _ => hb

/-- Two checks find what each of them finds. -/
theorem both {p q : Prop} {x : Check α} {f : α → Check β}
    (hx : Finds levels between x fun _ => p) (hf : ∀ a, Finds between after (f a) fun _ => q) :
    Finds levels after (x >>= f) fun _ => p ∧ q :=
  bind hx fun a => (hf a).mono fun _ hq hp => ⟨hp, hq⟩

/-- A check that looks at what is known is in its turn. -/
theorem get {f : Knowledge → Check α} (hkeeps : ∀ k, Keeps SameOuterSights (f k))
    (hf : ∀ k, k.ahead = 0 → Finds levels after (f k) P) :
    Finds levels after (MonadState.get >>= f) P where
  keeps := sights_discipline.bind' (sights_discipline.lift sights_discipline.get) hkeeps
  finds k a k' hx hclean hahead hk := (hf k hahead).finds k a k' hx hclean hahead hk

/-- A check that leaves the names as they are, seen between weaker levels. -/
theorem of_opened {x : Check α} {opened : List Level} (hkeeps : Keeps SameSights x)
    (h : Finds opened opened x P) (hopened : ∀ k : Knowledge, k.Sighted levels → k.Sighted opened) :
    Finds levels levels x P where
  keeps := sights_discipline.lift hkeeps
  finds k a k' hx hclean hahead hk := by
    refine ⟨(h.finds k a k' hx hclean hahead (hopened k hk)).1, ?_⟩
    unfold Knowledge.Sighted
    rw [(hkeeps k a k' hx).sights]
    exact hk

/-- A check in a scope of its own. -/
theorem inScope {x : Check α} {ever : List String}
    (h : Finds (⟨[], [], ever⟩ :: levels) after x P) :
    Finds levels levels (Check.inScope x) P where
  keeps := sights_discipline.lift (inScope_keeps_sights h.keeps)
  finds k a k' hx hclean hahead hk := by
    have hsame := inScope_keeps_sights h.keeps k a k' hx
    obtain ⟨k₁, h₁, rfl⟩ := inScope_eq_ok.mp hx
    have hempty : Level.Bounds ⟨[], [], ever⟩ fun name => (Record.empty : Scope).has name :=
      ⟨fun name hname => absurd hname List.not_mem_nil,
        fun name hname => absurd hname Bool.false_ne_true⟩
    refine ⟨(h.finds _ a k₁ h₁ hclean hahead (.cons hempty hk)).1, ?_⟩
    unfold Knowledge.Sighted
    rw [hsame.sights]
    exact hk

/-- A check of the body of a function. -/
theorem inFunction {p : Prop} {x : Check Unit} (declared? : Option Ty) (receiver : Ty)
    (h : Finds levels after x fun _ => p) :
    Finds levels after (Check.inFunction declared? receiver x) fun _ => p where
  keeps := inFunction_keeps_sights declared? receiver h.keeps
  finds k returns k' hx hclean hahead hk := by
    obtain ⟨k₁, h₁, _, rfl⟩ := inFunction_eq_ok.mp hx
    exact h.finds _ () k₁ h₁ hclean hahead hk

/-- A check of a body for its result. -/
theorem inferring {x : Check α} (position : Position) (h : Finds levels after x P) :
    Finds levels after (Check.inferring position x) P where
  keeps k a k' hx := by
    obtain ⟨k₁, h₁, rfl⟩ := inferring_eq_ok.mp hx
    have hbody := h.keeps _ _ _ h₁
    exact ⟨hbody.sights, hbody.ahead, hbody.grows⟩
  finds k a k' hx hclean hahead hk := by
    obtain ⟨k₁, h₁, rfl⟩ := inferring_eq_ok.mp hx
    exact h.finds _ a k₁ h₁ hclean hahead hk

/-- A check that ends between stronger levels than asked for. -/
theorem weaken {after' : List Level} {x : Check α} (h : Finds levels after x P)
    (hafter : ∀ k : Knowledge, k.Sighted after → k.Sighted after') : Finds levels after' x P :=
  ⟨h.keeps, fun k a k' hx hclean hahead hk =>
    have hfound := h.finds k a k' hx hclean hahead hk
    ⟨hfound.1, hafter k' hfound.2⟩⟩

/-- A name that is entered. -/
theorem enter (l : Level) (name : String) (binding : Binding) :
    Finds (l :: levels) (l.add name :: levels) (Check.enter name binding) fun _ => True where
  keeps := enter_keeps_sights name binding
  finds k a k' hx _ _ hk := by
    refine ⟨trivial, ?_⟩
    unfold Knowledge.Sighted at hk ⊢
    obtain ⟨sight, rest, hl, hrest, hsights⟩ := List.forall₂_cons_left_iff.mp hk
    rw [sights_of_enter hx hsights]
    exact .cons (hl.add fun _ => rfl) hrest

end Check.Finds

theorem Knowledge.Sighted.weaken {k : Knowledge} {l l' : Level} {levels : List Level}
    (h : k.Sighted (l :: levels)) (hmade : ∀ name ∈ l'.made, name ∈ l.made)
    (hhere : ∀ name ∈ l.here, name ∈ l'.here) : k.Sighted (l' :: levels) := by
  unfold Knowledge.Sighted at h ⊢
  obtain ⟨sight, rest, hl, hrest, hsights⟩ := List.forall₂_cons_left_iff.mp h
  rw [hsights]
  exact .cons (hl.weaken hmade hhere) hrest

theorem Knowledge.Sighted.opened {k : Knowledge} {levels : List Level} (h : k.Sighted levels) :
    k.Sighted (levels.map Level.opened) := by
  unfold Knowledge.Sighted at h ⊢
  exact List.forall₂_map_left_iff.mpr (h.imp fun _ _ => Level.Bounds.opened)

end TypedScript
