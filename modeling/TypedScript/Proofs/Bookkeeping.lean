import Mathlib.Data.List.Forall2
import Mathlib.Data.List.TakeDrop
import TypedScript.Proofs.Keeping

/-!
# Checking an expression leaves the bookkeeping balanced

What a check of an expression opens it closes again: the scopes, the functions, the
receivers and the functions being inferred are as before, and diagnostics are only added.
One thing may be different. A function that was waiting for its result may have got it,
because its name was used for the first time, and that can happen in any scope and any
number of times on the way.

Statements change more, but only what is innermost: they enter names into the scope that
they are in, and note what the function gives back that they are in. So `KeptFrom` says from
which scope and from which function on things are as before, and the discipline of checks
is that expressions keep everything and statements keep all but the first scope and the first
function (`kept_discipline`).

Main result: `typeOf_balanced`.
-/

namespace TypedScript

/-! ## Results that are found -/

section Settling

variable {Found : Function → Signature → Ty → Prop}

/-- What becomes of what is known of a name: it stays, or the name stands for a function
whose result was missing and has been found. -/
inductive Binding.Settles (Found : Function → Signature → Ty → Prop) :
    Binding → Binding → Prop where
  | same (binding : Binding) : Settles Found binding binding
  | found {signature : Signature} {f : Function} {result : Ty} (position : Position) :
    Found f signature result →
      Settles Found ⟨.function signature, position, some f⟩
        ⟨.function { signature with result }, position, none⟩

theorem Binding.Settles.trans {a b c : Binding} (h : a.Settles Found b) (h' : b.Settles Found c) :
    a.Settles Found c := by
  cases h with
  | same => exact h'
  | found position hfound =>
    -- there is no function left whose result could be found
    cases h'
    exact .found position hfound

theorem Binding.Settles.position {a b : Binding} (h : a.Settles Found b) :
    b.position = a.position := by
  cases h <;> rfl

/-- A scope with the same names, for which what is known may have settled. -/
structure Scope.Settles (Found : Function → Signature → Ty → Prop) (scope scope' : Scope) :
    Prop where
  keys : scope'.keys = scope.keys
  binding : ∀ name binding, scope.get? name = some binding →
    ∃ binding', scope'.get? name = some binding' ∧ binding.Settles Found binding'

theorem Scope.Settles.refl (scope : Scope) : scope.Settles Found scope :=
  ⟨rfl, fun _ binding h => ⟨binding, h, .same binding⟩⟩

theorem Scope.Settles.trans {a b c : Scope} (h : a.Settles Found b) (h' : b.Settles Found c) :
    a.Settles Found c := by
  refine ⟨h'.keys.trans h.keys, fun name binding hget => ?_⟩
  obtain ⟨binding', hget', hsettles⟩ := h.binding name binding hget
  obtain ⟨binding'', hget'', hsettles'⟩ := h'.binding name binding' hget'
  exact ⟨binding'', hget'', hsettles.trans hsettles'⟩

/-- A name that is there can be written again without a change to the names. -/
theorem Record.keys_set_of_get? {α : Type} {r : Record α} {name : String} {old value : α}
    (h : r.get? name = some old) : (r.set name value).keys = r.keys := by
  have hmem : name ∈ r.keys := List.mem_map_of_mem (Record.mem_entries_of_get? h)
  rw [Record.keys_set, if_pos hmem]

end Settling

/-! ## What is kept -/

namespace Knowledge

/-- What is known stays as it is from some scope and from some function on, except that
results may have been found and diagnostics may have been added. -/
structure KeptFrom (Found : Function → Signature → Ty → Prop) (scope function : Nat)
    (k k' : Knowledge) : Prop where
  scopes : List.Forall₂ (Scope.Settles Found) (k.scopes.drop scope) (k'.scopes.drop scope)
  functions : k'.functions.drop function = k.functions.drop function
  receivers : k'.receivers = k.receivers
  inferring : k'.inferring = k.inferring
  ahead : k'.ahead = k.ahead
  diagnostics : k.diagnostics <+: k'.diagnostics

/-- All that is known stays as it is, except that results may have been found and
diagnostics may have been added. -/
abbrev Balanced (Found : Function → Signature → Ty → Prop) : Knowledge → Knowledge → Prop :=
  KeptFrom Found 0 0

variable {Found : Function → Signature → Ty → Prop} {i i' j j' : Nat}

theorem forall₂_settles_refl (scopes : List Scope) :
    List.Forall₂ (Scope.Settles Found) scopes scopes :=
  List.forall₂_same.mpr fun scope _ => .refl scope

theorem forall₂_settles_trans {first second third : List Scope}
    (h : List.Forall₂ (Scope.Settles Found) first second)
    (h' : List.Forall₂ (Scope.Settles Found) second third) :
    List.Forall₂ (Scope.Settles Found) first third := by
  induction h generalizing third with
  | nil => exact h'
  | cons hscope _ ih =>
    cases h' with
    | cons hscope' hrest => exact .cons (hscope.trans hscope') (ih hrest)

theorem KeptFrom.refl (k : Knowledge) : KeptFrom Found i j k k :=
  ⟨forall₂_settles_refl _, rfl, rfl, rfl, rfl, List.prefix_refl _⟩

theorem KeptFrom.trans (a b c : Knowledge) (h : KeptFrom Found i j a b)
    (h' : KeptFrom Found i j b c) : KeptFrom Found i j a c where
  scopes := forall₂_settles_trans h.scopes h'.scopes
  functions := h'.functions.trans h.functions
  receivers := h'.receivers.trans h.receivers
  inferring := h'.inferring.trans h.inferring
  ahead := h'.ahead.trans h.ahead
  diagnostics := h.diagnostics.trans h'.diagnostics

/-- What is kept from somewhere on is kept from further out on. -/
theorem KeptFrom.outward {k k' : Knowledge} (h : KeptFrom Found i j k k') (hi : i ≤ i')
    (hj : j ≤ j') : KeptFrom Found i' j' k k' where
  scopes := by
    have hscopes := List.forall₂_drop (i' - i) h.scopes
    rwa [List.drop_drop, List.drop_drop, Nat.add_sub_cancel' hi] at hscopes
  functions := by
    have hfunctions := congrArg (List.drop (j' - j)) h.functions
    rwa [List.drop_drop, List.drop_drop, Nat.add_sub_cancel' hj] at hfunctions
  receivers := h.receivers
  inferring := h.inferring
  ahead := h.ahead
  diagnostics := h.diagnostics

end Knowledge

/-! ## Checks that keep what is outside -/

namespace Check

open Knowledge

variable {α : Type} {Found : Function → Signature → Ty → Prop} {i j : Nat}

theorem reportAll_kept (found : List Diagnostic) : Keeps (Balanced Found) (reportAll found) := by
  intro k a k' h
  rw [modify_eq_ok.mp h]
  exact ⟨forall₂_settles_refl _, rfl, rfl, rfl, rfl, List.prefix_append _ _⟩

/-- A name is entered into the first scope. -/
theorem enter_kept (name : String) (binding : Binding) :
    Keeps (KeptFrom Found 1 0) (enter name binding) := by
  intro k a k' h
  rw [enter_eq_ok.mp h]
  split
  · exact .refl k
  · next scope rest hscopes =>
    split
    · exact (reportAll_kept _ k () _ rfl).outward (Nat.zero_le 1) (Nat.le_refl 0)
    · refine ⟨?_, rfl, rfl, rfl, rfl, List.prefix_refl _⟩
      rw [hscopes]
      exact forall₂_settles_refl rest

theorem declareParams_kept (params : List Parameter) (types : List Ty) :
    Keeps (KeptFrom Found 1 0) (declareParams params types) := by
  induction params generalizing types with
  | nil => intro k a k' h; cases h; exact .refl k
  | cons param params ih =>
    cases types with
    | nil => intro k a k' h; cases h; exact .refl k
    | cons type types => exact Keeps.bind KeptFrom.trans (enter_kept _ _) fun _ => ih types

/-- What is given back is noted of the first function. -/
theorem noteReturn_kept (type : Ty) : Keeps (KeptFrom Found 0 1) (noteReturn type) := by
  intro k a k' h
  rw [modify_eq_ok.mp h]
  refine ⟨forall₂_settles_refl _, ?_, rfl, rfl, rfl, List.prefix_refl _⟩
  cases k.functions <;> rfl

theorem refine_kept (name : String) (type : Ty) :
    Keeps (KeptFrom Found 1 0) (Check.refine name type) := by
  intro k a k' h
  rw [modify_eq_ok.mp h]
  refine ⟨?_, rfl, rfl, rfl, rfl, List.prefix_refl _⟩
  cases k.scopes with
  | nil => exact .nil
  | cons scope rest =>
    dsimp only
    split <;> exact forall₂_settles_refl rest

/-- The scope of an action is gone after it, and the others are as before. -/
theorem inScope_kept {x : Check α} (hx : Keeps (KeptFrom Found 1 j) x) :
    Keeps (KeptFrom Found 0 j) (inScope x) := by
  intro k a k' h
  obtain ⟨k₁, h₁, rfl⟩ := inScope_eq_ok.mp h
  have hbody := hx _ _ _ h₁
  refine ⟨?_, hbody.functions, hbody.receivers, hbody.inferring, hbody.ahead, hbody.diagnostics⟩
  have hscopes := hbody.scopes
  rw [List.drop_one, List.drop_one] at hscopes
  exact hscopes

theorem inFunction_kept (declared? : Option Ty) (receiver : Ty) {x : Check Unit}
    (hx : Keeps (KeptFrom Found i 1) x) :
    Keeps (KeptFrom Found i 0) (inFunction declared? receiver x) := by
  intro k returns k' h
  obtain ⟨k₁, h₁, -, rfl⟩ := inFunction_eq_ok.mp h
  have hbody := hx _ _ _ h₁
  have hfunctions := hbody.functions
  rw [List.drop_one, List.drop_one] at hfunctions
  exact ⟨hbody.scopes, hfunctions, congrArg List.tail hbody.receivers, hbody.inferring,
    hbody.ahead, hbody.diagnostics⟩

theorem inferring_kept (position : Position) {x : Check α} (hx : Keeps (KeptFrom Found i j) x) :
    Keeps (KeptFrom Found i j) (Check.inferring position x) := by
  intro k a k' h
  obtain ⟨k₁, h₁, rfl⟩ := inferring_eq_ok.mp h
  have hbody := hx _ _ _ h₁
  exact ⟨hbody.scopes, hbody.functions, hbody.receivers, congrArg List.tail hbody.inferring,
    hbody.ahead, hbody.diagnostics⟩

/-! ### A function that is looked at ahead of its turn -/

/-- The scopes from the innermost one that has a name begin with what is known of it. -/
theorem exists_scope_of_lookup? {k : Knowledge} {name : String} {binding : Binding}
    (h : k.lookup? name = some binding) :
    ∃ scope rest, (k.scopes.dropWhile fun scope => !scope.has name) = scope :: rest ∧
      scope.get? name = some binding := by
  unfold Knowledge.lookup? at h
  generalize k.scopes = scopes at h ⊢
  induction scopes with
  | nil => cases h
  | cons scope rest ih =>
    rw [List.findSome?_cons] at h
    cases hget : scope.get? name with
    | none =>
      rw [hget] at h
      rw [List.dropWhile_cons_of_pos (by simp [Record.has, hget])]
      exact ih h
    | some found =>
      rw [hget] at h
      cases h
      rw [List.dropWhile_cons_of_neg (by simp [Record.has, hget])]
      exact ⟨scope, rest, rfl, hget⟩

/-- Where a name stands for a function without a result, it settles when it gets the result
that was found, whether or not it got one on the way. -/
theorem settles_refine {scope scope' : Scope} {name : String} {position : Position}
    {signature : Signature} {f : Function} {result : Ty} {binding' : Binding}
    (hget : scope.get? name = some ⟨.function signature, position, some f⟩)
    (hsettles : scope.Settles Found scope') (hget' : scope'.get? name = some binding')
    (hfound : Found f signature result) :
    scope.Settles Found (scope'.set name
      { binding' with type := .function { signature with result }, pending? := none }) := by
  obtain ⟨found, hfound', hbinding⟩ := hsettles.binding name _ hget
  rw [hget'] at hfound'
  cases hfound'
  refine ⟨(Record.keys_set_of_get? hget').trans hsettles.keys, fun other binding hother => ?_⟩
  rw [Record.get?_set]
  by_cases hname : other = name
  · rw [if_pos hname]
    rw [hname, hget] at hother
    cases hother
    refine ⟨_, rfl, ?_⟩
    rw [hbinding.position]
    exact .found position hfound
  · rw [if_neg hname]
    exact hsettles.binding other binding hother

theorem infer_kept {k k' : Knowledge} {name : String} {binding : Binding}
    {signature : Signature} {f : Function} {x : Check Ty} {u : Unit}
    (hlookup : k.lookup? name = some binding) (htype : binding.type = .function signature)
    (hpending : binding.pending? = some f) (hx : Keeps (Balanced Found) x)
    (hfound : ∀ k result k', x k = .ok result k' → Found f signature result)
    (h : aside name (do
      let result ← x
      Check.refine name (.function { signature with result })) k = .ok u k') :
    Balanced Found k k' := by
  obtain ⟨type, position, pending?⟩ := binding
  cases htype
  cases hpending
  obtain ⟨k₁, h₁, rfl⟩ := aside_eq_ok.mp h
  rw [List.span_eq_takeWhile_dropWhile] at h₁ ⊢
  obtain ⟨result, k₂, hresult, hrefine⟩ := bind_eq_ok.mp h₁
  have hbody := hx _ _ _ hresult
  have hresult := hfound _ _ _ hresult
  -- The first of the scopes that are left has the name, so that is where the result goes.
  obtain ⟨scope, rest, houter, hget⟩ := exists_scope_of_lookup? hlookup
  have hscopes : List.Forall₂ (Scope.Settles Found) (scope :: rest) k₂.scopes := by
    rw [← houter]
    exact hbody.scopes
  generalize hk₂ : k₂.scopes = scopes at hscopes
  cases hscopes with
  | @cons _ scope' _ rest' hsettles hrest =>
    obtain ⟨binding', hget', -⟩ := hsettles.binding name _ hget
    have hk₁ := modify_eq_ok.mp hrefine
    rw [hk₂] at hk₁
    dsimp only at hk₁
    rw [hget'] at hk₁
    subst hk₁
    refine ⟨?_, hbody.functions, hbody.receivers, hbody.inferring, ?_, List.prefix_refl _⟩
    · -- the scopes that were left out are put back before those that were not
      have hsplit := (List.takeWhile_append_dropWhile (p := fun scope : Scope => !scope.has name)
        (l := k.scopes)).symm
      rw [houter] at hsplit
      rw [List.drop_zero, List.drop_zero]
      nth_rewrite 1 [hsplit]
      exact List.rel_append (forall₂_settles_refl _)
        (.cons (settles_refine hget hsettles hget' hresult) hrest)
    · show k₂.ahead - 1 = k.ahead
      rw [hbody.ahead]
      exact Nat.add_sub_cancel _ _

/-- Expressions keep everything, and statements all but what is innermost. -/
theorem kept_discipline : Discipline (Balanced Found) (KeptFrom Found 1 1) Found where
  refl := .refl
  trans := KeptFrom.trans
  trans' := KeptFrom.trans
  le _ _ h := h.outward (Nat.zero_le 1) (Nat.zero_le 1)
  reportAll found _ := reportAll_kept found
  refine name type := (refine_kept name type).mono fun _ _ h =>
    h.outward (Nat.le_refl 1) (Nat.zero_le 1)
  enter name binding := (enter_kept name binding).mono fun _ _ h =>
    h.outward (Nat.le_refl 1) (Nat.zero_le 1)
  noteReturn type := (noteReturn_kept type).mono fun _ _ h =>
    h.outward (Nat.zero_le 1) (Nat.le_refl 1)
  inScope hx := (inScope_kept hx).mono fun _ _ h => h.outward (Nat.zero_le 1) (Nat.le_refl 1)
  inBody _ _ declared? receiver hx :=
    inScope_kept (Keeps.bind KeptFrom.trans (declareParams_kept _ _) fun _ =>
      inFunction_kept declared? receiver hx)
  inferring position hx := inferring_kept position hx
  infer hlookup htype hpending hx hfound _ _ h := infer_kept hlookup htype hpending hx hfound h

end Check

/-! ## Any expression -/

/-- A result that some check of the body of a function comes to. -/
def IsInferred (table : Table) (effort : Nat) (f : Function) (signature : Signature)
    (result : Ty) : Prop :=
  ∃ fuel k k', (checker table effort fuel).checkBody f signature .unknown k = .ok result k'

/-- Checking an expression, if it ends, leaves the bookkeeping balanced: the scopes are as
many as before, with the same names declared in the same places, and what is known of each
name is the same unless it stands for a function whose missing result was inferred; the
functions and receivers being looked at, the functions being inferred and the count of those
ahead of their turn are the same; and the diagnostics so far are the first of those in the
end. A function that is inferred ahead of its turn leaves the diagnostics alone: its body adds
to them, and what it adds is taken away. -/
theorem typeOf_balanced (table : Table) (effort fuel : Nat) (k : Knowledge) :
    (∀ e type k', Expr.typeOf table effort fuel e k = .ok type k' →
      k.Balanced (IsInferred table effort) k') ∧
    ∀ name f signature u k', (checker table effort fuel).infer name f signature k = .ok u k' →
      k'.diagnostics = k.diagnostics ∧
        (f.position ∈ k.inferring ∨ ∃ result k₁,
          (checker table effort fuel).checkBody f signature .unknown
            { k with
              scopes := k.scopes.dropWhile fun scope => !scope.has name
              inferring := f.position :: k.inferring
              ahead := k.ahead + 1 } = .ok result k₁ ∧
          k₁.diagnostics.take k.diagnostics.length = k'.diagnostics) := by
  constructor
  · intro e type k' h
    have d : Check.Discipline (Knowledge.Balanced (IsInferred table effort)) _ _ :=
      Check.kept_discipline
    have hkeeps := checker_keeps d table effort fuel fun fuel f signature k result k' h =>
      ⟨fuel, k, k', h⟩
    exact hkeeps.typeOf e k type k' h
  · intro name f signature u k' h
    unfold Checker.infer at h
    rw [Check.get_bind] at h
    split at h
    · next hinferring =>
      rw [(Check.pure_eq_ok.mp h).2]
      exact ⟨rfl, Or.inl hinferring⟩
    · obtain ⟨k₁, h₁, rfl⟩ := Check.aside_eq_ok.mp h
      rw [List.span_eq_takeWhile_dropWhile] at h₁
      obtain ⟨result, k₂, hresult, -⟩ := bind_eq_ok.mp h₁
      obtain ⟨k₃, hbody, -⟩ := Check.inferring_eq_ok.mp hresult
      -- the body only adds diagnostics, so those before it are what is left without its own
      have hgrows := Checker.checkBody_keeps Check.grows_discipline
        (checker_keeps Check.grows_discipline table effort fuel) f signature .unknown _ _ _ hbody
      exact ⟨rfl, Or.inr ⟨result, k₃, hbody, (List.prefix_iff_eq_take.mp hgrows).symm⟩⟩

/-- The first use of a function that calls another one: both get their results, in the scope
around the one in which the use stands, and what is wrong with their bodies is not reported. -/
theorem typeOf_balanced_of_first_use :
    let place (n : Nat) : Position := ⟨n, 1⟩
    let inner : Function := ⟨some "g", [], none, ⟨[.expression (.reference "y" (place 4)) (place 4),
      .giveBack (some (.literal (.text "a") (place 5))) (place 5)], place 3⟩, place 3⟩
    let outer : Function := ⟨some "f", [], none, ⟨[.giveBack (some (.call (.reference "g" (place 2))
      [] (place 2))) (place 2)], place 1⟩, place 1⟩
    let waiting : Signature := ⟨[], 0, false, .unknown⟩
    let k : Knowledge := ⟨[.empty, .ofList [("f", ⟨.function waiting, place 1, some outer⟩),
      ("g", ⟨.function waiting, place 3, some inner⟩)]], [], [], [], 0,
      [⟨.unknownName "z", place 6⟩]⟩
    (∃ k', Expr.typeOf .empty 5 12 (.reference "f" (place 7)) k =
        .ok (.function { waiting with result := .text }) k' ∧
      (k'.lookup? "g").map (·.type) = some (.function { waiting with result := .text }) ∧
      k.Balanced (IsInferred .empty 5) k') ∧
    ∃ u k', (checker .empty 5 12).infer "f" outer waiting k = .ok u k' ∧
      k'.diagnostics = k.diagnostics := by
  intro place inner outer waiting k
  constructor
  · have hended : (do
        let type ← Expr.typeOf .empty 5 12 (.reference "f" (place 7))
        let known ← get
        return decide (type = .function { waiting with result := .text } ∧
          (known.lookup? "g").map (·.type) = some (.function { waiting with result := .text })) :
        Check Bool).run' k = some true := by decide +kernel
    obtain ⟨_, hended⟩ := Check.exists_of_run' hended
    obtain ⟨type, k', h, hended⟩ := bind_eq_ok.mp hended
    obtain ⟨hholds, -⟩ := Check.pure_eq_ok.mp hended
    obtain ⟨rfl, hg⟩ := of_decide_eq_true hholds.symm
    exact ⟨k', h, hg, (typeOf_balanced .empty 5 12 k).1 _ _ _ h⟩
  · have hended : ((checker .empty 5 12).infer "f" outer waiting).run' k = some () := by
      decide +kernel
    obtain ⟨k', h⟩ := Check.exists_of_run' hended
    exact ⟨(), k', h, ((typeOf_balanced .empty 5 12 k).2 _ _ _ _ _ h).1⟩

end TypedScript
