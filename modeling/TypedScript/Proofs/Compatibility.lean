import TypedScript.Proofs.Effort

/-!
# Fitting is structural compatibility

The question whether a type fits where another is expected is answered by
unfolding both types, and a pair of interfaces that is met again inside itself
is taken to fit. Here the same is said without an order of unfolding. `Justifies
R s t` lists what makes a pair compatible if the pairs in `R` are; a relation is
`Consistent` if it justifies each of its own pairs, so it may well refer to
itself. Two types are compatible if some consistent relation holds of them.

Main result: a question that is answered at all is answered with yes exactly
if the two types are compatible (`fits?_eq_true_iff`).

For the one direction, an answer given under assumptions only shows
compatibility up to these assumptions (`CompatibleUpto`); an assumption is
discharged where its pair is opened (`CompatibleUpto.discharge`). The other
direction follows the run: a consistent relation is kept from each question to
those further down, so none of them is answered with no.
-/

namespace TypedScript

namespace Table

variable (table : Table)

/-- The shape of a type, whatever effort it takes to tell it. -/
def HasShape (type : Ty) (shape : Shape) : Prop :=
  ∃ effort, table.shape? effort type = some (some shape)

section Justification

variable (R : Ty → Ty → Prop)

/-- Each property of the target is a property of the source of a related type,
and is not optional there if it must not be missing. A property that may be
missing need not be there. -/
def JustifiesShape (source target : Shape) : Prop :=
  ∀ wanted ∈ target,
    match source.find? wanted.name with
    | some found => (wanted.isOptional || !found.isOptional) = true ∧ R found.type wanted.type
    | none => wanted.isOptional = true

/-- The parameters are related against the direction and the results in the
direction of the functions. -/
def JustifiesSignature (source target : Signature) : Prop :=
  (source.params.length = target.params.length ∨ source.isVariadic = true ∨
      target.isVariadic = true) ∧
    (∀ index s t, source.param? index = some s → target.param? index = some t → R t s) ∧
      R source.result target.result

/-- What makes two types compatible if those related by `R` are. -/
def Justifies (source target : Ty) : Prop :=
  source = target ∨ source = .unknown ∨ target = .unknown ∨
    match source, target with
    | .named s, .named t => R (table.expand s) (table.expand t)
    | .named s, _ => R (table.expand s) target
    | _, .named t => R source (table.expand t)
    | .union members, _ => ∀ member ∈ members, R member target
    | _, .union members => ∃ member ∈ members, R source member
    | _, .intersection members => ∀ member ∈ members, R source member
    | .intersection members, _ =>
      (∃ member ∈ members, R member target) ∨
        ∃ shape, table.HasShape (.intersection members) shape ∧ R (.object shape) target
    | .primitive s, .primitive t => s = t
    | .object s, .object t => JustifiesShape R s t
    | .function s, .function t => JustifiesSignature R s t
    | _, _ => False

/-- A relation that justifies each of its own pairs. -/
def Consistent : Prop :=
  ∀ source target, R source target → table.Justifies R source target

end Justification

variable {table} {R S : Ty → Ty → Prop} {source target : Ty}

theorem JustifiesShape.mono (hRS : ∀ s t, R s t → S s t) {source target : Shape}
    (h : JustifiesShape R source target) : JustifiesShape S source target := by
  intro wanted hw
  have hwanted := h wanted hw
  cases hf : source.find? wanted.name with
  | none => rw [hf] at hwanted; exact hwanted
  | some found => rw [hf] at hwanted; exact ⟨hwanted.1, hRS _ _ hwanted.2⟩

theorem JustifiesSignature.mono (hRS : ∀ s t, R s t → S s t) {source target : Signature}
    (h : JustifiesSignature R source target) : JustifiesSignature S source target :=
  ⟨h.1, fun index s t hs ht => hRS t s (h.2.1 index s t hs ht), hRS _ _ h.2.2⟩

theorem Justifies.mono (hRS : ∀ s t, R s t → S s t) (h : table.Justifies R source target) :
    table.Justifies S source target := by
  have hall : ∀ (members : List Ty) (t : Ty), (∀ m ∈ members, R m t) → ∀ m ∈ members, S m t :=
    fun _ t h m hm => hRS m t (h m hm)
  have hall' : ∀ (members : List Ty) (s : Ty), (∀ m ∈ members, R s m) → ∀ m ∈ members, S s m :=
    fun _ s h m hm => hRS s m (h m hm)
  have hany : ∀ (members : List Ty) (t : Ty), (∃ m ∈ members, R m t) → ∃ m ∈ members, S m t :=
    fun _ t ⟨m, hm, h⟩ => ⟨m, hm, hRS m t h⟩
  have hany' : ∀ (members : List Ty) (s : Ty), (∃ m ∈ members, R s m) → ∃ m ∈ members, S s m :=
    fun _ s ⟨m, hm, h⟩ => ⟨m, hm, hRS s m h⟩
  have hshape : ∀ s t, (∃ shape, table.HasShape s shape ∧ R (.object shape) t) →
      ∃ shape, table.HasShape s shape ∧ S (.object shape) t :=
    fun _ t ⟨shape, hs, h⟩ => ⟨shape, hs, hRS _ t h⟩
  unfold Justifies at h ⊢
  refine h.imp_right (Or.imp_right (Or.imp_right fun h => ?_))
  cases source <;> cases target <;>
    first
    | exact hRS _ _ h
    | exact hall _ _ h
    | exact hall' _ _ h
    | exact hany' _ _ h
    | exact h.imp (hany _ _) (hshape _ _)
    | exact JustifiesShape.mono hRS h
    | exact JustifiesSignature.mono hRS h
    | exact h

/-! ## Compatibility under assumptions -/

/-- Two interfaces that are assumed to be compatible. -/
def Assumes (assumed : List (String × String)) (source target : Ty) : Prop :=
  ∃ s t, (s, t) ∈ assumed ∧ source = .named s ∧ target = .named t

variable (table) in
/-- Some relation holds of two types, or they are assumed to be compatible, and
the relation justifies its pairs with the help of the assumptions. -/
def CompatibleUpto (assumed : List (String × String)) (source target : Ty) : Prop :=
  ∃ R : Ty → Ty → Prop,
    (∀ s t, R s t → table.Justifies (fun s t => R s t ∨ Assumes assumed s t) s t) ∧
      (R source target ∨ Assumes assumed source target)

theorem CompatibleUpto.of_justifies {assumed : List (String × String)}
    (h : table.Justifies (table.CompatibleUpto assumed) source target) :
    table.CompatibleUpto assumed source target := by
  refine ⟨table.Justifies (table.CompatibleUpto assumed), fun s t hst => ?_, Or.inl h⟩
  refine hst.mono fun s' t' hc => ?_
  obtain ⟨R, hR, hst'⟩ := hc
  refine hst'.imp_left fun h' => ?_
  exact (hR s' t' h').mono fun a b hab => ⟨R, hR, hab⟩

/-- A pair of interfaces is compatible if its shapes are on the assumption that
the pair is. -/
theorem CompatibleUpto.discharge {assumed : List (String × String)} {s t : String}
    (h : table.CompatibleUpto ((s, t) :: assumed) (table.expand s) (table.expand t)) :
    table.CompatibleUpto assumed (.named s) (.named t) := by
  obtain ⟨R, hR, hst⟩ := h
  have hmore : ∀ a b, R a b ∨ Assumes ((s, t) :: assumed) a b →
      (R a b ∨ a = .named s ∧ b = .named t) ∨ Assumes assumed a b := by
    rintro a b (hab | ⟨s', t', hmem, rfl, rfl⟩)
    · exact Or.inl (Or.inl hab)
    · rcases List.mem_cons.mp hmem with heq | hmem
      · obtain ⟨rfl, rfl⟩ := Prod.mk.inj heq
        exact Or.inl (Or.inr ⟨rfl, rfl⟩)
      · exact Or.inr ⟨s', t', hmem, rfl, rfl⟩
  refine ⟨fun a b => R a b ∨ a = .named s ∧ b = .named t, ?_, Or.inl (Or.inr ⟨rfl, rfl⟩)⟩
  rintro a b (hab | ⟨rfl, rfl⟩)
  · exact (hR a b hab).mono hmore
  · exact Or.inr (Or.inr (Or.inr (hmore _ _ hst)))

/-- Without assumptions a consistent relation remains. -/
theorem CompatibleUpto.consistent (h : table.CompatibleUpto [] source target) :
    ∃ R, table.Consistent R ∧ R source target := by
  have hnone : ∀ s t, ¬Assumes [] s t := by
    intro s t hpost
    obtain ⟨_, _, hmem, _⟩ := hpost
    exact absurd hmem List.not_mem_nil
  obtain ⟨R, hR, hst⟩ := h
  refine ⟨R, fun s t hRst => ?_, hst.resolve_right (hnone source target)⟩
  exact (hR s t hRst).mono fun a b hab => hab.resolve_right (hnone a b)

/-! ## An answer of yes shows compatibility -/

theorem forall_of_allM {α : Type} {p : α → Answer Bool} :
    ∀ {l : List α}, l.allM p = some true → ∀ x ∈ l, p x = some true
  | [], _, x, hx => absurd hx List.not_mem_nil
  | y :: l, h, x, hx => by
    unfold List.allM at h
    cases hy : p y with
    | none => rw [hy] at h; exact absurd h (by simp)
    | some b =>
      rw [hy] at h
      cases b with
      | false => exact absurd h (by simp)
      | true =>
        rcases List.mem_cons.mp hx with rfl | hx
        · exact hy
        · exact forall_of_allM h x hx

theorem exists_of_anyM {α : Type} {p : α → Answer Bool} :
    ∀ {l : List α}, l.anyM p = some true → ∃ x ∈ l, p x = some true
  | [], h => absurd h (by simp)
  | y :: l, h => by
    unfold List.anyM at h
    cases hy : p y with
    | none => rw [hy] at h; exact absurd h (by simp)
    | some b =>
      rw [hy] at h
      cases b with
      | true => exact ⟨y, List.mem_cons_self .., hy⟩
      | false =>
        obtain ⟨x, hx, hpx⟩ := exists_of_anyM (l := l) h
        exact ⟨x, List.mem_cons_of_mem _ hx, hpx⟩

theorem justifiesShape_of_shapeFits {fits : Ty → Ty → Answer Bool} {source target : Shape}
    (h : shapeFits fits source target = some true) :
    JustifiesShape (fun s t => fits s t = some true) source target := by
  intro wanted hw
  have hwanted := forall_of_allM h wanted hw
  cases hf : source.find? wanted.name with
  | none => rw [hf] at hwanted; exact Option.some.inj hwanted
  | some found =>
    rw [hf] at hwanted
    dsimp only at hwanted ⊢
    split at hwanted
    · next hopt => exact ⟨hopt, hwanted⟩
    · exact absurd hwanted (by simp)

/-- From the last listed parameter on, a function takes the same at each place. -/
theorem param?_of_length_le {signature : Signature} {index last : Nat} {type : Ty}
    (hlast : signature.params.length ≤ last + 1) (hle : last ≤ index)
    (h : signature.param? index = some type) : signature.param? last = some type := by
  rcases Nat.eq_or_lt_of_le hle with rfl | hlt
  · exact h
  · unfold Signature.param? at h ⊢
    rw [List.getElem?_eq_none (by omega)] at h
    cases hl : signature.params[last]? with
    | none => exact h
    | some other =>
      have hlen : last = signature.params.length - 1 := by
        have := (List.getElem?_eq_some_iff.mp hl).1
        omega
      rw [hlen, ← List.getLast?_eq_getElem?] at hl
      dsimp only at h ⊢
      split at h
      · rw [← hl, h]
      · exact absurd h (by simp)

theorem justifiesSignature_of_signatureFits {fits : Ty → Ty → Answer Bool}
    {source target : Signature} (h : signatureFits fits source target = some true) :
    JustifiesSignature (fun s t => fits s t = some true) source target := by
  unfold signatureFits at h
  dsimp only at h
  split at h
  · next halike =>
    obtain ⟨paramsFit, hparams, hresult⟩ := Option.bind_eq_some_iff.mp h
    cases paramsFit with
    | false => exact absurd hresult (by simp)
    | true =>
      refine ⟨by simpa [or_assoc] using halike, fun index s t hs ht => ?_, hresult⟩
      -- All places from the last listed one on are like it, so it stands for them.
      obtain ⟨place, hplace, hs', ht'⟩ : ∃ place < max source.params.length target.params.length,
          source.param? place = some s ∧ target.param? place = some t := by
        rcases Nat.lt_or_ge index (max source.params.length target.params.length) with hlt | hge
        · exact ⟨index, hlt, hs, ht⟩
        · refine ⟨max source.params.length target.params.length - 1, ?_,
            param?_of_length_le (by omega) (by omega) hs,
            param?_of_length_le (by omega) (by omega) ht⟩
          rcases Nat.eq_zero_or_pos (max source.params.length target.params.length) with h0 | hpos
          · have hnil : source.params = [] := List.eq_nil_of_length_eq_zero (by omega)
            rw [Signature.param?, hnil] at hs
            exact absurd hs (by simp)
          · omega
      have hfits := forall_of_allM hparams place (List.mem_range.mpr hplace)
      rw [hs', ht'] at hfits
      exact hfits
  · exact absurd h (by simp)

/-- An answer of yes for an intersection comes from one of its members or from
its shape. -/
theorem member_or_shape_of_fits {fits : List (String × String) → Ty → Ty → Answer Bool}
    {assumed : List (String × String)} {members : List Ty}
    (h : (do
      if ← members.anyM (fits assumed · target) then return true
      match ← table.shapeOf? (fits []) source with
      | some shape => fits assumed (.object shape) target
      | none => return false : Answer Bool) = some true) :
    (∃ member ∈ members, fits assumed member target = some true) ∨
      ∃ shape, table.shapeOf? (fits []) source = some (some shape) ∧
        fits assumed (.object shape) target = some true := by
  obtain ⟨isMember, hany, h⟩ := Option.bind_eq_some_iff.mp h
  cases isMember with
  | true => exact Or.inl (exists_of_anyM hany)
  | false =>
    obtain ⟨shape?, hshape, h⟩ := Option.bind_eq_some_iff.mp h
    cases shape? with
    | none => exact absurd h (by simp)
    | some shape => exact Or.inr ⟨shape, hshape, h⟩

/-- An answer of yes justifies its pair by the answers further down, unless the
pair is assumed to be compatible. -/
theorem justifies_of_fitsRule {fits : List (String × String) → Ty → Ty → Answer Bool}
    {assumed : List (String × String)} (h : table.fitsRule fits assumed source target = some true)
    (hshape : ∀ type shape, table.shapeOf? (fits []) type = some (some shape) →
      table.HasShape type shape) :
    (∃ s t, source = .named s ∧ target = .named t ∧
      fits ((s, t) :: assumed) (table.expand s) (table.expand t) = some true) ∨
      Assumes assumed source target ∨
        table.Justifies (fun s t => fits assumed s t = some true) source target := by
  unfold fitsRule at h
  split at h
  · next htrivial => exact Or.inr (Or.inr (htrivial.imp_right (Or.imp_right Or.inl)))
  · next hne =>
    clear hne
    cases source <;> cases target <;> dsimp only at h
    case named.named s t =>
      split at h
      · next hmem => exact Or.inr (Or.inl ⟨s, t, hmem, rfl, rfl⟩)
      · exact Or.inl ⟨s, t, rfl, rfl, h⟩
    all_goals
      refine Or.inr (Or.inr (Or.inr (Or.inr (Or.inr ?_))))
      dsimp only
    all_goals
      first
      | exact h
      | exact forall_of_allM h
      | exact exists_of_anyM h
      | exact (member_or_shape_of_fits h).imp_right fun ⟨shape, hs, ht⟩ =>
          ⟨shape, hshape _ shape hs, ht⟩
      | exact justifiesShape_of_shapeFits h
      | exact justifiesSignature_of_signatureFits h
      | exact absurd h (by simp)

/-- An answer of yes under assumptions shows compatibility up to them. -/
theorem compatibleUpto_of_fitsAssuming (effort : Nat) :
    ∀ assumed source target, table.fitsAssuming effort assumed source target = some true →
      table.CompatibleUpto assumed source target := by
  induction effort with
  | zero => exact fun _ _ _ h => absurd h (by simp [fitsAssuming])
  | succ effort ih =>
    intro assumed source target h
    rcases justifies_of_fitsRule h fun type shape hs => ⟨effort, hs⟩ with
      ⟨s, t, rfl, rfl, hopen⟩ | hassumed | hj
    · exact CompatibleUpto.discharge (ih _ _ _ hopen)
    · exact ⟨fun _ _ => False, fun _ _ hf => hf.elim, Or.inr hassumed⟩
    · exact CompatibleUpto.of_justifies (hj.mono fun s t hst => ih assumed s t hst)

/-! ## Compatible types are never answered with no -/

theorem eq_true_of_allM {α : Type} {p : α → Answer Bool} :
    ∀ {l : List α} {b : Bool}, (∀ x ∈ l, ∀ c, p x = some c → c = true) →
      l.allM p = some b → b = true
  | [], b, _, h => (Option.some.inj h).symm
  | x :: l, b, hall, h => by
    unfold List.allM at h
    obtain ⟨c, hc, h⟩ := Option.bind_eq_some_iff.mp h
    rw [hall x (List.mem_cons_self ..) c hc] at h
    exact eq_true_of_allM (fun y hy => hall y (List.mem_cons_of_mem _ hy)) h

theorem eq_true_of_anyM {α : Type} {p : α → Answer Bool} :
    ∀ {l : List α} {b : Bool}, (∃ x ∈ l, ∀ c, p x = some c → c = true) →
      l.anyM p = some b → b = true
  | [], _, ⟨x, hx, _⟩, _ => absurd hx List.not_mem_nil
  | y :: l, b, ⟨x, hx, hp⟩, h => by
    unfold List.anyM at h
    obtain ⟨c, hc, h⟩ := Option.bind_eq_some_iff.mp h
    cases c with
    | true => exact (Option.some.inj h).symm
    | false =>
      rcases List.mem_cons.mp hx with rfl | hx
      · exact absurd (hp false hc) (by simp)
      · exact eq_true_of_anyM ⟨x, hx, hp⟩ h

section Complete

variable {fits : Ty → Ty → Answer Bool} (hfits : ∀ s t b, R s t → fits s t = some b → b = true)
include hfits

theorem eq_true_of_shapeFits {source target : Shape} {b : Bool}
    (hj : JustifiesShape R source target) (h : shapeFits fits source target = some b) :
    b = true := by
  refine eq_true_of_allM (fun wanted hw c hc => ?_) h
  have hwanted := hj wanted hw
  cases hf : source.find? wanted.name with
  | none =>
    rw [hf] at hwanted hc
    exact (Option.some.inj hc).symm.trans hwanted
  | some found =>
    rw [hf] at hwanted hc
    dsimp only at hwanted hc
    rw [if_pos hwanted.1] at hc
    exact hfits _ _ c hwanted.2 hc

theorem eq_true_of_signatureFits {source target : Signature} {b : Bool}
    (hj : JustifiesSignature R source target) (h : signatureFits fits source target = some b) :
    b = true := by
  unfold signatureFits at h
  dsimp only at h
  rw [if_pos (by simpa [or_assoc] using hj.1)] at h
  obtain ⟨paramsFit, hparams, h⟩ := Option.bind_eq_some_iff.mp h
  have hp : paramsFit = true := by
    refine eq_true_of_allM (fun index _ c hc => ?_) hparams
    cases hs : source.param? index with
    | none => rw [hs] at hc; exact (Option.some.inj hc).symm
    | some s =>
      cases ht : target.param? index with
      | none => rw [hs, ht] at hc; exact (Option.some.inj hc).symm
      | some t =>
        rw [hs, ht] at hc
        exact hfits t s c (hj.2.1 index s t hs ht) hc
  rw [hp] at h
  exact hfits _ _ b hj.2.2 h

end Complete

theorem eq_true_of_member_or_shape {fits : List (String × String) → Ty → Ty → Answer Bool}
    {assumed : List (String × String)} {members : List Ty} {b : Bool}
    (hfits : ∀ s t b, R s t → fits assumed s t = some b → b = true)
    (hshape : ∀ shape shape?, table.HasShape source shape →
      table.shapeOf? (fits []) source = some shape? → shape? = some shape)
    (hj : (∃ member ∈ members, R member target) ∨
      ∃ shape, table.HasShape source shape ∧ R (.object shape) target)
    (h : (do
      if ← members.anyM (fits assumed · target) then return true
      match ← table.shapeOf? (fits []) source with
      | some shape => fits assumed (.object shape) target
      | none => return false : Answer Bool) = some b) : b = true := by
  obtain ⟨isMember, hany, h⟩ := Option.bind_eq_some_iff.mp h
  rcases hj with ⟨member, hm, hR⟩ | ⟨shape, hs, hR⟩
  · have hmember : isMember = true :=
      eq_true_of_anyM (p := fun m => fits assumed m target) ⟨member, hm, fun c => hfits _ _ c hR⟩
        hany
    rw [hmember] at h
    exact (Option.some.inj h).symm
  · cases isMember with
    | true => exact (Option.some.inj h).symm
    | false =>
      obtain ⟨shape?, hs?, h⟩ := Option.bind_eq_some_iff.mp h
      rw [hshape shape shape? hs hs?] at h
      exact hfits _ _ b hR h

/-- A consistent relation is kept from a question to those further down. -/
theorem eq_true_of_consistent (hR : table.Consistent R) (effort : Nat) :
    ∀ assumed source target b, R source target →
      table.fitsAssuming effort assumed source target = some b → b = true := by
  induction effort with
  | zero => exact fun _ _ _ _ _ h => absurd h (by simp [fitsAssuming])
  | succ effort ih =>
    intro assumed source target b hst h
    have hj := hR source target hst
    unfold fitsAssuming fitsRule at h
    split at h
    · exact (Option.some.inj h).symm
    · next hne =>
      rw [not_or, not_or] at hne
      replace hj := ((hj.resolve_left hne.1).resolve_left hne.2.1).resolve_left hne.2.2
      have hdiff := hne.1
      clear hne hst
      cases source <;> cases target <;> dsimp only at h hj
      -- a question about two names may be answered by what is assumed, and that answer is yes
      case named.named s t =>
        split at h
        · exact (Option.some.inj h).symm
        · exact ih _ _ _ b hj h
      all_goals
        first
        | exact ih _ _ _ b hj h
        | exact eq_true_of_allM (fun m hm c => ih _ _ _ c (hj m hm)) h
        | exact eq_true_of_anyM (hj.imp fun m hm => ⟨hm.1, fun c => ih _ _ _ c hm.2⟩) h
        | exact eq_true_of_member_or_shape (ih assumed)
            (fun _ shape? ⟨_, hmore⟩ hs =>
              shape?_unique (show table.shape? effort _ = some shape? from hs) hmore) hj h
        | exact eq_true_of_shapeFits (ih assumed) hj h
        | exact eq_true_of_signatureFits (ih assumed) hj h
        | exact hj.elim
        | exact absurd (congrArg Ty.primitive hj) hdiff

/-! ## Compatible types -/

variable (table) in
/-- Some consistent relation holds of two types. -/
def Compatible (source target : Ty) : Prop :=
  ∃ R, table.Consistent R ∧ R source target

theorem consistent_compatible : table.Consistent table.Compatible := by
  intro source target hst
  obtain ⟨R, hR, hst⟩ := hst
  exact (hR source target hst).mono fun s t h => ⟨R, hR, h⟩

theorem Compatible.refl (type : Ty) : table.Compatible type type :=
  ⟨Eq, fun _ _ heq => Or.inl heq, rfl⟩

theorem Compatible.of_justifies (h : table.Justifies table.Compatible source target) :
    table.Compatible source target :=
  ⟨table.Justifies table.Compatible, fun _ _ hst => hst.mono consistent_compatible, h⟩

theorem Compatible.of_fits {effort : Nat} (h : table.fits? effort source target = some true) :
    table.Compatible source target :=
  (compatibleUpto_of_fitsAssuming effort [] source target h).consistent

theorem Compatible.eq_true {effort : Nat} {answer : Bool} (h : table.Compatible source target)
    (hanswer : table.fits? effort source target = some answer) : answer = true :=
  eq_true_of_consistent consistent_compatible effort [] source target answer h hanswer

variable (table) in
/-- Whether a type fits where another is expected, whatever effort it takes to
tell. -/
def Fits (source target : Ty) : Prop :=
  ∃ effort, table.fits? effort source target = some true

variable (table) in
/-- A type with its name opened, if it is one. -/
def opened : Ty → Ty
  | .named name => table.expand name
  | other => other

variable (table) in
/-- Behind a name there is the shape of an interface or nothing that is known. -/
theorem expand_eq (name : String) :
    (∃ shape, table.expand name = .object shape) ∨ table.expand name = .unknown := by
  unfold expand
  split
  · next shape _ => exact Or.inl ⟨shape, rfl⟩
  · exact Or.inr rfl

theorem opened_ne_named (type : Ty) (name : String) : table.opened type ≠ .named name := by
  cases type with
  | named other =>
    show table.expand other ≠ .named name
    rcases table.expand_eq other with ⟨shape, heq⟩ | heq <;> simp [heq]
  | _ => simp [opened]

theorem opened_opened (type : Ty) : table.opened (table.opened type) = table.opened type := by
  cases hopened : table.opened type with
  | named name => exact absurd hopened (opened_ne_named type name)
  | _ => rfl

/-- Names are opened before anything else is compared. -/
theorem compatible_opened :
    table.Compatible (table.opened source) (table.opened target) ↔
      table.Compatible source target := by
  constructor
  · intro h
    cases source <;> cases target <;>
      first | exact h | exact .of_justifies (Or.inr (Or.inr (Or.inr h)))
  · intro h
    have hj := consistent_compatible source target h
    unfold Justifies at hj
    rcases hj with rfl | rfl | rfl | hj
    · exact .refl _
    · exact .of_justifies (Or.inr (Or.inl rfl))
    · exact .of_justifies (Or.inr (Or.inr (Or.inl rfl)))
    · cases source <;> cases target <;> first | exact h | exact hj

theorem compatible_opened_left :
    table.Compatible (table.opened source) target ↔ table.Compatible source target := by
  rw [← compatible_opened, opened_opened, compatible_opened]

theorem compatible_opened_right :
    table.Compatible source (table.opened target) ↔ table.Compatible source target := by
  rw [← compatible_opened, opened_opened, compatible_opened]

/-- The answer to the question of fitting is yes exactly if the two types are
compatible: a consistent relation holds of them. -/
theorem fits?_eq_true_iff {effort : Nat} {answer : Bool}
    (h : table.fits? effort source target = some answer) :
    answer = true ↔ ∃ R, table.Consistent R ∧ R source target := by
  constructor
  · rintro rfl
    exact (compatibleUpto_of_fitsAssuming effort [] source target h).consistent
  · intro h
    obtain ⟨R, hR, hst⟩ := h
    exact eq_true_of_consistent hR effort [] source target answer hst h

/-- Two interfaces that refer to each other in turn are each compatible with one
that refers to itself, and the question is answered. -/
theorem fits?_eq_true_iff_in_turn :
    let table : Table := ⟨.ofList
      [("Even", [⟨"next", .named "Odd", false⟩]), ("Odd", [⟨"next", .named "Even", false⟩]),
        ("Link", [⟨"next", .named "Link", false⟩])]⟩
    table.fits? 6 (.named "Even") (.named "Link") = some true ∧
      ∃ R, table.Consistent R ∧ R (.named "Even") (.named "Link") := by
  intro table
  have h : table.fits? 6 (.named "Even") (.named "Link") = some true := by decide +kernel
  exact ⟨h, (fits?_eq_true_iff h).mp rfl⟩

end Table

end TypedScript
