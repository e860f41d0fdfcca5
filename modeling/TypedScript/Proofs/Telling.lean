import TypedScript.Proofs.Keeping
import TypedScript.Proofs.TypeProblems

/-!
# What the diagnostics of a program say

A diagnostic about one type where another is expected comes from a question: whether the one
fits where the other is expected, or whether the members of an intersection contradict each
other. So what holds of all diagnostics that such questions can give rise to, and of all that
are about something else, holds of each diagnostic of a program (`Program.diagnostics_told`).

A type fits where itself is expected, and no type contradicts itself. So no diagnostic names
one type twice (`Program.mismatch_ne`).
-/

namespace TypedScript

/-! ## Told diagnostics -/

namespace Check

variable {Told : Diagnostic → Prop}

/-- If all diagnostics of one stage are as told, so are those of another. -/
def KeepsTold (Told : Diagnostic → Prop) (k k' : Knowledge) : Prop :=
  (∀ d ∈ k.diagnostics, Told d) → ∀ d ∈ k'.diagnostics, Told d

theorem KeepsTold.trans (a b c : Knowledge) (h : KeepsTold Told a b) (h' : KeepsTold Told b c) :
    KeepsTold Told a c :=
  fun ha => h' (h ha)

theorem KeepsTold.of_eq {k k' : Knowledge} (h : k'.diagnostics = k.diagnostics) :
    KeepsTold Told k k' := by
  intro hk
  rw [h]
  exact hk

theorem enter_keepsTold (hdeclared : ∀ name position, Told ⟨.duplicateDeclaration name, position⟩)
    (name : String) (binding : Binding) : Keeps (KeepsTold Told) (Check.enter name binding) := by
  intro k u k' h
  rw [enter_eq_ok.mp h]
  split
  · exact .of_eq rfl
  · split
    · exact fun hk => List.forall_mem_append.mpr
        ⟨hk, List.forall_mem_singleton.mpr (hdeclared _ _)⟩
    · exact .of_eq rfl

theorem declareParams_keepsTold
    (hdeclared : ∀ name position, Told ⟨.duplicateDeclaration name, position⟩)
    (params : List Parameter) (types : List Ty) :
    Keeps (KeepsTold Told) (declareParams params types) := by
  induction params generalizing types with
  | nil => intro k u k' h; cases h; exact .of_eq rfl
  | cons param params ih =>
    cases types with
    | nil => intro k u k' h; cases h; exact .of_eq rfl
    | cons type types =>
      exact Keeps.bind KeepsTold.trans (enter_keepsTold hdeclared _ _) fun _ => ih types

/-- Only what is told is added to the diagnostics. -/
theorem told_discipline (hdeclared : ∀ name position, Told ⟨.duplicateDeclaration name, position⟩) :
    Discipline (KeepsTold Told) (KeepsTold Told) (fun _ _ _ => True) Told where
  refl _ := .of_eq rfl
  trans := KeepsTold.trans
  trans' := KeepsTold.trans
  le _ _ h := h
  reportAll found hfound k u k' h := by
    cases h
    exact fun hk => List.forall_mem_append.mpr ⟨hk, hfound⟩
  refine name type k u k' h := by cases h; exact .of_eq rfl
  enter := enter_keepsTold hdeclared
  noteReturn type k u k' h := by cases h; exact .of_eq rfl
  inScope hx k u k' h := by
    obtain ⟨k₁, h₁, rfl⟩ := inScope_eq_ok.mp h
    have hbody := hx _ _ _ h₁
    exact hbody
  inBody params types declared? receiver hx k returns k' h := by
    obtain ⟨k₁, h₁, rfl⟩ := inScope_eq_ok.mp h
    obtain ⟨_, k₂, h₂, h₃⟩ := bind_eq_ok.mp h₁
    obtain ⟨k₄, h₄, _, rfl⟩ := inFunction_eq_ok.mp h₃
    have hparams := declareParams_keepsTold hdeclared params types _ _ _ h₂
    have hbody := hx _ _ _ h₄
    exact fun hk => hbody (hparams hk)
  inferring _ hx k a k' h := by
    obtain ⟨k₁, h₁, rfl⟩ := inferring_eq_ok.mp h
    have hbody := hx _ _ _ h₁
    exact hbody
  infer _ _ _ _ _ _ _ h := by
    obtain ⟨k₁, h₁, rfl⟩ := aside_eq_ok.mp h
    exact .of_eq rfl

end Check

/-- Each diagnostic of a program is as told, if that holds of what questions about types give
rise to and of all that is about something else. -/
theorem Program.diagnostics_told (Told : Diagnostic → Prop) {program : Program} {effort : Nat}
    (hmismatch : ∀ {found expected position},
      program.table.fits? effort found expected = some false →
        Told ⟨.mismatch expected found, position⟩)
    (hconflict : ∀ {types expected found} position,
      program.table.conflict? effort types = some (some (expected, found)) →
        Told ⟨.mismatch expected found, position⟩)
    (hother : ∀ {cause position}, (∀ expected found, cause ≠ .mismatch expected found) →
      Told ⟨cause, position⟩)
    {fuel : Nat} {diagnostics : List Diagnostic} (h : program.check effort fuel = .ok diagnostics) :
    ∀ d ∈ diagnostics, Told d := by
  have hproblems : program.table.Tells effort Told :=
    ⟨fun _ _ => hother nofun, fun _ _ => hother nofun, hconflict⟩
  have htells : Checker.Tells program.table effort Told :=
    ⟨hmismatch, hproblems.problems, hother⟩
  have hkeeps := checker_keeps (Check.told_discipline fun _ _ => hother nofun) program.table effort
    fuel fun _ _ _ _ _ _ _ => trivial
  rw [Program.check_eq, Program.checkBy] at h
  cases hfound : program.interfaceProblems? effort with
  | none => rw [hfound] at h; cases h
  | some problems =>
    rw [hfound] at h
    cases hwhole : Check.inScope (Block.checkAll program.table effort fuel program.statements)
        Knowledge.initial with
    | error unfinished k => rw [hwhole] at h; cases h
    | ok u k =>
      rw [hwhole] at h
      cases h
      -- the check starts without diagnostics, so all of them are those of the interfaces and rows
      obtain ⟨k₁, hrow, rfl⟩ := Check.inScope_eq_ok.mp hwhole
      have hstatements := hkeeps.checkAll _ _ _ _ hrow (List.forall_mem_nil Told)
      exact List.forall_mem_append.mpr
        ⟨program.interfaceProblems_told hproblems hfound, hstatements⟩

/-! ## Two types in a diagnostic -/

namespace Table

variable {table : Table} {effort : Nat}

/-- A type fits where itself is expected. -/
theorem ne_of_fits? {source target : Ty} (h : table.fits? effort source target = some false) :
    source ≠ target := by
  rintro rfl
  unfold fits? at h
  cases effort with
  | zero => cases h
  | succ effort =>
    rw [fitsAssuming] at h
    unfold fitsRule at h
    rw [if_pos (.inl rfl)] at h
    cases h

/-- What is found in a row of questions is an answer to one of them. -/
theorem exists_of_findSomeM? {α β : Type} {f : α → Answer (Option β)} {l : List α} {b : β}
    (h : l.findSomeM? f = some (some b)) : ∃ a ∈ l, f a = some (some b) := by
  induction l with
  | nil => cases h
  | cons a rest ih =>
    rw [List.findSomeM?] at h
    obtain ⟨found?, hfound, h⟩ := Option.bind_eq_some_iff.mp h
    cases found? with
    | some found =>
      cases h
      exact ⟨a, List.mem_cons_self, hfound⟩
    | none =>
      obtain ⟨other, hother, hgives⟩ := ih h
      exact ⟨other, List.mem_cons_of_mem _ hother, hgives⟩

/-- The types of a property on which two shapes disagree are different. -/
theorem ne_of_clashOfShapes? {first second : Shape} {expected found : Ty}
    (h : table.clashOfShapes? effort first second = some (some (expected, found))) :
    expected ≠ found := by
  obtain ⟨property, -, hclash⟩ := exists_of_findSomeM? h
  cases hother : second.find? property.name with
  | none => rw [hother] at hclash; cases hclash
  | some other =>
    rw [hother] at hclash
    obtain ⟨fits, hfits, hclash⟩ := Option.bind_eq_some_iff.mp hclash
    cases fits with
    | true => cases hclash
    | false =>
      obtain ⟨fits', hfits', hclash⟩ := Option.bind_eq_some_iff.mp hclash
      cases fits' with
      | true => cases hclash
      | false =>
        cases hclash
        exact ne_of_fits? hfits'

/-- The types that contradict each other are different. -/
theorem ne_of_clash? {first second expected found : Ty}
    (h : table.clash? effort first second = some (some (expected, found))) :
    expected ≠ found := by
  by_cases hprimitive : ∃ a b, first = .primitive a ∧ second = .primitive b
  · obtain ⟨a, b, rfl, rfl⟩ := hprimitive
    rw [clash?] at h
    by_cases hab : a = b
    · rw [if_pos hab] at h
      cases h
    · rw [if_neg hab] at h
      cases h
      simpa using hab
  · rw [clash?.eq_2 _ _ _ _ fun a b ha hb => hprimitive ⟨a, b, ha, hb⟩] at h
    obtain ⟨shape?, -, h⟩ := Option.bind_eq_some_iff.mp h
    obtain ⟨shape'?, -, h⟩ := Option.bind_eq_some_iff.mp h
    split at h
    · exact ne_of_clashOfShapes? h
    · cases h

theorem ne_of_conflict? {types : List Ty} {expected found : Ty}
    (h : table.conflict? effort types = some (some (expected, found))) : expected ≠ found := by
  induction types with
  | nil => cases h
  | cons first rest ih =>
    rw [conflict?] at h
    obtain ⟨clash, hclash, h⟩ := Option.bind_eq_some_iff.mp h
    cases clash with
    | none => exact ih h
    | some clash =>
      cases h
      obtain ⟨second, -, hclash⟩ := exists_of_findSomeM? hclash
      exact ne_of_clash? hclash

end Table

/-- No diagnostic names one type as what is found and as what is expected. -/
theorem Program.mismatch_ne {program : Program} {effort fuel : Nat}
    {diagnostics : List Diagnostic} (h : program.check effort fuel = .ok diagnostics)
    {expected found : Ty} {position : Position}
    (hd : ⟨.mismatch expected found, position⟩ ∈ diagnostics) : expected ≠ found := by
  refine Program.diagnostics_told (fun d => ∀ expected found,
    d.cause = .mismatch expected found → expected ≠ found) ?_ ?_ ?_ h _ hd expected found rfl
  · intro found expected position hfits expected' found' heq
    cases heq
    exact (Table.ne_of_fits? hfits).symm
  · intro types expected found position hconflict expected' found' heq
    cases heq
    exact Table.ne_of_conflict? hconflict
  · intro cause position hother expected found heq
    exact absurd heq (hother expected found)

end TypedScript
