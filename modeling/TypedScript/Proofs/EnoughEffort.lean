import TypedScript.Proofs.Effort
import TypedScript.Proofs.Parts

/-!
# How much effort is enough

A comparison of two types looks up the interfaces that they name. A pair of
names is assumed to fit once it has been looked up, so each pair is looked up
only once; but a name compared with a union or an object type is looked up
without a note of it, and then a comparison need not end.

Whether it does can be told beforehand. Without intersections it stays within
the parts of the two types and of the interfaces, which are finitely many. While
the assumptions are the same, an effort that settles no further pair of them
settles none ever after (`exists_stall`), and the assumptions can grow only as
often as there are pairs. So a comparison that ends at all ends with the effort
`enoughEffort`, and whether it ends is decided by trying that
(`fits?_ends_iff_of_reach`).
-/

namespace TypedScript

open Answer

/-! ## Growing sets in a list -/

theorem countP_lt_countP {α : Type} {p q : α → Bool} {l : List α}
    (h : ∀ x ∈ l, p x = true → q x = true) {x : α} (hx : x ∈ l) (hp : p x = false)
    (hq : q x = true) : l.countP p < l.countP q := by
  obtain ⟨before, after, rfl⟩ := List.append_of_mem hx
  have hbefore : before.countP p ≤ before.countP q :=
    List.countP_mono_left fun y hy => h y (List.mem_append_left _ hy)
  have hafter : after.countP p ≤ after.countP q :=
    List.countP_mono_left fun y hy => h y (List.mem_append_right _ (List.mem_cons_of_mem _ hy))
  rw [List.countP_append, List.countP_append, List.countP_cons_of_neg (by simp [hp]),
    List.countP_cons_of_pos hq]
  omega

/-- A property of the elements of a list that only ever comes to hold of more of
them comes to hold of no more within as many steps as there are elements. -/
theorem exists_stall {α : Type} {holds : Nat → α → Bool}
    (hgrow : ∀ n x, holds n x = true → holds (n + 1) x = true) (l : List α) (start : Nat) :
    ∃ n, start ≤ n ∧ n ≤ start + l.length ∧ ∀ x ∈ l, holds (n + 1) x = true → holds n x = true := by
  apply Classical.byContradiction
  intro hnone
  have hnew : ∀ n, start ≤ n → n ≤ start + l.length →
      ∃ x ∈ l, holds n x = false ∧ holds (n + 1) x = true := by
    intro n hfrom hto
    apply Classical.byContradiction
    intro hold
    refine hnone ⟨n, hfrom, hto, fun x hx hnext => ?_⟩
    cases hn : holds n x with
    | true => rfl
    | false => exact absurd ⟨x, hx, hn, hnext⟩ hold
  have hcount : ∀ j, j ≤ l.length + 1 → j ≤ l.countP (holds (start + j)) := by
    intro j
    induction j with
    | zero => intro _; exact Nat.zero_le _
    | succ j ih =>
      intro hj
      obtain ⟨x, hx, hn, hnext⟩ := hnew (start + j) (by omega) (by omega)
      have hlt := countP_lt_countP (fun y _ => hgrow (start + j) y) hx hn hnext
      have := ih (by omega)
      rw [← Nat.add_assoc]
      omega
  have := hcount (l.length + 1) (Nat.le_refl _)
  have : l.countP (holds (start + (l.length + 1))) ≤ l.length := List.countP_le_length
  omega

namespace Table

variable {table : Table}

/-! ## Comparisons within finitely many types -/

/-- The pairs of some types. -/
def pairs (types : List Ty) : List (Ty × Ty) :=
  types.flatMap fun s => types.map fun t => (s, t)

theorem mem_pairs {types : List Ty} {s t : Ty} : (s, t) ∈ pairs types ↔ s ∈ types ∧ t ∈ types := by
  simp [pairs]

/-- Whether two types are names that are not assumed to fit yet. -/
def isFresh (assumed : List (String × String)) : Ty × Ty → Bool
  | (.named a, .named b) => !assumed.contains (a, b)
  | _ => false

/-- How many pairs of names among some types can still be assumed to fit. -/
def freshCount (types : List Ty) (assumed : List (String × String)) : Nat :=
  (pairs types).countP (isFresh assumed)

theorem freshCount_cons_lt {types : List Ty} {assumed : List (String × String)} {a b : String}
    (ha : .named a ∈ types) (hb : .named b ∈ types) (hnot : (a, b) ∉ assumed) :
    freshCount types ((a, b) :: assumed) < freshCount types assumed := by
  refine countP_lt_countP ?_ (mem_pairs.mpr ⟨ha, hb⟩) (by simp [isFresh]) (by simp [isFresh, hnot])
  rintro ⟨s, t⟩ _ hfresh
  unfold isFresh at hfresh ⊢
  split at hfresh
  · rw [List.contains_cons, Bool.not_or, Bool.and_eq_true] at hfresh
    exact hfresh.2
  · exact absurd hfresh (by simp)

section Finite

variable {types : List Ty} (hclosed : table.Closed (· ∈ types))
  (hplain : ∀ type ∈ types, type.isIntersection = false)
include hclosed hplain

/-- If a little more effort settles no further pair, no effort does, provided
that this is so whenever one more pair of names is assumed to fit. -/
theorem fitsAssuming_upto_of_stall {assumed : List (String × String)} {effort : Nat}
    (hstall : ∀ s ∈ types, ∀ t ∈ types, Upto (table.fitsAssuming (effort + 1) assumed s t)
      (table.fitsAssuming effort assumed s t))
    (hopen : ∀ a b, (a, b) ∉ assumed → .named a ∈ types → .named b ∈ types →
      ∀ more, ∀ s ∈ types, ∀ t ∈ types, Upto (table.fitsAssuming more ((a, b) :: assumed) s t)
        (table.fitsAssuming effort ((a, b) :: assumed) s t))
    (more : Nat) : ∀ s ∈ types, ∀ t ∈ types, Upto (table.fitsAssuming more assumed s t)
      (table.fitsAssuming effort assumed s t) := by
  induction more with
  | zero => intro _ _ _ _; exact upto_none
  | succ more ih =>
    intro s hs t ht answer hanswer
    refine hstall s hs t ht answer ?_
    refine fitsRule_upto hclosed (fun s t hs ht => ih s hs t ht) ?_ ?_ hs ht answer hanswer
    · intro a b hnot ha hb
      exact hopen a b hnot ha hb more _ (hclosed.expand _ ha) _ (hclosed.expand _ hb)
    · intro members hm
      exact absurd (hplain _ hm) (by simp [Ty.isIntersection])

/-- For each pair of names that can still be assumed to fit, as much effort is
enough as there are pairs of types. -/
theorem fitsAssuming_upto_enough (count : Nat) :
    ∀ assumed, freshCount types assumed < count → ∀ more, ∀ s ∈ types, ∀ t ∈ types,
      Upto (table.fitsAssuming more assumed s t)
        (table.fitsAssuming (count * (pairs types).length) assumed s t) := by
  induction count with
  | zero => intro assumed hcount; exact absurd hcount (Nat.not_lt_zero _)
  | succ count ih =>
    intro assumed hcount more s hs t ht
    have hgrow : ∀ n (q : Ty × Ty), (table.fitsAssuming n assumed q.1 q.2).isSome = true →
        (table.fitsAssuming (n + 1) assumed q.1 q.2).isSome = true := by
      intro n q hq
      obtain ⟨answer, hanswer⟩ := Option.isSome_iff_exists.mp hq
      exact Option.isSome_iff_exists.mpr ⟨answer, fitsAssuming_upto_succ _ _ _ _ _ hanswer⟩
    -- each effort answers more questions than the one before or no more, and there are finitely
    -- many, so within as much effort as there are pairs one effort adds nothing
    obtain ⟨effort, hfrom, hto, hstall⟩ :=
      exists_stall hgrow (pairs types) (count * (pairs types).length)
    have hlast : ∀ s ∈ types, ∀ t ∈ types, Upto (table.fitsAssuming (effort + 1) assumed s t)
        (table.fitsAssuming effort assumed s t) := by
      intro s hs t ht answer hanswer
      obtain ⟨before, hbefore⟩ := Option.isSome_iff_exists.mp
        (hstall (s, t) (mem_pairs.mpr ⟨hs, ht⟩) (Option.isSome_iff_exists.mpr ⟨answer, hanswer⟩))
      rw [hbefore, ← hanswer]
      exact (fitsAssuming_upto_succ _ _ _ _ _ hbefore).symm
    -- at such an effort all answers are there, those under one more assumption by induction
    have hsettled := fitsAssuming_upto_of_stall hclosed hplain hlast
      (fun a b hnot ha hb more s hs t ht answer hanswer =>
        fitsAssuming_upto hfrom _ _ _ _
          (ih _ (by have := freshCount_cons_lt ha hb hnot; omega) more s hs t ht answer hanswer))
    intro answer hanswer
    refine fitsAssuming_upto ?_ _ _ _ _ (hsettled more s hs t ht answer hanswer)
    rw [Nat.succ_mul]
    exact hto

/-- Among finitely many types that no comparison leaves, all that can be
answered is answered with an effort that is known beforehand. -/
theorem fits?_upto_enough (more : Nat) {s t : Ty} (hs : s ∈ types) (ht : t ∈ types) :
    Upto (table.fits? more s t)
      (table.fits? (((pairs types).length + 1) * (pairs types).length) s t) :=
  fitsAssuming_upto_enough hclosed hplain _ []
    (Nat.lt_succ_of_le List.countP_le_length) more s hs t ht

end Finite

/-! ## Comparisons without intersections -/

/-- The parts of the shapes of the interfaces. -/
def parts (table : Table) : List Ty :=
  table.interfaces.entries.flatMap fun entry => (Ty.object entry.2).parts

/-- All types that can come up when two types are compared. -/
def reach (table : Table) (source target : Ty) : List Ty :=
  .unknown :: (source.parts ++ target.parts ++ table.parts)

theorem mem_reach_of_mem_parts {source target x y : Ty} (hx : x ∈ table.reach source target)
    (hy : y ∈ x.parts) : y ∈ table.reach source target := by
  rcases List.mem_cons.mp hx with rfl | hx
  · rw [List.mem_singleton.mp hy]
    exact List.mem_cons_self ..
  · refine List.mem_cons_of_mem _ ?_
    simp only [parts, List.mem_append, List.mem_flatMap] at hx ⊢
    rcases hx with (hx | hx) | ⟨entry, hentry, hx⟩
    · exact Or.inl (Or.inl (Ty.parts_trans source hx hy))
    · exact Or.inl (Or.inr (Ty.parts_trans target hx hy))
    · exact Or.inr ⟨entry, hentry, Ty.parts_trans _ hx hy⟩

theorem source_mem_reach (source target : Ty) : source ∈ table.reach source target :=
  List.mem_cons_of_mem _ (List.mem_append_left _ (List.mem_append_left _ source.mem_parts_self))

theorem target_mem_reach (source target : Ty) : target ∈ table.reach source target :=
  List.mem_cons_of_mem _ (List.mem_append_left _ (List.mem_append_right _ target.mem_parts_self))

theorem expand_mem_reach (source target : Ty) (name : String) :
    table.expand name ∈ table.reach source target := by
  unfold expand
  cases hname : table.interface? name with
  | none => exact List.mem_cons_self ..
  | some shape =>
    refine List.mem_cons_of_mem _ (List.mem_append_right _ (List.mem_flatMap.mpr ?_))
    exact ⟨(name, shape), Record.mem_entries_of_get? hname, Ty.mem_parts_self _⟩

/-- A comparison without intersections does not lead out of the parts of the two
types and of the interfaces. -/
theorem closed_reach {source target : Ty}
    (hplain : ∀ type ∈ table.reach source target, type.isIntersection = false) :
    table.Closed (· ∈ table.reach source target) where
  expand name _ := expand_mem_reach source target name
  union _ hu m hm :=
    mem_reach_of_mem_parts hu (Ty.mem_parts_union.mpr (Or.inr ⟨m, hm, m.mem_parts_self⟩))
  intersection _ hi := absurd (hplain _ hi) (by simp [Ty.isIntersection])
  shape _ hi := absurd (hplain _ hi) (by simp [Ty.isIntersection])
  property _ ho p hp := mem_reach_of_mem_parts ho
    (Ty.mem_parts_object.mpr (Or.inr ⟨p, hp, p.type.mem_parts_self⟩))
  param _ hf p hp := mem_reach_of_mem_parts hf
    (Ty.mem_parts_function.mpr (Or.inr (Or.inl ⟨p, hp, p.mem_parts_self⟩)))
  result signature hf := mem_reach_of_mem_parts hf
    (Ty.mem_parts_function.mpr (Or.inr (Or.inr signature.result.mem_parts_self)))

/-- As much effort as a comparison can need: for each pair of types, and once
more, one step for each pair of types. -/
def enoughEffort (table : Table) (source target : Ty) : Nat :=
  ((pairs (table.reach source target)).length + 1) * (pairs (table.reach source target)).length

theorem fits?_ends_iff_of_reach {source target : Ty}
    (hplain : ∀ type ∈ table.reach source target, type.isIntersection = false) :
    (∃ effort answer, table.fits? effort source target = some answer) ↔
      (table.fits? (table.enoughEffort source target) source target).isSome := by
  constructor
  · intro h
    obtain ⟨effort, answer, hanswer⟩ := h
    refine Option.isSome_iff_exists.mpr ⟨answer, ?_⟩
    exact fits?_upto_enough (closed_reach hplain) hplain effort (source_mem_reach source target)
      (target_mem_reach source target) answer hanswer
  · intro hsome
    obtain ⟨answer, hanswer⟩ := Option.isSome_iff_exists.mp hsome
    exact ⟨_, answer, hanswer⟩

end Table

end TypedScript
