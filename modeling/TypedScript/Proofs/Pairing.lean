import TypedScript.Proofs.Agreement

/-!
# Frames in pairs

A loop with a header copies the frame of its variables before each update, and a loop
with a condition only, in a block, keeps one frame for them and makes a new one for
each round. So the frames of two such loops cannot be the same. A `Pairing` says which
frames of two stores correspond while a round is under way, and in what `Setting`: in
the functions that the loop calls, in the frame of its variables, in a frame of its
body, and, between the body and the next round, in the frame that is only there for
one of the loops and has no names in it.

Two stores are `InPairs` if frames that correspond are alike, so that names have the
same values in them (`InPairs.lookup?_eq`). The two loops begin in frames that
correspond (`InPairs.add`), and after each round the copy takes the place of the
frame it was made from (`InPairs.next`).
-/

namespace TypedScript

/-- Where a part of a program stands with regard to a loop. -/
inductive Setting where
  /-- In a function, and so not in the loop itself. -/
  | outside
  /-- In the frame of the variables of the loop. -/
  | header
  /-- In a frame of the body. -/
  | inside
  /-- After the body and before the next round. -/
  | between
deriving DecidableEq

namespace Setting

/-- Between two rounds there is an update only, which declares nothing. -/
def isOpen : Setting → Bool
  | .between => false
  | _ => true

/-- The setting of a new frame. -/
def enter : Setting → Setting
  | .outside => .outside
  | _ => .inside

/-- The settings that the parent of a frame may have. -/
def mayHaveParent : Setting → Setting → Bool
  | .inside, _ => true
  | _, j => j = .outside

theorem isOpen_enter (i : Setting) : i.enter.isOpen = true := by
  cases i <;> rfl

theorem mayHaveParent_enter (i : Setting) : i.enter.mayHaveParent i = true := by
  cases i <;> rfl

end Setting

namespace Survey

/-- The survey of the settings of a loop: functions are made outside only. -/
def settings : Survey Setting where
  expr _ _ := true
  stmt _ _ := true
  function i _ := i = .outside
  isOpen := Setting.isOpen
  declare i _ := i
  enter := Setting.enter

/-- The survey of what makes no function at all. -/
def noFunctions : Survey Unit where
  expr _ _ := true
  stmt _ _ := true
  function _ _ := false
  isOpen _ := true
  declare _ _ := ()
  enter _ := ()

/-- What makes no function may stand in any setting. -/
theorem noFunctions_refines :
    noFunctions.Refines settings (fun _ i => i.isOpen = true) fun _ _ => True where
  loosen _ := trivial
  expr _ _ := rfl
  stmt _ _ := rfl
  function _ h := by cases h
  isOpen h _ := h
  declare _ h := h
  enter {_ i} _ := i.isOpen_enter

/-- What makes functions as it likes stands outside. -/
theorem nothing_refines : nothing.Refines settings (fun _ i => i = .outside) fun _ i =>
    i = .outside where
  loosen h := h
  expr _ _ := rfl
  stmt _ _ := rfl
  function h _ := decide_eq_true h
  isOpen h _ := h ▸ rfl
  declare _ h := h
  enter h := by rw [h]; rfl

end Survey

/-- Frames that are the same but for their parents, which correspond. -/
structure Frame.Alike (R : FrameId → FrameId → Prop) (p q : Frame) : Prop where
  bindings : p.bindings = q.bindings
  isCall : p.isCall = q.isCall
  receiver : p.receiver? = q.receiver?
  parent : Option.Rel R p.parent? q.parent?

/-- Two frames that are alike both have a parent, or neither has one. -/
theorem Frame.Alike.parents {R : FrameId → FrameId → Prop} {p q : Frame} (h : p.Alike R q) :
    p.parent? = none ∧ q.parent? = none ∨
      ∃ f g, p.parent? = some f ∧ q.parent? = some g ∧ R f g := by
  have hparent := h.parent
  generalize p.parent? = f? at hparent ⊢
  generalize q.parent? = g? at hparent ⊢
  cases hparent with
  | some hfg => exact .inr ⟨_, _, rfl, rfl, hfg⟩
  | none => exact .inl ⟨rfl, rfl⟩

theorem Frame.Alike.mono {R R' : FrameId → FrameId → Prop} {p q : Frame} (h : p.Alike R q)
    (himp : ∀ f g, p.parent? = some f → q.parent? = some g → R f g → R' f g) : p.Alike R' q := by
  refine ⟨h.bindings, h.isCall, h.receiver, ?_⟩
  rcases h.parents with ⟨hp, hq⟩ | ⟨f, g, hp, hq, hfg⟩
  · rw [hp, hq]
    exact .none
  · rw [hp, hq]
    exact .some (himp f g hp hq hfg)

/-- The frames of two stores that correspond in a setting. -/
abbrev Pairing := Setting → FrameId → FrameId → Prop

namespace Pairing

variable {w : Pairing} {s t : Store} {i j : Setting} {f g : FrameId}

/-- The frame that is there for one loop only, inside a given one. -/
def spare (g : FrameId) : Frame := ⟨.empty, some g, false, none⟩

/-- Frames that correspond in a setting where names may be declared. -/
def Owns (w : Pairing) (f g : FrameId) : Prop :=
  ∃ i, i.isOpen = true ∧ w i f g

/-- Frames that may be the parents of frames in a setting. -/
def Parents (w : Pairing) (i : Setting) (f g : FrameId) : Prop :=
  ∃ j, i.mayHaveParent j = true ∧ w j f g

/-- Two stores whose frames correspond as a pairing says. -/
structure InPairs (w : Pairing) (s t : Store) : Prop where
  left : s.Ordered
  right : t.Ordered
  alike : ∀ {i f g}, i.isOpen = true → w i f g →
    ∃ p q, s.frame? f = some p ∧ t.frame? g = some q ∧ p.Alike (w.Parents i) q
  single : ∀ {i j f g f' g'}, i.isOpen = true → j.isOpen = true → w i f g → w j f' g' →
    (f = f' ↔ g = g') ∧ (f = f' → i = j)
  between : ∀ {f k}, w .between f k → ∃ g, w .header f g ∧ t.frame? k = some (spare g)
  free : ∀ {i f f' k}, w .between f k → i.isOpen = true → ¬w i f' k

namespace InPairs

/-- Frames that correspond exist. -/
theorem left_lt (h : w.InPairs s t) (hfg : w i f g) : f.index < s.frames.size := by
  cases hopen : i.isOpen with
  | true =>
    obtain ⟨p, q, hp, _, _⟩ := h.alike hopen hfg
    exact Store.index_lt_of_frame? hp
  | false =>
    cases i with
    | between =>
      obtain ⟨g', hheader, _⟩ := h.between hfg
      obtain ⟨p, q, hp, _, _⟩ := h.alike rfl hheader
      exact Store.index_lt_of_frame? hp
    | _ => cases hopen

theorem right_lt (h : w.InPairs s t) (hfg : w i f g) : g.index < t.frames.size := by
  cases hopen : i.isOpen with
  | true =>
    obtain ⟨p, q, _, hq, _⟩ := h.alike hopen hfg
    exact Store.index_lt_of_frame? hq
  | false =>
    cases i with
    | between =>
      obtain ⟨g', _, hspare⟩ := h.between hfg
      exact Store.index_lt_of_frame? hspare
    | _ => cases hopen

/-- What frames that correspond pass on to their children, and to the frame that is
there for one loop only. -/
theorem induction (h : w.InPairs s t) {P : FrameId → FrameId → Prop}
    (hboth : ∀ {i f g p q}, i.isOpen = true → w i f g → s.frame? f = some p →
      t.frame? g = some q → p.Alike P q → P f g)
    (hspare : ∀ {f g k}, t.frame? k = some (spare g) → P f g → P f k) (hfg : w i f g) :
    P f g := by
  -- on the right each parent is older, and the frame of one loop only is younger than
  -- the one it stands for
  suffices hlt : ∀ n i f g, g.index < n → w i f g → P f g from
    hlt (g.index + 1) i f g (Nat.lt_succ_self _) hfg
  intro n
  induction n with
  | zero => intro i f g hlt; exact absurd hlt (Nat.not_lt_zero _)
  | succ n ih =>
    have hopen : ∀ i f g, i.isOpen = true → g.index < n + 1 → w i f g → P f g := by
      intro i f g hi hlt hfg
      obtain ⟨p, q, hp, hq, halike⟩ := h.alike hi hfg
      refine hboth hi hfg hp hq (halike.mono ?_)
      rintro f' g' _ hg' ⟨j, _, hj⟩
      have hlt' := h.right g q g' hq hg'
      exact ih j f' g' (by omega) hj
    intro i f g hlt hfg
    cases i with
    | between =>
      obtain ⟨g', hheader, hk⟩ := h.between hfg
      have hlt' := h.right g (spare g') g' hk rfl
      exact hspare hk (hopen .header f g' rfl (by omega) hheader)
    | outside => exact hopen .outside f g rfl hlt hfg
    | header => exact hopen .header f g rfl hlt hfg
    | inside => exact hopen .inside f g rfl hlt hfg

/-- A name has the same value in frames that correspond. -/
theorem lookup?_eq (h : w.InPairs s t) (hfg : w i f g) (name : String) :
    s.lookup? f name = t.lookup? g name := by
  refine h.induction (P := fun f g => s.lookup? f name = t.lookup? g name) ?_ ?_ hfg
  · intro i f g p q _ _ hp hq halike
    rw [Store.lookup?_eq h.left hp, Store.lookup?_eq h.right hq, halike.bindings]
    cases q.bindings.get? name with
    | some value => rfl
    | none =>
      rcases halike.parents with ⟨hf, hg⟩ | ⟨f', g', hf, hg, heq⟩
      · rw [hf, hg]
        rfl
      · rw [hf, hg]
        exact heq
  · intro f g k hk heq
    rw [Store.lookup?_eq h.right hk]
    exact heq

/-- There is the same receiver in frames that correspond. -/
theorem receiver?_eq (h : w.InPairs s t) (hfg : w i f g) : s.receiver? f = t.receiver? g := by
  refine h.induction (P := fun f g => s.receiver? f = t.receiver? g) ?_ ?_ hfg
  · intro i f g p q _ _ hp hq halike
    rw [Store.receiver?_eq h.left hp, Store.receiver?_eq h.right hq, halike.isCall,
      halike.receiver]
    cases q.isCall with
    | true => rfl
    | false =>
      rcases halike.parents with ⟨hf, hg⟩ | ⟨f', g', hf, hg, heq⟩
      · rw [hf, hg]
        rfl
      · rw [hf, hg]
        exact heq
  · intro f g k hk heq
    rw [Store.receiver?_eq h.right hk]
    exact heq

/-- The frames that a name belongs to correspond. -/
theorem owner? (h : w.InPairs s t) (hfg : w i f g) (name : String) :
    Option.Rel w.Owns (s.owner? f name) (t.owner? g name) := by
  refine h.induction (P := fun f g => Option.Rel w.Owns (s.owner? f name) (t.owner? g name))
    ?_ ?_ hfg
  · intro i f g p q hi hfg hp hq halike
    rw [Store.owner?_eq h.left hp, Store.owner?_eq h.right hq, halike.bindings]
    split
    · exact .some ⟨i, hi, hfg⟩
    · rcases halike.parents with ⟨hf, hg⟩ | ⟨f', g', hf, hg, hrel⟩
      · rw [hf, hg]
        exact .none
      · rw [hf, hg]
        exact hrel
  · intro f g k hk hrel
    rw [Store.owner?_eq h.right hk]
    exact hrel

/-! ### Changes -/

/-- Only the frames of the stores count. -/
theorem congr (h : w.InPairs s t) {s' t' : Store} (hs : s'.frames = s.frames)
    (ht : t'.frames = t.frames) : w.InPairs s' t' := by
  have hs' : s'.frame? = s.frame? := funext fun f => congrArg (·[f.index]?) hs
  have ht' : t'.frame? = t.frame? := funext fun f => congrArg (·[f.index]?) ht
  constructor
  · unfold Store.Ordered
    rw [hs']
    exact h.left
  · unfold Store.Ordered
    rw [ht']
    exact h.right
  · rw [hs', ht']
    exact h.alike
  · exact h.single
  · rw [ht']
    exact h.between
  · exact h.free

/-- A name is given the same value in frames that correspond. -/
theorem define (h : w.InPairs s t) (hi : i.isOpen = true) (hfg : w i f g) (name : String)
    (value : Value) : w.InPairs (s.define f name value) (t.define g name value) where
  left := h.left.define f name value
  right := h.right.define g name value
  alike {j f' g'} hj hfg' := by
    obtain ⟨p, q, hp, hq, halike⟩ := h.alike hj hfg'
    have heq := (h.single hj hi hfg' hfg).1
    rw [Store.frame?_define, Store.frame?_define, hp, hq]
    by_cases hf : f' = f
    · have hg := heq.mp hf
      simp only [Option.map_some, if_pos hf, if_pos hg]
      exact ⟨_, _, rfl, rfl, congrArg (·.set name value) halike.bindings, halike.isCall,
        halike.receiver, halike.parent⟩
    · have hg : g' ≠ g := fun hg => hf (heq.mpr hg)
      simp only [Option.map_some, if_neg hf, if_neg hg]
      exact ⟨p, q, rfl, rfl, halike⟩
  single := h.single
  between {f' k} hk := by
    obtain ⟨g', hheader, hspare⟩ := h.between hk
    have hne : k ≠ g := fun heq => h.free hk hi (heq ▸ hfg)
    exact ⟨g', hheader, (Store.frame?_define_of_ne t hne name value).trans hspare⟩
  free := h.free

end InPairs

/-- One more pair of frames. -/
def add (w : Pairing) (i : Setting) (f g : FrameId) : Pairing :=
  fun j f' g' => w j f' g' ∨ j = i ∧ f' = f ∧ g' = g

theorem add_self (w : Pairing) (i : Setting) (f g : FrameId) : w.add i f g i f g :=
  .inr ⟨rfl, rfl, rfl⟩

namespace InPairs

/-- New frames that are alike. -/
theorem add (h : w.InPairs s t) (hi : i.isOpen = true) {p q : Frame}
    (halike : p.Alike (w.Parents i) q) :
    (w.add i (s.newFrame p).1 (t.newFrame q).1).InPairs (s.newFrame p).2 (t.newFrame q).2 := by
  -- frames that are in a pair have been there before the new ones, on either side
  have hleft : ∀ {j f g}, w j f g → f ≠ (s.newFrame p).1 := by
    intro j f g hfg heq
    have hlt := h.left_lt hfg
    rw [heq] at hlt
    exact Nat.lt_irrefl _ hlt
  have hright : ∀ {j f g}, w j f g → g ≠ (t.newFrame q).1 := by
    intro j f g hfg heq
    have hlt := h.right_lt hfg
    rw [heq] at hlt
    exact Nat.lt_irrefl _ hlt
  have hparents : ∀ {j f g}, w.Parents j f g →
      (w.add i (s.newFrame p).1 (t.newFrame q).1).Parents j f g :=
    fun ⟨k, hk, hfg⟩ => ⟨k, hk, .inl hfg⟩
  constructor
  · refine h.left.newFrame fun parent heq => ?_
    rcases halike.parents with ⟨hf, _⟩ | ⟨f, g, hf, _, j, _, hj⟩
    · rw [hf] at heq
      cases heq
    · rw [hf] at heq
      cases heq
      exact h.left_lt hj
  · refine h.right.newFrame fun parent heq => ?_
    rcases halike.parents with ⟨_, hg⟩ | ⟨f, g, _, hg, j, _, hj⟩
    · rw [hg] at heq
      cases heq
    · rw [hg] at heq
      cases heq
      exact h.right_lt hj
  · intro j f g hj hfg
    rcases hfg with hfg | ⟨rfl, rfl, rfl⟩
    · obtain ⟨p', q', hp', hq', halike'⟩ := h.alike hj hfg
      refine ⟨p', q', ?_, ?_, halike'.mono fun _ _ _ _ => hparents⟩
      · exact (Store.frame?_newFrame_of_ne s (hleft hfg)).trans hp'
      · exact (Store.frame?_newFrame_of_ne t (hright hfg)).trans hq'
    · exact ⟨p, q, Store.frame?_newFrame_self s p, Store.frame?_newFrame_self t q,
        halike.mono fun _ _ _ _ => hparents⟩
  · intro j k f g f' g' hj hk hfg hfg'
    rcases hfg with hfg | ⟨rfl, rfl, rfl⟩
    · rcases hfg' with hfg' | ⟨rfl, rfl, rfl⟩
      · exact h.single hj hk hfg hfg'
      · exact ⟨⟨fun heq => absurd heq (hleft hfg), fun heq => absurd heq (hright hfg)⟩,
          fun heq => absurd heq (hleft hfg)⟩
    · rcases hfg' with hfg' | ⟨rfl, rfl, rfl⟩
      · exact ⟨⟨fun heq => absurd heq.symm (hleft hfg'),
          fun heq => absurd heq.symm (hright hfg')⟩, fun heq => absurd heq.symm (hleft hfg')⟩
      · exact ⟨⟨fun _ => rfl, fun _ => rfl⟩, fun _ => rfl⟩
  · intro f k hk
    rcases hk with hk | ⟨heq, _, _⟩
    · obtain ⟨g, hheader, hspare⟩ := h.between hk
      exact ⟨g, .inl hheader, (Store.frame?_newFrame_of_ne t (hright hk)).trans hspare⟩
    · -- the new pair is not one between rounds, which is not open
      subst heq
      cases hi
  · intro j f f' k hk hj hfk
    rcases hk with hk | ⟨heq, _, _⟩
    · rcases hfk with hfk | ⟨_, _, heq⟩
      · exact h.free hk hj hfk
      · exact hright hk heq
    · subst heq
      cases hi

/-- The frame that is there for one loop only. -/
theorem addSpare (h : w.InPairs s t) (hfg : w .header f g) :
    (w.add .between f (t.newFrame (spare g)).1).InPairs s (t.newFrame (spare g)).2 := by
  have hright : ∀ {j f' g'}, w j f' g' → g' ≠ (t.newFrame (spare g)).1 := by
    intro j f' g' hfg' heq
    have hlt := h.right_lt hfg'
    rw [heq] at hlt
    exact Nat.lt_irrefl _ hlt
  -- in an open setting there are no pairs but the old ones
  have hold : ∀ {j f' g'}, j.isOpen = true →
      w.add .between f (t.newFrame (spare g)).1 j f' g' → w j f' g' := by
    intro j f' g' hj hfg'
    rcases hfg' with hfg' | ⟨rfl, _, _⟩
    · exact hfg'
    · cases hj
  constructor
  · exact h.left
  · refine h.right.newFrame fun parent heq => ?_
    cases heq
    exact h.right_lt hfg
  · intro j f' g' hj hfg'
    obtain ⟨p, q, hp, hq, halike⟩ := h.alike hj (hold hj hfg')
    refine ⟨p, q, hp, ?_, halike.mono fun _ _ _ _ ⟨k, hk, hpair⟩ => ⟨k, hk, .inl hpair⟩⟩
    exact (Store.frame?_newFrame_of_ne t (hright (hold hj hfg'))).trans hq
  · intro j k f₁ g₁ f₂ g₂ hj hk h₁ h₂
    exact h.single hj hk (hold hj h₁) (hold hk h₂)
  · intro f' k hk
    rcases hk with hk | ⟨_, rfl, rfl⟩
    · obtain ⟨g', hheader, hspare⟩ := h.between hk
      exact ⟨g', .inl hheader, (Store.frame?_newFrame_of_ne t (hright hk)).trans hspare⟩
    · exact ⟨g, .inl hfg, Store.frame?_newFrame_self t (spare g)⟩
  · intro j f' f'' k hk hj hfk
    rcases hk with hk | ⟨_, _, rfl⟩
    · exact h.free hk hj (hold hj hfk)
    · exact hright (hold hj hfk) rfl

end InPairs

/-- The pairs that remain for the next round: a copy takes the place of the frame that
it was made from. -/
def next (w : Pairing) (f g k : FrameId) : Pairing
  | .outside, f', g' => w .outside f' g'
  | .header, f', g' => f' = f ∧ g' = g
  | .inside, _, _ => False
  | .between, f', k' => f' = f ∧ k' = k

/-- A copy of the frame on the left takes its place. -/
theorem InPairs.next (h : w.InPairs s t) {k : FrameId} (hfg : w .header f g)
    (hk : w .between f k) : (w.next (s.fork f).1 g k).InPairs (s.fork f).2 t := by
  obtain ⟨p, q, hp, hq, halike⟩ := h.alike rfl hfg
  obtain ⟨g', hheader, hspare⟩ := h.between hk
  have hg' : g = g' := (h.single rfl rfl hfg hheader).1.mp rfl
  subst hg'
  rw [Store.fork_eq hp]
  -- the copy is younger than every frame on the left that is in a pair
  have hfresh : ∀ {f' g'}, w .outside f' g' → f' ≠ (s.newFrame p).1 := by
    intro f' g' hfg' heq
    have hlt := h.left_lt hfg'
    rw [heq] at hlt
    exact Nat.lt_irrefl _ hlt
  -- frames on the right are in one pair only, and that of the header is not outside
  have hother : ∀ {f' g'}, w .outside f' g' → g' ≠ g := by
    intro f' g' hfg' heq
    have hsingle := h.single rfl rfl hfg' hfg
    cases hsingle.2 (hsingle.1.mpr heq)
  -- parents are pairs outside, which a new frame for the header leaves as they are
  have hparents : ∀ {i f' g'}, i = .outside ∨ i = .header → w.Parents i f' g' →
      (w.next (s.newFrame p).1 g k).Parents i f' g' := by
    rintro i f' g' hi ⟨j, hj, hpair⟩
    have hj' : j = .outside := by
      rcases hi with rfl | rfl <;> exact of_decide_eq_true hj
    subst hj'
    exact ⟨.outside, hj, hpair⟩
  constructor
  · exact h.left.newFrame fun parent heq => Nat.lt_trans (h.left f p parent hp heq)
      (Store.index_lt_of_frame? hp)
  · exact h.right
  · intro i f' g' hi hfg'
    cases i with
    | outside =>
      obtain ⟨p', q', hp', hq', halike'⟩ := h.alike rfl hfg'
      exact ⟨p', q', (Store.frame?_newFrame_of_ne s (hfresh hfg')).trans hp', hq',
        halike'.mono fun _ _ _ _ => hparents (.inl rfl)⟩
    | header =>
      obtain ⟨rfl, rfl⟩ := hfg'
      exact ⟨p, q, Store.frame?_newFrame_self s p, hq,
        halike.mono fun _ _ _ _ => hparents (.inr rfl)⟩
    | inside => exact hfg'.elim
    | between => cases hi
  · intro i j f₁ g₁ f₂ g₂ hi hj h₁ h₂
    cases i with
    | outside =>
      cases j with
      | outside => exact h.single rfl rfl h₁ h₂
      | header =>
        obtain ⟨rfl, rfl⟩ := h₂
        exact ⟨⟨fun heq => absurd heq (hfresh h₁), fun heq => absurd heq (hother h₁)⟩,
          fun heq => absurd heq (hfresh h₁)⟩
      | inside => exact h₂.elim
      | between => cases hj
    | header =>
      obtain ⟨rfl, rfl⟩ := h₁
      cases j with
      | outside =>
        exact ⟨⟨fun heq => absurd heq.symm (hfresh h₂),
          fun heq => absurd heq.symm (hother h₂)⟩, fun heq => absurd heq.symm (hfresh h₂)⟩
      | header =>
        obtain ⟨rfl, rfl⟩ := h₂
        exact ⟨⟨fun _ => rfl, fun _ => rfl⟩, fun _ => rfl⟩
      | inside => exact h₂.elim
      | between => cases hj
    | inside => exact h₁.elim
    | between => cases hi
  · rintro f' k' ⟨rfl, rfl⟩
    exact ⟨g, ⟨rfl, rfl⟩, hspare⟩
  · rintro i f₁ f₂ k' ⟨rfl, rfl⟩ hi hfk
    cases i with
    | outside => exact h.free hk rfl hfk
    | header =>
      obtain ⟨_, rfl⟩ := hfk
      exact h.free hk rfl hfg
    | inside => exact hfk.elim
    | between => cases hi

/-- The pairing of a store with itself. -/
def same (s : Store) : Pairing :=
  fun i f g => i = .outside ∧ f = g ∧ (s.frame? f).isSome = true

theorem InPairs.same (h : s.Ordered) : (Pairing.same s).InPairs s s where
  left := h
  right := h
  alike {i f g} _ hfg := by
    obtain ⟨rfl, rfl, hsome⟩ := hfg
    obtain ⟨p, hp⟩ := Option.isSome_iff_exists.mp hsome
    refine ⟨p, p, hp, hp, rfl, rfl, rfl, ?_⟩
    cases hparent : p.parent? with
    | none => exact .none
    | some parent =>
      have hlt := Nat.lt_trans (h f p parent hp hparent) (Store.index_lt_of_frame? hp)
      refine .some ⟨.outside, rfl, rfl, rfl, ?_⟩
      unfold Store.frame?
      rw [Array.getElem?_eq_getElem hlt]
      rfl
  single {i j f g f' g'} _ _ hfg hfg' := by
    obtain ⟨rfl, rfl, _⟩ := hfg
    obtain ⟨rfl, rfl, _⟩ := hfg'
    exact ⟨Iff.rfl, fun _ => rfl⟩
  between hk := by cases hk.1
  free hk := by cases hk.1

end Pairing

/-! ## Runs in paired frames -/

/-- The discipline of runs in frames that correspond. The fuel may be used up on one
side only. -/
def Discipline.pairing (onLeft : Bool) : Discipline Setting Pairing where
  le w w' := ∀ i f g, w i f g → w' i f g
  refl _ _ _ _ h := h
  trans h h' _ _ _ hfg := h' _ _ _ (h _ _ _ hfg)
  frames w i := w i
  stores := Pairing.InPairs
  depths _ := True
  passes halt := halt ≠ .outOfFuel
  cutsLeft halt := halt = .outOfFuel ∧ onLeft = true
  cutsRight halt := halt = .outOfFuel ∧ onLeft = false

theorem Discipline.lawful_pairing (onLeft : Bool) :
    (Discipline.pairing onLeft).Lawful .settings where
  frames_mono hle := hle _ _ _
  stores_congr h hs ht := h.congr hs ht
  fault _ := by intro heq; cases heq
  lookup {_ _ _ _ _ _ name _} h hfg _ := ⟨h.lookup?_eq hfg name, fun _ heq => by cases heq⟩
  receiver h hfg _ := ⟨h.receiver?_eq hfg, fun _ heq => by cases heq⟩
  assign {w s t i f g f' g' name} value h hfg hs ht := by
    have hrel := h.owner? hfg name
    rw [hs, ht] at hrel
    cases hrel with
    | some howns =>
      obtain ⟨j, hj, hfg'⟩ := howns
      exact ⟨w, fun _ _ _ h => h, h.define hj hfg' name value⟩
  define {w _ _ _ _ _} name value h hfg hopen :=
    ⟨w, fun _ _ _ h => h, h.define hopen hfg name value, hfg⟩
  enter {w s t i f g} isCall receiver? h hfg := by
    refine ⟨w.add i.enter _ _, fun _ _ _ => .inl, h.add i.isOpen_enter ?_, w.add_self _ _ _⟩
    exact ⟨rfl, rfl, rfl, .some ⟨i, i.mayHaveParent_enter, hfg⟩⟩
  fork {w s t i f g} h hfg hopen := by
    obtain ⟨p, q, hp, hq, halike⟩ := h.alike hopen hfg
    rw [Store.fork_eq hp, Store.fork_eq hq]
    exact ⟨w.add i _ _, fun _ _ _ => .inl, h.add hopen halike, w.add_self _ _ _⟩
  isOpen_enter := Setting.isOpen_enter
  isOpen_declare _ h := h
  hoisted := .inr fun _ _ => rfl

end TypedScript
