import Mathlib.Data.List.Find
import Mathlib.Logic.Relation
import TypedScript.Proofs.Frames

/-!
# Frames as nested scopes

A `FrameAction` makes a frame, for a block, for a call or as a copy, or writes a name.
`Store.Built` holds of the stores that come about by such actions from one global frame;
each frame of such a store is inside the global frame or inside a copy of it
(`Store.Rooted`), and the links between frames are never changed (`Store.Later.links?`).

From this follows what the frames are as scopes (`Store.Built.lexically_scoped`). The walk outward
ends. An assignment changes one binding, and only the look-ups that found this binding.
A frame and its copy have the same frames behind them and neither is behind the other, so
they share what is outside and nothing else. The receiver is that of the nearest call.
-/

namespace TypedScript

/-! ## Actions -/

/-- What can be done with frames. A frame is made inside another one, for a block or for
a call, or it is copied; a name is written in a frame, or where it is found from there. -/
inductive FrameAction where
  | child (f : FrameId)
  | call (f : FrameId) (receiver? : Option Value)
  | fork (f : FrameId)
  | define (f : FrameId) (name : String) (value : Value)
  | assign (f : FrameId) (name : String) (value : Value)

namespace FrameAction

/-- The frame that an action is done with. -/
def frame : FrameAction → FrameId
  | .child f => f
  | .call f _ => f
  | .fork f => f
  | .define f _ _ => f
  | .assign f _ _ => f

/-- The store behind an action. An assignment to a name that is not found does
nothing. -/
def apply (s : Store) : FrameAction → Store
  | .child f => (s.childFrame f).2
  | .call f receiver? => (s.callFrame f receiver?).2
  | .fork f => (s.fork f).2
  | .define f name value => s.define f name value
  | .assign f name value => (s.assign? f name value).getD s

/-- The frame in which an action writes a name, if it does. -/
def target? (s : Store) : FrameAction → Option FrameId
  | .define f _ _ => some f
  | .assign f name _ => s.owner? f name
  | _ => none

/-- The global frame and its copies behind an action: a copy of one of them is one
more. -/
def tops (s : Store) (old : List FrameId) : FrameAction → List FrameId
  | .fork f => if f ∈ old then (s.fork f).1 :: old else old
  | _ => old

end FrameAction

namespace Store

variable {s s' : Store} {tops : List FrameId}

/-- The stores that come about from a global frame, each with the list of that frame and
of its copies. -/
inductive Built : Store → List FrameId → Prop where
  | global {s : Store} : s.frames = #[] → Built s.globalFrame.2 [s.globalFrame.1]
  | act {s : Store} {tops : List FrameId} (a : FrameAction) : Built s tops →
      (s.frame? a.frame).isSome = true → Built (a.apply s) (a.tops s tops)

/-- One action later. -/
def Follows (s s' : Store) : Prop :=
  ∃ a : FrameAction, (s.frame? a.frame).isSome = true ∧ s' = a.apply s

/-- Any number of actions later. -/
abbrev Later : Store → Store → Prop :=
  Relation.ReflTransGen Follows

/-- The walk from a frame to its parent and on, until a frame has no parent. -/
inductive Outward (s : Store) : FrameId → List FrameId → Prop where
  | last {f : FrameId} {frame : Frame} : s.frame? f = some frame → frame.parent? = none →
      Outward s f [f]
  | next {f parent : FrameId} {frame : Frame} {rest : List FrameId} :
      s.frame? f = some frame → frame.parent? = some parent → Outward s parent rest →
      Outward s f (f :: rest)

/-! ## What actions leave of the links -/

/-- What a frame is linked to: its parent, and the call it belongs to. It is only
bindings that change. -/
def links? (s : Store) (f : FrameId) : Option (Option FrameId × Bool × Option Value) :=
  (s.frame? f).map fun frame => (frame.parent?, frame.isCall, frame.receiver?)

theorem links?_define (s : Store) (f g : FrameId) (name : String) (value : Value) :
    (s.define f name value).links? g = s.links? g := by
  unfold links?
  rw [frame?_define]
  cases s.frame? g with
  | none => rfl
  | some frame =>
    by_cases h : g = f
    · simp only [Option.map_some, if_pos h]
    · simp only [Option.map_some, if_neg h]

theorem links?_newFrame {f : FrameId} (hf : (s.frame? f).isSome = true) (frame : Frame) :
    (s.newFrame frame).2.links? f = s.links? f := by
  have hne : f ≠ (s.newFrame frame).1 := by
    rintro rfl
    rw [frame?_fresh] at hf
    cases hf
  unfold links?
  rw [frame?_newFrame_of_ne s hne]

/-- An action makes a frame, or writes a name, or does nothing. -/
theorem apply_cases (a : FrameAction) (s : Store) :
    (a.target? s = none ∧ ∃ frame, a.apply s = (s.newFrame frame).2) ∨
      (∃ f name value, a.target? s = some f ∧ a.apply s = s.define f name value) ∨
      (a.target? s = none ∧ a.apply s = s) := by
  cases a with
  | child f => exact .inl ⟨rfl, _, rfl⟩
  | call f receiver? => exact .inl ⟨rfl, _, rfl⟩
  | fork f => exact .inl ⟨rfl, _, rfl⟩
  | define f name value => exact .inr (.inl ⟨f, name, value, rfl, rfl⟩)
  | assign f name value =>
    show _ ∨ (∃ g other new, s.owner? f name = some g ∧
      (s.assign? f name value).getD s = s.define g other new) ∨
      (s.owner? f name = none ∧ (s.assign? f name value).getD s = s)
    unfold assign?
    cases s.owner? f name with
    | none => exact .inr (.inr ⟨rfl, rfl⟩)
    | some g => exact .inr (.inl ⟨g, name, value, rfl, rfl⟩)

/-- The links of a frame that is there stay as they are. -/
theorem links?_apply (a : FrameAction) {f : FrameId} (hf : (s.frame? f).isSome = true) :
    (a.apply s).links? f = s.links? f := by
  rcases apply_cases a s with ⟨-, frame, happly⟩ | ⟨g, name, value, -, happly⟩ | ⟨-, happly⟩
  · rw [happly, links?_newFrame hf]
  · rw [happly, links?_define]
  · rw [happly]

theorem isSome_links? (s : Store) (f : FrameId) :
    (s.links? f).isSome = (s.frame? f).isSome := by
  unfold links?
  exact Option.isSome_map

theorem Later.links? (h : Later s s') {f : FrameId} (hf : (s.frame? f).isSome = true) :
    s'.links? f = s.links? f ∧ (s'.frame? f).isSome = true := by
  induction h with
  | refl => exact ⟨rfl, hf⟩
  | tail _ hstep ih =>
    obtain ⟨a, -, rfl⟩ := hstep
    have hlinks := (links?_apply a ih.2).trans ih.1
    refine ⟨hlinks, ?_⟩
    rw [← isSome_links?, hlinks, isSome_links?]
    exact hf

/-! ## Frames inside a global one -/

/-- Frames with older parents, where only those of a list are without a parent. -/
structure Rooted (s : Store) (tops : List FrameId) : Prop where
  ordered : s.Ordered
  parent : ∀ f frame parent, s.frame? f = some frame → frame.parent? = some parent →
    (s.frame? parent).isSome = true
  top : ∀ f frame, s.frame? f = some frame → frame.parent? = none →
    f ∈ tops ∧ frame.isCall = true

theorem Rooted.define (h : s.Rooted tops) (f : FrameId) (name : String) (value : Value) :
    (s.define f name value).Rooted tops := by
  have hold : ∀ g frame, (s.define f name value).frame? g = some frame →
      ∃ old, s.frame? g = some old ∧ frame.parent? = old.parent? ∧ frame.isCall = old.isCall := by
    intro g frame hg
    rw [frame?_define] at hg
    obtain ⟨old, hold, rfl⟩ := Option.map_eq_some_iff.mp hg
    by_cases hgf : g = f
    · exact ⟨old, hold, by rw [if_pos hgf], by rw [if_pos hgf]⟩
    · exact ⟨old, hold, by rw [if_neg hgf], by rw [if_neg hgf]⟩
  refine ⟨h.ordered.define f name value, ?_, ?_⟩
  · intro g frame parent hg hparent
    obtain ⟨old, hold, hsame, -⟩ := hold g frame hg
    have hthere := h.parent g old parent hold (hsame ▸ hparent)
    rwa [← isSome_links?, links?_define, isSome_links?]
  · intro g frame hg hparent
    obtain ⟨old, hold, hsame, hcall⟩ := hold g frame hg
    obtain ⟨htop, holdCall⟩ := h.top g old hold (hsame ▸ hparent)
    exact ⟨htop, hcall.trans holdCall⟩

/-- A new frame is inside one that is there, or it is one more without a parent. -/
theorem Rooted.newFrame (h : s.Rooted tops) {frame : Frame} {tops' : List FrameId}
    (hparent : ∀ parent, frame.parent? = some parent → (s.frame? parent).isSome = true)
    (htop : frame.parent? = none → (s.newFrame frame).1 ∈ tops' ∧ frame.isCall = true)
    (htops : ∀ f ∈ tops, f ∈ tops') : (s.newFrame frame).2.Rooted tops' := by
  have hthere : ∀ parent, (s.frame? parent).isSome = true →
      ((s.newFrame frame).2.frame? parent).isSome = true := by
    intro parent hp
    rwa [← isSome_links?, links?_newFrame hp, isSome_links?]
  refine ⟨h.ordered.newFrame ?_, ?_, ?_⟩
  · intro parent hp
    obtain ⟨old, hold⟩ := Option.isSome_iff_exists.mp (hparent parent hp)
    exact index_lt_of_frame? hold
  · intro f new parent hf hp
    by_cases hnew : f = (s.newFrame frame).1
    · rw [hnew, frame?_newFrame_self] at hf
      cases hf
      exact hthere parent (hparent parent hp)
    · rw [frame?_newFrame_of_ne s hnew] at hf
      exact hthere parent (h.parent f new parent hf hp)
  · intro f new hf hp
    by_cases hnew : f = (s.newFrame frame).1
    · rw [hnew, frame?_newFrame_self] at hf
      cases hf
      exact hnew ▸ htop hp
    · rw [frame?_newFrame_of_ne s hnew] at hf
      obtain ⟨hmem, hcall⟩ := h.top f new hf hp
      exact ⟨htops f hmem, hcall⟩

theorem Rooted.fork (h : s.Rooted tops) {f : FrameId} (hf : (s.frame? f).isSome = true) :
    (s.fork f).2.Rooted (FrameAction.tops s tops (.fork f)) := by
  obtain ⟨frame, hframe⟩ := Option.isSome_iff_exists.mp hf
  have htops : ∀ g ∈ tops, g ∈ FrameAction.tops s tops (.fork f) := by
    intro g hg
    show g ∈ (if f ∈ tops then (s.fork f).1 :: tops else tops)
    by_cases hmem : f ∈ tops
    · rw [if_pos hmem]
      exact List.mem_cons_of_mem _ hg
    · rw [if_neg hmem]
      exact hg
  rw [fork_eq hframe]
  refine h.newFrame (fun parent hp => h.parent f frame parent hframe hp) ?_ htops
  intro hnone
  obtain ⟨hmem, hcall⟩ := h.top f frame hframe hnone
  refine ⟨?_, hcall⟩
  show _ ∈ (if f ∈ tops then (s.fork f).1 :: tops else tops)
  rw [if_pos hmem, fork_eq hframe]
  exact List.mem_cons_self

theorem Rooted.apply (h : s.Rooted tops) (a : FrameAction)
    (ha : (s.frame? a.frame).isSome = true) : (a.apply s).Rooted (a.tops s tops) := by
  have hinside : ∀ f isCall receiver?, (s.frame? f).isSome = true →
      (s.newFrame ⟨.empty, some f, isCall, receiver?⟩).2.Rooted tops := by
    intro f isCall receiver? hf
    refine h.newFrame (fun parent hp => ?_) (fun hnone => nomatch hnone) fun _ hg => hg
    cases hp
    exact hf
  cases a with
  | child f => exact hinside f false none ha
  | call f receiver? => exact hinside f true receiver? ha
  | fork f => exact h.fork ha
  | define f name value => exact h.define f name value
  | assign f name value =>
    show ((s.assign? f name value).getD s).Rooted tops
    unfold assign?
    cases s.owner? f name with
    | none => exact h
    | some g => exact h.define g name value

theorem Built.rooted (h : s.Built tops) : s.Rooted tops := by
  induction h with
  | @global s hs =>
    have hnone : ∀ f frame, s.frame? f ≠ some frame := by
      intro f frame hf
      unfold frame? at hf
      rw [hs] at hf
      cases hf
    have hbare : s.Rooted [] :=
      ⟨fun f frame _ hf => absurd hf (hnone f frame), fun f frame _ hf => absurd hf (hnone f frame),
        fun f frame hf => absurd hf (hnone f frame)⟩
    refine hbare.newFrame (fun parent hp => ?_) (fun _ => ⟨List.mem_cons_self, rfl⟩) fun f hf => ?_
    · cases hp
    · cases hf
  | act a _ ha ih => exact ih.apply a ha

theorem Later.rooted (h : Later s s') (hs : s.Rooted tops) : ∃ tops', s'.Rooted tops' := by
  induction h with
  | refl => exact ⟨tops, hs⟩
  | tail _ hstep ih =>
    obtain ⟨a, ha, rfl⟩ := hstep
    obtain ⟨tops', hrooted⟩ := ih
    exact ⟨_, hrooted.apply a ha⟩

/-! ## Chains -/

/-- The chain of a frame is the walk from it outward, and it ends at a frame without a
parent. -/
theorem Rooted.outward_chain (h : s.Rooted tops) {f : FrameId}
    (hf : (s.frame? f).isSome = true) :
    s.Outward f (s.chain f) ∧ ∃ top ∈ tops, (s.chain f).getLast? = some top := by
  -- a parent is older than its frame, so the walk comes to an end
  induction hindex : f.index using Nat.strongRecOn generalizing f with
  | ind index ih =>
    subst hindex
    obtain ⟨frame, hframe⟩ := Option.isSome_iff_exists.mp hf
    have hchain := chain_eq h.ordered hframe
    cases hparent : frame.parent? with
    | none =>
      rw [hparent] at hchain
      rw [hchain]
      exact ⟨.last hframe hparent, f, (h.top f frame hframe hparent).1, rfl⟩
    | some parent =>
      rw [hparent] at hchain
      obtain ⟨hwalk, top, htop, hlast⟩ := ih parent.index
        (h.ordered f frame parent hframe hparent) (h.parent f frame parent hframe hparent) rfl
      rw [hchain]
      refine ⟨.next hframe hparent hwalk, top, htop, ?_⟩
      show (f :: s.chain parent).getLast? = some top
      rw [List.getLast?_cons, hlast]
      rfl

/-- The frames behind a frame. -/
def outside (s : Store) (f : FrameId) : List FrameId :=
  match (s.frame? f).bind (·.parent?) with
  | some parent => s.chain parent
  | none => []

theorem chain_eq_outside (h : s.Ordered) {f : FrameId} (hf : (s.frame? f).isSome = true) :
    s.chain f = f :: s.outside f := by
  obtain ⟨frame, hframe⟩ := Option.isSome_iff_exists.mp hf
  rw [chain_eq h hframe, outside, hframe]
  rfl

/-- All frames behind a frame are older. -/
theorem lt_of_mem_outside (h : s.Ordered) {f g : FrameId} (hg : g ∈ s.outside f) :
    g.index < f.index := by
  unfold outside at hg
  split at hg
  · next parent hparent =>
    obtain ⟨frame, hframe, hlink⟩ := Option.bind_eq_some_iff.mp hparent
    have hle := index_le_of_mem_chainUpTo h _ parent g hg
    have hlt := h f frame parent hframe hlink
    omega
  · cases hg

theorem outside_of_links? {f g : FrameId} (h : s.links? f = s.links? g) :
    s.outside f = s.outside g := by
  have hparent : ∀ e, (s.frame? e).bind (·.parent?) = (s.links? e).bind (·.1) := by
    intro e
    unfold links?
    cases s.frame? e <;> rfl
  unfold outside
  rw [hparent, hparent, h]

/-! ## What a write changes -/

/-- A name that a frame binds is bound in a frame that is there. -/
theorem isSome_frame?_of_binding? {f : FrameId} {name : String}
    (h : (s.binding? name f).isSome = true) : (s.frame? f).isSome = true := by
  unfold binding? at h
  cases hframe : s.frame? f with
  | none =>
    rw [hframe] at h
    cases h
  | some frame => rfl

theorem binding?_define {f : FrameId} (hf : (s.frame? f).isSome = true) (name other : String)
    (value : Value) (g : FrameId) :
    (s.define f name value).binding? other g =
      if g = f ∧ other = name then some value else s.binding? other g := by
  obtain ⟨frame, hframe⟩ := Option.isSome_iff_exists.mp hf
  unfold binding?
  by_cases hg : g = f
  · subst hg
    rw [frame?_define_self hframe name value, hframe]
    show (frame.bindings.set name value).get? other = _
    rw [Record.get?_set]
    by_cases hother : other = name
    · rw [if_pos hother, if_pos ⟨rfl, hother⟩]
    · rw [if_neg hother, if_neg fun hboth => hother hboth.2]
      rfl
  · rw [frame?_define_of_ne s hg name value, if_neg fun hboth => hg hboth.1]

theorem binding?_define_of_ne (s : Store) {f g : FrameId} (hne : g ≠ f) (name other : String)
    (value : Value) : (s.define f name value).binding? other g = s.binding? other g := by
  unfold binding?
  rw [frame?_define_of_ne s hne name value]

theorem findSome?_congr {α β : Type} {p q : α → Option β} {l : List α}
    (h : ∀ x ∈ l, p x = q x) : l.findSome? p = l.findSome? q := by
  induction l with
  | nil => rfl
  | cons x l ih =>
    rw [List.findSome?_cons, List.findSome?_cons, h x List.mem_cons_self,
      ih fun y hy => h y (List.mem_cons_of_mem _ hy)]

/-- What is found along a list when one entry is replaced: the new value where that entry
was found, and the same as before elsewhere. -/
theorem findSome?_replace {α β : Type} [DecidableEq α] (old new : α → Option β) (a : α) (b : β)
    (ha : (old a).isSome = true) (hnew : ∀ x, new x = if x = a then some b else old x)
    (l : List α) :
    l.findSome? new =
      if l.find? (fun x => (old x).isSome) = some a then some b else l.findSome? old := by
  induction l with
  | nil => rfl
  | cons x l ih =>
    rw [List.findSome?_cons, List.findSome?_cons, List.find?_cons, hnew]
    by_cases hx : x = a
    · subst hx
      simp [ha]
    · rw [if_neg hx]
      cases hold : old x with
      | none => simpa using ih
      | some c => simp [hx]

/-- A write where a name is bound changes the look-ups that found this binding. -/
theorem lookup?_define_bound {f : FrameId} {name : String}
    (hbound : (s.binding? name f).isSome = true) (value : Value) (g : FrameId) (other : String) :
    (s.define f name value).lookup? g other =
      if other = name ∧ s.owner? g other = some f then some value else s.lookup? g other := by
  have hf := isSome_frame?_of_binding? hbound
  unfold lookup? owner?
  rw [chain_define]
  by_cases hother : other = name
  · subst hother
    rw [findSome?_replace (s.binding? other) _ f value hbound fun x => by
      rw [binding?_define hf]
      simp only [and_true]]
    simp only [true_and]
  · have hsame : (s.define f name value).binding? other = s.binding? other := by
      funext x
      rw [binding?_define hf, if_neg fun hboth => hother hboth.2]
    rw [hsame, if_neg fun hboth => hother hboth.1]

/-- A write shows only in the frames that have the written one in their chain. -/
theorem lookup?_define_of_not_mem {f g : FrameId} (hg : f ∉ s.chain g) (name other : String)
    (value : Value) : (s.define f name value).lookup? g other = s.lookup? g other := by
  unfold lookup?
  rw [chain_define]
  refine findSome?_congr fun x hx => ?_
  have hne : x ≠ f := by
    rintro rfl
    exact hg hx
  exact binding?_define_of_ne s hne name other value

/-- A name that a frame does not have is looked up outside. -/
theorem lookup?_eq_outside (h : s.Ordered) {f : FrameId} (hf : (s.frame? f).isSome = true)
    (name : String) :
    s.lookup? f name = (s.binding? name f).or ((s.outside f).findSome? (s.binding? name)) := by
  unfold lookup?
  rw [chain_eq_outside h hf, List.findSome?_cons]
  cases s.binding? name f <;> rfl

/-! ## Copies -/

/-- Two frames that are there, linked alike, and not the same. -/
structure Siblings (s : Store) (f g : FrameId) : Prop where
  left : (s.frame? f).isSome = true
  right : (s.frame? g).isSome = true
  links : s.links? f = s.links? g
  ne : f ≠ g

theorem siblings_fork {f : FrameId} (hf : (s.frame? f).isSome = true) :
    (s.fork f).2.Siblings f (s.fork f).1 := by
  obtain ⟨frame, hframe⟩ := Option.isSome_iff_exists.mp hf
  have hne : f ≠ (s.newFrame frame).1 := by
    rintro rfl
    rw [frame?_fresh] at hframe
    cases hframe
  rw [fork_eq hframe]
  refine ⟨?_, ?_, ?_, hne⟩
  · rw [frame?_newFrame_of_ne s hne]
    exact hf
  · rw [frame?_newFrame_self]
    rfl
  · unfold links?
    rw [frame?_newFrame_of_ne s hne, frame?_newFrame_self, hframe]

theorem Siblings.later {f g : FrameId} (h : s.Siblings f g) (hlater : Later s s') :
    s'.Siblings f g := by
  obtain ⟨hleft, hf⟩ := hlater.links? h.left
  obtain ⟨hright, hg⟩ := hlater.links? h.right
  exact ⟨hf, hg, hleft.trans (h.links.trans hright.symm), h.ne⟩

theorem Siblings.define {f g : FrameId} (h : s.Siblings f g) (o : FrameId) (name : String)
    (value : Value) : (s.define o name value).Siblings f g := by
  refine ⟨?_, ?_, ?_, h.ne⟩
  · rw [← isSome_links?, links?_define, isSome_links?]
    exact h.left
  · rw [← isSome_links?, links?_define, isSome_links?]
    exact h.right
  · rw [links?_define, links?_define]
    exact h.links

theorem Siblings.symm {f g : FrameId} (h : s.Siblings f g) : s.Siblings g f :=
  ⟨h.right, h.left, h.links.symm, h.ne.symm⟩

/-- Neither of two siblings is in the chain of the other one. -/
theorem Siblings.not_mem_chain {f g : FrameId} (h : s.Siblings f g) (hs : s.Ordered) :
    f ∉ s.chain g := by
  rw [chain_eq_outside hs h.right, List.mem_cons, not_or]
  refine ⟨h.ne, fun hmem => ?_⟩
  rw [← outside_of_links? h.links] at hmem
  exact absurd (lt_of_mem_outside hs hmem) (Nat.lt_irrefl _)

/-- Siblings that bind a name alike see it alike. -/
theorem Siblings.lookup?_eq {f g : FrameId} (h : s.Siblings f g) (hs : s.Ordered) {name : String}
    (hname : s.binding? name f = s.binding? name g) : s.lookup? f name = s.lookup? g name := by
  rw [lookup?_eq_outside hs h.left, lookup?_eq_outside hs h.right, hname,
    outside_of_links? h.links]

theorem Siblings.receiver?_eq {f g : FrameId} (h : s.Siblings f g) (hs : s.Ordered) :
    s.receiver? f = s.receiver? g := by
  obtain ⟨p, hp⟩ := Option.isSome_iff_exists.mp h.left
  obtain ⟨q, hq⟩ := Option.isSome_iff_exists.mp h.right
  have hlinks := h.links
  unfold links? at hlinks
  rw [hp, hq] at hlinks
  simp only [Option.map_some, Option.some.injEq, Prod.mk.injEq] at hlinks
  rw [Store.receiver?_eq hs hp, Store.receiver?_eq hs hq, hlinks.1, hlinks.2.1, hlinks.2.2]

/-! ## The nearest call -/

/-- The receiver as seen from a frame is that of the first frame of a call on the way
outward. -/
theorem Rooted.exists_receiver (h : s.Rooted tops) {f : FrameId}
    (hf : (s.frame? f).isSome = true) :
    ∃ nearer c outer frame, s.chain f = nearer ++ c :: outer ∧
      (∀ b ∈ nearer, ∀ block, s.frame? b = some block → block.isCall = false) ∧
      s.frame? c = some frame ∧ frame.isCall = true ∧ s.receiver? f = frame.receiver? := by
  -- outward, where frames are older; the outermost frame counts as that of a call
  induction hindex : f.index using Nat.strongRecOn generalizing f with
  | ind index ih =>
    subst hindex
    obtain ⟨frame, hframe⟩ := Option.isSome_iff_exists.mp hf
    have hchain := chain_eq h.ordered hframe
    have hreceiver := Store.receiver?_eq h.ordered hframe
    cases hcall : frame.isCall with
    | true =>
      rw [hcall] at hreceiver
      exact ⟨[], f, _, frame, hchain, fun b hb => absurd hb List.not_mem_nil, hframe, hcall,
        hreceiver⟩
    | false =>
      cases hparent : frame.parent? with
      | none =>
        have htop := (h.top f frame hframe hparent).2
        rw [hcall] at htop
        cases htop
      | some parent =>
        rw [hparent] at hchain
        rw [hcall, hparent] at hreceiver
        obtain ⟨nearer, c, outer, found, hsplit, hblocks, hc, hisCall, hfound⟩ := ih parent.index
          (h.ordered f frame parent hframe hparent) (h.parent f frame parent hframe hparent) rfl
        refine ⟨f :: nearer, c, outer, found, ?_, ?_, hc, hisCall, hreceiver.trans hfound⟩
        · rw [hchain]
          exact congrArg (f :: ·) hsplit
        · intro b hb block hblock
          rcases List.mem_cons.mp hb with rfl | hb
          · rw [hframe] at hblock
            cases hblock
            exact hcall
          · exact hblocks b hb block hblock

/-! ## Frames as scopes -/

/-- What frames are as scopes, where `tops` are the global frame and its copies. -/
structure LexicallyScoped (s : Store) (tops : List FrameId) : Prop where
  /-- The walk outward from a frame ends, at the global frame or at a copy of it, and
  names and receivers are looked up along it. -/
  walk_ends : ∀ f, (s.frame? f).isSome = true →
    s.Outward f (s.chain f) ∧ ∃ top ∈ tops, (s.chain f).getLast? = some top
  assign_iff : ∀ f name value, (s.frame? f).isSome = true →
    (s.assign? f name value).isSome = (s.lookup? f name).isSome
  assign_unknown : ∀ f name value, s.assign? f name value = none → ∀ b other,
    ((FrameAction.assign f name value).apply s).lookup? b other = s.lookup? b other
  /-- An assignment writes the binding of the innermost frame that has one, and all
  look-ups that find this binding find the new value. -/
  assign_known : ∀ f name value s', s.assign? f name value = some s' →
    ∃ g nearer outer, s.chain f = nearer ++ g :: outer ∧
      (∀ b ∈ nearer, s.binding? name b = none) ∧ (s.binding? name g).isSome = true ∧
      (∀ b other, s'.binding? other b =
        if b = g ∧ other = name then some value else s.binding? other b) ∧
      ∀ b other, s'.lookup? b other =
        if other = name ∧ s.owner? b other = some g then some value else s.lookup? b other
  /-- At first, a copy binds what the frame binds that it is a copy of. -/
  copy_alike : ∀ f name, (s.frame? f).isSome = true →
    (s.fork f).2.binding? name (s.fork f).1 = (s.fork f).2.binding? name f
  /-- From then on, what is written in the frame does not show in the copy. -/
  original_apart : ∀ f s' (a : FrameAction) name, (s.frame? f).isSome = true →
    Later (s.fork f).2 s' → a.target? s' = some f →
    (a.apply s').lookup? (s.fork f).1 name = s'.lookup? (s.fork f).1 name
  /-- What is written in the copy does not show in the frame. -/
  copy_apart : ∀ f s' (a : FrameAction) name, (s.frame? f).isSome = true →
    Later (s.fork f).2 s' → a.target? s' = some (s.fork f).1 →
    (a.apply s').lookup? f name = s'.lookup? f name
  /-- What is written elsewhere shows alike in both, as far as they bind the name
  alike. -/
  outside_shared : ∀ f s' (a : FrameAction) name o, (s.frame? f).isSome = true →
    Later (s.fork f).2 s' → a.target? s' = some o → o ≠ f → o ≠ (s.fork f).1 →
    s'.binding? name f = s'.binding? name (s.fork f).1 →
    (a.apply s').lookup? f name = (a.apply s').lookup? (s.fork f).1 name
  /-- The receiver is that of the first frame of a call on the way outward. -/
  receiver : ∀ f, (s.frame? f).isSome = true →
    ∃ nearer c outer frame, s.chain f = nearer ++ c :: outer ∧
      (∀ b ∈ nearer, ∀ block, s.frame? b = some block → block.isCall = false) ∧
      s.frame? c = some frame ∧ frame.isCall = true ∧ s.receiver? f = frame.receiver?
  receiver_copy : ∀ f s', (s.frame? f).isSome = true → Later (s.fork f).2 s' →
    s'.receiver? (s.fork f).1 = s'.receiver? f

/-- An action that writes is the definition of a name in its target. -/
theorem exists_define_of_target {a : FrameAction} {f : FrameId} (h : a.target? s = some f) :
    ∃ name value, a.apply s = s.define f name value := by
  rcases apply_cases a s with ⟨hnone, -⟩ | ⟨g, name, value, htarget, happly⟩ | ⟨hnone, -⟩
  · rw [hnone] at h
    cases h
  · rw [htarget] at h
    cases h
    exact ⟨name, value, happly⟩
  · rw [hnone] at h
    cases h

/-- What an assignment does to a name that is found. -/
theorem assign?_eq_some {f : FrameId} {name : String} {value : Value}
    (h : s.assign? f name value = some s') :
    ∃ g nearer outer, s.chain f = nearer ++ g :: outer ∧
      (∀ b ∈ nearer, s.binding? name b = none) ∧ (s.binding? name g).isSome = true ∧
      s' = s.define g name value := by
  obtain ⟨g, howner, rfl⟩ := Option.map_eq_some_iff.mp h
  obtain ⟨hbound, nearer, outer, hchain, hnearer⟩ := List.find?_eq_some_iff_append.mp howner
  refine ⟨g, nearer, outer, hchain, fun b hb => ?_, hbound, rfl⟩
  have hunbound := hnearer b hb
  cases hbinding : s.binding? name b with
  | none => rfl
  | some old =>
    rw [hbinding] at hunbound
    cases hunbound

theorem Rooted.lexicallyScoped (h : s.Rooted tops) : s.LexicallyScoped tops where
  walk_ends _ hf := h.outward_chain hf
  assign_iff f name value _ := assign?_isSome s f name value
  assign_unknown f name value hnone b other := by
    show ((s.assign? f name value).getD s).lookup? b other = s.lookup? b other
    rw [hnone, Option.getD_none]
  assign_known f name value s' hsome := by
    obtain ⟨g, nearer, outer, hchain, hnearer, hbound, rfl⟩ := assign?_eq_some hsome
    have hg := isSome_frame?_of_binding? hbound
    exact ⟨g, nearer, outer, hchain, hnearer, hbound,
      fun b other => binding?_define hg name other value b, lookup?_define_bound hbound value⟩
  copy_alike f name hf := by
    obtain ⟨frame, hframe⟩ := Option.isSome_iff_exists.mp hf
    have hne := (siblings_fork hf).ne
    rw [fork_eq hframe] at hne ⊢
    unfold binding?
    rw [frame?_newFrame_self, frame?_newFrame_of_ne s hne, hframe]
  original_apart f s' a name hf hlater htarget := by
    obtain ⟨tops', hrooted⟩ := hlater.rooted (h.fork hf)
    obtain ⟨written, value, happly⟩ := exists_define_of_target htarget
    rw [happly]
    exact lookup?_define_of_not_mem
      (((siblings_fork hf).later hlater).not_mem_chain hrooted.ordered) written name value
  copy_apart f s' a name hf hlater htarget := by
    obtain ⟨tops', hrooted⟩ := hlater.rooted (h.fork hf)
    obtain ⟨written, value, happly⟩ := exists_define_of_target htarget
    rw [happly]
    exact lookup?_define_of_not_mem
      (((siblings_fork hf).later hlater).symm.not_mem_chain hrooted.ordered) written name value
  outside_shared f s' a name o hf hlater htarget hof hog hname := by
    obtain ⟨tops', hrooted⟩ := hlater.rooted (h.fork hf)
    obtain ⟨written, value, happly⟩ := exists_define_of_target htarget
    rw [happly]
    refine (((siblings_fork hf).later hlater).define o written value).lookup?_eq
      (hrooted.ordered.define o written value) ?_
    rw [binding?_define_of_ne s' hof.symm, binding?_define_of_ne s' hog.symm, hname]
  receiver _ hf := h.exists_receiver hf
  receiver_copy f s' hf hlater := by
    obtain ⟨tops', hrooted⟩ := hlater.rooted (h.fork hf)
    exact (((siblings_fork hf).later hlater).receiver?_eq hrooted.ordered).symm

/-- Frames behave as nested scopes, however they came about from a global frame. -/
theorem Built.lexically_scoped (h : s.Built tops) : s.LexicallyScoped tops :=
  h.rooted.lexicallyScoped

/-- A frame for a block inside the global frame, and a copy of it. -/
def blockAndCopy : Store :=
  (FrameAction.fork ⟨1⟩).apply ((FrameAction.child ⟨0⟩).apply empty.globalFrame.2)

theorem built_blockAndCopy : blockAndCopy.Built [⟨0⟩] :=
  .act (.fork ⟨1⟩) (.act (.child ⟨0⟩) (.global rfl) rfl) rfl

theorem Built.lexically_scoped_of_block :
    blockAndCopy.Built [⟨0⟩] ∧ blockAndCopy.LexicallyScoped [⟨0⟩] :=
  ⟨built_blockAndCopy, built_blockAndCopy.lexically_scoped⟩

/-- Two limits of what scopes share. A copy of the global frame is not inside the global
frame, and does not see what is defined there later. And what is written in the global
frame does not show in a block that has defined the name by then, while it shows in the
copy of the block that was made before. -/
theorem Built.may_be_apart :
    (((FrameAction.fork ⟨0⟩).apply empty.globalFrame.2).Built [⟨1⟩, ⟨0⟩] ∧
      ((FrameAction.fork ⟨0⟩).apply empty.globalFrame.2).Outward ⟨1⟩ [⟨1⟩] ∧
      (((FrameAction.fork ⟨0⟩).apply empty.globalFrame.2).define ⟨0⟩ "x"
        (.boolean true)).lookup? ⟨1⟩ "x" = none) ∧
    (blockAndCopy.Built [⟨0⟩] ∧
      ((blockAndCopy.define ⟨1⟩ "x" (.boolean true)).define ⟨0⟩ "x"
        (.boolean false)).lookup? ⟨1⟩ "x" = some (.boolean true) ∧
      ((blockAndCopy.define ⟨1⟩ "x" (.boolean true)).define ⟨0⟩ "x"
        (.boolean false)).lookup? ⟨2⟩ "x" = some (.boolean false)) := by
  refine ⟨⟨?_, ?_, ?_⟩, built_blockAndCopy, ?_, ?_⟩
  · exact .act (.fork ⟨0⟩) (.global rfl) rfl
  · exact .last rfl rfl
  · rfl
  · rfl
  · rfl

end Store

end TypedScript
