import Mathlib.Order.WellFounded
import TypedScript.Proofs.Effort
import TypedScript.Proofs.Parts

/-!
# Questions that come up within others

Whether a type fits where another is expected is found out by asking the same of
other types, one after the other, until the answer is clear. An `Inquiry` is such
a list, and `Table.inquiry` says which one belongs to a question. As long as no
intersection has to be merged this is all there is to the rule of fitting
(`fitsRule_eq_answer`).

One question leads to another (`Asks`) if the other is not only on its list but
comes up: what stands before it is answered and leaves the matter open. A
question that has an answer was put only to such as had one with less effort
(`Asks.answered`), and if all questions it leads to have answers, so does it
(`Ends.of_asks`). So a comparison ends if and only if there is no infinite chain
of questions that begins with it and in which each leads to the next
(`ends_iff_acc`).
-/

namespace TypedScript

open Answer

/-- Whether `source` fits where `target` is expected, on the assumption that some
pairs of interfaces fit. -/
@[ext]
structure Question where
  assumed : List (String × String)
  source : Ty
  target : Ty

/-- Something that is clear at once, or a question. -/
inductive Condition where
  | known (holds : Bool)
  | asked (question : Question)

/-- Conditions to be gone through in order. The first that turns out as
`decisive` is the answer, and if none does, the opposite is. -/
structure Inquiry where
  decisive : Bool
  conditions : List Condition

/-! ## Going through conditions -/

section Conditions

variable (ask : Question → Answer Bool) (decisive : Bool)

/-- Whether a condition holds, given the answers to questions. -/
def Condition.answer : Condition → Answer Bool
  | .known holds => some holds
  | .asked question => ask question

/-- What comes out of conditions. -/
def answerOf : List Condition → Answer Bool
  | [] => some !decisive
  | condition :: rest => do
    if (← condition.answer ask) = decisive then return decisive else answerOf rest

/-- The questions of which conditions make use: all until one is without an
answer or decides. -/
def questionsOf : List Condition → List Question
  | [] => []
  | .known holds :: rest => if holds = decisive then [] else questionsOf rest
  | .asked question :: rest =>
    question :: if ask question = some !decisive then questionsOf rest else []

end Conditions

/-- What comes out of an inquiry. -/
def Inquiry.answer (ask : Question → Answer Bool) (inquiry : Inquiry) : Answer Bool :=
  answerOf ask inquiry.decisive inquiry.conditions

/-- The questions that come up in an inquiry. -/
def Inquiry.questions (ask : Question → Answer Bool) (inquiry : Inquiry) : List Question :=
  questionsOf ask inquiry.decisive inquiry.conditions

section Conditions

variable {ask ask' : Question → Answer Bool} {decisive : Bool} {conditions : List Condition}
  {q : Question}

theorem allM_eq_answerOf {α : Type} {p : α → Answer Bool} (ask : Question → Answer Bool)
    (condition : α → Condition) (h : ∀ x, p x = (condition x).answer ask) (l : List α) :
    l.allM p = answerOf ask false (l.map condition) := by
  induction l with
  | nil => rfl
  | cons x l ih =>
    rw [List.map_cons, List.allM, answerOf, ← h, ih]
    exact bind_congr fun b => by cases b <;> rfl

theorem anyM_eq_answerOf {α : Type} {p : α → Answer Bool} (ask : Question → Answer Bool)
    (condition : α → Condition) (h : ∀ x, p x = (condition x).answer ask) (l : List α) :
    l.anyM p = answerOf ask true (l.map condition) := by
  induction l with
  | nil => rfl
  | cons x l ih =>
    rw [List.map_cons, List.anyM, answerOf, ← h, ih]
    exact bind_congr fun b => by cases b <;> rfl

/-- A single question. -/
theorem answerOf_asked (ask : Question → Answer Bool) (q : Question) :
    answerOf ask false [.asked q] = ask q := by
  show (ask q >>= fun b => if b = false then some false else some true) = ask q
  cases ask q with
  | none => rfl
  | some b => cases b <;> rfl

/-- One more condition at the end of those that all have to hold. -/
theorem answerOf_append_asked (l : List Condition) (q : Question) :
    answerOf ask false (l ++ [.asked q]) = (do
      if ← answerOf ask false l then ask q else return false) := by
  induction l with
  | nil => exact answerOf_asked ask q
  | cons condition rest ih =>
    rw [List.cons_append, answerOf, answerOf, ih, bind_assoc]
    exact bind_congr fun b => by cases b <;> rfl

/-- What comes up is on the list. -/
theorem asked_mem_of_mem_questionsOf (h : q ∈ questionsOf ask decisive conditions) :
    .asked q ∈ conditions := by
  induction conditions with
  | nil => exact absurd h List.not_mem_nil
  | cons condition rest ih =>
    cases condition with
    | known holds =>
      rw [questionsOf] at h
      split at h
      · exact absurd h List.not_mem_nil
      · exact List.mem_cons_of_mem _ (ih h)
    | asked first =>
      rcases List.mem_cons.mp h with rfl | h
      · exact List.mem_cons_self ..
      · split at h
        · exact List.mem_cons_of_mem _ (ih h)
        · exact absurd h List.not_mem_nil

/-- With more answers there come up at least the same questions. -/
theorem questionsOf_mono (h : ∀ q, Upto (ask q) (ask' q))
    (hq : q ∈ questionsOf ask decisive conditions) : q ∈ questionsOf ask' decisive conditions := by
  induction conditions with
  | nil => exact hq
  | cons condition rest ih =>
    cases condition with
    | known holds =>
      rw [questionsOf] at hq ⊢
      split
      · next heq => rwa [if_pos heq] at hq
      · next hne => exact ih (by rwa [if_neg hne] at hq)
    | asked first =>
      rcases List.mem_cons.mp hq with rfl | hq
      · exact List.mem_cons_self ..
      · split at hq
        · next hfirst =>
          refine List.mem_cons_of_mem _ ?_
          rw [if_pos (h first _ hfirst)]
          exact ih hq
        · exact absurd hq List.not_mem_nil

/-- With more answers there comes out the same. -/
theorem answerOf_upto (h : ∀ q, Upto (ask q) (ask' q)) (conditions : List Condition) :
    Upto (answerOf ask decisive conditions) (answerOf ask' decisive conditions) := by
  induction conditions with
  | nil => exact .refl
  | cons condition rest ih =>
    have hfirst : Upto (condition.answer ask) (condition.answer ask') := by
      cases condition with
      | known holds => exact .refl
      | asked q => exact h q
    refine hfirst.bind fun b => ?_
    split
    · exact .refl
    · exact ih

/-- If something comes out, then all questions that come up had answers, also
those that come up by other answers that contradict none of these. -/
theorem isSome_of_mem_questionsOf
    (halike : ∀ q x y, ask q = some x → ask' q = some y → x = y)
    (hanswer : (answerOf ask decisive conditions).isSome)
    (hq : q ∈ questionsOf ask' decisive conditions) : (ask q).isSome := by
  induction conditions with
  | nil => exact absurd hq List.not_mem_nil
  | cons condition rest ih =>
    cases condition with
    | known holds =>
      rw [questionsOf] at hq
      split at hq
      · exact absurd hq List.not_mem_nil
      · next hne =>
        refine ih ?_ hq
        simpa [answerOf, Condition.answer, hne] using hanswer
    | asked first =>
      rw [answerOf, Condition.answer] at hanswer
      cases hfirst : ask first with
      | none => simp [hfirst] at hanswer
      | some b =>
        rcases List.mem_cons.mp hq with rfl | hq
        · rw [hfirst]
          rfl
        · split at hq
          · next hleft =>
            have hb : b = !decisive := halike first _ _ hfirst hleft
            refine ih ?_ hq
            simpa [hfirst, hb] using hanswer
          · exact absurd hq List.not_mem_nil

/-- If each question that ever comes up is answered in the end, then something
comes out in the end. -/
theorem exists_answerOf {answers : Nat → Question → Answer Bool}
    (hgrow : ∀ n m, n ≤ m → ∀ q, Upto (answers n q) (answers m q))
    (h : ∀ n, ∀ q ∈ questionsOf (answers n) decisive conditions, ∃ m, (answers m q).isSome) :
    ∃ n, (answerOf (answers n) decisive conditions).isSome := by
  induction conditions with
  | nil => exact ⟨0, rfl⟩
  | cons condition rest ih =>
    cases condition with
    | known holds =>
      by_cases hdecides : holds = decisive
      · exact ⟨0, by simp [answerOf, Condition.answer, hdecides]⟩
      · obtain ⟨n, hn⟩ := ih fun n q hq => h n q (by rwa [questionsOf, if_neg hdecides])
        exact ⟨n, by simpa [answerOf, Condition.answer, hdecides] using hn⟩
    | asked first =>
      obtain ⟨m, hm⟩ := h 0 first (List.mem_cons_self ..)
      obtain ⟨b, hb⟩ := Option.isSome_iff_exists.mp hm
      by_cases hdecides : b = decisive
      · exact ⟨m, by simp [answerOf, Condition.answer, hb, hdecides]⟩
      · have hleft : b = !decisive := Bool.eq_not.mpr hdecides
        -- what comes up behind the first condition comes up in the whole once that is answered
        obtain ⟨n, hn⟩ := ih fun n q hq => by
          refine h (max n m) q (List.mem_cons_of_mem _ ?_)
          rw [if_pos (hleft ▸ hgrow m _ (Nat.le_max_right ..) first b hb)]
          exact questionsOf_mono (hgrow n _ (Nat.le_max_left ..)) hq
        obtain ⟨answer, hanswer⟩ := Option.isSome_iff_exists.mp hn
        refine ⟨max n m, ?_⟩
        rw [answerOf, Condition.answer, hgrow m _ (Nat.le_max_right ..) first b hb, hleft,
          answerOf_upto (hgrow n _ (Nat.le_max_left ..)) rest answer hanswer]
        simp

end Conditions

/-! ## The inquiry into a question -/

namespace Table

variable (table : Table)

/-- What is gone through to answer a question. What would have to be merged is
not on the list. -/
def inquiry (q : Question) : Inquiry :=
  if q.source = q.target ∨ q.source = .unknown ∨ q.target = .unknown then ⟨false, []⟩
  else
    match q.source, q.target with
    | .named s, .named t =>
      if q.assumed.contains (s, t) then ⟨false, []⟩
      else ⟨false, [.asked ⟨(s, t) :: q.assumed, table.expand s, table.expand t⟩]⟩
    | .named s, target => ⟨false, [.asked ⟨q.assumed, table.expand s, target⟩]⟩
    | source, .named t => ⟨false, [.asked ⟨q.assumed, source, table.expand t⟩]⟩
    | .union members, target => ⟨false, members.map fun m => .asked ⟨q.assumed, m, target⟩⟩
    | source, .union members => ⟨true, members.map fun m => .asked ⟨q.assumed, source, m⟩⟩
    | source, .intersection members =>
      ⟨false, members.map fun m => .asked ⟨q.assumed, source, m⟩⟩
    | .object source, .object target => ⟨false, target.map (property source)⟩
    | .function source, .function target => signature source target
    | _, _ => ⟨true, []⟩
where
  /-- What is gone through for a property that is wanted. -/
  property (source : Shape) (wanted : Property) : Condition :=
    match source.find? wanted.name with
    | some found =>
      if wanted.isOptional || !found.isOptional then .asked ⟨q.assumed, found.type, wanted.type⟩
      else .known false
    | none => .known wanted.isOptional
  /-- What is gone through for an argument. -/
  param (source target : Signature) (index : Nat) : Condition :=
    match source.param? index, target.param? index with
    | some s, some t => .asked ⟨q.assumed, t, s⟩
    | _, _ => .known true
  /-- What is gone through for two functions. -/
  signature (source target : Signature) : Inquiry :=
    if source.params.length = target.params.length || source.isVariadic || target.isVariadic then
      ⟨false, (List.range (max source.params.length target.params.length)).map
        (param source target) ++ [.asked ⟨q.assumed, source.result, target.result⟩]⟩
    else ⟨true, []⟩

variable {table} {assumed : List (String × String)} {source target : Ty} {q : Question}

section Rule

variable (fits : List (String × String) → Ty → Ty → Answer Bool)

theorem shapeFits_eq_answer (s t : Shape) (q : Question) :
    shapeFits (fits q.assumed) s t = Inquiry.answer (fun q => fits q.assumed q.source q.target)
      ⟨false, t.map (inquiry.property q s)⟩ := by
  refine allM_eq_answerOf _ _ (fun wanted => ?_) t
  unfold inquiry.property
  cases s.find? wanted.name with
  | none => rfl
  | some found =>
    dsimp only
    split <;> rfl

theorem signatureFits_eq_answer (s t : Signature) (q : Question) :
    signatureFits (fits q.assumed) s t =
      (inquiry.signature q s t).answer fun q => fits q.assumed q.source q.target := by
  unfold signatureFits inquiry.signature Inquiry.answer
  dsimp only
  split
  · rw [answerOf_append_asked]
    refine congrArg (· >>= _) (allM_eq_answerOf _ _ (fun index => ?_) _)
    unfold inquiry.param
    cases s.param? index with
    | none => rfl
    | some given =>
      cases t.param? index with
      | none => rfl
      | some expected => rfl
  · rfl

/-- The rule of fitting is to go through the inquiry. -/
theorem fitsRule_eq_answer (hsource : source.isIntersection = false) :
    table.fitsRule fits assumed source target = (table.inquiry ⟨assumed, source, target⟩).answer
      fun q => fits q.assumed q.source q.target := by
  let ask : Question → Answer Bool := fun q => fits q.assumed q.source q.target
  have hone : ∀ q, ask q = Inquiry.answer ask ⟨false, [.asked q]⟩ :=
    fun q => (answerOf_asked ask q).symm
  have hall : ∀ (members : List Ty) (f : Ty → Question), members.allM (fun m => ask (f m)) =
      Inquiry.answer ask ⟨false, members.map fun m => .asked (f m)⟩ :=
    fun members f => allM_eq_answerOf ask (fun m => .asked (f m)) (fun _ => rfl) members
  have hany : ∀ (members : List Ty) (f : Ty → Question), members.anyM (fun m => ask (f m)) =
      Inquiry.answer ask ⟨true, members.map fun m => .asked (f m)⟩ :=
    fun members f => anyM_eq_answerOf ask (fun m => .asked (f m)) (fun _ => rfl) members
  unfold fitsRule inquiry
  dsimp only
  split
  · rfl
  · cases source with
    | named s =>
      cases target with
      | named t =>
        dsimp only
        by_cases hassumed : (s, t) ∈ assumed
        · rw [if_pos hassumed, if_pos (List.contains_iff_mem.mpr hassumed)]
          rfl
        · rw [if_neg hassumed, if_neg (mt List.contains_iff_mem.mp hassumed)]
          exact hone ⟨(s, t) :: assumed, table.expand s, table.expand t⟩
      | _ => exact hone ⟨assumed, table.expand s, _⟩
    | union members =>
      cases target with
      | named t => exact hone ⟨assumed, .union members, table.expand t⟩
      | _ => exact hall members fun m => ⟨assumed, m, _⟩
    | intersection members => exact absurd hsource (by simp [Ty.isIntersection])
    | object s =>
      cases target with
      | named t => exact hone ⟨assumed, .object s, table.expand t⟩
      | union members => exact hany members fun m => ⟨assumed, .object s, m⟩
      | intersection members => exact hall members fun m => ⟨assumed, .object s, m⟩
      | object t => exact shapeFits_eq_answer fits s t ⟨assumed, .object s, .object t⟩
      | _ => rfl
    | function s =>
      cases target with
      | named t => exact hone ⟨assumed, .function s, table.expand t⟩
      | union members => exact hany members fun m => ⟨assumed, .function s, m⟩
      | intersection members => exact hall members fun m => ⟨assumed, .function s, m⟩
      | function t => exact signatureFits_eq_answer fits s t ⟨assumed, .function s, .function t⟩
      | _ => rfl
    | _ =>
      cases target with
      | named t => exact hone ⟨assumed, _, table.expand t⟩
      | union members => exact hany members fun m => ⟨assumed, _, m⟩
      | intersection members => exact hall members fun m => ⟨assumed, _, m⟩
      | _ => rfl

end Rule

/-! ## What can come up -/

/-- What is compared when two types are that are no names. Of two functions the
parameters are compared the other way round, so this leaves open which of two
types is the source. -/
inductive Descends : Ty → Ty → Ty → Ty → Prop where
  | left {members : List Ty} {m t : Ty} : m ∈ members → Descends (.union members) t m t
  | right {members : List Ty} {m s : Ty} : m ∈ members → Descends s (.union members) s m
  | property {s t : List Property} {found wanted : Property} : found ∈ s → wanted ∈ t →
      Descends (.object s) (.object t) found.type wanted.type
  | param {s t : Signature} {given expected : Ty} : given ∈ s.params → expected ∈ t.params →
      Descends (.function s) (.function t) given expected
  | result {s t : Signature} : Descends (.function s) (.function t) s.result t.result

theorem Descends.swap {s t s' t' : Ty} (h : Descends s t s' t') : Descends t s t' s' := by
  cases h with
  | left hm => exact .right hm
  | right hm => exact .left hm
  | property hfound hwanted => exact .property hwanted hfound
  | param hgiven hexpected => exact .param hexpected hgiven
  | result => exact .result

variable (table)

/-- Whether one question can lead to another, whatever the answers are. -/
inductive CanAsk : Question → Question → Prop where
  /-- Two names are looked up together, with a note of it. -/
  | names {assumed : List (String × String)} {a b : String} : (a, b) ∉ assumed →
      CanAsk ⟨assumed, .named a, .named b⟩
        ⟨(a, b) :: assumed, table.expand a, table.expand b⟩
  | source {assumed : List (String × String)} {a : String} {t : Ty} : (∀ b, t ≠ .named b) →
      CanAsk ⟨assumed, .named a, t⟩ ⟨assumed, table.expand a, t⟩
  | target {assumed : List (String × String)} {s : Ty} {b : String} : (∀ a, s ≠ .named a) →
      CanAsk ⟨assumed, s, .named b⟩ ⟨assumed, s, table.expand b⟩
  | parts {assumed : List (String × String)} {s t s' t' : Ty} : (∀ a, s ≠ .named a) →
      (∀ b, t ≠ .named b) → Descends s t s' t' → CanAsk ⟨assumed, s, t⟩ ⟨assumed, s', t'⟩
  | flipped {assumed : List (String × String)} {s t s' t' : Ty} : (∀ a, s ≠ .named a) →
      (∀ b, t ≠ .named b) → Descends s t s' t' → CanAsk ⟨assumed, s, t⟩ ⟨assumed, t', s'⟩

variable {table}

theorem canAsk_of_property {s t : Shape} (h : .asked q ∈ (t.map
    (inquiry.property ⟨assumed, .object s, .object t⟩ s))) :
    table.CanAsk ⟨assumed, .object s, .object t⟩ q := by
  obtain ⟨wanted, hwanted, heq⟩ := List.mem_map.mp h
  unfold inquiry.property at heq
  split at heq
  · next found hfound =>
    split at heq
    · obtain rfl := Condition.asked.inj heq
      exact .parts nofun nofun (.property (List.mem_of_find?_eq_some hfound) hwanted)
    · cases heq
  · cases heq

theorem canAsk_of_signature {s t : Signature} (h : .asked q ∈
    (inquiry.signature ⟨assumed, .function s, .function t⟩ s t).conditions) :
    table.CanAsk ⟨assumed, .function s, .function t⟩ q := by
  unfold inquiry.signature at h
  split at h
  · rcases List.mem_append.mp h with h | h
    · obtain ⟨index, -, heq⟩ := List.mem_map.mp h
      unfold inquiry.param at heq
      split at heq
      · next given expected hgiven hexpected =>
        obtain rfl := Condition.asked.inj heq
        exact .flipped nofun nofun
          (.param (Signature.mem_of_param? hgiven) (Signature.mem_of_param? hexpected))
      · cases heq
    · obtain rfl := Condition.asked.inj (List.mem_singleton.mp h)
      exact .parts nofun nofun .result
  · exact absurd h List.not_mem_nil

theorem canAsk_of_mem_inquiry (hsource : source.isIntersection = false)
    (htarget : target.isIntersection = false)
    (h : .asked q ∈ (table.inquiry ⟨assumed, source, target⟩).conditions) :
    table.CanAsk ⟨assumed, source, target⟩ q := by
  have hmembers : ∀ {members : List Ty} {f : Ty → Question},
      .asked q ∈ members.map (fun m => Condition.asked (f m)) → ∃ m ∈ members, f m = q := by
    intro members f h
    obtain ⟨m, hm, heq⟩ := List.mem_map.mp h
    exact ⟨m, hm, Condition.asked.inj heq⟩
  unfold inquiry at h
  dsimp only at h
  split at h
  · exact absurd h List.not_mem_nil
  · cases source with
    | named a =>
      cases target with
      | named b =>
        dsimp only at h
        split at h
        · exact absurd h List.not_mem_nil
        · next hnot =>
          obtain rfl := Condition.asked.inj (List.mem_singleton.mp h)
          exact .names (mt List.contains_iff_mem.mpr hnot)
      | _ =>
        obtain rfl := Condition.asked.inj (List.mem_singleton.mp h)
        exact .source nofun
    | intersection members => exact absurd hsource (by simp [Ty.isIntersection])
    | union members =>
      cases target with
      | named b =>
        obtain rfl := Condition.asked.inj (List.mem_singleton.mp h)
        exact .target nofun
      | _ =>
        obtain ⟨m, hm, rfl⟩ := hmembers h
        exact .parts nofun nofun (.left hm)
    | _ =>
      cases target with
      | named b =>
        obtain rfl := Condition.asked.inj (List.mem_singleton.mp h)
        exact .target nofun
      | union members =>
        obtain ⟨m, hm, rfl⟩ := hmembers h
        exact .parts nofun nofun (.right hm)
      | intersection members => exact absurd htarget (by simp [Ty.isIntersection])
      | object t => first | exact canAsk_of_property h | exact absurd h List.not_mem_nil
      | function t => first | exact canAsk_of_signature h | exact absurd h List.not_mem_nil
      | _ => exact absurd h List.not_mem_nil

/-- A question about types in `U` leads only to such. -/
theorem CanAsk.within {U : Ty → Prop} (hclosed : table.Closed U) {q q' : Question}
    (h : table.CanAsk q q') (hs : U q.source) (ht : U q.target) : U q'.source ∧ U q'.target := by
  have hdescends : ∀ {s t s' t' : Ty}, Descends s t s' t' → U s → U t → U s' ∧ U t' := by
    intro s t s' t' h hs ht
    cases h with
    | left hm => exact ⟨hclosed.union _ hs _ hm, ht⟩
    | right hm => exact ⟨hs, hclosed.union _ ht _ hm⟩
    | property hfound hwanted =>
      exact ⟨hclosed.property _ hs _ hfound, hclosed.property _ ht _ hwanted⟩
    | param hgiven hexpected =>
      exact ⟨hclosed.param _ hs _ hgiven, hclosed.param _ ht _ hexpected⟩
    | result => exact ⟨hclosed.result _ hs, hclosed.result _ ht⟩
  cases h with
  | names _ => exact ⟨hclosed.expand _ hs, hclosed.expand _ ht⟩
  | source _ => exact ⟨hclosed.expand _ hs, ht⟩
  | target _ => exact ⟨hs, hclosed.expand _ ht⟩
  | parts _ _ h => exact hdescends h hs ht
  | flipped _ _ h => exact (hdescends h hs ht).symm

/-! ## Questions that lead to others -/

variable (table)

/-- The answer to a question. -/
def answered (effort : Nat) (q : Question) : Answer Bool :=
  table.fitsAssuming effort q.assumed q.source q.target

/-- Whether a question is answered with some effort. -/
def Ends (q : Question) : Prop :=
  ∃ effort, (table.answered effort q).isSome

/-- Whether one question leads to another: the other is asked in the course of
the inquiry, as what stands before it is answered and leaves the matter open. -/
def Asks (q q' : Question) : Prop :=
  ∃ effort, q' ∈ (table.inquiry q).questions (table.answered effort)

variable {table} {q' : Question} {effort : Nat}

theorem answered_upto {more : Nat} (hle : effort ≤ more) (q : Question) :
    Upto (table.answered effort q) (table.answered more q) :=
  fitsAssuming_upto hle _ _ _

theorem answered_succ (hsource : q.source.isIntersection = false) :
    table.answered (effort + 1) q = (table.inquiry q).answer (table.answered effort) :=
  fitsRule_eq_answer (table.fitsAssuming effort) hsource

theorem Asks.canAsk (h : table.Asks q q') (hsource : q.source.isIntersection = false)
    (htarget : q.target.isIntersection = false) : table.CanAsk q q' := by
  obtain ⟨effort, h⟩ := h
  exact canAsk_of_mem_inquiry hsource htarget (asked_mem_of_mem_questionsOf h)

/-- What a question leads to is answered with less effort than the question. -/
theorem Asks.answered (h : table.Asks q q') (hsource : q.source.isIntersection = false)
    (hanswer : (table.answered (effort + 1) q).isSome) : (table.answered effort q').isSome := by
  obtain ⟨other, h⟩ := h
  rw [answered_succ hsource] at hanswer
  refine isSome_of_mem_questionsOf (fun q x y hx hy => ?_) hanswer h
  have hx' := answered_upto (Nat.le_max_left effort other) q x hx
  exact Option.some.inj (hx'.symm.trans (answered_upto (Nat.le_max_right ..) q y hy))

/-- A question is answered if all questions are to which it leads. -/
theorem Ends.of_asks (hsource : q.source.isIntersection = false)
    (h : ∀ q', table.Asks q q' → table.Ends q') : table.Ends q := by
  obtain ⟨effort, heffort⟩ := exists_answerOf (fun _ _ hle q => answered_upto hle q)
    fun effort q' hq' => h q' ⟨effort, hq'⟩
  exact ⟨effort + 1, by rwa [answered_succ hsource]⟩

/-- A question is answered if and only if it is not the first of an infinite
chain of questions of which each leads to the next. -/
theorem ends_iff_acc {U : Ty → Prop} (hclosed : table.Closed U)
    (hplain : ∀ type, U type → type.isIntersection = false) (hs : U q.source) (ht : U q.target) :
    table.Ends q ↔ Acc (fun q' q => table.Asks q q') q := by
  constructor
  · rintro ⟨effort, hanswer⟩
    induction effort generalizing q with
    | zero => exact absurd hanswer (by simp [Table.answered, fitsAssuming])
    | succ effort ih =>
      refine ⟨_, fun q' hasks => ?_⟩
      obtain ⟨hs', ht'⟩ := (hasks.canAsk (hplain _ hs) (hplain _ ht)).within hclosed hs ht
      exact ih hs' ht' (hasks.answered (hplain _ hs) hanswer)
  · intro h
    induction h with
    | intro q _ ih =>
      refine .of_asks (hplain _ hs) fun q' hasks => ?_
      obtain ⟨hs', ht'⟩ := (hasks.canAsk (hplain _ hs) (hplain _ ht)).within hclosed hs ht
      exact ih q' hasks hs' ht'

theorem ends_iff_no_chain {U : Ty → Prop} (hclosed : table.Closed U)
    (hplain : ∀ type, U type → type.isIntersection = false) (hs : U q.source) (ht : U q.target) :
    table.Ends q ↔
      ¬∃ chain : Nat → Question, chain 0 = q ∧ ∀ n, table.Asks (chain n) (chain (n + 1)) :=
  (ends_iff_acc hclosed hplain hs ht).trans
    (not_iff_comm.mp not_acc_iff_exists_descending_chain).symm

end Table

end TypedScript
