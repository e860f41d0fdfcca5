import Mathlib
import TypedScript.Execution
import TypedScript.Proofs.Lexemes
import TypedScript.Proofs.NormalTypes
import TypedScript.Proofs.Telling
import TypedScript.Types.Spelling

/-!
# Types are told apart by their texts

In the text of a type few members stand in parentheses, so where a member ends has to be
seen from what follows it. A type is `Legible` if its unions and intersections are normal,
its functions take so many arguments at most, and its names are words. Then its text, with
anything behind it that does not go on with a word or an operator of types, is the text of no
other type, and ends there (`Ty.unique`).

The text is taken apart from the outside to the inside: a type that is no function is the
members of a union, each the members of an intersection, each an `operand` that is a word or
stands in brackets (`Ty.letters_eq_chains`). Members are told one after the other
(`separated_unique`), operands by their first character, and a function from a member in
parentheses by the arrow behind them (`Ty.not_grouped`).
-/

namespace TypedScript

open Pattern

/-! ## Texts that end in one place -/

section Separated

variable {α : Type} {piece : α → List Char} {sep : List Char} {Stop : List Char → Prop}
  {l l' : List α} {r r' : List Char}

variable (piece Stop) in
/-- The first of some pieces, and what stands behind it. -/
theorem exists_first_piece (hl : l ≠ []) (hsep : ∀ x, Stop (sep ++ x)) (hr : Stop r) :
    ∃ a ∈ l, ∃ s, Stop s ∧ sep.intercalate (l.map piece) ++ r = piece a ++ s := by
  match l with
  | [] => exact absurd rfl hl
  | [a] => exact ⟨a, List.mem_singleton_self a, r, hr, by simp⟩
  | a :: b :: rest =>
    refine ⟨a, List.mem_cons_self, _, hsep (sep.intercalate ((b :: rest).map piece) ++ r), ?_⟩
    simp [List.intercalate_cons_cons]

variable (Stop) in
/-- Rows of pieces are told apart if the pieces are, and the separator from what may stand
behind the row. -/
theorem separated_unique (hsep : ∀ x, Stop (sep ++ x)) (hr : Stop r) (hr' : Stop r')
    (hend : ¬ sep <+: r) (hend' : ¬ sep <+: r') (hl : l ≠ []) (hl' : l' ≠ [])
    (hpiece : ∀ a ∈ l, ∀ b ∈ l', ∀ s s', Stop s → Stop s' →
      piece a ++ s = piece b ++ s' → a = b ∧ s = s')
    (h : sep.intercalate (l.map piece) ++ r = sep.intercalate (l'.map piece) ++ r') :
    l = l' ∧ r = r' := by
  induction l generalizing l' with
  | nil => exact absurd rfl hl
  | cons a rest ih =>
    obtain ⟨b, rest', rfl⟩ := List.exists_cons_of_ne_nil hl'
    have hfirst := hpiece a List.mem_cons_self b List.mem_cons_self
    match rest, rest' with
    | [], [] =>
      obtain ⟨rfl, rfl⟩ := hfirst r r' hr hr' (by simpa using h)
      exact ⟨rfl, rfl⟩
    | [], b₂ :: rest' =>
      obtain ⟨-, hrest⟩ := hfirst r _ hr
        (hsep (sep.intercalate ((b₂ :: rest').map piece) ++ r'))
        (by simpa [List.intercalate_cons_cons] using h)
      exact absurd ⟨_, hrest.symm⟩ hend
    | a₂ :: rest, [] =>
      obtain ⟨-, hrest⟩ := hfirst _ r' (hsep (sep.intercalate ((a₂ :: rest).map piece) ++ r)) hr'
        (by simpa [List.intercalate_cons_cons] using h)
      exact absurd ⟨_, hrest⟩ hend'
    | a₂ :: rest, b₂ :: rest' =>
      obtain ⟨rfl, hrest⟩ := hfirst _ _
        (hsep (sep.intercalate ((a₂ :: rest).map piece) ++ r))
        (hsep (sep.intercalate ((b₂ :: rest').map piece) ++ r'))
        (by simpa [List.intercalate_cons_cons] using h)
      obtain ⟨hothers, hend⟩ := ih (List.cons_ne_nil _ _) (List.cons_ne_nil _ _)
        (fun a ha b hb => hpiece a (List.mem_cons_of_mem _ ha) b (List.mem_cons_of_mem _ hb))
        (List.append_cancel_left hrest)
      exact ⟨by rw [hothers], hend⟩

end Separated

/-- What may stand behind a word and before none of some signs. -/
structure Ends (signs : List String) (rest : List Char) : Prop where
  word : ∀ c, rest.head? = some c → continuesWord c = false
  sign : ∀ sign ∈ signs, ¬ sign.toList <+: rest

theorem Ends.mono {signs signs' : List String} {rest : List Char} (h : Ends signs rest)
    (hsub : signs' ⊆ signs) : Ends signs' rest :=
  ⟨h.word, fun sign hsign => h.sign sign (hsub hsign)⟩

theorem matches_of_reach_eq {p : Pattern} {run : List Char} (hpos : 0 < run.length)
    (h : p.reach run = run.length) : p.Matches run := by
  have hreach : 0 < p.reach run := by omega
  have htake := matches_take_reach hreach
  rwa [h, List.take_length] at htake

/-- A word ends where it is not gone on with. -/
theorem word_unique {w w' r r' : List Char} (hw : Matches .word w) (hw' : Matches .word w')
    (hr : ∀ c, r.head? = some c → continuesWord c = false)
    (hr' : ∀ c, r'.head? = some c → continuesWord c = false) (h : w ++ r = w' ++ r') :
    w = w' ∧ r = r' := by
  have hrun : ∀ {w r : List Char}, Matches .word w →
      (∀ c, r.head? = some c → continuesWord c = false) →
        (w ++ r).takeWhile continuesWord = w := by
    intro w r hw hr
    have hall : ∀ c ∈ w, continuesWord c = true := by
      cases hw with
      | word hfirst hrest =>
        exact List.forall_mem_cons.mpr ⟨by rw [continuesWord, hfirst, Bool.true_or], hrest⟩
    rw [List.takeWhile_append_of_pos hall]
    cases r with
    | nil => simp
    | cons c r => simp [hr c rfl]
  have hsame : w = w' := by
    rw [← hrun hw hr, h, hrun hw' hr']
  subst hsame
  exact ⟨rfl, List.append_cancel_left h⟩

/-! ## Types that can be told from their texts -/

/-- What is asked of a part of a legible type, apart from what it is built from. -/
def Ty.LegiblePart : Ty → Prop
  | .primitive _ | .unknown => True
  | .named name => Matches .word name.toList ∧
      name ∉ ["string", "number", "boolean", "void", "unknown"]
  | .object properties => ∀ p ∈ properties, Matches .word p.name.toList
  | .function signature =>
    signature.isVariadic = false ∧ signature.required ≤ signature.params.length
  | .union members => 2 ≤ members.length ∧ ∀ m ∈ members, m.isUnion = false
  | .intersection members => 2 ≤ members.length ∧ ∀ m ∈ members, m.isIntersection = false

/-- A type that is told from others by its text. -/
def Ty.Legible (type : Ty) : Prop :=
  type.Throughout Ty.LegiblePart

theorem typeSpellings_eq_map (types : List Ty) :
    typeSpellings types = types.map Ty.spelling := by
  induction types with
  | nil => rfl
  | cons type rest ih => rw [typeSpellings, ih, List.map_cons]

theorem memberSpellings_eq_map (isLooser : Ty → Bool) (members : List Ty) :
    memberSpellings isLooser members =
      members.map fun m => parenthesized (isLooser m) m.spelling := by
  induction members with
  | nil => rfl
  | cons m rest ih => rw [memberSpellings, ih, List.map_cons]

theorem propertySpellings_eq_map (properties : List Property) :
    propertySpellings properties = properties.map Property.spelling := by
  induction properties with
  | nil => rfl
  | cons p rest ih => rw [propertySpellings, ih, List.map_cons]

namespace Ty

/-- The characters of the text of a type. -/
def letters (type : Ty) : List Char :=
  type.spelling.toList

/-- The characters of a member of an intersection, or of a union that is no intersection. -/
def operand (type : Ty) : List Char :=
  if type.isLooserThanIntersection then '(' :: (type.letters ++ [')']) else type.letters

/-- The characters of a member of a union. -/
def chain (type : Ty) : List Char :=
  [' ', '&', ' '].intercalate (type.intersectionMembers.map operand)

/-- Whether the text of a type is a word. -/
def isWord : Ty → Bool
  | .primitive _ | .named _ | .unknown => true
  | _ => false

/-- A function is a type for itself among members. -/
def isFunction : Ty → Bool
  | .function _ => true
  | _ => false

theorem toList_parenthesized (isNeeded : Bool) (text : String) :
    (parenthesized isNeeded text).toList =
      if isNeeded then '(' :: (text.toList ++ [')']) else text.toList := by
  cases isNeeded <;> simp [parenthesized]

theorem operand_eq (m : Ty) :
    m.operand = (parenthesized m.isLooserThanIntersection m.spelling).toList :=
  (toList_parenthesized _ _).symm

theorem chain_of_not_intersection {m : Ty} (h : m.isIntersection = false) :
    m.chain = m.operand := by
  cases m with
  | intersection members => cases h
  | _ => exact List.intercalate_singleton

theorem letters_intersection (members : List Ty) :
    (intersection members).letters = (intersection members).chain := by
  have hmembers : members.map (String.toList ∘ fun m =>
      parenthesized m.isLooserThanIntersection m.spelling) = members.map operand :=
    List.map_congr_left fun m _ => (operand_eq m).symm
  simp [letters, spelling, memberSpellings_eq_map, chain, intersectionMembers, hmembers]

/-- The text of a member of a union. -/
theorem chain_eq {m : Ty} (h : m.isUnion = false) :
    m.chain = (parenthesized m.isLooserThanUnion m.spelling).toList := by
  cases m with
  | union members => cases h
  | intersection members =>
    rw [← letters_intersection]
    rfl
  | _ => rw [chain_of_not_intersection rfl, operand_eq]; rfl

/-- A type that is no function is written member by member. -/
theorem letters_eq_chains {type : Ty} (hlegible : type.Legible)
    (hfunction : type.isFunction = false) :
    type.letters = [' ', '|', ' '].intercalate (type.unionMembers.map chain) := by
  cases type with
  | function signature => cases hfunction
  | union members =>
    have hmembers : members.map (String.toList ∘ fun m =>
        parenthesized m.isLooserThanUnion m.spelling) = members.map chain :=
      List.map_congr_left fun m hm => (chain_eq (hlegible.self.2 m hm)).symm
    simp [letters, spelling, memberSpellings_eq_map, unionMembers, hmembers]
  | intersection members => simp [unionMembers, letters_intersection]
  | _ =>
    rw [unionMembers_of_not_isUnion rfl, List.map_singleton, List.intercalate_singleton,
      chain_of_not_intersection rfl]
    rfl

/-! ### Words -/

/-- The type that a word stands for. -/
def ofWord : String → Ty
  | "string" => .text
  | "number" => .number
  | "boolean" => .boolean
  | "void" => .void
  | "unknown" => .unknown
  | name => .named name

/-- The type is read off its word. -/
theorem ofWord_spelling {type : Ty} (hlegible : type.Legible) (hword : type.isWord = true) :
    ofWord type.spelling = type := by
  cases type with
  | primitive primitive => cases primitive <;> rfl
  | named name =>
    have hname := hlegible.self.2
    simp only [List.mem_cons, not_or] at hname
    show ofWord name = named name
    unfold ofWord
    split <;> simp_all
  | unknown => rfl
  | _ => cases hword

/-- The text of a legible type that is a word is one. -/
theorem matches_letters {type : Ty} (hlegible : type.Legible) (hword : type.isWord = true) :
    Matches .word type.letters := by
  cases type with
  | primitive primitive =>
    cases primitive <;> exact matches_of_reach_eq (by decide +kernel) (by decide +kernel)
  | named name => exact hlegible.self.1
  | unknown => exact matches_of_reach_eq (by decide +kernel) (by decide +kernel)
  | _ => cases hword

/-! ### Objects -/

end Ty

/-- The signs that may stand behind a type and go on with it. -/
def typeSigns : List String :=
  [" => ", " & ", " | "]

/-- The signs that may stand behind a member of a union and go on with it. -/
def memberSigns : List String :=
  [" => ", " & "]

/-- The sign that may stand behind an operand and make more of it. -/
def operandSigns : List String :=
  [" => "]

theorem Ends.member {rest : List Char} (h : Ends typeSigns rest) : Ends memberSigns rest :=
  h.mono (by simp [typeSigns, memberSigns])

theorem Ends.operand {rest : List Char} (h : Ends memberSigns rest) : Ends operandSigns rest :=
  h.mono (by simp [memberSigns, operandSigns])

theorem ends_union (rest : List Char) : Ends memberSigns ([' ', '|', ' '] ++ rest) :=
  ⟨by simp; decide, by simp [memberSigns]⟩

theorem ends_intersection (rest : List Char) : Ends operandSigns ([' ', '&', ' '] ++ rest) :=
  ⟨by simp; decide, by simp [operandSigns]⟩

/-- A character that is neither part of a word nor a blank ends a type. -/
theorem Ends.of_head {c : Char} (hword : continuesWord c = false) (hblank : c ≠ ' ')
    (rest : List Char) : Ends typeSigns (c :: rest) where
  word d hd := by
    cases hd
    exact hword
  sign := by simp [typeSigns, Ne.symm hblank]

/-- The text of a type, with anything behind it that does not go on with it, is that of no
other type. -/
def Ty.Unique (type : Ty) : Prop :=
  ∀ other : Ty, other.Legible → ∀ r r', Ends typeSigns r → Ends typeSigns r' →
    type.letters ++ r = other.letters ++ r' → type = other ∧ r = r'

namespace Property

/-- The characters of the text of a property. -/
def letters (p : Property) : List Char :=
  p.name.toList ++ ((if p.isOptional then ['?'] else []) ++ ([':', ' '] ++ p.type.letters))

theorem toList_spelling (p : Property) : p.spelling.toList = p.letters := by
  obtain ⟨name, type, isOptional⟩ := p
  cases isOptional <;> simp [Property.spelling, letters, Ty.letters]

/-- A property is told from others if its type is. -/
theorem unique {p q : Property} (hp : Matches .word p.name.toList)
    (hq : Matches .word q.name.toList) (hunique : p.type.Unique) (hlegible : q.type.Legible)
    {r r' : List Char} (hr : Ends typeSigns r) (hr' : Ends typeSigns r')
    (h : p.letters ++ r = q.letters ++ r') : p = q ∧ r = r' := by
  obtain ⟨name, type, isOptional⟩ := p
  obtain ⟨name', type', isOptional'⟩ := q
  simp only [letters, List.append_assoc] at h
  obtain ⟨hname, h⟩ := word_unique hp hq (by cases isOptional <;> simp <;> decide)
    (by cases isOptional' <;> simp <;> decide) h
  have hflag : isOptional = isOptional' := by
    cases isOptional <;> cases isOptional' <;> simp_all
  subst hflag
  obtain ⟨htype, hrest⟩ := hunique type' hlegible r r' hr hr' (by simpa using h)
  have hname : name = name' := String.toList_inj.mp hname
  subst hname htype
  exact ⟨rfl, hrest⟩

end Property

theorem Ty.letters_object (properties : List Property) (hne : properties ≠ []) :
    (object properties).letters = ['\x7b', ' '] ++
      ([';', ' '].intercalate (properties.map Property.letters) ++ [' ', '\x7d']) := by
  have hparts : properties.map (String.toList ∘ Property.spelling) =
      properties.map Property.letters :=
    List.map_congr_left fun p _ => p.toList_spelling
  rw [letters, spelling]
  split
  · next hempty =>
    rw [propertySpellings_eq_map, List.map_eq_nil_iff] at hempty
    exact absurd hempty hne
  · simp [propertySpellings_eq_map, hparts]

theorem Ty.letters_object_nil : (object []).letters = ['\x7b', '\x7d'] := rfl

/-- An object type is told from others if the types of its properties are. -/
theorem Ty.object_unique {properties properties' : List Property}
    (hlegible : (object properties).Legible) (hlegible' : (object properties').Legible)
    (hunique : ∀ p ∈ properties, p.type.Unique) {r r' : List Char}
    (h : (object properties).letters ++ r = (object properties').letters ++ r') :
    object properties = object properties' ∧ r = r' := by
  have hends : ∀ r : List Char, Ends typeSigns (' ' :: '\x7d' :: r) := fun r =>
    ⟨by simp; decide, by simp [typeSigns]⟩
  by_cases hempty : properties = [] <;> by_cases hempty' : properties' = []
  · subst hempty hempty'
    exact ⟨rfl, List.append_cancel_left h⟩
  · subst hempty
    rw [letters_object_nil, letters_object _ hempty'] at h
    simp at h
  · subst hempty'
    rw [letters_object_nil, letters_object _ hempty] at h
    simp at h
  · rw [letters_object _ hempty, letters_object _ hempty'] at h
    simp only [List.append_assoc] at h
    obtain ⟨hsame, hrest⟩ := separated_unique (Ends typeSigns)
      (fun x => .of_head (by decide) (by decide) _) (hends r) (hends r') (by simp) (by simp)
      hempty hempty'
      (fun p hp q hq s s' hs hs' => Property.unique (hlegible.self p hp) (hlegible'.self q hq)
        (hunique p hp) ((Throughout.object_iff.mp hlegible').2 q hq) hs hs')
      (List.append_cancel_left h)
    exact ⟨by rw [hsame], by simpa using hrest⟩

/-! ### Operands -/

namespace Ty

/-- The bracket that an operand stands in, none if it is a word. -/
def bracket? : Ty → Option Char
  | .object _ => some '\x7b'
  | .function _ | .union _ => some '('
  | _ => none

/-- The three forms of an operand: a word, braces, or another type in parentheses. -/
theorem operand_cases {q : Ty} (h : q.isIntersection = false) :
    (q.isWord = true ∧ q.bracket? = none ∧ q.operand = q.letters) ∨
      (∃ properties, q = object properties ∧ q.bracket? = some '\x7b' ∧ q.operand = q.letters) ∨
        (q.isLooserThanIntersection = true ∧ q.bracket? = some '(' ∧
          q.operand = '(' :: (q.letters ++ [')'])) := by
  cases q with
  | primitive _ | named _ | unknown => exact .inl ⟨rfl, rfl, rfl⟩
  | object properties => exact .inr (.inl ⟨properties, rfl, rfl, rfl⟩)
  | function _ | union _ => exact .inr (.inr ⟨rfl, rfl, rfl⟩)
  | intersection _ => cases h

/-- The first character of an operand shows its form. -/
theorem exists_operand_head {q : Ty} (hlegible : q.Legible) (hnormal : q.isIntersection = false) :
    ∃ c rest, q.operand = c :: rest ∧ q.bracket? = if startsWord c then none else some c := by
  rcases operand_cases hnormal with ⟨hword, hb, heq⟩ | ⟨properties, rfl, hb, heq⟩ | ⟨_, hb, heq⟩ <;>
    rw [hb, heq]
  · have hmatches := matches_letters hlegible hword
    generalize q.letters = run at hmatches
    cases hmatches with
    | word hfirst _ => exact ⟨_, _, rfl, (if_pos hfirst).symm⟩
  · by_cases hempty : properties = []
    · exact ⟨_, _, by rw [hempty, letters_object_nil], rfl⟩
    · exact ⟨_, _, letters_object properties hempty, rfl⟩
  · exact ⟨_, _, rfl, rfl⟩

/-- An operand is told from others if what stands in its brackets is. -/
theorem operand_unique {q q' : Ty} (hlegible : q.Legible) (hlegible' : q'.Legible)
    (hnormal : q.isIntersection = false) (hnormal' : q'.isIntersection = false)
    (hloose : q.isLooserThanIntersection = true → q.Unique)
    (hobject : ∀ properties, q = object properties → ∀ p ∈ properties, p.type.Unique)
    {s s' : List Char} (hs : ∀ c, s.head? = some c → continuesWord c = false)
    (hs' : ∀ c, s'.head? = some c → continuesWord c = false)
    (h : q.operand ++ s = q'.operand ++ s') : q = q' ∧ s = s' := by
  have hbracket : q.bracket? = q'.bracket? := by
    obtain ⟨c, rest, hc, hb⟩ := exists_operand_head hlegible hnormal
    obtain ⟨c', rest', hc', hb'⟩ := exists_operand_head hlegible' hnormal'
    rw [hc, hc'] at h
    rw [hb, hb', (List.cons.inj h).1]
  rcases operand_cases hnormal with ⟨hword, hb, heq⟩ | ⟨properties, rfl, hb, heq⟩ |
      ⟨hgroup, hb, heq⟩ <;>
    rcases operand_cases hnormal' with ⟨hword', hb', heq'⟩ | ⟨properties', rfl, hb', heq'⟩ |
      ⟨hgroup', hb', heq'⟩ <;>
    rw [heq, heq'] at h <;> rw [hb, hb'] at hbracket <;>
    try exact absurd hbracket (by decide)
  · obtain ⟨hletters, hrest⟩ := word_unique (matches_letters hlegible hword)
      (matches_letters hlegible' hword') hs hs' h
    refine ⟨?_, hrest⟩
    rw [← ofWord_spelling hlegible hword, ← ofWord_spelling hlegible' hword',
      String.toList_inj.mp hletters]
  · exact object_unique hlegible hlegible' (hobject properties rfl) h
  · have hends : ∀ s, Ends typeSigns (')' :: s) := fun s => .of_head (by decide) (by decide) s
    obtain ⟨hsame, hrest⟩ := hloose hgroup q' hlegible' (')' :: s) (')' :: s') (hends s) (hends s')
      (by simpa using h)
    exact ⟨hsame, (List.cons.inj hrest).2⟩

/-! ### Members one after the other -/

theorem Legible.unionMember {type a : Ty} (h : type.Legible) (ha : a ∈ type.unionMembers) :
    a.Legible ∧ a.isUnion = false ∧ (a = type ∨ sizeOf a < sizeOf type) := by
  by_cases hunion : type.isUnion = true
  · cases type with
    | union members =>
      exact ⟨(Throughout.union_iff.mp h).2 a ha, h.self.2 a ha, .inr (sizeOf_lt_union ha)⟩
    | _ => cases hunion
  · rw [Bool.not_eq_true] at hunion
    rw [unionMembers_of_not_isUnion hunion, List.mem_singleton] at ha
    subst ha
    exact ⟨h, hunion, .inl rfl⟩

theorem Legible.intersectionMember {type a : Ty} (h : type.Legible)
    (ha : a ∈ type.intersectionMembers) :
    a.Legible ∧ a.isIntersection = false ∧ (a = type ∨ sizeOf a < sizeOf type) := by
  cases type with
  | intersection members =>
    exact ⟨(Throughout.intersection_iff.mp h).2 a ha, h.self.2 a ha,
      .inr (sizeOf_lt_intersection ha)⟩
  | _ =>
    rw [List.mem_singleton.mp ha]
    exact ⟨h, rfl, .inl rfl⟩

theorem Legible.unionMembers_ne_nil {type : Ty} (h : type.Legible) : type.unionMembers ≠ [] := by
  intro hempty
  cases type with
  | union members =>
    have hlength := h.self.1
    rw [show members = [] from hempty] at hlength
    cases hlength
  | _ => cases hempty

theorem Legible.intersectionMembers_ne_nil {type : Ty} (h : type.Legible) :
    type.intersectionMembers ≠ [] := by
  intro hempty
  cases type with
  | intersection members =>
    have hlength := h.self.1
    rw [show members = [] from hempty] at hlength
    cases hlength
  | _ => cases hempty

/-- The members of a member of a legible type that is no function. The type itself is one of
them only if it has no members, and then it stands in no parentheses. -/
theorem Legible.operand {type a q : Ty} (h : type.Legible) (hfunction : type.isFunction = false)
    (ha : a ∈ type.unionMembers) (hq : q ∈ a.intersectionMembers) :
    q.Legible ∧ q.isIntersection = false ∧ sizeOf q ≤ sizeOf type ∧
      (q.isLooserThanIntersection = true → sizeOf q < sizeOf type) := by
  obtain ⟨hla, hunion, hsize⟩ := h.unionMember ha
  obtain ⟨hlq, hnormal, hsize'⟩ := hla.intersectionMember hq
  refine ⟨hlq, hnormal, ?_, ?_⟩
  · rcases hsize with rfl | hsize <;> rcases hsize' with rfl | hsize' <;> omega
  · intro hloose
    rcases hsize' with rfl | hsize'
    · rcases hsize with rfl | hsize
      · cases q with
        | function _ => cases hfunction
        | union _ => cases hunion
        | _ => cases hloose
      · exact hsize
    · rcases hsize with rfl | hsize <;> omega

/-- A type of some members, or the only one of them. -/
def gather (compose : List Ty → Ty) : List Ty → Ty
  | [type] => type
  | members => compose members

theorem gather_of_two_le {compose : List Ty → Ty} {members : List Ty}
    (h : 2 ≤ members.length) : gather compose members = compose members := by
  unfold gather
  split
  · simp at h
  · rfl

/-- A legible type is known from its members. -/
theorem Legible.gather_unionMembers {type : Ty} (h : type.Legible) :
    gather union type.unionMembers = type := by
  cases type with
  | union members => exact gather_of_two_le h.self.1
  | _ => rfl

theorem Legible.gather_intersectionMembers {type : Ty} (h : type.Legible) :
    gather intersection type.intersectionMembers = type := by
  cases type with
  | intersection members => exact gather_of_two_le h.self.1
  | _ => rfl

/-- A type that is no function starts with an operand, which stands in parentheses only if it
is smaller. -/
theorem exists_first_operand {type : Ty} (hlegible : type.Legible)
    (hfunction : type.isFunction = false) {r : List Char} (hr : Ends typeSigns r) :
    ∃ (q : Ty) (s : List Char), q.Legible ∧ q.isIntersection = false ∧ Ends operandSigns s ∧
      (q.isLooserThanIntersection = true → sizeOf q < sizeOf type) ∧
        type.letters ++ r = q.operand ++ s := by
  obtain ⟨a, ha, s, hs, hletters⟩ := exists_first_piece chain (Ends memberSigns)
    hlegible.unionMembers_ne_nil ends_union hr.member
  obtain ⟨q, hq, s', hs', hchain⟩ := exists_first_piece operand (Ends operandSigns)
    (hlegible.unionMember ha).1.intersectionMembers_ne_nil ends_intersection hs.operand
  obtain ⟨hlq, hnormal, -, hsize⟩ := hlegible.operand hfunction ha hq
  refine ⟨q, s', hlq, hnormal, hs', hsize, ?_⟩
  rw [letters_eq_chains hlegible hfunction, hletters]
  exact hchain

/-- A type that is no function is told from those that are none either. -/
theorem members_unique {type other : Ty} (hlegible : type.Legible) (hlegible' : other.Legible)
    (hfunction : type.isFunction = false) (hfunction' : other.isFunction = false)
    (ih : ∀ smaller : Ty, sizeOf smaller < sizeOf type → smaller.Legible → smaller.Unique)
    {r r' : List Char} (hr : Ends typeSigns r) (hr' : Ends typeSigns r')
    (h : type.letters ++ r = other.letters ++ r') : type = other ∧ r = r' := by
  have hoperand : ∀ a ∈ type.unionMembers, ∀ b ∈ other.unionMembers,
      ∀ q ∈ a.intersectionMembers, ∀ q' ∈ b.intersectionMembers, ∀ s s',
        Ends operandSigns s → Ends operandSigns s' → q.operand ++ s = q'.operand ++ s' →
          q = q' ∧ s = s' := by
    intro a ha b hb q hq q' hq' s s' hs hs' h
    obtain ⟨hlq, hnormal, hle, hloose⟩ := hlegible.operand hfunction ha hq
    obtain ⟨hlq', hnormal', -⟩ := hlegible'.operand hfunction' hb hq'
    refine operand_unique hlq hlq' hnormal hnormal' (fun hgroup => ih q (hloose hgroup) hlq)
      ?_ hs.word hs'.word h
    rintro properties rfl p hp
    refine ih p.type ?_ ((Throughout.object_iff.mp hlq).2 p hp)
    exact Nat.lt_of_lt_of_le (sizeOf_lt_object hp) hle
  have hchain : ∀ a ∈ type.unionMembers, ∀ b ∈ other.unionMembers, ∀ s s',
      Ends memberSigns s → Ends memberSigns s' → a.chain ++ s = b.chain ++ s' →
        a = b ∧ s = s' := by
    intro a ha b hb s s' hs hs' h
    obtain ⟨hla, -⟩ := hlegible.unionMember ha
    obtain ⟨hlb, -⟩ := hlegible'.unionMember hb
    obtain ⟨hsame, hrest⟩ := separated_unique (Ends operandSigns) ends_intersection hs.operand
      hs'.operand (hs.sign " & " (by simp [memberSigns])) (hs'.sign " & " (by simp [memberSigns]))
      hla.intersectionMembers_ne_nil hlb.intersectionMembers_ne_nil (hoperand a ha b hb) h
    refine ⟨?_, hrest⟩
    rw [← hla.gather_intersectionMembers, hsame, hlb.gather_intersectionMembers]
  rw [letters_eq_chains hlegible hfunction, letters_eq_chains hlegible' hfunction'] at h
  obtain ⟨hsame, hrest⟩ := separated_unique (Ends memberSigns) ends_union hr.member hr'.member
    (hr.sign " | " (by simp [typeSigns])) (hr'.sign " | " (by simp [typeSigns]))
    hlegible.unionMembers_ne_nil hlegible'.unionMembers_ne_nil hchain h
  refine ⟨?_, hrest⟩
  rw [← hlegible.gather_unionMembers, hsame, hlegible'.gather_unionMembers]

end Ty

/-! ### Functions -/

namespace Signature

/-- The parameters of a function, each with whether a call may leave it out. -/
def slots (s : Signature) : List (Ty × Bool) :=
  s.params.mapIdx fun index type => (type, decide (s.required ≤ index))

/-- The characters of the text of a parameter. -/
def slotLetters (slot : Ty × Bool) : List Char :=
  slot.1.letters ++ if slot.2 then ['?'] else []

theorem mem_params_of_slots {s : Signature} {slot : Ty × Bool} (h : slot ∈ s.slots) :
    slot.1 ∈ s.params := by
  obtain ⟨index, hindex, rfl⟩ := List.mem_mapIdx.mp h
  exact List.getElem_mem hindex

/-- The number of required parameters is seen from which of them may be left out. -/
theorem required_le_of_slots {s s' : Signature} (hs' : s'.required ≤ s'.params.length)
    (h : s.slots = s'.slots) : s'.required ≤ s.required := by
  by_contra hlt
  have hlength := congrArg List.length h
  simp only [slots, List.length_mapIdx] at hlength
  have hget := congrArg (fun l => l[s.required]?) h
  simp [slots, List.getElem?_eq_getElem (show s.required < s.params.length by omega),
    List.getElem?_eq_getElem (show s.required < s'.params.length by omega)] at hget
  omega

/-- A signature that is not variadic is its parameters and its result. -/
theorem eq_of_slots {s s' : Signature} (hs : (Ty.function s).Legible)
    (hs' : (Ty.function s').Legible) (hslots : s.slots = s'.slots)
    (hresult : s.result = s'.result) : s = s' := by
  obtain ⟨hvariadic, hrequired⟩ := hs.self
  obtain ⟨hvariadic', hrequired'⟩ := hs'.self
  have hparams : s.params = s'.params := by
    refine List.ext_getElem? fun index => ?_
    have hget := congrArg (fun l => (l[index]?).map Prod.fst) hslots
    simpa [slots, Function.comp_def] using hget
  have hsame : s.required = s'.required :=
    Nat.le_antisymm (required_le_of_slots hrequired hslots.symm)
      (required_le_of_slots hrequired' hslots)
  obtain ⟨params, required, isVariadic, result⟩ := s
  obtain ⟨params', required', isVariadic', result'⟩ := s'
  simp_all

end Signature

namespace Ty

theorem letters_function {s : Signature} (h : s.isVariadic = false) :
    (function s).letters = ['('] ++ ([',', ' '].intercalate (s.slots.map Signature.slotLetters) ++
      ([')', ' ', '=', '>', ' '] ++ s.result.letters)) := by
  obtain ⟨params, required, isVariadic, result⟩ := s
  have hparts : ((params.map spelling).mapIdx
      (Signature.paramSpelling ⟨params, required, isVariadic, result⟩)).map String.toList =
        (Signature.slots ⟨params, required, isVariadic, result⟩).map Signature.slotLetters := by
    refine List.ext_getElem (by simp [Signature.slots]) fun index hindex hindex' => ?_
    have hvariadic : isVariadic = false := h
    subst hvariadic
    by_cases hoptional : required ≤ index <;>
      simp [Signature.slots, Signature.slotLetters, Signature.paramSpelling, hoptional, letters]
  rw [letters, spelling, Signature.spelling]
  simp [typeSpellings_eq_map, hparts, letters]

/-- The text of a type does not start where a list of parameters ends. -/
theorem exists_letters_head {type : Ty} (h : type.Legible) :
    ∃ c rest, type.letters = c :: rest ∧ c ≠ ')' := by
  by_cases hfunction : type.isFunction = true
  · cases type with
    | function s => exact ⟨_, _, letters_function h.self.1, by decide⟩
    | _ => cases hfunction
  · rw [Bool.not_eq_true] at hfunction
    obtain ⟨q, s, hq, hnormal, -, -, hletters⟩ := exists_first_operand h hfunction (r := [])
      ⟨by simp, by simp [typeSigns]⟩
    obtain ⟨c, rest, hoperand, hbracket⟩ := exists_operand_head hq hnormal
    rw [List.append_nil, hoperand] at hletters
    refine ⟨c, rest ++ s, hletters, ?_⟩
    rintro rfl
    cases q <;> cases hbracket

end Ty

namespace Signature

/-- What may stand behind a parameter. -/
structure SlotEnds (rest : List Char) : Prop where
  ends : Ends typeSigns rest
  mark : rest.head? ≠ some '?'

theorem slotEnds_of_head {c : Char} (hword : continuesWord c = false) (hblank : c ≠ ' ')
    (hmark : c ≠ '?') (rest : List Char) : SlotEnds (c :: rest) :=
  ⟨.of_head hword hblank rest, by simpa using hmark⟩

/-- What stands behind the type of a parameter ends it. -/
theorem SlotEnds.marked {rest : List Char} (h : SlotEnds rest) (isOptional : Bool) :
    Ends typeSigns ((if isOptional then ['?'] else []) ++ rest) := by
  cases isOptional with
  | false => exact h.ends
  | true => exact .of_head (by decide) (by decide) rest

/-- A parameter is told from others if its type is. -/
theorem slot_unique {slot slot' : Ty × Bool} (hunique : slot.1.Unique)
    (hlegible : slot'.1.Legible) {r r' : List Char} (hr : SlotEnds r) (hr' : SlotEnds r')
    (h : slotLetters slot ++ r = slotLetters slot' ++ r') : slot = slot' ∧ r = r' := by
  obtain ⟨type, isOptional⟩ := slot
  obtain ⟨type', isOptional'⟩ := slot'
  simp only [slotLetters, List.append_assoc] at h
  obtain ⟨htype, hrest⟩ := hunique type' hlegible _ _ (hr.marked isOptional)
    (hr'.marked isOptional') h
  have htype : type = type' := htype
  subst htype
  cases isOptional <;> cases isOptional'
  · exact ⟨rfl, hrest⟩
  · exact absurd (by rw [show r = '?' :: r' from hrest]; rfl) hr.mark
  · exact absurd (by rw [← show '?' :: r = r' from hrest]; rfl) hr'.mark
  · exact ⟨rfl, (List.cons.inj hrest).2⟩

/-- What stands behind the parameters of a function. -/
def arrow (rest : List Char) : List Char :=
  ')' :: ([' ', '=', '>', ' '] ++ rest)

theorem slotEnds_arrow (rest : List Char) : SlotEnds (arrow rest) :=
  slotEnds_of_head (by decide) (by decide) (by decide) _

theorem slotEnds_comma (rest : List Char) : SlotEnds ([',', ' '] ++ rest) :=
  slotEnds_of_head (by decide) (by decide) (by decide) _

/-- A list of parameters does not end before the first one. -/
theorem slots_ne_arrow {l : List (Ty × Bool)} (hne : l ≠ []) (hl : ∀ slot ∈ l, slot.1.Legible)
    (r r' : List Char) :
    [',', ' '].intercalate (l.map slotLetters) ++ arrow r ≠ arrow r' := by
  intro h
  obtain ⟨slot, hslot, s, -, hfirst⟩ := exists_first_piece slotLetters SlotEnds hne
    slotEnds_comma (slotEnds_arrow r)
  obtain ⟨c, rest, hletters, hc⟩ := Ty.exists_letters_head (hl slot hslot)
  rw [hfirst, slotLetters, hletters] at h
  exact hc (List.cons.inj h).1

/-- Parameters are told from others if their types are. -/
theorem slots_unique {l l' : List (Ty × Bool)} (hunique : ∀ slot ∈ l, slot.1.Unique)
    (hl : ∀ slot ∈ l, slot.1.Legible) (hl' : ∀ slot ∈ l', slot.1.Legible) {r r' : List Char}
    (h : [',', ' '].intercalate (l.map slotLetters) ++ arrow r =
      [',', ' '].intercalate (l'.map slotLetters) ++ arrow r') : l = l' ∧ r = r' := by
  by_cases hempty : l = [] <;> by_cases hempty' : l' = []
  · subst hempty hempty'
    exact ⟨rfl, by simpa [arrow] using h⟩
  · subst hempty
    exact absurd h.symm (slots_ne_arrow hempty' hl' r' r)
  · subst hempty'
    exact absurd h (slots_ne_arrow hempty hl r r')
  · obtain ⟨hsame, hrest⟩ := separated_unique SlotEnds slotEnds_comma (slotEnds_arrow r)
      (slotEnds_arrow r') (by simp [arrow]) (by simp [arrow]) hempty hempty'
      (fun slot hslot slot' hslot' _ _ hs hs' =>
        slot_unique (hunique slot hslot) (hl' slot' hslot') hs hs') h
    exact ⟨hsame, by simpa [arrow] using hrest⟩

end Signature

namespace Ty

theorem Legible.slots {s : Signature} (h : (function s).Legible) :
    ∀ slot ∈ s.slots, slot.1.Legible :=
  fun _ hslot => (Throughout.function_iff.mp h).2.1 _ (Signature.mem_params_of_slots hslot)

/-- A function is told from other functions if its parameters and its result are told from
other types. -/
theorem function_unique {s s' : Signature} (hs : (function s).Legible)
    (hs' : (function s').Legible) (hparams : ∀ p ∈ s.params, p.Unique)
    (hresult : s.result.Unique) {r r' : List Char} (hr : Ends typeSigns r)
    (hr' : Ends typeSigns r') (h : (function s).letters ++ r = (function s').letters ++ r') :
    function s = function s' ∧ r = r' := by
  rw [letters_function hs.self.1, letters_function hs'.self.1] at h
  have hinner : [',', ' '].intercalate (s.slots.map Signature.slotLetters) ++
      Signature.arrow (s.result.letters ++ r) =
        [',', ' '].intercalate (s'.slots.map Signature.slotLetters) ++
          Signature.arrow (s'.result.letters ++ r') := by
    simpa [Signature.arrow] using h
  obtain ⟨hslots, hrest⟩ := Signature.slots_unique
    (fun _ hslot => hparams _ (Signature.mem_params_of_slots hslot)) hs.slots hs'.slots hinner
  obtain ⟨hsame, hrest⟩ := hresult s'.result (Throughout.function_iff.mp hs').2.2 r r' hr hr' hrest
  exact ⟨by rw [Signature.eq_of_slots hs hs' hslots hsame], hrest⟩

/-- A function is told from a type that starts with an operand: if that stands in parentheses,
no arrow follows. -/
theorem not_grouped {s : Signature} (hs : (function s).Legible) {q : Ty} (hq : q.Legible)
    (hnormal : q.isIntersection = false)
    (hsame : q.isLooserThanIntersection = true → ∀ p ∈ s.params, ∀ r r', Ends typeSigns r →
      Ends typeSigns r' → p.letters ++ r = q.letters ++ r' → r = r')
    {r r' : List Char} (hr' : Ends operandSigns r') :
    (function s).letters ++ r ≠ q.operand ++ r' := by
  intro h
  rw [letters_function hs.self.1] at h
  have hbracket : q.bracket? = some '(' := by
    obtain ⟨c, rest, hc, hb⟩ := exists_operand_head hq hnormal
    rw [hc] at h
    rw [hb, ← (List.cons.inj h).1]
    rfl
  rcases operand_cases hnormal with ⟨-, hb, -⟩ | ⟨-, -, hb, -⟩ | ⟨hgroup, -, heq⟩
  · rw [hb] at hbracket
    cases hbracket
  · rw [hb] at hbracket
    exact absurd hbracket (by decide)
  rw [heq] at h
  have hinner : [',', ' '].intercalate (s.slots.map Signature.slotLetters) ++
      Signature.arrow (s.result.letters ++ r) = q.letters ++ ')' :: r' := by
    simpa [Signature.arrow] using h
  by_cases hempty : s.slots = []
  · obtain ⟨c, rest, hletters, hc⟩ := exists_letters_head hq
    rw [hempty, hletters] at hinner
    exact hc (List.cons.inj hinner).1.symm
  -- the first parameter would be the type in parentheses, so its list ends there
  obtain ⟨slot, hslot, behind, ⟨hends, hbehind⟩, hfirst⟩ := exists_first_piece
    Signature.slotLetters (fun s' => Signature.SlotEnds s' ∧
      (s' = Signature.arrow (s.result.letters ++ r) ∨ s'.head? = some ',')) hempty
    (fun x => ⟨Signature.slotEnds_comma x, .inr rfl⟩) ⟨Signature.slotEnds_arrow _, .inl rfl⟩
  rw [hfirst, Signature.slotLetters, List.append_assoc] at hinner
  have hrest := hsame hgroup _ (Signature.mem_params_of_slots hslot) _ _ (hends.marked slot.2)
    (.of_head (by decide) (by decide) r') hinner
  by_cases hoptional : slot.2 = true
  · rw [if_pos hoptional] at hrest
    exact absurd (List.cons.inj hrest).1 (by decide)
  · rw [if_neg hoptional, List.nil_append] at hrest
    rcases hbehind with hbehind | hbehind
    · rw [hbehind] at hrest
      exact hr'.sign " => " (by simp [operandSigns]) ⟨_, (List.cons.inj hrest).2⟩
    · rw [hrest] at hbehind
      simp at hbehind

/-- A legible type is told from all other legible types. -/
theorem unique (type : Ty) (hlegible : type.Legible) : type.Unique := by
  have ih : ∀ smaller : Ty, sizeOf smaller < sizeOf type → smaller.Legible → smaller.Unique :=
    fun smaller _ h => unique smaller h
  intro other hlegible' r r' hr hr' h
  by_cases hfunction : type.isFunction = true <;> by_cases hfunction' : other.isFunction = true <;>
    try rw [Bool.not_eq_true] at hfunction'
  · cases type with
    | function s =>
      cases other with
      | function s' =>
        obtain ⟨-, hparams, hresult⟩ := Throughout.function_iff.mp hlegible
        exact function_unique hlegible hlegible'
          (fun p hp => ih p (sizeOf_lt_param hp) (hparams p hp))
          (ih s.result (sizeOf_lt_result s) hresult) hr hr' h
      | _ => cases hfunction'
    | _ => cases hfunction
  · cases type with
    | function s =>
      obtain ⟨-, hparams, -⟩ := Throughout.function_iff.mp hlegible
      obtain ⟨q, s', hq, hnormal, hs', -, hfirst⟩ :=
        exists_first_operand hlegible' hfunction' hr'
      rw [hfirst] at h
      refine absurd h (not_grouped hlegible hq hnormal (fun _ p hp r r' hr hr' h => ?_) hs')
      exact (ih p (sizeOf_lt_param hp) (hparams p hp) q hq r r' hr hr' h).2
    | _ => cases hfunction
  · rw [Bool.not_eq_true] at hfunction
    cases other with
    | function s =>
      obtain ⟨-, hparams, -⟩ := Throughout.function_iff.mp hlegible'
      obtain ⟨q, s', hq, hnormal, hs', hsmaller, hfirst⟩ :=
        exists_first_operand hlegible hfunction hr
      rw [hfirst] at h
      refine absurd h.symm (not_grouped hlegible' hq hnormal
        (fun hgroup p hp r r' hr hr' h => ?_) hs')
      exact (ih q (hsmaller hgroup) hq p (hparams p hp) r' r hr' hr h.symm).2.symm
    | _ => cases hfunction'
  · rw [Bool.not_eq_true] at hfunction
    exact members_unique hlegible hlegible' hfunction hfunction' ih hr hr' h
termination_by sizeOf type

/-- Legible types of the same text are the same. -/
theorem eq_of_spelling {type other : Ty} (hlegible : type.Legible) (hlegible' : other.Legible)
    (h : type.spelling = other.spelling) : type = other := by
  have hends : Ends typeSigns [] := ⟨by simp, by simp [typeSigns]⟩
  have hletters : type.letters ++ [] = other.letters ++ [] := by
    rw [letters, letters, h]
  exact (unique type hlegible other hlegible' [] [] hends hends hletters).1

/-- Legible types of the same text are the same, and as no diagnostic names one type twice, none
says of a text that it does not fit where the same text is expected. -/
theorem told_apart {expected found : Ty} (hexpected : expected.Legible) (hfound : found.Legible) :
    (expected.spelling = found.spelling → expected = found) ∧
      ∀ {program : Program} {effort fuel : Nat} {diagnostics : List Diagnostic}
        {position : Position}, program.check effort fuel = .ok diagnostics →
          ⟨.mismatch expected found, position⟩ ∈ diagnostics →
            found.spelling ≠ expected.spelling := by
  refine ⟨eq_of_spelling hexpected hfound, fun hcheck hmem hsame => ?_⟩
  exact Program.mismatch_ne hcheck hmem (eq_of_spelling hexpected hfound hsame.symm)

/-- A function that gives back a text or a number is not what is expected where there may be a
function that gives back a text, or a number. -/
theorem told_apart_of_result :
    let expected : Ty := .union [.function ⟨[], 0, false, .text⟩, .number]
    let found : Ty := .function ⟨[], 0, false, .union [.text, .number]⟩
    expected.Legible ∧ found.Legible ∧ expected.spelling ≠ found.spelling ∧
      ∃ program diagnostics position,
        Program.ofSource? "function h(g: () => string | number, f: (() => string) | number): void \x7b
          f = g; \x7d" = .ok program ∧
        program.check 16 20 = .ok diagnostics ∧
        ⟨.mismatch expected found, position⟩ ∈ diagnostics ∧ found.spelling ≠ expected.spelling := by
  intro expected found
  have hprimitive : ∀ primitive : Primitive, (Ty.primitive primitive).Legible :=
    fun _ => Throughout.leaf rfl trivial
  have hfunction : ∀ result : Ty, result.Legible → (function ⟨[], 0, false, result⟩).Legible :=
    fun result h => Throughout.function_iff.mpr
      ⟨⟨rfl, Nat.le_refl 0⟩, fun _ h => absurd h List.not_mem_nil, h⟩
  have hunion : ∀ first second : Ty, first.isUnion = false → second.isUnion = false →
      first.Legible → second.Legible → (union [first, second]).Legible := by
    intro first second hfirst hsecond h h'
    have hmembers : ∀ m ∈ [first, second], m.Legible :=
      List.forall_mem_cons.mpr ⟨h, List.forall_mem_singleton.mpr h'⟩
    exact Throughout.union_iff.mpr ⟨⟨Nat.le_refl 2, by simp [hfirst, hsecond]⟩, hmembers⟩
  have hexpected : expected.Legible :=
    hunion _ _ rfl rfl (hfunction _ (hprimitive .text)) (hprimitive .number)
  have hfound : found.Legible :=
    hfunction _ (hunion _ _ rfl rfl (hprimitive .text) (hprimitive .number))
  obtain ⟨hsame, htold⟩ := told_apart hexpected hfound
  have hread : (Program.ofSource?
      "function h(g: () => string | number, f: (() => string) | number): void \x7b
          f = g; \x7d").toOption.any (fun program => (program.check 16 20).toOption.any
        fun diagnostics => ⟨.mismatch expected found, ⟨2, 15⟩⟩ ∈ diagnostics) = true := by
    decide +kernel
  obtain ⟨program, hsource, h⟩ := Program.exists_ofSource hread
  obtain ⟨diagnostics, hcheck, hmem⟩ := (Option.any_eq_true _ _).mp h
  have hends : program.check 16 20 = .ok diagnostics := by
    cases hresult : program.check 16 20 with
    | error unfinished => rw [hresult] at hcheck; cases hcheck
    | ok given => rw [hresult] at hcheck; cases hcheck; rfl
  have hmem := of_decide_eq_true hmem
  have hne : expected ≠ found := by simp [expected, found]
  exact ⟨hexpected, hfound, fun h => hne (hsame h), program, diagnostics, _, hsource, hends, hmem,
    htold hends hmem⟩

end Ty

end TypedScript
