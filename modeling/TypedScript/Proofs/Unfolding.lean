import Mathlib.Data.List.Nodup
import Mathlib.Data.List.Perm.Subperm
import Mathlib.Logic.Relation
import TypedScript.Printing

/-!
# What is printed of an object graph

Following properties from a value gives a tree, whose nodes are the paths of properties
along which something is found (`Store.at?`). It is infinite if the objects form a cycle.
`Store.IsCut` says what is left of it when each path is cut at the first object that is
one of its own ancestors.

`Store.shown` is the tree of the calls that printing makes. It is that cut
(`isCut_shown`), and there is only one (`IsCut.unique`). The objects on a path are
pairwise different, so the tree is at most one level deeper than there are objects
(`depth_shown`), and the levels that are given to printing never run out. So printing
ends on every graph and marks exactly the cycles (`textOf_unfolding`).
-/

namespace TypedScript

/-! ## Finite trees -/

mutual

/-- What is printed of a value. -/
inductive Shown where
  | plain (text : String)
  | circular
  | object (properties : ShownProperties)

/-- What is printed of the properties of an object. -/
inductive ShownProperties where
  | nil
  | cons (name : String) (value : Shown) (rest : ShownProperties)

end

/-- What a node of such a tree says by itself: a text, the mark of a cycle, or the names
of the properties of an object. -/
inductive Label where
  | plain (text : String)
  | circular
  | object (names : List String)
deriving DecidableEq

/-- The names of the properties, in order. -/
def ShownProperties.names : ShownProperties → List String
  | .nil => []
  | .cons name _ rest => name :: rest.names

mutual

/-- The node at the end of a path, each step of which is the place of a property. -/
def Shown.label? : Shown → List Nat → Option Label
  | .plain text, [] => some (.plain text)
  | .circular, [] => some .circular
  | .object properties, [] => some (.object properties.names)
  | .object properties, i :: path => properties.label? i path
  | _, _ :: _ => none

/-- The node that a path leads to from the property at a place. -/
def ShownProperties.label? : ShownProperties → Nat → List Nat → Option Label
  | .nil, _, _ => none
  | .cons _ value _, 0, path => value.label? path
  | .cons _ _ rest, i + 1, path => rest.label? i path

end

mutual

/-- The number of nodes on the longest path. -/
def Shown.depth : Shown → Nat
  | .plain _ => 1
  | .circular => 1
  | .object properties => properties.depth + 1

/-- The largest depth among the properties. -/
def ShownProperties.depth : ShownProperties → Nat
  | .nil => 0
  | .cons _ value rest => max value.depth rest.depth

end

mutual

/-- The text of a tree. -/
def Shown.text : Shown → String
  | .plain text => text
  | .circular => "[Circular]"
  | .object .nil => "\x7b\x7d"
  | .object (.cons name value rest) =>
    "\x7b " ++ String.intercalate ", " ((name ++ ": " ++ value.text) :: rest.parts) ++ " \x7d"

/-- The texts of the properties. -/
def ShownProperties.parts : ShownProperties → List String
  | .nil => []
  | .cons name value rest => (name ++ ": " ++ value.text) :: rest.parts

end

/-- Properties whose values are shown one by one. -/
def ShownProperties.ofEntries (show' : Value → Shown) : List (String × Value) → ShownProperties
  | [] => .nil
  | entry :: rest => .cons entry.1 (show' entry.2) (ofEntries show' rest)

namespace ShownProperties

variable {show' : Value → Shown}

theorem names_ofEntries (entries : List (String × Value)) :
    (ofEntries show' entries).names = entries.map (·.1) := by
  induction entries with
  | nil => rfl
  | cons entry rest ih => rw [ofEntries, names, ih, List.map_cons]

theorem parts_ofEntries (entries : List (String × Value)) :
    (ofEntries show' entries).parts =
      entries.map fun (name, value) => name ++ ": " ++ (show' value).text := by
  induction entries with
  | nil => rfl
  | cons entry rest ih => rw [ofEntries, parts, ih, List.map_cons]

theorem label?_ofEntries (entries : List (String × Value)) (i : Nat) (path : List Nat) :
    (ofEntries show' entries).label? i path =
      entries[i]?.bind fun entry => (show' entry.2).label? path := by
  induction entries generalizing i with
  | nil => rfl
  | cons entry rest ih =>
    cases i with
    | zero => rfl
    | succ i => rw [ofEntries, label?, ih, List.getElem?_cons_succ]

theorem ofEntries_congr {other : Value → Shown} {entries : List (String × Value)}
    (h : ∀ entry ∈ entries, show' entry.2 = other entry.2) :
    ofEntries show' entries = ofEntries other entries := by
  induction entries with
  | nil => rfl
  | cons entry rest ih =>
    rw [ofEntries, ofEntries, h entry List.mem_cons_self,
      ih fun next hnext => h next (List.mem_cons_of_mem _ hnext)]

theorem depth_le_of_mem {entries : List (String × Value)} {entry : String × Value}
    (h : entry ∈ entries) : (show' entry.2).depth ≤ (ofEntries show' entries).depth := by
  induction entries with
  | nil => cases h
  | cons first rest ih =>
    rw [ofEntries, depth]
    rcases List.mem_cons.mp h with rfl | h
    · exact Nat.le_max_left _ _
    · exact Nat.le_trans (ih h) (Nat.le_max_right _ _)

theorem depth_ofEntries_le {entries : List (String × Value)} {bound : Nat}
    (h : ∀ entry ∈ entries, (show' entry.2).depth ≤ bound) :
    (ofEntries show' entries).depth ≤ bound := by
  induction entries with
  | nil => exact Nat.zero_le _
  | cons entry rest ih =>
    rw [ofEntries, depth]
    exact Nat.max_le.mpr ⟨h entry List.mem_cons_self,
      ih fun other hother => h other (List.mem_cons_of_mem _ hother)⟩

end ShownProperties

theorem Shown.depth_pos (shown : Shown) : 0 < shown.depth := by
  cases shown with
  | plain | circular => exact Nat.one_pos
  | object properties => exact Nat.succ_pos _

/-- The text of an object, empty or not, from those of its properties. -/
theorem Shown.text_object (properties : ShownProperties) :
    (Shown.object properties).text =
      match properties.parts with
      | [] => "\x7b\x7d"
      | parts => "\x7b " ++ String.intercalate ", " parts ++ " \x7d" := by
  cases properties with
  | nil => rfl
  | cons name value rest => rfl

mutual

/-- A tree is known by its nodes. -/
theorem Shown.eq_of_label? : ∀ {a b : Shown}, (∀ path, a.label? path = b.label? path) → a = b
  | .plain text, b, h => by
    have hroot := h []
    cases b with
    | plain other => cases hroot; rfl
    | circular => cases hroot
    | object properties => cases hroot
  | .circular, b, h => by
    have hroot := h []
    cases b with
    | plain other => cases hroot
    | circular => rfl
    | object properties => cases hroot
  | .object properties, b, h => by
    have hroot := h []
    cases b with
    | plain other => cases hroot
    | circular => cases hroot
    | object others =>
      have hnames : properties.names = others.names := by
        simpa [Shown.label?] using hroot
      rw [ShownProperties.eq_of_label? hnames fun i path => h (i :: path)]

theorem ShownProperties.eq_of_label? : ∀ {a b : ShownProperties}, a.names = b.names →
    (∀ i path, a.label? i path = b.label? i path) → a = b
  | .nil, .nil, _, _ => rfl
  | .nil, .cons _ _ _, hnames, _ => nomatch hnames
  | .cons _ _ _, .nil, hnames, _ => nomatch hnames
  | .cons name value rest, .cons other value' rest', hnames, h => by
    obtain ⟨hname, hnames⟩ := List.cons.inj hnames
    rw [hname, Shown.eq_of_label? fun path => h 0 path,
      ShownProperties.eq_of_label? hnames fun i path => h (i + 1) path]

end

namespace Store

variable {s : Store}

/-! ## The unfolding of a value -/

/-- The text of a value that is no object. -/
def plainText? (s : Store) : Value → Option String
  | .number value => some (Number.text value)
  | .text value => some (quoteText value)
  | .boolean value => some (toString value)
  | .undefined => some "undefined"
  | .object _ => none
  | .closure id => some (functionText ((s.closure? id).bind (·.name?)))
  | .native function => some (functionText (some function.name))

/-- The value that a path of properties leads to. -/
def at? (s : Store) : Value → List Nat → Option Value
  | v, [] => some v
  | .object o, i :: path => (s.properties o).entries[i]?.bind fun entry => s.at? entry.2 path
  | _, _ :: _ => none

/-- A path leads to an object that is one of the given ones or was met before on the
path. -/
def Returns (s : Store) (ancestors : List ObjectId) (v : Value) (path : List Nat) : Prop :=
  ∃ o, s.at? v path = some (.object o) ∧
    (o ∈ ancestors ∨ ∃ above, above <+: path ∧ above ≠ path ∧ s.at? v above = some (.object o))

/-- What the node at the end of a path says: an object that is one of its own ancestors
is marked. -/
inductive Marks (s : Store) (ancestors : List ObjectId) (v : Value) (path : List Nat) :
    Label → Prop where
  | plain {w : Value} {text : String} : s.at? v path = some w → s.plainText? w = some text →
      Marks s ancestors v path (.plain text)
  | circular : s.Returns ancestors v path → Marks s ancestors v path .circular
  | object {o : ObjectId} : s.at? v path = some (.object o) → ¬ s.Returns ancestors v path →
      Marks s ancestors v path (.object (s.properties o).keys)

/-- A finite tree is what the unfolding of a value is cut to inside the given objects: it
has the nodes of the unfolding whose path meets no object again before its end. -/
def IsCut (s : Store) (ancestors : List ObjectId) (v : Value) (shown : Shown) : Prop :=
  ∀ path label, shown.label? path = some label ↔
    (∀ above, above <+: path → above ≠ path → ¬ s.Returns ancestors v above) ∧
      s.Marks ancestors v path label

/-- A value is cut in one way only. -/
theorem IsCut.unique {ancestors : List ObjectId} {v : Value} {a b : Shown}
    (ha : s.IsCut ancestors v a) (hb : s.IsCut ancestors v b) : a = b :=
  Shown.eq_of_label? fun path => Option.ext fun label => (ha path label).trans (hb path label).symm

/-! ## The tree of the calls -/

/-- What is printed of a value inside the given objects, the innermost first. -/
def shown (s : Store) : (levels : Nat) → (ancestors : List ObjectId) → Value → Shown
  | 0, _, .object _ => .circular
  | levels + 1, ancestors, .object id =>
    if id ∈ ancestors then .circular
    else .object (.ofEntries (s.shown levels (id :: ancestors)) (s.properties id).entries)
  | _, _, v => .plain ((s.plainText? v).getD "")

/-- Printing makes the text of this tree. -/
theorem nestedText_eq (s : Store) (levels : Nat) (ancestors : List ObjectId) (v : Value) :
    s.nestedText levels ancestors v = (s.shown levels ancestors v).text := by
  induction levels generalizing ancestors v with
  | zero => cases v <;> rfl
  | succ levels ih =>
    cases v with
    | object id =>
      rw [nestedText, shown]
      by_cases hmem : id ∈ ancestors
      · rw [if_pos hmem, if_pos hmem]
        rfl
      · rw [if_neg hmem, if_neg hmem, Shown.text_object, ShownProperties.parts_ofEntries]
        simp only [ih]
        cases (s.properties id).entries <;> rfl
    | number | text | boolean | undefined | closure | native => rfl

/-- What is found as a property of an object: the object is in the store. -/
theorem index_lt_of_mem_entries {o : ObjectId} {entry : String × Value}
    (h : entry ∈ (s.properties o).entries) : o.index < s.objects.size := by
  by_contra hlt
  rw [properties_of_size_le (Nat.le_of_not_lt hlt)] at h
  cases h

/-- Different objects of a store are at most as many as there are. -/
theorem length_le_of_nodup {objects : List ObjectId} (hnodup : objects.Nodup)
    (hthere : ∀ o ∈ objects, o.index < s.objects.size) : objects.length ≤ s.objects.size := by
  have hinjective : Function.Injective ObjectId.index := by
    rintro ⟨i⟩ ⟨j⟩ rfl
    rfl
  have hsubset : objects.map ObjectId.index ⊆ List.range s.objects.size := by
    intro i hi
    obtain ⟨o, ho, rfl⟩ := List.mem_map.mp hi
    exact List.mem_range.mpr (hthere o ho)
  have hlength := ((hnodup.map hinjective).subperm hsubset).length_le
  rwa [List.length_map, List.length_range] at hlength

/-- The objects inside which something is printed: they are different objects of the
store, and levels are left for all others. -/
structure Surrounds (s : Store) (levels : Nat) (ancestors : List ObjectId) : Prop where
  nodup : ancestors.Nodup
  there : ∀ o ∈ ancestors, o.index < s.objects.size
  enough : s.objects.size + 1 ≤ levels + ancestors.length

theorem Surrounds.levels_pos {levels : Nat} {ancestors : List ObjectId}
    (h : s.Surrounds levels ancestors) : 0 < levels := by
  have hlength := length_le_of_nodup h.nodup h.there
  have henough := h.enough
  omega

theorem Surrounds.enter {levels : Nat} {ancestors : List ObjectId}
    (h : s.Surrounds (levels + 1) ancestors) {id : ObjectId} (hid : id ∉ ancestors)
    {entry : String × Value} (hentry : entry ∈ (s.properties id).entries) :
    s.Surrounds levels (id :: ancestors) := by
  refine ⟨List.nodup_cons.mpr ⟨hid, h.nodup⟩,
    List.forall_mem_cons.mpr ⟨index_lt_of_mem_entries hentry, h.there⟩, ?_⟩
  have henough := h.enough
  rw [List.length_cons]
  omega

/-- With each level one more object surrounds what is printed, and no object twice. -/
theorem depth_shown {levels : Nat} {ancestors : List ObjectId} (v : Value)
    (h : s.Surrounds levels ancestors) :
    (s.shown levels ancestors v).depth + ancestors.length ≤ s.objects.size + 1 := by
  have hleaf : 1 + ancestors.length ≤ s.objects.size + 1 := by
    have hlength := length_le_of_nodup h.nodup h.there
    omega
  induction levels generalizing ancestors v with
  | zero => exact absurd h.levels_pos (Nat.lt_irrefl _)
  | succ levels ih =>
    cases v with
    | object id =>
      rw [shown]
      by_cases hmem : id ∈ ancestors
      · rw [if_pos hmem]
        exact hleaf
      · rw [if_neg hmem]
        have hdepth : (ShownProperties.ofEntries (s.shown levels (id :: ancestors))
            (s.properties id).entries).depth ≤ s.objects.size - ancestors.length := by
          refine ShownProperties.depth_ofEntries_le fun entry hentry => ?_
          have henter := h.enter hmem hentry
          have hlength := length_le_of_nodup henter.nodup henter.there
          have hinner := ih entry.2 henter (by rw [Nat.add_comm 1]; exact Nat.succ_le_succ hlength)
          rw [List.length_cons] at hinner
          omega
        rw [Shown.depth]
        omega
    | number | text | boolean | undefined | closure | native => exact hleaf

/-! ## The tree of the calls is the cut -/

theorem forall_above_cons {P : List Nat → Prop} {i : Nat} {path : List Nat} :
    (∀ above, above <+: i :: path → above ≠ i :: path → P above) ↔
      P [] ∧ ∀ above, above <+: path → above ≠ path → P (i :: above) := by
  constructor
  · intro h
    refine ⟨h [] List.nil_prefix (List.cons_ne_nil _ _).symm, fun above hfront hne => ?_⟩
    exact h (i :: above) (List.cons_prefix_cons.mpr ⟨rfl, hfront⟩) fun heq =>
      hne (List.cons.inj heq).2
  · rintro ⟨hnil, hcons⟩ above hfront hne
    cases above with
    | nil => exact hnil
    | cons j above =>
      obtain ⟨rfl, hbehind⟩ := List.cons_prefix_cons.mp hfront
      exact hcons above hbehind fun heq => hne (by rw [heq])

theorem exists_above_cons {P : List Nat → Prop} {i : Nat} {path : List Nat} :
    (∃ above, above <+: i :: path ∧ above ≠ i :: path ∧ P above) ↔
      P [] ∨ ∃ above, above <+: path ∧ above ≠ path ∧ P (i :: above) := by
  constructor
  · rintro ⟨above, hfront, hne, h⟩
    cases above with
    | nil => exact .inl h
    | cons j above =>
      obtain ⟨rfl, hbehind⟩ := List.cons_prefix_cons.mp hfront
      exact .inr ⟨above, hbehind, fun heq => hne (by rw [heq]), h⟩
  · rintro (h | ⟨above, hfront, hne, h⟩)
    · exact ⟨[], List.nil_prefix, (List.cons_ne_nil _ _).symm, h⟩
    · exact ⟨i :: above, List.cons_prefix_cons.mpr ⟨rfl, hfront⟩, fun heq =>
        hne (List.cons.inj heq).2, h⟩

variable {ancestors : List ObjectId} {v : Value}

theorem returns_nil : s.Returns ancestors v [] ↔ ∃ o, v = .object o ∧ o ∈ ancestors := by
  constructor
  · rintro ⟨o, ho, hmem | ⟨above, hfront, hne, -⟩⟩
    · exact ⟨o, Option.some.inj ho, hmem⟩
    · exact absurd (List.prefix_nil.mp hfront) hne
  · rintro ⟨o, rfl, hmem⟩
    exact ⟨o, rfl, .inl hmem⟩

theorem at?_cons {id : ObjectId} {i : Nat} {entry : String × Value}
    (h : (s.properties id).entries[i]? = some entry) (path : List Nat) :
    s.at? (.object id) (i :: path) = s.at? entry.2 path := by
  rw [at?, h, Option.bind_some]

/-- On the way through a property, the object itself is one of the ancestors. -/
theorem returns_cons {id : ObjectId} {i : Nat} {entry : String × Value}
    (h : (s.properties id).entries[i]? = some entry) (path : List Nat) :
    s.Returns ancestors (.object id) (i :: path) ↔ s.Returns (id :: ancestors) entry.2 path := by
  unfold Returns
  simp only [at?_cons h, exists_above_cons, List.mem_cons]
  refine exists_congr fun o => and_congr_right fun _ => ?_
  have hself : s.at? (.object id) [] = some (.object o) ↔ o = id := by
    rw [at?, Option.some.injEq, Value.object.injEq]
    exact eq_comm
  rw [hself]
  tauto

theorem marks_cons {id : ObjectId} {i : Nat} {entry : String × Value}
    (h : (s.properties id).entries[i]? = some entry) (path : List Nat) (label : Label) :
    s.Marks ancestors (.object id) (i :: path) label ↔
      s.Marks (id :: ancestors) entry.2 path label := by
  constructor
  · rintro (⟨hat, htext⟩ | hreturns | ⟨hat, hreturns⟩)
    · exact .plain ((at?_cons h path).symm.trans hat) htext
    · exact .circular ((returns_cons h path).mp hreturns)
    · exact .object ((at?_cons h path).symm.trans hat) fun hinner =>
        hreturns ((returns_cons h path).mpr hinner)
  · rintro (⟨hat, htext⟩ | hreturns | ⟨hat, hreturns⟩)
    · exact .plain ((at?_cons h path).trans hat) htext
    · exact .circular ((returns_cons h path).mpr hreturns)
    · exact .object ((at?_cons h path).trans hat) fun houter =>
        hreturns ((returns_cons h path).mp houter)

theorem isCut_plain {v : Value} {text : String} (h : s.plainText? v = some text) :
    s.IsCut ancestors v (.plain text) := by
  have hobject : ∀ o, v ≠ .object o := by
    rintro o rfl
    cases h
  -- a value that is no object is a leaf of the walk
  have hbehind : ∀ i path, s.at? v (i :: path) = none := by
    intro i path
    cases v with
    | object o => exact absurd rfl (hobject o)
    | number | text | boolean | undefined | closure | native => rfl
  have hreturns : ∀ path, ¬ s.Returns ancestors v path := by
    rintro path ⟨o, ho, -⟩
    cases path with
    | nil => exact hobject o (Option.some.inj ho)
    | cons i path =>
      rw [hbehind] at ho
      cases ho
  intro path label
  constructor
  · intro hlabel
    cases path with
    | nil =>
      cases hlabel
      exact ⟨fun above _ _ => hreturns above, .plain rfl h⟩
    | cons i path => cases hlabel
  · rintro ⟨-, ⟨hat, htext⟩ | hreturn | ⟨hat, -⟩⟩
    · cases path with
      | nil =>
        cases hat
        rw [h] at htext
        cases htext
        rfl
      | cons i path =>
        rw [hbehind] at hat
        cases hat
    · exact absurd hreturn (hreturns path)
    · cases path with
      | nil => exact absurd (Option.some.inj hat) (hobject _)
      | cons i path =>
        rw [hbehind] at hat
        cases hat

/-- An object inside itself is marked, and nothing is printed behind the mark. -/
theorem isCut_circular {id : ObjectId} (h : id ∈ ancestors) :
    s.IsCut ancestors (.object id) .circular := by
  have hroot : s.Returns ancestors (.object id) [] := returns_nil.mpr ⟨id, rfl, h⟩
  intro path label
  cases path with
  | nil =>
    constructor
    · intro hlabel
      cases hlabel
      exact ⟨fun above hfront hne => absurd (List.prefix_nil.mp hfront) hne, .circular hroot⟩
    · rintro ⟨-, ⟨hat, htext⟩ | - | ⟨-, hreturns⟩⟩
      · cases hat
        cases htext
      · rfl
      · exact absurd hroot hreturns
  | cons i path =>
    constructor
    · intro hlabel
      cases hlabel
    · rintro ⟨habove, -⟩
      exact absurd hroot (habove [] List.nil_prefix (List.cons_ne_nil _ _).symm)

/-- An object that is met for the first time is printed with its properties, each cut
inside one object more. -/
theorem isCut_object {id : ObjectId} (h : id ∉ ancestors) {show' : Value → Shown}
    (hcut : ∀ entry ∈ (s.properties id).entries,
      s.IsCut (id :: ancestors) entry.2 (show' entry.2)) :
    s.IsCut ancestors (.object id) (.object (.ofEntries show' (s.properties id).entries)) := by
  -- the object is no ancestor, so the walk is not cut at its root
  have hroot : ¬ s.Returns ancestors (.object id) [] := by
    intro hreturns
    obtain ⟨o, ho, hmem⟩ := returns_nil.mp hreturns
    cases ho
    exact h hmem
  intro path label
  cases path with
  | nil =>
    have hlabel : (Shown.object (.ofEntries show' (s.properties id).entries)).label? [] =
        some (.object (s.properties id).keys) := by
      rw [Shown.label?, ShownProperties.names_ofEntries]
      rfl
    rw [hlabel]
    constructor
    · intro heq
      cases heq
      exact ⟨fun above hfront hne => absurd (List.prefix_nil.mp hfront) hne, .object rfl hroot⟩
    · rintro ⟨-, ⟨hat, htext⟩ | hreturns | ⟨hat, -⟩⟩
      · cases hat
        cases htext
      · exact absurd hreturns hroot
      · cases hat
        rfl
  | cons i path =>
    rw [Shown.label?, ShownProperties.label?_ofEntries]
    cases hentry : (s.properties id).entries[i]? with
    | none =>
      -- neither the printed object nor the walk goes on where there is no property
      have hat : s.at? (.object id) (i :: path) = none := by
        rw [at?, hentry, Option.bind_none]
      rw [Option.bind_none]
      constructor
      · intro heq
        cases heq
      · rintro ⟨-, ⟨hsome, -⟩ | ⟨o, hsome, -⟩ | ⟨hsome, -⟩⟩ <;>
          (rw [hat] at hsome; cases hsome)
    | some entry =>
      -- below a property all is as for its value, with the object among the ancestors
      rw [Option.bind_some, hcut entry (List.mem_of_getElem? hentry) path label,
        marks_cons hentry, forall_above_cons]
      simp only [returns_cons hentry]
      exact and_congr_left fun _ => (and_iff_right hroot).symm

/-- The tree of the calls is what the unfolding is cut to. -/
theorem isCut_shown {levels : Nat} {ancestors : List ObjectId} (v : Value)
    (h : s.Surrounds levels ancestors) : s.IsCut ancestors v (s.shown levels ancestors v) := by
  induction levels generalizing ancestors v with
  | zero => exact absurd h.levels_pos (Nat.lt_irrefl _)
  | succ levels ih =>
    cases v with
    | object id =>
      rw [shown]
      by_cases hmem : id ∈ ancestors
      · rw [if_pos hmem]
        exact isCut_circular hmem
      · rw [if_neg hmem]
        exact isCut_object hmem fun entry hentry => ih entry.2 (h.enter hmem hentry)
    | number | text | boolean | undefined | closure | native => exact isCut_plain rfl

/-! ## Levels -/

/-- As many levels suffice as the tree is deep. -/
theorem shown_of_depth_le {enough : Nat} {ancestors : List ObjectId} {v : Value} {levels : Nat}
    (hcut : s.Surrounds enough ancestors) (h : (s.shown enough ancestors v).depth ≤ levels) :
    s.shown levels ancestors v = s.shown enough ancestors v := by
  induction enough generalizing ancestors v levels with
  | zero => exact absurd hcut.levels_pos (Nat.lt_irrefl _)
  | succ enough ih =>
    cases v with
    | object id =>
      obtain ⟨levels, rfl⟩ : ∃ fewer, levels = fewer + 1 :=
        Nat.exists_eq_add_one.mpr (Nat.lt_of_lt_of_le (Shown.depth_pos _) h)
      rw [shown] at h
      rw [shown, shown]
      by_cases hmem : id ∈ ancestors
      · rw [if_pos hmem, if_pos hmem]
      · rw [if_neg hmem] at h
        rw [if_neg hmem, if_neg hmem]
        refine congrArg Shown.object (ShownProperties.ofEntries_congr fun entry hentry => ?_)
        have hdepth : (s.shown enough (id :: ancestors) entry.2).depth ≤
            (ShownProperties.ofEntries (s.shown enough (id :: ancestors))
              (s.properties id).entries).depth :=
          ShownProperties.depth_le_of_mem hentry
        exact ih (hcut.enter hmem hentry) (Nat.le_trans hdepth (Nat.le_of_succ_le_succ h))
    | number | text | boolean | undefined | closure | native =>
      cases levels <;> rfl

/-! ## Cycles -/

/-- An object is the value of a property of another one. -/
def Holds (s : Store) (o p : ObjectId) : Prop :=
  ∃ name, (name, Value.object p) ∈ (s.properties o).entries

/-- No object that can be reached from a value can be reached from itself. -/
def Acyclic (s : Store) (v : Value) : Prop :=
  ∀ root o, v = .object root → Relation.ReflTransGen s.Holds root o →
    ¬ Relation.TransGen s.Holds o o

theorem at?_append (v : Value) (path behind : List Nat) :
    s.at? v (path ++ behind) = (s.at? v path).bind fun w => s.at? w behind := by
  induction path generalizing v with
  | nil => rfl
  | cons i path ih =>
    cases v with
    | object o =>
      rw [List.cons_append, at?, at?]
      cases (s.properties o).entries[i]? with
      | none => rfl
      | some entry => exact ih entry.2
    | number | text | boolean | undefined | closure | native => rfl

theorem reaches_of_at? {path : List Nat} {root o : ObjectId}
    (h : s.at? (.object root) path = some (.object o)) :
    Relation.ReflTransGen s.Holds root o ∧ (path ≠ [] → Relation.TransGen s.Holds root o) := by
  induction path generalizing root with
  | nil =>
    cases h
    exact ⟨.refl, fun hne => absurd rfl hne⟩
  | cons i path ih =>
    rw [at?] at h
    obtain ⟨⟨name, w⟩, hentry, hbehind⟩ := Option.bind_eq_some_iff.mp h
    cases w with
    | object next =>
      have hholds : s.Holds root next := ⟨name, List.mem_of_getElem? hentry⟩
      have hreaches := (ih hbehind).1
      exact ⟨.head hholds hreaches, fun _ => .head' hholds hreaches⟩
    | number | text | boolean | undefined | closure | native =>
      cases path <;> cases hbehind

/-- An object that is met again on a path lies on a cycle. -/
theorem Returns.not_acyclic {path : List Nat} (h : s.Returns [] v path) : ¬ s.Acyclic v := by
  intro hacyclic
  obtain ⟨o, hat, hmem | ⟨above, ⟨behind, rfl⟩, hne, habove⟩⟩ := h
  · cases hmem
  · rw [at?_append, habove, Option.bind_some] at hat
    have hcycle := (reaches_of_at? hat).2 fun hnil => hne (by rw [hnil, List.append_nil])
    cases v with
    | object root => exact hacyclic root o rfl (reaches_of_at? habove).1 hcycle
    | number | text | boolean | undefined | closure | native => cases above <;> cases habove

/-! ## Texts of values -/

theorem surrounds_nil {levels : Nat} (h : s.objects.size + 1 ≤ levels) : s.Surrounds levels [] :=
  ⟨List.nodup_nil, fun _ ho => absurd ho List.not_mem_nil, h⟩

/-- Printing a value ends, with at most one nested call more than there are objects, and
its text is that of the unfolding of the value, cut on each path at the first object that
is one of its own ancestors. So an object that is met on several paths is printed in full
on each of them, and without cycles there is no mark. -/
theorem textOf_unfolding (s : Store) (v : Value) :
    ∃ shown : Shown, s.IsCut [] v shown ∧ (∀ other, s.IsCut [] v other → other = shown) ∧
      s.textOf v = (match v with
        | .text value => value
        | _ => shown.text) ∧
      shown.depth ≤ s.objects.size + 1 ∧
      (∀ levels, shown.depth ≤ levels → s.nestedText levels [] v = shown.text) ∧
      (∀ path o, s.at? v path = some (.object o) →
        (∀ above, above <+: path → ¬ s.Returns [] v above) →
        shown.label? path = some (.object (s.properties o).keys)) ∧
      (s.Acyclic v → ∀ path, shown.label? path ≠ some .circular) := by
  have hsurrounds : s.Surrounds (s.objects.size + 1) [] := surrounds_nil (Nat.le_refl _)
  have hcut := isCut_shown v hsurrounds
  refine ⟨s.shown (s.objects.size + 1) [] v, hcut, fun other hother => hother.unique hcut, ?_,
    depth_shown v hsurrounds, fun levels hlevels => ?_, fun path o hat hreturns => ?_,
    fun hacyclic path hlabel => ?_⟩
  · cases v with
    | text value => rfl
    | number | boolean | undefined | object | closure | native => exact nestedText_eq s _ [] _
  · rw [nestedText_eq, shown_of_depth_le hsurrounds hlevels]
  · exact (hcut path _).mpr ⟨fun above hfront _ => hreturns above hfront,
      .object hat (hreturns path (List.prefix_refl path))⟩
  · obtain ⟨-, hmarks⟩ := (hcut path _).mp hlabel
    cases hmarks with
    | circular hreturns => exact hreturns.not_acyclic hacyclic

end Store

end TypedScript
