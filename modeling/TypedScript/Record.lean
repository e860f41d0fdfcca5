/-!
# Records: named entries in the order of their first writing

A `Record` maps names to values and remembers the order in which the names
were first written. Writing a name again replaces its value and keeps its
place. Objects of a running program and frames of its variables are records;
the order shows when an object is printed.

One kind of map serves for all that is looked up by name: the properties of an
object, the variables of a frame, the scopes of the check, and the table of
interfaces. Only of objects is the order ever asked. Frames, scopes and tables
are used by look-ups and writes, on which the order has no influence
(`get?_set`).
-/

namespace TypedScript

/-- Entries in the order of their first writing, at most one for each name. -/
structure Record (α : Type) where
  entries : List (String × α)
deriving Repr

namespace Record

variable {α : Type}

/-- The record without entries. -/
def empty : Record α := ⟨[]⟩

instance : Inhabited (Record α) := ⟨empty⟩

/-- The names in the order of their first writing. -/
def keys (r : Record α) : List String :=
  r.entries.map (·.1)

/-- How many names there are. -/
def size (r : Record α) : Nat :=
  r.entries.length

/-- The value last written under a name. -/
def get? (r : Record α) (name : String) : Option α :=
  r.entries.lookup name

/-- Whether a name has been written. -/
def has (r : Record α) (name : String) : Bool :=
  (r.get? name).isSome

/-- Writes one entry into a list of entries: in place if the name is there,
at the end otherwise. -/
def put (name : String) (value : α) : List (String × α) → List (String × α)
  | [] => [(name, value)]
  | (key, old) :: rest =>
    if name = key then (key, value) :: rest
    else (key, old) :: put name value rest

/-- The record after writing a value under a name. -/
def set (r : Record α) (name : String) (value : α) : Record α :=
  ⟨put name value r.entries⟩

/-- Writes the entries of a list one after the other: a repeated name keeps
its first place and its last value. -/
def ofList (entries : List (String × α)) : Record α :=
  entries.foldl (fun r entry => r.set entry.1 entry.2) empty

@[simp] theorem get?_empty (name : String) : (empty : Record α).get? name = none := rfl

theorem mem_entries_of_get? {r : Record α} {name : String} {value : α}
    (h : r.get? name = some value) : (name, value) ∈ r.entries := by
  obtain ⟨before, after, hentries, -⟩ := List.lookup_eq_some_iff.mp h
  simp [hentries]

theorem mem_put {name : String} {value : α} {entries : List (String × α)}
    {entry : String × α} (h : entry ∈ put name value entries) :
    entry.2 = value ∨ entry ∈ entries := by
  induction entries with
  | nil => exact Or.inl (by rw [List.mem_singleton.mp h])
  | cons first rest ih =>
    obtain ⟨key, old⟩ := first
    unfold put at h
    split at h
    · rcases List.mem_cons.mp h with rfl | h
      · exact Or.inl rfl
      · exact Or.inr (List.mem_cons_of_mem _ h)
    · rcases List.mem_cons.mp h with rfl | h
      · exact Or.inr (List.mem_cons_self ..)
      · exact (ih h).imp id (List.mem_cons_of_mem _)

theorem lookup_put (name other : String) (value : α) (entries : List (String × α)) :
    (put name value entries).lookup other =
      if other = name then some value else entries.lookup other := by
  have hmiss : ∀ a b : String, a ≠ b → (a == b) = false := by simp
  induction entries with
  | nil => by_cases h : other = name <;> simp [put, List.lookup_cons, h, hmiss other name]
  | cons entry rest ih =>
    obtain ⟨key, old⟩ := entry
    by_cases hk : name = key
    · subst hk
      by_cases h : other = name <;> simp [put, List.lookup_cons, h, hmiss other name]
    · by_cases h : other = key
      · subst h
        simp [put, hk, Ne.symm hk]
      · simp [put, hk, List.lookup_cons, hmiss other key h, ih]

/-- A write changes what is found under its own name and nothing else. -/
theorem get?_set (r : Record α) (name other : String) (value : α) :
    (r.set name value).get? other = if other = name then some value else r.get? other :=
  lookup_put name other value r.entries

/-- A write adds its own name. -/
theorem has_set (r : Record α) (name other : String) (value : α) :
    (r.set name value).has other = (decide (other = name) || r.has other) := by
  unfold has
  rw [get?_set]
  by_cases h : other = name
  · rw [if_pos h, decide_eq_true h]
    rfl
  · rw [if_neg h, decide_eq_false h, Bool.false_or]

/-- A name written again keeps its place; a new one comes last. -/
theorem keys_set (r : Record α) (name : String) (value : α) :
    (r.set name value).keys = if name ∈ r.keys then r.keys else r.keys ++ [name] := by
  obtain ⟨entries⟩ := r
  induction entries with
  | nil => simp [set, put, keys]
  | cons entry rest ih =>
    obtain ⟨key, old⟩ := entry
    simp only [set, keys] at ih ⊢
    by_cases hk : name = key
    · simp [put, hk]
    · simp only [put, hk, if_false, List.map_cons, ih, List.mem_cons, false_or]
      by_cases hm : name ∈ rest.map (·.1) <;> simp [hm]

/-- What stands in a record that is made of a list stands in the list. -/
theorem mem_ofList {given : List (String × α)} {entry : String × α}
    (h : entry ∈ (ofList given).entries) : ∃ name, (name, entry.2) ∈ given := by
  suffices hfold : ∀ r : Record α,
      entry ∈ (given.foldl (fun r entry => r.set entry.1 entry.2) r).entries →
        (∃ name, (name, entry.2) ∈ given) ∨ entry ∈ r.entries by
    exact (hfold .empty h).resolve_right List.not_mem_nil
  clear h
  induction given with
  | nil => intro r h; exact Or.inr h
  | cons first rest ih =>
    intro r h
    rcases ih _ h with ⟨name, hname⟩ | h
    · exact Or.inl ⟨name, List.mem_cons_of_mem _ hname⟩
    · rcases mem_put h with heq | h
      · exact Or.inl ⟨first.1, by rw [heq]; exact List.mem_cons_self ..⟩
      · exact Or.inr h

end Record

end TypedScript
