import Mathlib.Data.Finset.Card
import Mathlib.Data.List.Induction
import TypedScript.Record

/-!
# Records in the order of their writes

A record may be made anew from a list of properties, written to, read and cleared, in any
order (`Record.Action`). What counts of such a sequence are the writes since the record was
last without entries (`Record.writesOf`): the record is the one that these writes alone
would make (`Record.after_eq_ofList`).

So what holds of a record is read off its writes, one after the other. The keys are the
names written, each once and in the order in which they were written first. A name has the
value that was written last, and there are as many entries as different names. All of this
is said by `Record.IsMapOf`, and it holds behind every sequence of actions
(`Record.isMapOf_after`).
-/

namespace TypedScript.Record

variable {α : Type}

/-! ## Actions -/

/-- The record after writing some entries one after the other. -/
def setAll (r : Record α) (entries : List (String × α)) : Record α :=
  entries.foldl (fun r entry => r.set entry.1 entry.2) r

/-- What can be done with a record. -/
inductive Action (α : Type) where
  /-- The record is made anew from a list of properties. -/
  | renew (entries : List (String × α))
  | set (name : String) (value : α)
  | get (name : String)
  | clear

namespace Action

/-- The record behind an action. -/
def apply (r : Record α) : Action α → Record α
  | .renew entries => ofList entries
  | .set name value => r.set name value
  | .get _ => r
  | .clear => empty

/-- The writes that count behind an action, the latest one at the end. -/
def note (writes : List (String × α)) : Action α → List (String × α)
  | .renew entries => entries
  | .set name value => writes ++ [(name, value)]
  | .get _ => writes
  | .clear => []

end Action

/-- The record behind a sequence of actions. -/
def after (actions : List (Action α)) : Record α :=
  actions.foldl Action.apply empty

/-- What a sequence of actions has written since the record was last without entries. -/
def writesOf (actions : List (Action α)) : List (String × α) :=
  actions.foldl Action.note []

/-- A record is the map of some writes. -/
structure IsMapOf (r : Record α) (writes : List (String × α)) : Prop where
  nodup : r.keys.Nodup
  /-- The keys are the names that were written. -/
  mem_keys : ∀ name, name ∈ r.keys ↔ name ∈ writes.map (·.1)
  /-- The keys stand in the order in which they were written first. -/
  in_order : r.keys.Pairwise fun a b =>
    (writes.map (·.1)).idxOf a < (writes.map (·.1)).idxOf b
  /-- What is found under a name was written last. -/
  get?_eq_some_iff : ∀ name value, r.get? name = some value ↔
    ∃ before later, writes = before ++ (name, value) :: later ∧ name ∉ later.map (·.1)
  get?_eq_none_iff : ∀ name, r.get? name = none ↔ name ∉ writes.map (·.1)
  /-- There are as many entries as different names. -/
  size_eq : r.size = (writes.map (·.1)).toFinset.card
  /-- A write leaves the value of each other name as it is. -/
  value_kept : ∀ name value other, other ≠ name →
    (r.set name value).get? other = r.get? other
  /-- A write leaves each other name at its place. -/
  place_kept : ∀ name value other, other ≠ name → ∀ i : Nat,
    (r.set name value).keys[i]? = some other ↔ r.keys[i]? = some other

/-! ## Writes one after the other -/

theorem setAll_append (r : Record α) (first later : List (String × α)) :
    r.setAll (first ++ later) = (r.setAll first).setAll later :=
  List.foldl_append ..

theorem ofList_append (first later : List (String × α)) :
    ofList (first ++ later) = (ofList first).setAll later :=
  setAll_append ..

theorem ofList_concat (writes : List (String × α)) (name : String) (value : α) :
    ofList (writes ++ [(name, value)]) = (ofList writes).set name value :=
  ofList_append ..

/-- A record is the one that its writes would make. -/
theorem after_eq_ofList (actions : List (Action α)) :
    after actions = ofList (writesOf actions) := by
  -- from the end: the last action is done to what the ones before have left
  induction actions using List.reverseRecOn with
  | nil => rfl
  | append_singleton actions action ih =>
    have hafter : after (actions ++ [action]) = action.apply (after actions) :=
      List.foldl_concat ..
    have hwrites : writesOf (actions ++ [action]) = action.note (writesOf actions) :=
      List.foldl_concat ..
    rw [hafter, hwrites, ih]
    cases action with
    | renew entries => rfl
    | set name value => exact (ofList_concat _ name value).symm
    | get name => rfl
    | clear => rfl

theorem mem_keys_ofList (writes : List (String × α)) (name : String) :
    name ∈ (ofList writes).keys ↔ name ∈ writes.map (·.1) := by
  induction writes using List.reverseRecOn with
  | nil => rfl
  | append_singleton writes entry ih =>
    obtain ⟨written, value⟩ := entry
    rw [ofList_concat, keys_set, List.map_append, List.mem_append, ← ih]
    by_cases hmem : written ∈ (ofList writes).keys
    · rw [if_pos hmem]
      refine ⟨.inl, fun h => h.elim id fun hlast => ?_⟩
      rwa [List.mem_singleton.mp hlast]
    · rw [if_neg hmem]
      exact List.mem_append

/-- A name that is written for the first time comes behind the names written before. -/
theorem pairwise_keys_ofList (writes : List (String × α)) :
    (ofList writes).keys.Pairwise fun a b =>
      (writes.map (·.1)).idxOf a < (writes.map (·.1)).idxOf b := by
  induction writes using List.reverseRecOn with
  | nil => exact .nil
  | append_singleton writes entry ih =>
    obtain ⟨written, value⟩ := entry
    -- one more write does not move the first write of a name that is there
    have hfirst : ∀ a ∈ (ofList writes).keys,
        ((writes ++ [(written, value)]).map (·.1)).idxOf a = (writes.map (·.1)).idxOf a := by
      intro a ha
      rw [List.map_append, List.idxOf_append_of_mem ((mem_keys_ofList writes a).mp ha)]
    have hold : (ofList writes).keys.Pairwise fun a b =>
        ((writes ++ [(written, value)]).map (·.1)).idxOf a <
          ((writes ++ [(written, value)]).map (·.1)).idxOf b :=
      ih.imp_of_mem fun {a b} ha hb hlt => by rwa [hfirst a ha, hfirst b hb]
    rw [ofList_concat, keys_set]
    by_cases hmem : written ∈ (ofList writes).keys
    · rwa [if_pos hmem]
    · rw [if_neg hmem]
      refine List.pairwise_append.mpr ⟨hold, List.pairwise_singleton _ _, fun a ha b hb => ?_⟩
      have hnew : written ∉ writes.map (·.1) := fun h => hmem ((mem_keys_ofList writes _).mpr h)
      rw [List.mem_singleton.mp hb, hfirst a ha, List.map_append,
        List.idxOf_append_of_notMem hnew]
      exact Nat.lt_of_lt_of_le (List.idxOf_lt_length_of_mem ((mem_keys_ofList writes a).mp ha))
        (Nat.le_add_right _ _)

/-- What is found under a name is the first entry for it from the end of the writes. -/
theorem get?_ofList (writes : List (String × α)) (name : String) :
    (ofList writes).get? name = writes.reverse.lookup name := by
  induction writes using List.reverseRecOn with
  | nil => rfl
  | append_singleton writes entry ih =>
    obtain ⟨written, value⟩ := entry
    rw [ofList_concat, get?_set, ih, List.reverse_append, List.reverse_singleton,
      List.singleton_append, List.lookup_cons]
    by_cases hname : name = written
    · rw [if_pos hname, beq_iff_eq.mpr hname]
    · rw [if_neg hname, beq_eq_false_iff_ne.mpr hname]

theorem get?_ofList_eq_some_iff_last (writes : List (String × α)) (name : String) (value : α) :
    (ofList writes).get? name = some value ↔
      ∃ before later, writes = before ++ (name, value) :: later ∧ name ∉ later.map (·.1) := by
  rw [get?_ofList, List.lookup_eq_some_iff]
  constructor
  · rintro ⟨behind, front, hwrites, hbehind⟩
    refine ⟨front.reverse, behind.reverse, ?_, fun hmem => ?_⟩
    · rw [← List.reverse_reverse writes, hwrites, List.reverse_append, List.reverse_cons,
        List.append_assoc, List.singleton_append]
    · obtain ⟨entry, hentry, rfl⟩ := List.mem_map.mp hmem
      exact bne_iff_ne.mp (hbehind entry (List.mem_reverse.mp hentry)) rfl
  · rintro ⟨before, later, rfl, hlater⟩
    refine ⟨later.reverse, before.reverse, ?_, fun entry hentry => ?_⟩
    · rw [List.reverse_append, List.reverse_cons, List.append_assoc, List.singleton_append]
    · refine bne_iff_ne.mpr ?_
      rintro rfl
      exact hlater (List.mem_map_of_mem (List.mem_reverse.mp hentry))

theorem get?_ofList_eq_none_iff (writes : List (String × α)) (name : String) :
    (ofList writes).get? name = none ↔ name ∉ writes.map (·.1) := by
  rw [get?_ofList, List.lookup_eq_none_iff]
  constructor
  · intro hnone hmem
    obtain ⟨entry, hentry, rfl⟩ := List.mem_map.mp hmem
    exact bne_iff_ne.mp (hnone entry (List.mem_reverse.mpr hentry)) rfl
  · intro hname entry hentry
    refine bne_iff_ne.mpr ?_
    rintro rfl
    exact hname (List.mem_map_of_mem (List.mem_reverse.mp hentry))

/-! ## What a write changes -/

/-- A write leaves each other name at its place: a new name comes last. -/
theorem getElem?_keys_set (r : Record α) (name : String) (value : α) {other : String}
    (hother : other ≠ name) (i : Nat) :
    (r.set name value).keys[i]? = some other ↔ r.keys[i]? = some other := by
  rw [keys_set]
  by_cases hmem : name ∈ r.keys
  · rw [if_pos hmem]
  · rw [if_neg hmem]
    by_cases hi : i < r.keys.length
    · rw [List.getElem?_append_left hi]
    · have hend : r.keys.length ≤ i := Nat.le_of_not_lt hi
      rw [List.getElem?_append_right hend, List.getElem?_eq_none hend]
      refine ⟨fun hlast => ?_, fun hnone => nomatch hnone⟩
      exact absurd (List.mem_singleton.mp (List.mem_of_getElem? hlast)) hother

/-! ## Records as maps -/

theorem isMapOf_ofList (writes : List (String × α)) : (ofList writes).IsMapOf writes := by
  have hordered := pairwise_keys_ofList writes
  have hnodup : (ofList writes).keys.Nodup := hordered.imp fun hlt heq =>
    absurd (heq ▸ hlt) (Nat.lt_irrefl _)
  refine ⟨hnodup, mem_keys_ofList writes, hordered, get?_ofList_eq_some_iff_last writes,
    get?_ofList_eq_none_iff writes, ?_, fun name value other hother => ?_,
    fun name value _ hother => getElem?_keys_set _ name value hother⟩
  · have hkeys : (ofList writes).keys.toFinset = (writes.map (·.1)).toFinset :=
      List.toFinset.ext (mem_keys_ofList writes)
    rw [← hkeys, List.toFinset_card_of_nodup hnodup]
    exact (List.length_map ..).symm
  · rw [get?_set, if_neg hother]

/-- Whatever is done with a record, it is the map of the writes that count. -/
theorem isMapOf_after (actions : List (Action α)) : (after actions).IsMapOf (writesOf actions) := by
  rw [after_eq_ofList]
  exact isMapOf_ofList _

end TypedScript.Record
