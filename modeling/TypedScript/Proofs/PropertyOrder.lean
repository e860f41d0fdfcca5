import TypedScript.Proofs.Heeding

/-!
# Objects in the order of their writes

The record of an object is at any time the one that the writes to the object make, in their
order. An object literal writes its fields one after the other, each when its value is there
(`Evaluator.Fills`). While the values of later fields are computed, nothing knows the object
yet, so nothing else is written to it, and the object has exactly the fields of the literal
(`Machine.Grounded.properties_of_fills`). This needs a machine that mentions no object that
is not there (`Machine.Grounded`); such is the machine in the beginning and behind every run.

From then on each run adds the writes that its journal has noted (`Run.Journal.Continues`).
An assignment to a property comes last among them, behind what was written while its parts
were evaluated (`eval_assign_member`), and so does an update (`eval_update_member`).

Together with what is known of records in the order of their writes, this gives the main
result, `objects_insertion_ordered`: objects are maps in the order of insertion, from the
literals on and whatever is run.
-/

namespace TypedScript

open Run

/-! ## What a store does to a record -/

/-- What a store does to one of its objects is done to its record, and to no other. -/
structure Store.ActsOn (s : Store) (o : ObjectId) : Prop where
  set : ∀ name value p, (s.setProperty o name value).properties p =
    if p = o then Record.Action.apply (s.properties p) (.set name value) else s.properties p
  clear : ∀ p, (s.clearObject o).properties p =
    if p = o then Record.Action.apply (s.properties p) .clear else s.properties p

theorem Store.actsOn {s : Store} {o : ObjectId} (ho : o.index < s.objects.size) : s.ActsOn o where
  set name value p := by
    rw [properties_setProperty]
    by_cases hp : p = o
    · rw [if_pos ⟨hp, ho⟩, if_pos hp]
      rfl
    · rw [if_neg fun h => hp h.1, if_neg hp]
  clear p := s.properties_clearObject o p

/-! ## Grounded machines -/

/-- A machine that mentions only objects that have been made. -/
def Machine.Grounded (m : Machine) : Prop :=
  Admission.made.AllowsStore m.store

namespace Machine

/-- In the beginning, one variable holds the one object, and its property is a function. -/
theorem store_initial : Machine.initial.store =
    ⟨#[⟨.ofList [(Native.log.holder, .object ⟨0⟩)], none, true, none⟩],
      #[.ofList [(Native.log.name, .native .log)]], #[]⟩ :=
  rfl

theorem grounded_initial : Machine.initial.Grounded := by
  unfold Grounded
  rw [store_initial]
  refine ⟨Nat.zero_le _, ?_, ?_⟩
  · intro f frame hframe
    have hglobal : frame = ⟨.ofList [(Native.log.holder, .object ⟨0⟩)], none, true, none⟩ :=
      List.mem_singleton.mp (Array.mem_toList_iff.mpr (Array.mem_of_getElem? hframe))
    rw [hglobal]
    refine ⟨Record.all_empty.set _ ?_, Admission.allowsAny_none⟩
    rintro o heq
    cases heq
    exact Nat.zero_lt_one
  · intro o
    unfold Store.properties
    cases o.index with
    | zero => exact Record.all_empty.set _ (.of_not_object rfl)
    | succ i => exact Record.all_empty

theorem properties_initial (o : ObjectId) :
    ∃ written, Machine.initial.store.properties o = Record.ofList written := by
  rw [store_initial]
  unfold Store.properties
  cases o.index with
  | zero => exact ⟨_, rfl⟩
  | succ i => exact ⟨[], rfl⟩

end Machine

/-- A run behind which the machine is grounded if it was before. -/
def Run.KeepsGrounded {α : Type} (x : Run α) : Prop :=
  ∀ m : Machine, m.Grounded → (endOf x m).Grounded

theorem Run.Heeds.keepsGrounded {α : Type} {x : Run α} {wanted : Nat → α → Prop}
    (h : Heeds .made 0 x wanted) : x.KeepsGrounded :=
  fun _ hm => (h.endOf (Nat.zero_le _) hm).store

theorem Run.Heeds.kept_of_ok {α : Type} {x : Run α} {wanted : Nat → α → Prop}
    (h : Heeds .made 0 x wanted) {m m' : Machine} (hm : m.Grounded) {a : α} (hx : x m = .ok a m') :
    Admission.made.Kept m m' :=
  (h.of_ok (Nat.zero_le _) hm hx).1

/-! ## Object literals -/

/-- The fields of a literal are filled in: each value is written before the next one is
computed. -/
inductive Evaluator.Fills (go : Evaluator) (o : ObjectId) :
    Machine → List Field → List (String × Value) → Machine → Prop where
  | nil (m : Machine) : Fills go o m [] [] m
  | cons {m m₁ m₂ : Machine} {field : Field} {rest : List Field} {value : Value}
      {written : List (String × Value)}
      (hvalue : go.evalNamed field.value field.name m = .ok value m₁)
      (hrest : Fills go o { m₁ with store := m₁.store.setProperty o field.name value }
        rest written m₂) :
      Fills go o m (field :: rest) ((field.name, value) :: written) m₂

namespace Evaluator

variable {go : Evaluator} {o : ObjectId}

theorem evalFields_eq_ok_iff {fields : List Field} {m m' : Machine} :
    go.evalFields o fields m = .ok () m' ↔ ∃ written, go.Fills o m fields written m' := by
  constructor
  · intro h
    induction fields generalizing m with
    | nil =>
      cases h
      exact ⟨[], .nil m'⟩
    | cons field rest ih =>
      obtain ⟨value, m₁, hvalue, h⟩ := bind_eq_ok.mp h
      obtain ⟨_, m₂, hset, hrest⟩ := bind_eq_ok.mp h
      cases hset
      obtain ⟨written, hfills⟩ := ih hrest
      exact ⟨(field.name, value) :: written, .cons hvalue hfills⟩
  · rintro ⟨written, hfills⟩
    induction hfills with
    | nil m => rfl
    | cons hvalue hrest ih => exact (bind_of_ok hvalue).trans ((bind_of_ok rfl).trans ih)

/-- An object that nothing mentions gets the fields and nothing else. -/
theorem Fills.properties_eq {fields : List Field} {written : List (String × Value)}
    {m m' : Machine} (hgo : go.Heeds (.except o)) (h : go.Fills o m fields written m')
    (hm : (Admission.except o).AllowsStore m.store) :
    m'.store.properties o = (m.store.properties o).setAll written := by
  induction h with
  | nil m => rfl
  | @cons m m₁ m₂ field rest value written hvalue hrest ih =>
    -- the value has been computed without a write to the object, then it is written
    obtain ⟨hkept, hallowed⟩ :=
      (hgo.evalNamed field.value field.name).of_ok (Nat.le_refl _) hm hvalue
    rw [ih (hkept.store.setProperty o field.name hallowed), Store.properties_setProperty,
      if_pos ⟨rfl, hkept.store.least⟩, hkept.hidden o fun _ hne => hne rfl]
    rfl

end Evaluator

/-- An object literal gives a new object when its fields have been filled in. -/
theorem eval_object_eq_ok_iff {limit fuel : Nat} {m m' : Machine} {fields : List Field}
    {position : Position} {v : Value} :
    (Expr.object fields position).eval limit (fuel + 1) m = .ok v m' ↔
      ∃ written, v = .object ⟨m.store.objects.size⟩ ∧
        (evaluator limit fuel).Fills ⟨m.store.objects.size⟩
          { m with store := (m.store.newObject .empty).2 } fields written m' := by
  constructor
  · intro h
    obtain ⟨o, m₁, hnew, h⟩ := bind_eq_ok.mp h
    cases hnew
    obtain ⟨_, m₂, hfields, h⟩ := bind_eq_ok.mp h
    cases h
    obtain ⟨written, hfills⟩ := Evaluator.evalFields_eq_ok_iff.mp hfields
    exact ⟨written, rfl, hfills⟩
  · rintro ⟨written, rfl, hfills⟩
    have hfields := Evaluator.evalFields_eq_ok_iff.mpr ⟨written, hfills⟩
    exact (bind_of_ok rfl).trans ((bind_of_ok hfields).trans rfl)

/-- A new object has the fields of its literal as they were filled in. -/
theorem Machine.Grounded.properties_of_fills {limit fuel : Nat} {m m' : Machine}
    {fields : List Field} {written : List (String × Value)} (hm : m.Grounded)
    (h : (evaluator limit fuel).Fills ⟨m.store.objects.size⟩
      { m with store := (m.store.newObject .empty).2 } fields written m') :
    m'.store.properties ⟨m.store.objects.size⟩ = Record.ofList written := by
  -- all objects that are mentioned have been there before
  have hunknown : (Admission.except ⟨m.store.objects.size⟩).AllowsStore
      (m.store.newObject .empty).2 := by
    refine Admission.AllowsStore.newObject hm (Nat.le_refl _) fun v hv p hp heq => ?_
    have hlt := hv p hp
    rw [heq] at hlt
    exact Nat.lt_irrefl _ hlt
  have hempty : (m.store.newObject .empty).2.properties ⟨m.store.objects.size⟩ = .empty := by
    rw [Store.properties_newObject]
    exact if_pos rfl
  exact (h.properties_eq (evaluator_heeds _ limit fuel) hunknown).trans
    (congrArg (Record.setAll · written) hempty)

/-! ## Assignments to properties -/

/-- What comes after a run is written after it. -/
theorem Run.Journal.suffix_bind {α β : Type} {x : Run α} {f : α → Run β} (jx : Journal x)
    (jf : ∀ a, Journal (f a)) {m m' : Machine} {a : α} (h : x m = .ok a m') :
    (jf a).writes m' <:+ (jx.bind jf).writes m := by
  unfold Journal.bind
  dsimp only
  rw [h]
  exact List.suffix_append ..

/-- What is computed and then put into a property is written there last. -/
theorem Place.suffix_put {α : Type} {x : Run α} (jx : Journal x) {wanted : Nat → α → Prop}
    (hx : Heeds .made 0 x wanted) (new result : α → Value) {m m' : Machine} (hm : m.Grounded)
    {o : ObjectId} (ho : o.index < m.store.objects.size) {name : String} {v : Value}
    (h : (do
      let a ← x
      (Place.property o name).write (new a)
      return result a) m = .ok v m') :
    ∃ a m₁, x m = .ok a m₁ ∧ v = result a ∧ [⟨o, name, new a⟩] <:+ (jx.bind fun a =>
      ((Place.property o name).journalWrite (new a)).bind fun _ =>
        Journal.pure (result a)).writes m := by
  obtain ⟨a, m₁, ha, h⟩ := bind_eq_ok.mp h
  obtain ⟨_, m₂, hwrite, h⟩ := bind_eq_ok.mp h
  cases h
  have hthere : o.index < m₁.store.objects.size :=
    Nat.lt_of_lt_of_le ho (hx.kept_of_ok hm ha).size_le
  have hnoted : (((Place.property o name).journalWrite (new a)).bind fun _ =>
      Journal.pure (result a)).writes m₁ = [⟨o, name, new a⟩] := by
    show (if _ then _ else _) ++ [] = _
    rw [if_pos hthere, List.append_nil]
  refine ⟨a, m₁, ha, rfl, .trans ?_ (Journal.suffix_bind _ _ ha)⟩
  exact hnoted ▸ List.suffix_rfl

/-- The object of a property that is to be written is there. -/
theorem Evaluator.Heeds.resolvePlace_member {go : Evaluator} (hgo : go.Heeds .made)
    {object : Expr} {name : String} {position : Position} {m m' : Machine} {place : Place}
    (hm : m.Grounded) (h : go.resolvePlace (.member object name position) m = .ok place m') :
    ∃ o, place = .property o name ∧ go.eval object m = .ok (.object o) m' ∧
      o.index < m'.store.objects.size ∧ m'.Grounded := by
  obtain ⟨hkept, hallowed⟩ := (hgo.resolvePlace _).of_ok (Nat.zero_le _) hm h
  obtain ⟨v, m₁, hv, h⟩ := bind_eq_ok.mp h
  obtain ⟨o, m₂, ho, h⟩ := bind_eq_ok.mp h
  cases h
  cases v with
  | object _ =>
    cases ho
    exact ⟨_, rfl, hv, hallowed _ name rfl, hkept.store⟩
  | _ => cases ho

/-- A property that is read as a number is there. -/
theorem Place.get?_of_read {o : ObjectId} {name : String} {m m' m'' : Machine} {current : Value}
    {x : Float} {position : Position} (h : (Place.property o name).read m = .ok current m')
    (hx : Run.ofExcept (current.asNumber position) m' = .ok x m'') :
    (m.store.properties o).get? name = some (.number x) := by
  have hcurrent : current = ((m.store.properties o).get? name).getD .undefined := by
    cases h
    rfl
  have hnumber : current = .number x := by
    cases current with
    | number y => cases hx; rfl
    | _ => cases hx
  rw [hcurrent] at hnumber
  cases hget : (m.store.properties o).get? name with
  | none => rw [hget] at hnumber; cases hnumber
  | some value => rw [hget] at hnumber; exact congrArg some hnumber

section Members

variable {limit fuel : Nat} {m m' : Machine} {object : Expr} {name : String}
  {position position' : Position} {v : Value}

/-- An assignment to a property writes its value there, after everything else. -/
theorem eval_assign_member {op? : Option BinaryOp} {value : Expr} (hm : m.Grounded)
    (h : (Expr.assign (.member object name position) op? value position').eval limit
      (fuel + 1) m = .ok v m') :
    ∃ o m₁, object.eval limit fuel m = .ok (.object o) m₁ ∧
      [⟨o, name, v⟩] <:+ ((evaluatorJournals limit (fuel + 1)).eval
        (.assign (.member object name position) op? value position')).writes m := by
  have hgo := evaluator_heeds .made limit fuel
  obtain ⟨place, m₁, hplace, h⟩ := bind_eq_ok.mp h
  obtain ⟨o, rfl, hobject, ho, hm₁⟩ := hgo.resolvePlace_member hm hplace
  refine ⟨o, m₁, hobject, ?_⟩
  -- behind the place come the parts of the value, and the write behind all of them
  cases op? with
  | none =>
    obtain ⟨_, _, -, rfl, hlast⟩ := Place.suffix_put
      ((evaluatorJournals limit fuel).evalNamed name value)
      (hgo.evalNamed value name) (fun a => a) (fun a => a) hm₁ ho h
    refine .trans ?_ (Journal.suffix_bind _ _ hplace)
    exact hlast
  | some op =>
    obtain ⟨current, m₂, hcurrent, h⟩ := bind_eq_ok.mp h
    obtain ⟨operand, m₃, hoperand, h⟩ := bind_eq_ok.mp h
    obtain ⟨answer, m₄, hanswer, h⟩ := bind_eq_ok.mp h
    refine .trans ?_ (Journal.suffix_bind _ _ hplace)
    refine .trans ?_ (Journal.suffix_bind _ _ hcurrent)
    refine .trans ?_ (Journal.suffix_bind _ _ hoperand)
    refine .trans ?_ (Journal.suffix_bind _ _ hanswer)
    have hkept₂ := (Place.heeds_read _).kept_of_ok hm₁ hcurrent
    have hkept₃ := hkept₂.trans ((hgo.eval value).kept_of_ok hkept₂.store hoperand)
    cases hanswer
    obtain ⟨_, _, -, rfl, hlast⟩ := Place.suffix_put (.ofExcept _) (.ofExcept_any _) (fun a => a)
      (fun a => a) hkept₃.store (Nat.lt_of_lt_of_le ho hkept₃.size_le) h
    exact hlast

/-- An update of a property writes the number that was there, one more or less. -/
theorem eval_update_member {op : UpdateOp} {isBefore : Bool} (hm : m.Grounded)
    (h : (Expr.update (.member object name position) op isBefore position').eval limit
      (fuel + 1) m = .ok v m') :
    ∃ o m₁ old, object.eval limit fuel m = .ok (.object o) m₁ ∧
      (m₁.store.properties o).get? name = some (.number old) ∧
      v = .number (if isBefore then old + op.delta else old) ∧
      [⟨o, name, .number (old + op.delta)⟩] <:+ ((evaluatorJournals limit (fuel + 1)).eval
        (.update (.member object name position) op isBefore position')).writes m := by
  have hgo := evaluator_heeds .made limit fuel
  obtain ⟨place, m₁, hplace, h⟩ := bind_eq_ok.mp h
  obtain ⟨o, rfl, hobject, ho, hm₁⟩ := hgo.resolvePlace_member hm hplace
  obtain ⟨current, m₂, hcurrent, h⟩ := bind_eq_ok.mp h
  have hkept := (Place.heeds_read _).kept_of_ok hm₁ hcurrent
  obtain ⟨old, m₃, hold, hv, hlast⟩ := Place.suffix_put (.ofExcept _) (.ofExcept_any _)
    (fun old => .number (old + op.delta))
    (fun old => .number (if isBefore then old + op.delta else old)) hkept.store
    (Nat.lt_of_lt_of_le ho hkept.size_le) h
  refine ⟨o, m₁, old, hobject, ?_, hv, ?_⟩
  · exact Place.get?_of_read hcurrent hold
  · refine .trans ?_ (Journal.suffix_bind _ _ hplace)
    refine .trans ?_ (Journal.suffix_bind _ _ hcurrent)
    exact hlast

end Members

/-! ## Objects of a program -/

/-- A run adds to the properties of each object what its journal has noted, so that they are
still a map in the order of insertion. -/
structure Run.Journal.Continues {α : Type} {x : Run α} (j : Journal x) : Prop where
  properties : ∀ m o written, m.store.properties o = Record.ofList written →
    (endOf x m).store.properties o = Record.ofList (written ++ Write.entriesOn o (j.writes m))
  isMapOf : ∀ m o written, m.store.properties o = Record.ofList written →
    ((endOf x m).store.properties o).IsMapOf (written ++ Write.entriesOn o (j.writes m))

theorem Run.Journal.continues {α : Type} {x : Run α} (j : Journal x) : j.Continues := by
  have hproperties : ∀ m o written, m.store.properties o = Record.ofList written →
      (endOf x m).store.properties o =
        Record.ofList (written ++ Write.entriesOn o (j.writes m)) := by
    intro m o written h
    rw [j.complete, h, Record.ofList_append]
  refine ⟨hproperties, fun m o written h => ?_⟩
  rw [hproperties m o written h]
  exact Record.isMapOf_ofList _

/-- Objects are maps in the order of insertion. Whatever is done with a record, it is the map
of the writes since it was last without entries, and a store does the same to the records of
its objects. A literal makes an object of its fields. From then on each run adds its writes
to the objects, and an assignment to a property ends with the write of its value. -/
theorem objects_insertion_ordered (limit fuel : Nat) :
    (∀ {α : Type} (actions : List (Record.Action α)),
      Record.after actions = Record.ofList (Record.writesOf actions) ∧
      (Record.after actions).IsMapOf (Record.writesOf actions)) ∧
    (∀ (s : Store) (o : ObjectId), o.index < s.objects.size → s.ActsOn o) ∧
    (∀ (m m' : Machine) (fields : List Field) (position : Position) (v : Value), m.Grounded →
      ((Expr.object fields position).eval limit (fuel + 1) m = .ok v m' ↔
        ∃ o written, v = .object o ∧ o = ⟨m.store.objects.size⟩ ∧
          (evaluator limit fuel).Fills o { m with store := (m.store.newObject .empty).2 }
            fields written m' ∧
          m'.store.properties o = Record.ofList written ∧
          (m'.store.properties o).IsMapOf written)) ∧
    (∀ (m m' : Machine) (object value : Expr) (name : String) (op? : Option BinaryOp)
      (position position' : Position) (v : Value), m.Grounded →
      (Expr.assign (.member object name position) op? value position').eval limit (fuel + 1) m =
        .ok v m' →
      ∃ o m₁, object.eval limit fuel m = .ok (.object o) m₁ ∧
        [⟨o, name, v⟩] <:+ ((evaluatorJournals limit (fuel + 1)).eval
          (.assign (.member object name position) op? value position')).writes m) ∧
    (∀ (m m' : Machine) (object : Expr) (name : String) (op : UpdateOp) (isBefore : Bool)
      (position position' : Position) (v : Value), m.Grounded →
      (Expr.update (.member object name position) op isBefore position').eval limit (fuel + 1) m =
        .ok v m' →
      ∃ o m₁ old, object.eval limit fuel m = .ok (.object o) m₁ ∧
        (m₁.store.properties o).get? name = some (.number old) ∧
        v = .number (if isBefore then old + op.delta else old) ∧
        [⟨o, name, .number (old + op.delta)⟩] <:+ ((evaluatorJournals limit (fuel + 1)).eval
          (.update (.member object name position) op isBefore position')).writes m) ∧
    ((∀ e, ((evaluatorJournals limit fuel).eval e).Continues) ∧
      (∀ s, ((evaluatorJournals limit fuel).exec s).Continues) ∧
      (∀ l, ((evaluatorJournals limit fuel).execStatements l).Continues) ∧
      (∀ f receiver? arguments position,
        ((evaluatorJournals limit fuel).call limit receiver? arguments position f).Continues) ∧
      ∀ program : Program, (program.journal limit fuel).Continues) ∧
    ((Machine.initial.Grounded ∧
        ∀ o, ∃ written, Machine.initial.store.properties o = Record.ofList written) ∧
      (∀ e : Expr, (e.eval limit fuel).KeepsGrounded) ∧
      (∀ s : Stmt, (s.exec limit fuel).KeepsGrounded) ∧
      (∀ l, ((evaluator limit fuel).execStatements l).KeepsGrounded) ∧
      (∀ (f : Value) (receiver? : Option Value) (arguments : List Value) (position : Position)
        (m : Machine), m.Grounded →
        Admission.made.AllowsAny m.store.objects.size receiver? →
        (∀ v ∈ arguments, Admission.made.Allows m.store.objects.size v) →
        (endOf (f.call limit fuel receiver? arguments position) m).Grounded) ∧
      ∀ program : Program, (program.exec limit fuel).KeepsGrounded) := by
  have hgo := evaluator_heeds .made limit fuel
  refine ⟨fun actions => ⟨Record.after_eq_ofList actions, Record.isMapOf_after actions⟩,
    fun s o ho => Store.actsOn ho, ?_, ?_, ?_, ?_, ?_⟩
  · intro m m' fields position v hm
    rw [eval_object_eq_ok_iff]
    constructor
    · rintro ⟨written, hv, hfills⟩
      have hproperties := hm.properties_of_fills hfills
      exact ⟨_, written, hv, rfl, hfills, hproperties,
        hproperties ▸ Record.isMapOf_ofList written⟩
    · rintro ⟨o, written, hv, rfl, hfills, -⟩
      exact ⟨written, hv, hfills⟩
  · intro m m' object value name op? position position' v hm h
    exact eval_assign_member hm h
  · intro m m' object name op isBefore position position' v hm h
    exact eval_update_member hm h
  · exact ⟨fun _ => Journal.continues _, fun _ => Journal.continues _,
      fun _ => Journal.continues _, fun _ _ _ _ => Journal.continues _,
      fun _ => Journal.continues _⟩
  · refine ⟨⟨Machine.grounded_initial, Machine.properties_initial⟩,
      fun e => (hgo.eval e).keepsGrounded, fun s => (hgo.exec s).keepsGrounded,
      fun l => (hgo.execStatements l).keepsGrounded, ?_, fun program => ?_⟩
    · intro f receiver? arguments position m hm hreceiver harguments
      exact ((hgo.call limit f position hreceiver harguments).endOf (Nat.le_refl _) hm).store
    · have hprogram : Heeds .made 0 (program.exec limit fuel) fun _ _ => True :=
        (hgo.execStatements program.statements).bind fun _ _ _ _ => .pure fun _ _ => trivial
      exact hprogram.keepsGrounded

/-! ### An object -/

/-- The fields of an object, one of them twice. -/
def repeatedFields : List Field :=
  [⟨"b", .literal (.text "x") .start, .start⟩, ⟨"n", .literal (.number 1) .start, .start⟩,
    ⟨"b", .literal (.boolean false) .start, .start⟩]

/-- Puts the value of the property `b` of the object into another property. -/
def copyField (name : String) : Expr :=
  .assign (.member (.reference "o" .start) name .start) none
    (.member (.reference "o" .start) "b" .start) .start

/-- Adds one to the property `n` of the object. -/
def countField : Expr :=
  .update (.member (.reference "o" .start) "n" .start) .increment true .start

/-- Makes the object and writes two of its properties. -/
def fieldProgram : Program :=
  ⟨[.variable "o" none (some (.object repeatedFields .start)) .start,
    .expression (copyField "c") .start, .expression (copyField "b") .start]⟩

/-- The machine in which the object has just been made. -/
def withFields : Machine :=
  endOf ((evaluator 128 6).execStatements (fieldProgram.statements.take 1)) Machine.initial

/-- The literal has a name twice, and the program adds one more name and writes an old one. -/
theorem objects_insertion_ordered_of_fields :
    (Record.after [.renew [("b", 1), ("a", 2)], .clear, .set "c" 3, .set "a" 4, .get "a",
      .set "c" 5]).IsMapOf [("c", 3), ("a", 4), ("c", 5)] ∧
    withFields.Grounded ∧ withFields.store.ActsOn ⟨1⟩ ∧
    (∃ m' written, (Expr.object repeatedFields .start).eval 128 7 Machine.initial =
        .ok (.object ⟨1⟩) m' ∧
      (m'.store.properties ⟨1⟩).IsMapOf written ∧
      (m'.store.properties ⟨1⟩).keys = ["b", "n"]) ∧
    ([⟨⟨1⟩, "c", .boolean false⟩] <:+
      ((evaluatorJournals 128 7).eval (copyField "c")).writes withFields) ∧
    (∃ old, [⟨⟨1⟩, "n", .number (old + UpdateOp.increment.delta)⟩] <:+
      ((evaluatorJournals 128 7).eval countField).writes withFields) ∧
    ((endOf (fieldProgram.exec 128 6) Machine.initial).store.properties ⟨1⟩).IsMapOf
      [("b", .text "x"), ("n", .number 1), ("b", .boolean false), ("c", .boolean false),
        ("b", .boolean false)] := by
  obtain ⟨hrecords, hstore, hliteral, hassign, hupdate, ⟨-, -, -, -, hprogram⟩,
    ⟨hinitial, -⟩, -, -, hrow, -, -⟩ := objects_insertion_ordered 128 6
  have hgrounded : withFields.Grounded := hrow _ _ hinitial
  have hobject : (Expr.reference "o" .start).eval 128 6 withFields =
      .ok (.object ⟨1⟩) withFields := rfl
  refine ⟨(hrecords _).2, hgrounded, hstore _ _ (by decide), ?_, ?_, ?_, ?_⟩
  · obtain ⟨o, written, ho, -, -, -, hmap⟩ :=
      (hliteral _ _ repeatedFields .start _ hinitial).mp rfl
    cases ho
    exact ⟨_, written, rfl, hmap, rfl⟩
  · obtain ⟨o, _, ho, hlast⟩ := hassign withFields _ (.reference "o" .start)
      (.member (.reference "o" .start) "b" .start) "c" none .start .start _ hgrounded rfl
    cases hobject.symm.trans ho
    exact hlast
  · obtain ⟨o, _, old, ho, -, -, hlast⟩ := hupdate withFields _ (.reference "o" .start) "n"
      .increment true .start .start _ hgrounded rfl
    cases hobject.symm.trans ho
    exact ⟨old, hlast⟩
  · exact (hprogram fieldProgram).isMapOf Machine.initial ⟨1⟩ [] rfl

end TypedScript
