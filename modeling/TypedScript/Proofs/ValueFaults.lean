import TypedScript.Operation

/-!
# Faults that lie in values

A value may be of another kind than is asked for, it may have no properties, or it may be a
divisor of zero. Conversions and operators fail for these reasons only
(`FailsForValues.apply`): whatever two values an operator is given, its fault lies in them.
The fault of an operator that should compare and does not is not among these, since only
operators that compare are taken for such.
-/

namespace TypedScript

/-- A fault that lies in a value. -/
def RuntimeCause.isOfValues : RuntimeCause → Bool
  | .typeMismatch expected _ => expected ∈ ["number", "string", "boolean"]
  | .unknownProperty _ _ => true
  | .divisionByZero => true
  | _ => false

/-- A computation that fails only for what its values are. -/
def FailsForValues {α : Type} (e : Except RuntimeFault α) : Prop :=
  ∀ fault, e = .error fault → fault.cause.isOfValues = true

namespace FailsForValues

theorem ok {α : Type} (a : α) : FailsForValues (.ok a) :=
  fun _ h => by cases h

theorem error {α : Type} {fault : RuntimeFault} (h : fault.cause.isOfValues = true) :
    FailsForValues (.error fault : Except RuntimeFault α) :=
  fun _ heq => by cases heq; exact h

theorem bind {α β : Type} {e : Except RuntimeFault α} {f : α → Except RuntimeFault β}
    (he : FailsForValues e) (hf : ∀ a, FailsForValues (f a)) : FailsForValues (e >>= f) := by
  cases e with
  | ok a => exact hf a
  | error fault => exact error (he fault rfl)

theorem asNumber (v : Value) (position : Position) : FailsForValues (v.asNumber position) := by
  cases v with
  | number value => exact ok _
  | _ => exact error rfl

theorem asBoolean (v : Value) (position : Position) : FailsForValues (v.asBoolean position) := by
  cases v with
  | boolean value => exact ok _
  | _ => exact error rfl

theorem expectObject (v : Value) (property : String) (position : Position) :
    FailsForValues (v.expectObject property position) := by
  cases v with
  | object id => exact ok _
  | _ => exact error rfl

theorem getProperty (s : Store) (v : Value) (name : String) (position : Position) :
    FailsForValues (s.getProperty v name position) := by
  unfold Store.getProperty
  have hexpect := expectObject v name position
  split
  · exact ok _
  · next fault heq => exact error (hexpect fault heq)

theorem arithmetic (op : BinaryOp) (a b : Float) (position : Position) :
    FailsForValues (Operation.arithmetic op a b position) := by
  have hdivision : ∀ value : Value, FailsForValues
      (if b == 0.0 then .error ⟨.divisionByZero, position⟩ else .ok value) := by
    intro value
    split
    · exact error rfl
    · exact ok value
  cases op with
  | add | subtract | multiply => exact ok _
  | _ => exact hdivision _

theorem onNumbers (op : BinaryOp) (left right : Value) (position : Position) :
    FailsForValues (Operation.numbers left right position >>= fun ab =>
      Operation.arithmetic op ab.1 ab.2 position) := by
  refine bind ?_ fun ab => arithmetic op ab.1 ab.2 position
  exact (asNumber left position).bind fun _ => (asNumber right position).bind fun _ => ok _

theorem order (left right : Value) (position : Position) :
    FailsForValues (Operation.order left right position) := by
  unfold Operation.order
  split
  · exact ok _
  · exact ok _
  · exact error rfl
  · exact error rfl
  · exact error rfl

/-- An operator is never taken for one that should compare and does not. -/
theorem apply (s : Store) (op : BinaryOp) (left right : Value) (position : Position) :
    FailsForValues (Operation.apply s op left right position) := by
  cases op with
  | add =>
    show FailsForValues (Operation.add s left right position)
    unfold Operation.add
    split
    · exact ok _
    · exact onNumbers .add left right position
  | subtract => exact onNumbers .subtract left right position
  | multiply => exact onNumbers .multiply left right position
  | divide => exact onNumbers .divide left right position
  | modulo => exact onNumbers .modulo left right position
  | and =>
    refine (asBoolean left position).bind fun b => ?_
    cases b with
    | true => exact (asBoolean right position).bind fun _ => ok _
    | false => exact ok _
  | or =>
    refine (asBoolean left position).bind fun b => ?_
    cases b with
    | true => exact ok _
    | false => exact (asBoolean right position).bind fun _ => ok _
  | equal | notEqual | strictEqual | strictNotEqual => exact ok _
  | less | greater | lessEqual | greaterEqual =>
    refine (order left right position).bind fun o? => ?_
    cases o? with
    | some o => exact ok _
    | none => exact ok _

end FailsForValues

end TypedScript
