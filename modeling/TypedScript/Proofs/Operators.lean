import TypedScript.Operation
import TypedScript.Proofs.FirstOrder

/-!
# Operators on values of the right types

An operator whose operands have types that suit it yields a value of its result
type, or divides by zero (`yields_apply`). The check asks for operands that fit
where numbers or texts are expected, and a value of a type is one of each type
that it fits (`conforms_of_fits`).
-/

namespace TypedScript

variable {table part : Table} {s : Store}

/-! ## Results -/

/-- The only fault of a checked first-order program. -/
def IsDivisionByZero (fault : RuntimeFault) : Prop :=
  fault.cause = .divisionByZero

namespace Operation

/-- A result that is a value of a type or a division by zero. -/
def Yields (table : Table) (s : Store) (type : Ty) (result : Except RuntimeFault Value) : Prop :=
  match result with
  | .ok value => Conforms table s type value
  | .error fault => IsDivisionByZero fault

theorem yields_arithmetic (op : BinaryOp) (x y : Float) (position : Position) :
    Yields table s .number (arithmetic op x y position) := by
  unfold arithmetic
  split
  · exact Conforms.number_iff.mpr ⟨_, rfl⟩
  · exact Conforms.number_iff.mpr ⟨_, rfl⟩
  · exact Conforms.number_iff.mpr ⟨_, rfl⟩
  · split
    · exact rfl
    · exact Conforms.number_iff.mpr ⟨_, rfl⟩
  · split
    · exact rfl
    · exact Conforms.number_iff.mpr ⟨_, rfl⟩

theorem yields_compare (op : BinaryOp) (left right : Value) (position : Position)
    (hop : op.isEquality = true ∨ op.isRelational = true)
    (horder : op.isRelational = true → ∃ o, order left right position = .ok o) :
    Yields table s .boolean (compare op left right position) := by
  unfold compare
  cases op with
  | equal | notEqual | strictEqual | strictNotEqual => exact Conforms.boolean_iff.mpr ⟨_, rfl⟩
  | less | greater | lessEqual | greaterEqual =>
    obtain ⟨o, ho⟩ := horder rfl
    dsimp only
    rw [ho]
    cases o <;> exact Conforms.boolean_iff.mpr ⟨_, rfl⟩
  | add | subtract | multiply | divide | modulo | and | or =>
    rcases hop with hop | hop <;> cases hop

theorem plain_operandType (op : BinaryOp) (a b : Ty) : table.Plain (op.operandType a b) := by
  unfold BinaryOp.operandType
  split
  · exact Table.plain_primitive _
  · split
    · split <;> exact Table.plain_primitive _
    · exact Table.plain_primitive _

theorem apply_numbers {op : BinaryOp} (hop : op.isArithmetic = true) (s : Store) (x y : Float)
    (position : Position) :
    apply s op (.number x) (.number y) position = arithmetic op x y position := by
  cases op <;> first | rfl | cases hop

theorem apply_compare {op : BinaryOp} (hop : op.isRelational = true ∨ op.isEquality = true)
    (s : Store) (left right : Value) (position : Position) :
    apply s op left right position = compare op left right position := by
  cases op <;> first | rfl | (rcases hop with hop | hop <;> cases hop)

/-- Operands of the type that a relational operator asks for stand in an order,
or in none. -/
theorem exists_order {op : BinaryOp} (hop : op.isRelational = true) {a b : Ty}
    {left right : Value} (hleft : Conforms table s (op.operandType a b) left)
    (hright : Conforms table s (op.operandType a b) right) (position : Position) :
    ∃ o, order left right position = .ok o := by
  have hnot : ¬op.isArithmetic = true := by
    cases op <;> first | exact Bool.false_ne_true | cases hop
  unfold BinaryOp.operandType at hleft hright
  rw [if_neg hnot, if_pos hop] at hleft hright
  split at hleft
  · next htext =>
    rw [if_pos htext] at hright
    obtain ⟨x, rfl⟩ := Conforms.text_iff.mp hleft
    obtain ⟨y, rfl⟩ := Conforms.text_iff.mp hright
    exact ⟨_, rfl⟩
  · next htext =>
    rw [if_neg htext] at hright
    obtain ⟨x, rfl⟩ := Conforms.number_iff.mp hleft
    obtain ⟨y, rfl⟩ := Conforms.number_iff.mp hright
    exact ⟨_, rfl⟩

/-- An operator that takes only some types, on values of the type it asks for. -/
theorem yields_apply_of_fits {op : BinaryOp} {a b : Ty} (hequality : op.isEquality = false)
    {left right : Value} (hleft : Conforms table s (op.operandType a b) left)
    (hright : Conforms table s (op.operandType a b) right) (position : Position) :
    Yields table s op.resultType (apply s op left right position) := by
  by_cases harithmetic : op.isArithmetic = true
  · unfold BinaryOp.operandType at hleft hright
    rw [if_pos harithmetic] at hleft hright
    obtain ⟨x, rfl⟩ := Conforms.number_iff.mp hleft
    obtain ⟨y, rfl⟩ := Conforms.number_iff.mp hright
    rw [apply_numbers harithmetic]
    unfold BinaryOp.resultType
    rw [if_pos harithmetic]
    exact yields_arithmetic op x y position
  unfold BinaryOp.resultType
  rw [if_neg harithmetic]
  by_cases hrelational : op.isRelational = true
  · rw [apply_compare (.inl hrelational)]
    exact yields_compare op left right position (.inr hrelational)
      fun _ => exists_order hrelational hleft hright position
  · unfold BinaryOp.operandType at hleft hright
    rw [if_neg harithmetic, if_neg hrelational] at hleft hright
    obtain ⟨x, rfl⟩ := Conforms.boolean_iff.mp hleft
    obtain ⟨y, rfl⟩ := Conforms.boolean_iff.mp hright
    cases op with
    | and | or => cases x <;> exact Conforms.boolean_iff.mpr ⟨_, rfl⟩
    | equal | notEqual | strictEqual | strictNotEqual => cases hequality
    | less | greater | lessEqual | greaterEqual => exact absurd rfl hrelational
    | add | subtract | multiply | divide | modulo => exact absurd rfl harithmetic

/-- A binary operator on values of the types of its operands yields a value of
the type of its result, unless it divides by zero. -/
theorem yields_apply (hpart : part.IsPlainPartOf table) {op : BinaryOp} {a b type : Ty}
    (hop : op.HasType table a b type) (ha : part.Plain a) (hb : part.Plain b)
    {left right : Value} (hleft : Conforms table s a left) (hright : Conforms table s b right)
    (position : Position) : Yields table s type (apply s op left right position) := by
  unfold BinaryOp.HasType at hop
  split at hop
  · next hequality =>
    rw [hop, apply_compare (.inr hequality)]
    refine yields_compare op left right position (.inl hequality) fun hrelational => ?_
    cases op <;>
      first
      | exact absurd hrelational Bool.false_ne_true
      | exact absurd hequality Bool.false_ne_true
  next hequality =>
  split at hop
  · next htext =>
    obtain ⟨rfl, htext⟩ := htext
    -- one of the operands is a text, as its type says
    have hjoin : (left.isText || right.isText) = true := by
      rcases htext with rfl | rfl
      · obtain ⟨x, rfl⟩ := Conforms.text_iff.mp hleft
        rfl
      · obtain ⟨y, rfl⟩ := Conforms.text_iff.mp hright
        exact Bool.or_true _
    have heq : apply s .add left right position =
        .ok (.text (s.textOf left ++ s.textOf right)) := if_pos hjoin
    rw [hop, heq]
    exact Conforms.text_iff.mpr ⟨_, rfl⟩
  · obtain ⟨⟨_, hfitsLeft⟩, ⟨_, hfitsRight⟩, rfl⟩ := hop
    have hplain : part.Plain (op.operandType a b) := plain_operandType op a b
    exact yields_apply_of_fits (by simpa using hequality)
      (conforms_of_fits hpart hfitsLeft ha hplain hleft)
      (conforms_of_fits hpart hfitsRight hb hplain hright) position

end Operation

end TypedScript
