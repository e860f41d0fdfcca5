import TypedScript.Grammar.Expressions
import TypedScript.Proofs.Sequencing

/-!
# Where an operand ends

An operand goes on as long as trailers stand behind it, and the operands of a chain as long
as operators do that the chain accepts. `Grammar.goesOn` tells this from the first token
behind them. In front of another token trailers and operators end, with what has been read
so far.
-/

namespace TypedScript

namespace Grammar

open TypedScript.Parser

/-- Whether the first token goes on with an operand: it begins a trailer, or it is an operator
that is accepted. -/
def goesOn (accepts : BinaryOp → Bool) (ts : List Token) : Bool :=
  match ts.head?.map Token.kind with
  | some (Token.Kind.symbol sign) =>
    sign = .leftParen || sign = .dot || (update? sign).isSome ||
      (BinaryOp.ofSymbol? sign).any accepts
  | _ => false

theorem goesOn_mono {accepts accepts' : BinaryOp → Bool} {ts : List Token}
    (hle : ∀ op, accepts op = true → accepts' op = true) (h : goesOn accepts' ts = false) :
    goesOn accepts ts = false := by
  unfold goesOn at h ⊢
  split
  · next sign hkind =>
    rw [hkind] at h
    simp only [Bool.or_eq_false_iff] at h ⊢
    refine ⟨h.1, ?_⟩
    cases hop : BinaryOp.ofSymbol? sign with
    | none => rfl
    | some op =>
      have hnot := h.2
      rw [hop] at hnot
      exact Bool.eq_false_iff.mpr fun haccepts => Bool.eq_false_iff.mp hnot (hle op haccepts)
  · rfl

theorem goesOn_operator {accepts : BinaryOp → Bool} {t : Token} {op : BinaryOp} {ts : List Token}
    (hkind : t.kind = .symbol op.symbol) : goesOn accepts (t :: ts) = accepts op := by
  unfold goesOn
  rw [List.head?_cons, Option.map_some, hkind]
  cases op <;> exact Bool.false_or _

theorem operatorAhead?_operator {accepts : BinaryOp → Bool} {t : Token} {op : BinaryOp}
    {ts : List Token} (hkind : t.kind = .symbol op.symbol) (depth : Nat) (h : accepts op = true) :
    operatorAhead? accepts ⟨t :: ts, depth⟩ = .ok (some (op, t.position)) ⟨t :: ts, depth⟩ := by
  have hop : BinaryOp.ofSymbol? op.symbol = some op := by cases op <;> rfl
  unfold operatorAhead?
  rw [bind_of_ok (show peek? ⟨t :: ts, depth⟩ = .ok (some t) ⟨t :: ts, depth⟩ from rfl)]
  dsimp only
  rw [hkind]
  dsimp only
  rw [hop]
  dsimp only
  rw [if_pos h]
  rfl

/-- Behind an operand stands no operator that is accepted. -/
theorem operatorAhead?_of_goesOn {accepts : BinaryOp → Bool} {ts : List Token} (depth : Nat)
    (h : goesOn accepts ts = false) :
    operatorAhead? accepts ⟨ts, depth⟩ = .ok none ⟨ts, depth⟩ := by
  cases ts with
  | nil => rfl
  | cons t rest =>
    obtain ⟨kind, lexeme, position⟩ := t
    cases kind with
    | symbol sign =>
      unfold goesOn at h
      simp only [List.head?_cons, Option.map_some, Bool.or_eq_false_iff] at h
      unfold operatorAhead?
      rw [bind_of_ok (show peek? _ = .ok (some _) _ from rfl)]
      dsimp only
      cases hop : BinaryOp.ofSymbol? sign with
      | none => rfl
      | some op =>
        rw [hop] at h
        have hnot : ¬accepts op = true := Bool.eq_false_iff.mp h.2
        dsimp only
        rw [if_neg hnot]
        rfl
    | _ => rfl

theorem operations_of_goesOn {accepts : BinaryOp → Bool} {ts : List Token} {operand : Parser Expr}
    (bound depth : Nat) (left : Expr) (h : goesOn accepts ts = false) :
    operations accepts operand bound left ⟨ts, depth⟩ = .ok left ⟨ts, depth⟩ := by
  cases bound with
  | zero => rfl
  | succ bound =>
    rw [operations, bind_of_ok (operatorAhead?_of_goesOn depth h)]
    rfl

/-- Behind an operand stands no trailer. -/
theorem trailers_of_goesOn {g : Grammar} {accepts : BinaryOp → Bool} {ts : List Token}
    (bound depth : Nat) (base : Expr) (h : goesOn accepts ts = false) :
    g.trailers bound base ⟨ts, depth⟩ = .ok base ⟨ts, depth⟩ := by
  cases bound with
  | zero => rfl
  | succ bound =>
    cases ts with
    | nil => rfl
    | cons t rest =>
      obtain ⟨kind, lexeme, position⟩ := t
      cases kind with
      | symbol sign =>
        cases sign <;> first | rfl | cases h
      | _ => rfl

theorem requirePlace_of_isPlace {target : Expr} (h : target.isPlace = true) (c : Cursor) :
    requirePlace target c = .ok () c := by
  unfold requirePlace
  rw [if_pos h]
  rfl

end Grammar

end TypedScript
