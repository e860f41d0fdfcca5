/-!
# Arities

How many arguments a function takes when it is called. Declared functions take
a fixed number or a range, built-in ones may take any number from some count
on.

This is the notion of the running program. The types of functions have one of
their own, `Allowance`, and the parameters that have to be given are counted
apart for a function (`Function.requiredCount`) and for its type
(`requiredCount`). So that a function and its type accept the same calls, and
put it into the same words, is not so by definition.
-/

namespace TypedScript

/-- The numbers of arguments that a function takes. -/
inductive Arity where
  | exactly (count : Nat)
  | fromTo (least most : Nat)
  | atLeast (least : Nat)
deriving DecidableEq, Repr

namespace Arity

/-- The arity of `total` parameters of which the first `required` have to be
given. -/
def between (required total : Nat) : Arity :=
  if required = total then .exactly total else .fromTo required total

/-- Whether a call may give `count` arguments. -/
def accepts (arity : Arity) (count : Nat) : Bool :=
  match arity with
  | .exactly n => count = n
  | .fromTo least most => least ≤ count && count ≤ most
  | .atLeast least => least ≤ count

/-- An arity in the words of a message. -/
def text : Arity → String
  | .exactly n => toString n
  | .fromTo least most => toString least ++ "-" ++ toString most
  | .atLeast least => "at least " ++ toString least

theorem accepts_between (required total count : Nat) :
    (between required total).accepts count = true ↔ required ≤ count ∧ count ≤ total := by
  unfold between
  split
  · simp [accepts]
    omega
  · simp [accepts]

end Arity

end TypedScript
