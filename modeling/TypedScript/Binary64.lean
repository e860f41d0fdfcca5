/-!
# Binary64 numbers as exact integers

A finite `Float` is `significand * 2 ^ exponent` for natural and integer
numbers, and its bit pattern says which. This module reads that pair off a
number, finds the number nearest to a fraction, and takes the remainder of a
division, all in exact integer arithmetic. Nothing here rounds on the way, so
every law about it is a law about `Nat` and `Int`.
-/

namespace TypedScript

/-- The magnitude `significand * 2 ^ exponent`. -/
structure Magnitude where
  significand : Nat
  exponent : Int
deriving DecidableEq, Repr

/-- A power of two. -/
def twoTo (k : Nat) : Nat :=
  Nat.pow 2 k

namespace Binary64

/-- The exponent of the smallest positive number. -/
def leastExponent : Int := -1074

/-- The pattern of positive infinity, the first one behind the finite numbers. -/
def infinityBits : Nat := 2047 * twoTo 52

/-- The pattern of the sign bit alone. -/
def signBit : Nat := twoTo 63

/-- Whether the sign bit is set: so for `-0.0`, but not for a NaN. -/
def isNegative (x : Float) : Bool :=
  !x.isNaN && signBit ≤ x.toBits.toNat

/-- The magnitude of a finite number; infinities and NaN have none. -/
def magnitude? (x : Float) : Option Magnitude :=
  let bits := x.toBits.toNat
  let fraction := bits % twoTo 52
  let field := bits / twoTo 52 % twoTo 11
  if field = 2047 then none
  else if field = 0 then some ⟨fraction, leastExponent⟩
  else some ⟨twoTo 52 + fraction, Int.ofNat field - 1075⟩

/-- The bit pattern of a positive magnitude. The significand has 53 bits, or
fewer at the least exponent; one carried to `2 ^ 53` by rounding is the next
power of two, and past the finite numbers stands infinity. -/
def bitsOf (m : Magnitude) : Nat :=
  if m.significand < twoTo 52 then m.significand
  else min infinityBits
    ((m.exponent - leastExponent).toNat * twoTo 52 + m.significand)

/-- The number with a given sign and the bit pattern of its magnitude. -/
def ofSignBits (negative : Bool) (bits : Nat) : Float :=
  Float.ofBits (UInt64.ofNat (if negative then signBit + bits else bits))

/-- `num / den` in units of `2 ^ exponent`, as a fraction. -/
def inUnits (num den : Nat) (exponent : Int) : Nat × Nat :=
  if 0 ≤ exponent then (num, den * twoTo exponent.toNat)
  else (num * twoTo (-exponent).toNat, den)

/-- The integer nearest to a fraction; a tie goes to the even one. -/
def roundHalfEven (num den : Nat) : Nat :=
  let quotient := num / den
  let rest := num % den
  if den < 2 * rest ∨ (2 * rest = den ∧ quotient % 2 = 1) then quotient + 1
  else quotient

/-- The exponent at which `num / den` has a significand of 53 bits, or the
least exponent. The first guess leaves 53 or 54 bits. -/
def exponentFor (num den : Nat) : Int :=
  let guess := max leastExponent ((num.log2 : Int) - den.log2 - 53)
  let (n, d) := inUnits num den guess
  if n / d < twoTo 53 then guess else guess + 1

/-- The bit pattern nearest to `num / den`, ties to the even significand. -/
def nearestBits (num den : Nat) : Nat :=
  let exponent := exponentFor num den
  let (n, d) := inUnits num den exponent
  bitsOf ⟨roundHalfEven n d, exponent⟩

/-- The number nearest to `num / den`, for a positive `den`. -/
def nearest (num den : Nat) : Float :=
  ofSignBits false (nearestBits num den)

/-- The remainder of `x / y` with the quotient cut to an integer: it has the
sign of `x`, and it is exact. There is none for an infinite `x` or a zero
`y`. -/
def remainder (x y : Float) : Float :=
  match magnitude? x, magnitude? y with
  | some a, some b =>
    if b.significand = 0 then 0.0 / 0.0
    else
      let exponent := min a.exponent b.exponent
      let scale (m : Magnitude) : Nat :=
        m.significand * twoTo (m.exponent - exponent).toNat
      let rest := scale a % scale b
      let bits :=
        if 0 ≤ exponent then nearestBits (rest * twoTo exponent.toNat) 1
        else nearestBits rest (twoTo (-exponent).toNat)
      ofSignBits (isNegative x) bits
  | some _, none => if y.isNaN then y else x
  | none, _ => 0.0 / 0.0

/-- The greatest integer up to which all integers are numbers: `2 ^ 53 - 1`. -/
def maxSafeInteger : Nat := twoTo 53 - 1

/-- The integer that a number is, if it is one and is in the safe range. -/
def safeInteger? (x : Float) : Option Int :=
  match magnitude? x with
  | none => none
  | some m =>
    let whole? : Option Nat :=
      if 0 ≤ m.exponent then some (m.significand * twoTo m.exponent.toNat)
      else if m.significand % twoTo (-m.exponent).toNat = 0 then
        some (m.significand / twoTo (-m.exponent).toNat)
      else none
    match whole? with
    | none => none
    | some n =>
      if n ≤ maxSafeInteger then some (if isNegative x then -n else n)
      else none

end Binary64

end TypedScript
