import TypedScript.Binary64

/-!
# Decimal text of numbers

The text of a number has the fewest digits that read back as the same number,
and of those the digits nearest to it. The search is exact: around a number
`m * 2 ^ q` lies the interval of reals that round to it, and the shortest
decimal is the one on the coarsest grid of multiples of a power of ten that
has a point in that interval. How digits and point are laid out is a matter
of the two formats at the end, and reading a literal is the inverse.

What one definition stands for here:
- `shortest` gives the digits of every printed number, with and without a power
  of ten, and those that a message quotes. The formats lay the digits out and
  never change them.
- An integer in the safe range has no case of its own in `Number.text`. Its
  shortest decimal is the integer, so it is printed as such; that this is so
  is a theorem (`Number.text_of_safeInteger?`).
- The digits are those of the magnitude. The sign is put in front of them, and
  zero is without one only because it is left out there.
-/

namespace TypedScript

/-- A power of ten. -/
def tenTo (k : Nat) : Nat :=
  Nat.pow 10 k

/-- The decimal `digits * 10 ^ exponent`. -/
structure Decimal where
  digits : Nat
  exponent : Int
deriving DecidableEq, Repr

namespace Decimal

/-- The reals that round to a magnitude, in units of `2 ^ unitExponent`: from
`low` to `high` around `middle`. The ends belong to it exactly if the
significand is even. -/
structure Interval where
  low : Nat
  middle : Nat
  high : Nat
  closed : Bool
  unitExponent : Int

/-- The interval that rounds to `m`. It reaches half way to both neighbours;
below a power of two the neighbour is only half as far away. -/
def Interval.around (m : Magnitude) : Interval where
  low := 4 * m.significand -
    (if m.significand = twoTo 52 ∧ Binary64.leastExponent < m.exponent
      then 1 else 2)
  middle := 4 * m.significand
  high := 4 * m.significand + 2
  closed := m.significand % 2 = 0
  unitExponent := m.exponent - 2

/-- What one unit of the interval is on the grid of the multiples of
`10 ^ exponent`, as a fraction. -/
def Interval.unitOnGrid (i : Interval) (exponent : Int) : Nat × Nat :=
  (twoTo i.unitExponent.toNat * tenTo (-exponent).toNat,
   twoTo (-i.unitExponent).toNat * tenTo exponent.toNat)

/-- Whether `digits * 10 ^ exponent` lies in the interval. -/
def Interval.holds (i : Interval) (d : Decimal) : Bool :=
  let (num, den) := i.unitOnGrid d.exponent
  if i.closed then i.low * num ≤ d.digits * den ∧ d.digits * den ≤ i.high * num
  else i.low * num < d.digits * den ∧ d.digits * den < i.high * num

/-- The multiple of `10 ^ exponent` at or just below the middle. -/
def Interval.floorOn (i : Interval) (exponent : Int) : Decimal :=
  let (num, den) := i.unitOnGrid exponent
  ⟨i.middle * num / den, exponent⟩

/-- Whether the middle is at least half way to the next multiple of
`10 ^ exponent`. -/
def Interval.upperHalf (i : Interval) (exponent : Int) : Bool :=
  let (num, den) := i.unitOnGrid exponent
  den ≤ 2 * (i.middle * num % den)

/-- The point of the grid of `10 ^ exponent` in the interval that is nearest
to the middle, if there is one; of two at the same distance the upper one. -/
def Interval.pointOn? (i : Interval) (exponent : Int) : Option Decimal :=
  let below := i.floorOn exponent
  let above : Decimal := ⟨below.digits + 1, exponent⟩
  match i.holds below, i.holds above with
  | true, true => some (if i.upperHalf exponent then above else below)
  | true, false => some below
  | false, true => some above
  | false, false => none

/-- The point on the coarsest grid from `10 ^ exponent` on, going down by at
most `steps` grids. -/
def Interval.coarsest (i : Interval) : (steps : Nat) → (exponent : Int) → Decimal
  | 0, exponent => i.floorOn exponent
  | steps + 1, exponent =>
    match i.pointOn? exponent with
    | some d => d
    | none => i.coarsest steps (exponent - 1)

/-- An exponent of ten above every decimal in the interval around `m`: the
binary exponent times a little more than the logarithm of two. -/
def startExponent (m : Magnitude) : Int :=
  ((m.significand.log2 : Int) + m.exponent + 2) * 30103 / 100000 + 1

/-- The shortest decimal that reads back as `m`, and of those the nearest.
At `10 ^ -1074` every number is itself a point of the grid, so the search
ends there at the latest. -/
def shortest (m : Magnitude) : Decimal :=
  if m.significand = 0 then ⟨0, 0⟩
  else
    let start := startExponent m
    (Interval.around m).coarsest (start + 1074).toNat start

/-- The exponent of ten of the first digit. -/
def leadExponent (d : Decimal) : Int :=
  ((toString d.digits).length : Int) - 1 + d.exponent

/-- A run of zeros. -/
def zeros (count : Nat) : String :=
  String.ofList (List.replicate count '0')

/-- The digits written out around a point, without an exponent. -/
def positional (d : Decimal) : String :=
  let digits := toString d.digits
  if 0 ≤ d.exponent then digits ++ zeros d.exponent.toNat
  else
    let places := (-d.exponent).toNat
    if places < digits.length then
      let (whole, fraction) := digits.toList.splitAt (digits.length - places)
      String.ofList whole ++ "." ++ String.ofList fraction
    else "0." ++ zeros (places - digits.length) ++ digits

/-- One digit before the point and a power of ten with its sign behind. -/
def scientific (d : Decimal) : String :=
  let exponent := d.leadExponent
  let mantissa :=
    match (toString d.digits).toList with
    | lead :: [] => lead.toString
    | lead :: rest => lead.toString ++ "." ++ String.ofList rest
    | [] => ""
  let sign := if exponent < 0 then "-" else "+"
  mantissa ++ "e" ++ sign ++ toString exponent.natAbs

/-- Decimals from `10 ^ -6` up to but without `10 ^ 21` are written out, the
others with a power of ten. -/
def text (d : Decimal) : String :=
  if d.digits = 0 ∨ (-6 ≤ d.leadExponent ∧ d.leadExponent < 21) then d.positional
  else d.scientific

/-- The value of a run of digits. -/
def valueOfDigits (digits : List Char) : Nat :=
  digits.foldl (fun value c => 10 * value + (c.toNat - '0'.toNat)) 0

/-- The decimal that a literal of digits with an optional fraction denotes. -/
def ofLiteral (literal : List Char) : Decimal :=
  let whole := literal.takeWhile (· ≠ '.')
  let fraction := (literal.dropWhile (· ≠ '.')).drop 1
  ⟨valueOfDigits (whole ++ fraction), -(fraction.length : Int)⟩

/-- The number nearest to a decimal. -/
def nearest (d : Decimal) : Float :=
  Binary64.nearest (d.digits * tenTo d.exponent.toNat) (tenTo (-d.exponent).toNat)

end Decimal

namespace Number

/-- How a running program prints a number: zero without its sign, and the
infinities by name. -/
def text (x : Float) : String :=
  match Binary64.magnitude? x with
  | none =>
    if x.isNaN then "NaN"
    else if Binary64.isNegative x then "-Infinity" else "Infinity"
  | some m =>
    let sign := if m.significand ≠ 0 ∧ Binary64.isNegative x then "-" else ""
    sign ++ (Decimal.shortest m).text

/-- How a message quotes a number of the source: the sign is kept also on
zero, and there is never a power of ten. -/
def literalText (x : Float) : String :=
  match Binary64.magnitude? x with
  | none =>
    if x.isNaN then "NaN" else if Binary64.isNegative x then "-inf" else "inf"
  | some m =>
    (if Binary64.isNegative x then "-" else "") ++ (Decimal.shortest m).positional

end Number

end TypedScript
