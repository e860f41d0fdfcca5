import Mathlib.Algebra.Order.Field.Power
import Mathlib.Data.Nat.Log
import Mathlib.Data.Rat.Cast.Order
import Mathlib.Tactic.FieldSimp
import Mathlib.Tactic.Linarith
import Mathlib.Tactic.Qify
import Mathlib.Tactic.Ring
import TypedScript.Decimal

/-!
# Rounding to the nearest number

A magnitude stands for the fraction `significand * 2 ^ exponent`, and a finite number has
it in one form only: with 53 bits, or fewer at the least exponent
(`Magnitude.IsCanonical`). The reals that round to it reach half way to its neighbours.
`Decimal.Interval.around` has these ends in units of `2 ^ (exponent - 2)`, and
`Interval.Contains` says of a fraction that it lies between them, or on one of them if the
significand is even.

Rounding starts from the fraction alone. `exponentFor_fits` says which exponent it picks,
and `roundHalfEven_eq` which significand it finds there. A fraction within the interval
around a magnitude gets the exponent of the magnitude, and then its significand as well.
There is one exception: just below a power of two the exponent is one less, the
significand is carried to `2 ^ 53`, and that is the same pattern. So every fraction of the
interval rounds to the magnitude (`nearestBits_of_contains`).
-/

namespace TypedScript

/-! ### Powers -/

@[simp] theorem twoTo_eq (k : Nat) : twoTo k = 2 ^ k :=
  rfl

@[simp] theorem tenTo_eq (k : Nat) : tenTo k = 10 ^ k :=
  rfl

/-- A power with an integer exponent as a fraction of two powers with natural ones. -/
theorem zpow_eq_div_toNat {b : ℚ} (hb : b ≠ 0) (k : ℤ) :
    b ^ k = b ^ k.toNat / b ^ (-k).toNat := by
  rw [← zpow_natCast, ← zpow_natCast, ← zpow_sub₀ hb]
  congr 1
  omega

theorem two_zpow_pos (k : ℤ) : (0 : ℚ) < 2 ^ k :=
  zpow_pos two_pos k

theorem two_zpow_succ (k : ℤ) : (2 : ℚ) ^ (k + 1) = 2 * 2 ^ k := by
  rw [zpow_add_one₀ two_ne_zero, mul_comm]

/-! ### Magnitudes and the intervals around them -/

namespace Magnitude

/-- The fraction that a magnitude stands for. -/
def value (m : Magnitude) : ℚ :=
  m.significand * 2 ^ m.exponent

/-- The form in which a finite number has its magnitude: the significand has 53 bits, or
fewer at the least exponent. -/
structure IsCanonical (m : Magnitude) : Prop where
  significand_lt : m.significand < 2 ^ 53
  least_le : -1074 ≤ m.exponent
  full : -1074 < m.exponent → 2 ^ 52 ≤ m.significand

/-- Whether a magnitude stands in front of another one: exponents are compared first. -/
def Precedes (a b : Magnitude) : Prop :=
  a.exponent < b.exponent ∨ a.exponent = b.exponent ∧ a.significand < b.significand

end Magnitude

namespace Decimal

/-- The fraction that a decimal stands for. -/
def value (d : Decimal) : ℚ :=
  d.digits * 10 ^ d.exponent

namespace Interval

/-- The lower end. -/
def lower (i : Interval) : ℚ :=
  i.low * 2 ^ i.unitExponent

/-- The upper end. -/
def upper (i : Interval) : ℚ :=
  i.high * 2 ^ i.unitExponent

/-- A fraction lies in an interval: between the ends, and on one of them only if they
belong to it. -/
structure Contains (i : Interval) (v : ℚ) : Prop where
  lower_le : i.lower ≤ v
  le_upper : v ≤ i.upper
  inside : i.closed = false → i.lower < v ∧ v < i.upper

theorem contains_iff {i : Interval} {v : ℚ} :
    i.Contains v ↔
      if i.closed then i.lower ≤ v ∧ v ≤ i.upper else i.lower < v ∧ v < i.upper := by
  split
  · next hclosed =>
    exact ⟨fun h => ⟨h.lower_le, h.le_upper⟩,
      fun h => ⟨h.1, h.2, fun hopen => by simp [hopen] at hclosed⟩⟩
  · next hclosed =>
    exact ⟨fun h => h.inside (by simpa using hclosed), fun h => ⟨h.1.le, h.2.le, fun _ => h⟩⟩

variable {m : Magnitude}

/-- A quarter of the unit of a magnitude is the unit of its interval. -/
theorem quarter_unit (e : ℤ) : (2 : ℚ) ^ (e - 2) = 2 ^ e / 4 := by
  rw [zpow_sub₀ two_ne_zero]
  norm_num

theorem upper_around (m : Magnitude) :
    (around m).upper = (m.significand + 1 / 2) * 2 ^ m.exponent := by
  have hhigh : ((around m).high : ℚ) = 4 * m.significand + 2 := by
    simp [around]
  rw [upper, hhigh, show (around m).unitExponent = m.exponent - 2 from rfl, quarter_unit]
  ring

/-- Just below a power of two the lower end is at a quarter of the unit. -/
theorem lower_around_of_power (hs : m.significand = 2 ^ 52) (he : -1074 < m.exponent) :
    (around m).lower = (m.significand - 1 / 4) * 2 ^ m.exponent := by
  have hlow : ((around m).low : ℚ) = 4 * m.significand - 1 := by
    have hnat : (around m).low = 4 * m.significand - 1 := by
      simp [around, hs, Binary64.leastExponent, he]
    rw [hnat, Nat.cast_sub (by omega)]
    push_cast
    ring
  rw [lower, hlow, show (around m).unitExponent = m.exponent - 2 from rfl, quarter_unit]
  ring

/-- Elsewhere the lower end is at half a unit. -/
theorem lower_around (hpos : 0 < m.significand)
    (h : ¬ (m.significand = 2 ^ 52 ∧ -1074 < m.exponent)) :
    (around m).lower = (m.significand - 1 / 2) * 2 ^ m.exponent := by
  have hlow : ((around m).low : ℚ) = 4 * m.significand - 2 := by
    have hnat : (around m).low = 4 * m.significand - 2 := by
      unfold around
      dsimp only
      rw [twoTo_eq, Binary64.leastExponent, if_neg h]
    rw [hnat, Nat.cast_sub (by omega)]
    push_cast
    ring
  rw [lower, hlow, show (around m).unitExponent = m.exponent - 2 from rfl, quarter_unit]
  ring

theorem half_le_lower (hpos : 0 < m.significand) :
    (m.significand - 1 / 2) * 2 ^ m.exponent ≤ (around m).lower := by
  have hunit := two_zpow_pos m.exponent
  by_cases h : m.significand = 2 ^ 52 ∧ -1074 < m.exponent
  · rw [lower_around_of_power h.1 h.2]
    gcongr
    norm_num
  · rw [lower_around hpos h]

theorem around_closed (m : Magnitude) : (around m).closed = false ↔ m.significand % 2 = 1 := by
  show decide (m.significand % 2 = 0) = false ↔ _
  rw [decide_eq_false_iff_not]
  omega

end Interval

end Decimal

/-! ### The significand -/

namespace Binary64

open Decimal (Interval)

variable {num den : Nat}

/-- A fraction rounds to an integer that is at most half away from it; on the half way
only to an even one. -/
theorem roundHalfEven_eq {n d s : Nat} (hd : 0 < d) (hlow : 2 * s * d ≤ 2 * n + d)
    (hhigh : 2 * n ≤ 2 * s * d + d)
    (hodd : s % 2 = 1 → 2 * s * d < 2 * n + d ∧ 2 * n < 2 * s * d + d) :
    roundHalfEven n d = s := by
  have hsplit : d * (n / d) + n % d = n := Nat.div_add_mod n d
  have hrest : n % d < d := Nat.mod_lt n hd
  unfold roundHalfEven
  dsimp only
  generalize n / d = q at *
  generalize n % d = r at *
  -- the quotient is the integer below or at the one that is rounded to
  have hq : q = s ∨ q + 1 = s := by
    have hle : q ≤ s := by
      by_contra hlt
      have : d * (s + 1) ≤ d * q := Nat.mul_le_mul_left d (by omega)
      nlinarith
    have hge : s ≤ q + 1 := by
      by_contra hlt
      have : d * (q + 2) ≤ d * s := Nat.mul_le_mul_left d (by omega)
      nlinarith
    omega
  rcases hq with rfl | rfl
  · have hhalf : 2 * r ≤ d := by nlinarith
    have hstrict : q % 2 = 1 → 2 * r < d := fun h => by nlinarith [(hodd h).2]
    rw [if_neg]
    omega
  · have hhalf : d ≤ 2 * r := by nlinarith
    have hstrict : (q + 1) % 2 = 1 → d < 2 * r := fun h => by nlinarith [(hodd h).1]
    rw [if_pos]
    omega

theorem inUnits_den_pos (num : Nat) (hden : 0 < den) (e : ℤ) : 0 < (inUnits num den e).2 := by
  unfold inUnits
  split
  · exact Nat.mul_pos hden (Nat.two_pow_pos _)
  · exact hden

/-- A fraction in units of a power of two. -/
theorem inUnits_ratio (hden : 0 < den) (e : ℤ) :
    ((inUnits num den e).1 : ℚ) / (inUnits num den e).2 * 2 ^ e = num / den := by
  have hdenQ : (den : ℚ) ≠ 0 := by exact_mod_cast hden.ne'
  have htwo : ∀ k : Nat, (2 : ℚ) ^ k ≠ 0 := fun k => pow_ne_zero k two_ne_zero
  rw [zpow_eq_div_toNat two_ne_zero]
  unfold inUnits
  split
  · next he =>
    rw [show (-e).toNat = 0 by omega]
    push_cast [twoTo_eq]
    field_simp [htwo]
  · next he =>
    rw [show e.toNat = 0 by omega]
    push_cast [twoTo_eq]
    field_simp [htwo]

/-- The integer part of a fraction in units is below a bound where the fraction is. -/
theorem inUnits_div_lt (num : Nat) (hden : 0 < den) (e : ℤ) (bound : Nat) :
    (inUnits num den e).1 / (inUnits num den e).2 < bound ↔
      (num / den : ℚ) < bound * 2 ^ e := by
  have hd : (0 : ℚ) < (inUnits num den e).2 := by exact_mod_cast inUnits_den_pos num hden e
  rw [← inUnits_ratio hden e, mul_lt_mul_iff_of_pos_right (two_zpow_pos e), div_lt_iff₀ hd,
    Nat.div_lt_iff_lt_mul (inUnits_den_pos num hden e)]
  exact_mod_cast Iff.rfl

/-- A fraction at most half a unit away from `s` has the significand `s`; half a unit away
only if `s` is even. -/
theorem roundHalfEven_inUnits {s : Nat} (hden : 0 < den) (e : ℤ)
    (hlow : (s - 1 / 2) * 2 ^ e ≤ (num / den : ℚ)) (hhigh : (num / den : ℚ) ≤ (s + 1 / 2) * 2 ^ e)
    (hodd : s % 2 = 1 → (s - 1 / 2) * 2 ^ e < (num / den : ℚ) ∧
      (num / den : ℚ) < (s + 1 / 2) * 2 ^ e) :
    roundHalfEven (inUnits num den e).1 (inUnits num den e).2 = s := by
  have hunit := two_zpow_pos e
  have hpos := inUnits_den_pos num hden e
  have hd : (0 : ℚ) < (inUnits num den e).2 := by exact_mod_cast hpos
  rw [← inUnits_ratio hden e] at hlow hhigh hodd
  generalize (inUnits num den e).1 = n at *
  generalize (inUnits num den e).2 = d at *
  rw [mul_le_mul_iff_of_pos_right hunit, le_div_iff₀ hd] at hlow
  rw [mul_le_mul_iff_of_pos_right hunit, div_le_iff₀ hd] at hhigh
  rw [mul_lt_mul_iff_of_pos_right hunit, mul_lt_mul_iff_of_pos_right hunit, lt_div_iff₀ hd,
    div_lt_iff₀ hd] at hodd
  refine roundHalfEven_eq hpos ?_ ?_ fun h => ⟨?_, ?_⟩ <;> qify
  · linarith
  · linarith
  · linarith [(hodd h).1]
  · linarith [(hodd h).2]

/-! ### The exponent -/

/-- An exponent fits a fraction that has 53 bits at it, or fewer at the least exponent. -/
structure Fits (e : ℤ) (v : ℚ) : Prop where
  least_le : -1074 ≤ e
  lt : v < 2 ^ 53 * 2 ^ e
  full : -1074 < e → 2 ^ 52 * 2 ^ e ≤ v

/-- The lengths of numerator and denominator give a fraction up to a factor of four. -/
theorem ratio_bounds (hnum : 0 < num) (hden : 0 < den) :
    (2 : ℚ) ^ ((num.log2 : ℤ) - den.log2 - 1) < num / den ∧
      (num / den : ℚ) < 2 ^ ((num.log2 : ℤ) - den.log2 + 1) := by
  have hdenQ : (0 : ℚ) < den := by exact_mod_cast hden
  have hnumlow : (2 : ℚ) ^ num.log2 ≤ num := by exact_mod_cast Nat.log2_self_le hnum.ne'
  have hnumhigh : (num : ℚ) < 2 ^ (num.log2 + 1) := by exact_mod_cast Nat.lt_log2_self
  have hdenlow : (2 : ℚ) ^ den.log2 ≤ den := by exact_mod_cast Nat.log2_self_le hden.ne'
  have hdenhigh : (den : ℚ) < 2 ^ (den.log2 + 1) := by exact_mod_cast Nat.lt_log2_self
  constructor
  · rw [lt_div_iff₀ hdenQ]
    calc (2 : ℚ) ^ ((num.log2 : ℤ) - den.log2 - 1) * den
        < 2 ^ ((num.log2 : ℤ) - den.log2 - 1) * 2 ^ (den.log2 + 1) :=
          mul_lt_mul_of_pos_left hdenhigh (two_zpow_pos _)
      _ = 2 ^ num.log2 := by
          rw [← zpow_natCast, ← zpow_natCast, ← zpow_add₀ two_ne_zero]
          congr 1
          push_cast
          ring
      _ ≤ num := hnumlow
  · rw [div_lt_iff₀ hdenQ]
    calc (num : ℚ) < 2 ^ (num.log2 + 1) := hnumhigh
      _ = 2 ^ ((num.log2 : ℤ) - den.log2 + 1) * 2 ^ den.log2 := by
          rw [← zpow_natCast, ← zpow_natCast, ← zpow_add₀ two_ne_zero]
          congr 1
          push_cast
          ring
      _ ≤ 2 ^ ((num.log2 : ℤ) - den.log2 + 1) * den :=
          mul_le_mul_of_nonneg_left hdenlow (two_zpow_pos _).le

/-- The exponent that is picked for a fraction fits it. -/
theorem exponentFor_fits (hnum : 0 < num) (hden : 0 < den) :
    Fits (exponentFor num den) (num / den) := by
  obtain ⟨hlow, hhigh⟩ := ratio_bounds hnum hden
  generalize hlength : (num.log2 : ℤ) - den.log2 = length at *
  -- the first guess leaves 53 or 54 bits
  have hguess : exponentFor num den =
      if (inUnits num den (max (-1074) (length - 53))).1 /
          (inUnits num den (max (-1074) (length - 53))).2 < 2 ^ 53 then
        max (-1074) (length - 53)
      else max (-1074) (length - 53) + 1 := by
    rw [← hlength]
    rfl
  rw [hguess]
  generalize hg : max (-1074) (length - 53) = guess
  have hbound := inUnits_div_lt num hden guess (2 ^ 53)
  push_cast at hbound
  have h52 : (2 : ℚ) ^ (length - 1) = 2 ^ 52 * 2 ^ (length - 53) := by
    rw [← zpow_natCast, ← zpow_add₀ two_ne_zero]
    congr 1
    push_cast
    ring
  have h54 : (2 : ℚ) ^ (length + 1) = 2 ^ 54 * 2 ^ (length - 53) := by
    rw [← zpow_natCast, ← zpow_add₀ two_ne_zero]
    congr 1
    push_cast
    ring
  split
  · next hlt =>
    refine ⟨by omega, hbound.mp hlt, fun hless => ?_⟩
    rw [show guess = length - 53 by omega, ← h52]
    exact hlow.le
  · next hge =>
    refine ⟨by omega, ?_, fun _ => ?_⟩
    · calc (num / den : ℚ) < 2 ^ 54 * 2 ^ (length - 53) := h54 ▸ hhigh
        _ ≤ 2 ^ 54 * 2 ^ guess :=
            mul_le_mul_of_nonneg_left (zpow_le_zpow_right₀ one_le_two (by omega)) (by norm_num)
        _ = 2 ^ 53 * 2 ^ (guess + 1) := by
            rw [two_zpow_succ]
            ring
    · rw [two_zpow_succ]
      linarith [not_lt.mp (mt hbound.mpr hge)]

/-! ### The nearest number -/

theorem nearestBits_eq (num den : Nat) :
    nearestBits num den =
      bitsOf ⟨roundHalfEven (inUnits num den (exponentFor num den)).1
        (inUnits num den (exponentFor num den)).2, exponentFor num den⟩ :=
  rfl

/-- A significand that is carried makes the pattern of the next power of two. -/
theorem bitsOf_carry {e : ℤ} (he : -1074 ≤ e) :
    bitsOf ⟨2 ^ 53, e⟩ = bitsOf ⟨2 ^ 52, e + 1⟩ := by
  have hplaces : (e + 1 - leastExponent).toNat = (e - leastExponent).toNat + 1 := by
    unfold leastExponent
    omega
  have hcarry (k : Nat) : (k + 1) * 2 ^ 52 + 2 ^ 52 = k * 2 ^ 52 + 2 ^ 53 := by ring
  unfold bitsOf
  dsimp only
  rw [twoTo_eq, hplaces, hcarry, if_neg (by norm_num), if_neg (by norm_num)]

section Nearest

variable {m : Magnitude}

theorem half_le_of_contains (hpos : 0 < m.significand) {v : ℚ}
    (h : (Interval.around m).Contains v) :
    (m.significand - 1 / 2) * 2 ^ m.exponent ≤ v ∧ v ≤ (m.significand + 1 / 2) * 2 ^ m.exponent :=
  ⟨(Interval.half_le_lower hpos).trans h.lower_le, Interval.upper_around m ▸ h.le_upper⟩

/-- At the exponent of the magnitude a fraction of the interval has its significand. -/
theorem roundHalfEven_of_contains (hpos : 0 < m.significand) (hden : 0 < den)
    (h : (Interval.around m).Contains (num / den)) :
    roundHalfEven (inUnits num den m.exponent).1 (inUnits num den m.exponent).2 =
      m.significand := by
  obtain ⟨hlow, hhigh⟩ := half_le_of_contains hpos h
  refine roundHalfEven_inUnits hden _ hlow hhigh fun hodd => ?_
  obtain ⟨hlow', hhigh'⟩ := h.inside ((Interval.around_closed m).mpr hodd)
  rw [Interval.upper_around] at hhigh'
  exact ⟨(Interval.half_le_lower hpos).trans_lt hlow', hhigh'⟩

/-- No greater exponent fits a fraction of the interval. -/
theorem Fits.le_of_contains {e : ℤ} {v : ℚ} (hfits : Fits e v) (hm : m.IsCanonical)
    (hpos : 0 < m.significand) (h : (Interval.around m).Contains v) : e ≤ m.exponent := by
  by_contra hmore
  have hhigh := (half_le_of_contains hpos h).2
  have hunit := two_zpow_pos m.exponent
  have hlt : (m.significand : ℚ) + 1 ≤ 2 ^ 53 := by exact_mod_cast hm.significand_lt
  have hdouble : 2 * (2 : ℚ) ^ m.exponent ≤ 2 ^ e := by
    rw [← two_zpow_succ]
    exact zpow_le_zpow_right₀ one_le_two (by omega)
  have hfull := hfits.full (by have := hm.least_le; omega)
  nlinarith

/-- A lesser exponent fits only just below a power of two, and is one less. -/
theorem Fits.below_power {e : ℤ} {v : ℚ} (hfits : Fits e v) (hm : m.IsCanonical)
    (h : (Interval.around m).Contains v) (hless : e < m.exponent) :
    m.significand = 2 ^ 52 ∧ -1074 < m.exponent ∧ e = m.exponent - 1 := by
  have hleast : -1074 < m.exponent := by have := hfits.least_le; omega
  have hfull := hm.full hleast
  have hunit := two_zpow_pos m.exponent
  have hlow := (half_le_of_contains (by omega) h).1
  have hhalf : (2 : ℚ) ^ m.exponent = 2 * 2 ^ (m.exponent - 1) := by
    rw [← two_zpow_succ, sub_add_cancel]
  have hbelow : (2 : ℚ) ^ e ≤ 2 ^ (m.exponent - 1) := zpow_le_zpow_right₀ one_le_two (by omega)
  have hpower : m.significand = 2 ^ 52 := by
    have hlt : (m.significand : ℚ) < (2 ^ 52 + 1 : Nat) := by
      push_cast
      nlinarith [hfits.lt]
    have := Nat.cast_lt.mp hlt
    omega
  refine ⟨hpower, hleast, ?_⟩
  by_contra hne
  have hquarter : (2 : ℚ) ^ e ≤ 2 ^ (m.exponent - 2) := zpow_le_zpow_right₀ one_le_two (by omega)
  rw [Interval.quarter_unit] at hquarter
  rw [hpower] at hlow
  push_cast at hlow
  nlinarith [hfits.lt]

/-- Just below a power of two the significand is carried. -/
theorem roundHalfEven_below_power (hs : m.significand = 2 ^ 52) (he : -1074 < m.exponent)
    (hden : 0 < den) (h : (Interval.around m).Contains (num / den))
    (hfits : Fits (m.exponent - 1) (num / den)) :
    roundHalfEven (inUnits num den (m.exponent - 1)).1 (inUnits num den (m.exponent - 1)).2 =
      2 ^ 53 := by
  have hlow := h.lower_le
  have hunit := two_zpow_pos (m.exponent - 1)
  have hhalf : (2 : ℚ) ^ m.exponent = 2 * 2 ^ (m.exponent - 1) := by
    rw [← two_zpow_succ, sub_add_cancel]
  rw [Interval.lower_around_of_power hs he, hs, hhalf] at hlow
  push_cast at hlow
  refine roundHalfEven_inUnits hden _ ?_ ?_ (by norm_num)
  · push_cast
    linarith
  · push_cast
    linarith [hfits.lt]

/-- Every fraction in the interval around a magnitude rounds to the magnitude. -/
theorem nearestBits_of_contains (hm : m.IsCanonical) (hpos : 0 < m.significand)
    (hden : 0 < den) (h : (Interval.around m).Contains (num / den)) :
    nearestBits num den = bitsOf m := by
  have hnum : 0 < num := by
    by_contra hzero
    have hlow := (half_le_of_contains hpos h).1
    have hs : (1 : ℚ) ≤ m.significand := by exact_mod_cast hpos
    rw [show num = 0 by omega, Nat.cast_zero, zero_div] at hlow
    nlinarith [two_zpow_pos m.exponent]
  have hfits := exponentFor_fits hnum hden
  rw [nearestBits_eq]
  generalize exponentFor num den = e at *
  rcases (hfits.le_of_contains hm hpos h).lt_or_eq with hless | rfl
  · obtain ⟨hs, he, rfl⟩ := hfits.below_power hm h hless
    rw [roundHalfEven_below_power hs he hden h hfits, bitsOf_carry (by omega), sub_add_cancel, ← hs]
  · rw [roundHalfEven_of_contains hpos hden h]

end Nearest

end Binary64

end TypedScript
