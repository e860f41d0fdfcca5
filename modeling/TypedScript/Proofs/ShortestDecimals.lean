import Mathlib.Tactic.Positivity
import TypedScript.Proofs.Rounding

/-!
# The shortest decimal of a number

The search for the shortest decimal goes down from a coarse grid of multiples of a power of
ten, and takes a point only where it lies in the interval that rounds to the number. At the
end of the search every number is itself a point of the grid, so it never comes back with
a point outside (`shortest_contains`). That the grid is left early is what makes the decimal
short; for reading it back it does not matter where.

An integer below `2 ^ 53` is the only one in its interval, so its shortest decimal is that
integer with the zeros at its end taken off (`shortest_of_integer`).

The intervals around two different numbers lie apart, in the order of the numbers
(`upper_le_lower`). So the decimal of a number between two others keeps to its place
between the ends of their intervals. Its first digit stands where its value says
(`leadExponent_bounds`), and with `10 ^ -6` and `10 ^ 21` for the two others this decides
between the two formats (`text_shortest`).
-/

namespace TypedScript

namespace Decimal

variable {m : Magnitude}

/-! ### Points of a grid -/

namespace Interval

variable {i : Interval}

/-- Units of the interval and points of a grid have a common measure. -/
theorem exists_measure (i : Interval) (e : ℤ) :
    ∃ c : ℚ, 0 < c ∧
      (∀ units : Nat, (units * 2 ^ i.unitExponent : ℚ) = (units * (i.unitOnGrid e).1 : Nat) * c) ∧
      ∀ digits : Nat, (digits * 10 ^ e : ℚ) = (digits * (i.unitOnGrid e).2 : Nat) * c := by
  have htwo : ∀ k : Nat, (2 : ℚ) ^ k ≠ 0 := fun k => pow_ne_zero k two_ne_zero
  have hten : ∀ k : Nat, (10 : ℚ) ^ k ≠ 0 := fun k => pow_ne_zero k (by norm_num)
  refine ⟨1 / (2 ^ (-i.unitExponent).toNat * 10 ^ (-e).toNat), by positivity, fun units => ?_,
    fun digits => ?_⟩
  · rw [zpow_eq_div_toNat two_ne_zero]
    unfold unitOnGrid
    push_cast [twoTo_eq, tenTo_eq]
    field_simp [htwo, hten]
  · rw [zpow_eq_div_toNat (by norm_num : (10 : ℚ) ≠ 0)]
    unfold unitOnGrid
    push_cast [twoTo_eq, tenTo_eq]
    field_simp [htwo, hten]

/-- The check of a decimal says whether its value lies in the interval. -/
theorem holds_iff (i : Interval) (d : Decimal) : i.holds d = true ↔ i.Contains d.value := by
  obtain ⟨c, hc, hunits, hpoint⟩ := i.exists_measure d.exponent
  rw [contains_iff, lower, upper, value, hunits, hunits, hpoint]
  simp only [mul_le_mul_iff_of_pos_right hc, mul_lt_mul_iff_of_pos_right hc, Nat.cast_le,
    Nat.cast_lt]
  unfold holds
  cases i.closed <;> simp

/-- A point that the search takes lies in the interval. -/
theorem holds_of_pointOn? {e : ℤ} {d : Decimal} (h : i.pointOn? e = some d) :
    i.holds d = true := by
  unfold pointOn? at h
  dsimp only at h
  split at h
  · next hbelow habove =>
    cases h
    split
    · exact habove
    · exact hbelow
  · next hbelow _ =>
    cases h
    exact hbelow
  · next _ habove =>
    cases h
    exact habove
  · cases h

theorem exponent_of_pointOn? {e : ℤ} {d : Decimal} (h : i.pointOn? e = some d) :
    d.exponent = e := by
  unfold pointOn? at h
  dsimp only at h
  split at h
  · cases h
    split <;> rfl
  · cases h
    rfl
  · cases h
    rfl
  · cases h

/-- The search does not go on below a grid that has a point. -/
theorem exponent_coarsest_ge {steps : Nat} {e last : ℤ} (hpoint : (i.pointOn? last).isSome)
    (hle : last ≤ e) (hsteps : e - steps ≤ last) : last ≤ (i.coarsest steps e).exponent := by
  induction steps generalizing e with
  | zero => exact hle
  | succ steps ih =>
    unfold coarsest
    split
    · next d hd => rwa [exponent_of_pointOn? hd]
    · next hnone =>
      have hne : last ≠ e := by
        rintro rfl
        rw [hnone] at hpoint
        cases hpoint
      exact ih (by omega) (by push_cast at hsteps; omega)

/-- The search ends with a point of the interval if the point at its end is one. -/
theorem holds_coarsest {steps : Nat} {e : ℤ} (hend : i.holds (i.floorOn (e - steps)) = true) :
    i.holds (i.coarsest steps e) = true := by
  induction steps generalizing e with
  | zero =>
    rw [Nat.cast_zero, sub_zero] at hend
    exact hend
  | succ steps ih =>
    unfold coarsest
    split
    · next d hpoint => exact holds_of_pointOn? hpoint
    · refine ih ?_
      rw [show e - 1 - (steps : ℤ) = e - (steps + 1 : Nat) by push_cast; ring]
      exact hend

end Interval

/-! ### The search -/

/-- A magnitude lies in the interval around it. -/
theorem contains_value (m : Magnitude) (hpos : 0 < m.significand) :
    (Interval.around m).Contains m.value := by
  have hunit := two_zpow_pos m.exponent
  have hlower : (Interval.around m).lower < m.value := by
    unfold Magnitude.value
    by_cases h : m.significand = 2 ^ 52 ∧ -1074 < m.exponent
    · rw [Interval.lower_around_of_power h.1 h.2]
      linarith
    · rw [Interval.lower_around hpos h]
      linarith
  have hupper : m.value < (Interval.around m).upper := by
    rw [Interval.upper_around, Magnitude.value]
    linarith
  exact ⟨hlower.le, hupper.le, fun _ => ⟨hlower, hupper⟩⟩

theorem two_pow_dvd {k n : Nat} (h : k ≤ n + 2) : 2 ^ k ∣ 4 * 10 ^ n := by
  have htwo : 2 ^ (n + 2) = 4 * 2 ^ n := by ring
  refine (Nat.pow_dvd_pow 2 h).trans ?_
  rw [htwo]
  exact Nat.mul_dvd_mul_left 4 (pow_dvd_pow_of_dvd (by norm_num) n)

/-- On a grid that is fine enough a magnitude is itself a point. -/
theorem value_floorOn {places : Nat} (h : -(places : ℤ) ≤ m.exponent) :
    ((Interval.around m).floorOn (-places)).value = m.value := by
  obtain ⟨c, -, hunits, hpoint⟩ := (Interval.around m).exists_measure (-places)
  have hdvd : ((Interval.around m).unitOnGrid (-places)).2 ∣
      (Interval.around m).middle * ((Interval.around m).unitOnGrid (-places)).1 := by
    show 2 ^ (-(m.exponent - 2)).toNat * 10 ^ (-(places : ℤ)).toNat ∣
      4 * m.significand * (2 ^ (m.exponent - 2).toNat * 10 ^ (- -(places : ℤ)).toNat)
    rw [show (-(places : ℤ)).toNat = 0 by omega, show (- -(places : ℤ)).toNat = places by omega,
      pow_zero, mul_one]
    have hten : 2 ^ (-(m.exponent - 2)).toNat ∣ 4 * 10 ^ places := two_pow_dvd (by omega)
    refine hten.trans ⟨m.significand * 2 ^ (m.exponent - 2).toNat, ?_⟩
    ring
  show ((((Interval.around m).middle * ((Interval.around m).unitOnGrid (-places)).1 /
    ((Interval.around m).unitOnGrid (-places)).2 : Nat) : ℚ) * 10 ^ (-(places : ℤ))) = _
  rw [hpoint, Nat.div_mul_cancel hdvd, ← hunits]
  show ((4 * m.significand : Nat) : ℚ) * 2 ^ (m.exponent - 2) = m.significand * 2 ^ m.exponent
  rw [Interval.quarter_unit]
  push_cast
  ring

/-- The shortest decimal of a magnitude lies in the interval around it. -/
theorem shortest_contains (hm : m.IsCanonical) (hpos : 0 < m.significand) :
    (Interval.around m).Contains (shortest m).value := by
  have hstart : -1074 ≤ startExponent m := by
    unfold startExponent
    have := hm.least_le
    omega
  rw [← Interval.holds_iff, shortest, if_neg hpos.ne']
  refine Interval.holds_coarsest ?_
  rw [show startExponent m - ((startExponent m + 1074).toNat : ℤ) = -(1074 : Nat) by omega,
    Interval.holds_iff, value_floorOn hm.least_le]
  exact contains_value m hpos

/-! ### Integers -/

/-- A decimal with the value of a magnitude is the point of its grid. -/
theorem floorOn_of_value {d : Decimal} (h : d.value = m.value) :
    (Interval.around m).floorOn d.exponent = d := by
  obtain ⟨c, hc, hunits, hpoint⟩ := (Interval.around m).exists_measure d.exponent
  have hmiddle : ((Interval.around m).middle * 2 ^ (Interval.around m).unitExponent : ℚ) =
      d.digits * 10 ^ d.exponent := by
    show ((4 * m.significand : Nat) : ℚ) * 2 ^ (m.exponent - 2) = d.value
    rw [h, Interval.quarter_unit, Magnitude.value]
    push_cast
    ring
  rw [hunits, hpoint] at hmiddle
  have hgrid := Nat.cast_injective (R := ℚ) (mul_right_cancel₀ hc.ne' hmiddle)
  have hden : 0 < ((Interval.around m).unitOnGrid d.exponent).2 := by
    refine Nat.pos_of_ne_zero fun hzero => ?_
    have hone := hpoint 1
    rw [hzero, Nat.mul_zero, Nat.cast_zero, zero_mul, Nat.cast_one, one_mul] at hone
    exact zpow_ne_zero _ (by norm_num) hone
  have hdigits : (Interval.around m).middle * ((Interval.around m).unitOnGrid d.exponent).1 /
      ((Interval.around m).unitOnGrid d.exponent).2 = d.digits := by
    rw [hgrid, Nat.mul_div_cancel _ hden]
  exact congrArg (fun digits => (⟨digits, d.exponent⟩ : Decimal)) hdigits

theorem pos_of_value {n : Nat} (hpos : 0 < m.significand) (hvalue : m.value = n) : 0 < n := by
  have hn : (0 : ℚ) < n := hvalue ▸ mul_pos (by exact_mod_cast hpos) (two_zpow_pos _)
  exact_mod_cast hn

section Integers

variable {n : Nat} (hm : m.IsCanonical) (hpos : 0 < m.significand) (hvalue : m.value = n)
  (hlt : n < 2 ^ 53)
include hm hvalue hlt

/-- The unit of an integer below `2 ^ 53` is one at most. -/
theorem exponent_le_zero : m.exponent ≤ 0 := by
  by_contra hexponent
  have hfull : (2 ^ 52 : ℚ) ≤ m.significand := by exact_mod_cast hm.full (by omega)
  have htwo : (2 : ℚ) ^ (1 : ℤ) ≤ 2 ^ m.exponent := zpow_le_zpow_right₀ one_le_two (by omega)
  have hltQ : (n : ℚ) < 2 ^ 53 := by exact_mod_cast hlt
  rw [← hvalue, Magnitude.value] at hltQ
  rw [zpow_one] at htwo
  nlinarith

include hpos

/-- No other integer lies in the interval around one below `2 ^ 53`. -/
theorem eq_of_contains {k : Nat} (h : (Interval.around m).Contains k) : k = n := by
  have hunit : (2 : ℚ) ^ m.exponent ≤ 2 ^ (0 : ℤ) :=
    zpow_le_zpow_right₀ one_le_two (exponent_le_zero hm hvalue hlt)
  rw [zpow_zero] at hunit
  have hupper := h.le_upper
  have hlower := (Interval.half_le_lower hpos).trans h.lower_le
  rw [Interval.upper_around] at hupper
  rw [Magnitude.value] at hvalue
  have hless : (k : ℚ) < n + 1 := by linarith
  have hmore : (n : ℚ) < k + 1 := by linarith
  have hless' : k < n + 1 := by exact_mod_cast hless
  have hmore' : n < k + 1 := by exact_mod_cast hmore
  omega

/-- The shortest decimal of an integer below `2 ^ 53` is that integer: the grid of the integers
has it as its only point in the interval, so the search stops there or on a coarser grid. -/
theorem shortest_of_integer : ∃ places : Nat,
    (shortest m).exponent = places ∧ (shortest m).digits * 10 ^ places = n := by
  have hexponent := exponent_le_zero hm hvalue hlt
  have hn := pos_of_value hpos hvalue
  have hstart : 0 ≤ startExponent m := by
    have hbits : 2 ^ (-m.exponent).toNat ≤ m.significand := by
      have hscale : (m.significand : ℚ) = n * 2 ^ (-m.exponent).toNat := by
        rw [← hvalue, Magnitude.value, ← zpow_natCast, show ((-m.exponent).toNat : ℤ) = -m.exponent
          by omega, mul_assoc, ← zpow_add₀ two_ne_zero, add_neg_cancel, zpow_zero, mul_one]
      have hscaleN : m.significand = n * 2 ^ (-m.exponent).toNat := by exact_mod_cast hscale
      rw [hscaleN]
      exact Nat.le_mul_of_pos_left _ hn
    have hlog := (Nat.le_log2 hpos.ne').mpr hbits
    unfold startExponent
    omega
  have hpoint : ((Interval.around m).pointOn? 0).isSome := by
    have hfloor : (Interval.around m).floorOn 0 = ⟨n, 0⟩ :=
      floorOn_of_value (d := ⟨n, 0⟩) (by rw [hvalue, value, zpow_zero, mul_one])
    have hholds : (Interval.around m).holds ((Interval.around m).floorOn 0) = true := by
      rw [hfloor, Interval.holds_iff, value, zpow_zero, mul_one, ← hvalue]
      exact contains_value m hpos
    unfold Interval.pointOn?
    dsimp only
    rw [hholds]
    cases (Interval.around m).holds _ <;> rfl
  have hnonneg : 0 ≤ (shortest m).exponent := by
    rw [shortest, if_neg hpos.ne']
    exact Interval.exponent_coarsest_ge hpoint hstart (by omega)
  refine ⟨(shortest m).exponent.toNat, by omega, ?_⟩
  refine eq_of_contains hm hpos hvalue hlt ?_
  have hcontains := shortest_contains hm hpos
  rw [value, show (shortest m).exponent = ((shortest m).exponent.toNat : ℤ) by omega,
    zpow_natCast] at hcontains
  exact_mod_cast hcontains

end Integers

/-! ### The order of the intervals -/

/-- The intervals around two magnitudes lie apart, in the order of the magnitudes. -/
theorem upper_le_lower {a b : Magnitude} (ha : a.IsCanonical) (hb : b.IsCanonical)
    (h : a.Precedes b) :
    (Interval.around a).upper ≤ (Interval.around b).lower := by
  have hunit := two_zpow_pos a.exponent
  rw [Interval.upper_around]
  rcases h with hexponent | ⟨hexponent, hless⟩
  · have hleast : -1074 < b.exponent := by have := ha.least_le; omega
    have hfull : (2 ^ 52 : ℚ) ≤ b.significand := by exact_mod_cast hb.full hleast
    have hlt : (a.significand : ℚ) + 1 ≤ 2 ^ 53 := by exact_mod_cast ha.significand_lt
    have hdouble : 2 * (2 : ℚ) ^ a.exponent ≤ 2 ^ b.exponent := by
      rw [← two_zpow_succ]
      exact zpow_le_zpow_right₀ one_le_two hexponent
    by_cases hpower : b.significand = 2 ^ 52
    · rw [Interval.lower_around_of_power hpower hleast, hpower]
      push_cast
      nlinarith
    · have hless : 2 ^ 52 + 1 ≤ b.significand := by have := hb.full hleast; omega
      have hmore : (2 ^ 52 : ℚ) + 1 ≤ b.significand := by exact_mod_cast hless
      have hhalf := Interval.half_le_lower (m := b) (by omega)
      nlinarith
  · have hhalf := Interval.half_le_lower (m := b) (by omega)
    have hmore : (a.significand : ℚ) + 1 ≤ b.significand := by exact_mod_cast hless
    rw [← hexponent] at hhalf
    nlinarith

/-! ### The place of the first digit -/

theorem digits_bounds {n : Nat} (hpos : 0 < n) :
    10 ^ ((Nat.toDigits 10 n).length - 1) ≤ n ∧ n < 10 ^ (Nat.toDigits 10 n).length := by
  have hlength : 0 < (Nat.toDigits 10 n).length := List.length_pos_of_ne_nil Nat.toDigits_ne_nil
  refine ⟨?_, (Nat.length_toDigits_le_iff (by norm_num) hlength).mp le_rfl⟩
  rcases Nat.eq_zero_or_pos ((Nat.toDigits 10 n).length - 1) with hone | hmore
  · rw [hone]
    exact hpos
  · have hlonger := mt (Nat.length_toDigits_le_iff (n := n) (b := 10) (by norm_num) hmore).mpr
    exact not_lt.mp (hlonger (by omega))

theorem toList_toString (n : Nat) : (toString n).toList = Nat.toDigits 10 n := by
  rw [Nat.toString_eq_ofList_toDigits, String.toList_ofList]

theorem length_toString (n : Nat) : (toString n).length = (Nat.toDigits 10 n).length := by
  rw [← String.length_toList, toList_toString]

/-- The exponent of the first digit is the logarithm of the value. -/
theorem leadExponent_bounds {d : Decimal} (hpos : 0 < d.digits) :
    (10 : ℚ) ^ d.leadExponent ≤ d.value ∧ d.value < 10 ^ (d.leadExponent + 1) := by
  obtain ⟨hlow, hhigh⟩ := digits_bounds hpos
  have hlength : 0 < (Nat.toDigits 10 d.digits).length :=
    List.length_pos_of_ne_nil Nat.toDigits_ne_nil
  have hunit : (0 : ℚ) < 10 ^ d.exponent := zpow_pos (by norm_num) _
  have hlowQ : (10 : ℚ) ^ ((Nat.toDigits 10 d.digits).length - 1) ≤ d.digits := by
    exact_mod_cast hlow
  have hhighQ : (d.digits : ℚ) < 10 ^ (Nat.toDigits 10 d.digits).length := by
    exact_mod_cast hhigh
  unfold leadExponent value
  rw [length_toString]
  generalize (Nat.toDigits 10 d.digits).length = length at *
  constructor
  · rw [zpow_add₀ (by norm_num), show (length : ℤ) - 1 = (length - 1 : Nat) by omega,
      zpow_natCast]
    exact mul_le_mul_of_nonneg_right hlowQ hunit.le
  · rw [show (length : ℤ) - 1 + d.exponent + 1 = length + d.exponent by ring,
      zpow_add₀ (by norm_num), zpow_natCast]
    exact mul_lt_mul_of_pos_right hhighQ hunit

/-- A decimal from `10 ^ -6` up to `10 ^ 21` is written without a power of ten. -/
theorem text_of_value {d : Decimal} (hlow : (10 : ℚ) ^ (-6 : ℤ) ≤ d.value)
    (hhigh : d.value < 10 ^ (21 : ℤ)) : d.text = d.positional := by
  unfold text
  by_cases hzero : d.digits = 0
  · rw [if_pos (.inl hzero)]
  · obtain ⟨hlead, hlead'⟩ := leadExponent_bounds (Nat.pos_of_ne_zero hzero)
    have hten : (1 : ℚ) < 10 := by norm_num
    have hleast := (zpow_lt_zpow_iff_right₀ hten).mp (hlow.trans_lt hlead')
    have hmost := (zpow_lt_zpow_iff_right₀ hten).mp (hlead.trans_lt hhigh)
    rw [if_pos (.inr ⟨by omega, hmost⟩)]

/-- The magnitude of the number nearest to `10 ^ -6`, a little below it. -/
def leastPlain : Magnitude :=
  ⟨4722366482869645, -72⟩

/-- The magnitude of `10 ^ 21`. -/
def abovePlain : Magnitude :=
  ⟨7629394531250000, 17⟩

theorem leastPlain_canonical : leastPlain.IsCanonical := by
  constructor <;> decide

theorem abovePlain_canonical : abovePlain.IsCanonical := by
  constructor <;> decide

/-- The decimals of the numbers from the one nearest to `10 ^ -6` on. -/
theorem value_shortest_ge (hm : m.IsCanonical) (h : leastPlain.Precedes m ∨ leastPlain = m) :
    (10 : ℚ) ^ (-6 : ℤ) ≤ (shortest m).value := by
  rcases h with hmore | rfl
  · have hpos : 0 < m.significand := by
      rcases hmore with hexponent | ⟨-, hless⟩
      · have := hm.full (lt_trans (by decide) hexponent)
        omega
      · exact Nat.zero_lt_of_lt hless
    have hupper : (10 : ℚ) ^ (-6 : ℤ) ≤ (Interval.around leastPlain).upper := by
      rw [Interval.upper_around]
      norm_num [leastPlain]
    exact hupper.trans ((upper_le_lower leastPlain_canonical hm hmore).trans
      (shortest_contains hm hpos).lower_le)
  · have hshortest : shortest leastPlain = ⟨1, -6⟩ := by decide +kernel
    rw [hshortest, value]
    norm_num

/-- The decimals of the numbers below `10 ^ 21`. -/
theorem value_shortest_lt (hm : m.IsCanonical) (hpos : 0 < m.significand)
    (h : m.Precedes abovePlain) : (shortest m).value < 10 ^ (21 : ℤ) := by
  have hlower : (Interval.around abovePlain).lower < 10 ^ (21 : ℤ) := by
    rw [Interval.lower_around (by decide) (by decide)]
    norm_num [abovePlain]
  exact ((shortest_contains hm hpos).le_upper.trans
    (upper_le_lower hm abovePlain_canonical h)).trans_lt hlower

/-- Between `10 ^ -6` and `10 ^ 21` a number is written without a power of ten. -/
theorem text_shortest (hm : m.IsCanonical) (hpos : 0 < m.significand)
    (hlow : leastPlain.Precedes m ∨ leastPlain = m) (hhigh : m.Precedes abovePlain) :
    (shortest m).text = (shortest m).positional :=
  text_of_value (value_shortest_ge hm hlow) (value_shortest_lt hm hpos hhigh)

end Decimal

end TypedScript
