import Mathlib
import TypedScript.Proofs.Rounding

/-!
# A number and its bits

`magnitude?` reads a magnitude off the bits of a number. The numbers themselves are compared,
and lose their sign, after they are taken apart into a sign, a significand and an exponent.
`parts?_unpack` says that the two readings agree on every pattern of 64 bits: what is
written here about magnitudes is about the numbers that a program computes with.

Three things follow for the number `x` with the magnitude `m`. The magnitude is in its
canonical form and gives back the bits without the sign, so the pattern of `m` is that of
`x.abs` (`ofSignBits_bitsOf`). The order of numbers is the order of their magnitudes
(`precedes_or_eq_of_le_abs`, `precedes_of_abs_lt`). And a number is known by its magnitude
and whether it is below zero, but for the sign of a zero (`beq_of_abs_eq`).
-/

namespace TypedScript

open Float.Model (UnpackedFloat)
open Float.Model.UnpackedFloat (Sign)

namespace Binary64

/-! ### Fields of a pattern -/

/-- The magnitude that a pattern of 64 bits has. -/
def magnitudeOfBits? (bits : Nat) : Option Magnitude :=
  let fraction := bits % 2 ^ 52
  let field : Nat := bits / 2 ^ 52 % 2 ^ 11
  if field = 2047 then none
  else if field = 0 then some ⟨fraction, -1074⟩
  else some ⟨2 ^ 52 + fraction, field - 1075⟩

theorem magnitude?_eq (x : Float) : magnitude? x = magnitudeOfBits? x.toBits.toNat :=
  rfl

/-- A pattern without its sign has the same magnitude. -/
theorem magnitudeOfBits?_mod (bits : Nat) :
    magnitudeOfBits? (bits % 2 ^ 63) = magnitudeOfBits? bits := by
  have hfraction : bits % 2 ^ 63 % 2 ^ 52 = bits % 2 ^ 52 := by omega
  have hfield : bits % 2 ^ 63 / 2 ^ 52 % 2 ^ 11 = bits / 2 ^ 52 % 2 ^ 11 := by omega
  unfold magnitudeOfBits?
  rw [hfraction, hfield]

/-- The two forms of a finite pattern: with the least exponent, or with a leading bit. -/
theorem magnitudeOfBits?_cases {bits : Nat} {m : Magnitude} (h : magnitudeOfBits? bits = some m) :
    bits / 2 ^ 52 % 2 ^ 11 = 0 ∧ m = ⟨bits % 2 ^ 52, -1074⟩ ∨
      0 < bits / 2 ^ 52 % 2 ^ 11 ∧ bits / 2 ^ 52 % 2 ^ 11 < 2047 ∧
        m = ⟨2 ^ 52 + bits % 2 ^ 52, (bits / 2 ^ 52 % 2 ^ 11 : Nat) - 1075⟩ := by
  unfold magnitudeOfBits? at h
  dsimp only at h
  split at h
  · cases h
  · split at h
    · next hleast => exact .inl ⟨hleast, (Option.some.inj h).symm⟩
    · exact .inr ⟨by omega, by omega, (Option.some.inj h).symm⟩

theorem isCanonical_of_bits {bits : Nat} {m : Magnitude} (h : magnitudeOfBits? bits = some m) :
    m.IsCanonical := by
  obtain ⟨-, rfl⟩ | ⟨hfield, -, rfl⟩ := magnitudeOfBits?_cases h
  · exact ⟨by dsimp only; omega, le_rfl, fun h => absurd h (lt_irrefl _)⟩
  · exact ⟨by dsimp only; omega, by dsimp only; omega, fun _ => Nat.le_add_right _ _⟩

/-- A magnitude gives back the pattern that it is read off, without the sign. -/
theorem bitsOf_of_bits {bits : Nat} {m : Magnitude} (h : magnitudeOfBits? bits = some m) :
    bitsOf m = bits % 2 ^ 63 := by
  obtain ⟨hfield, rfl⟩ | ⟨hfield, hfinite, rfl⟩ := magnitudeOfBits?_cases h
  · rw [bitsOf, twoTo_eq, if_pos (Nat.mod_lt _ (Nat.two_pow_pos 52))]
    dsimp only
    omega
  · rw [bitsOf, twoTo_eq, if_neg (Nat.not_lt.mpr (Nat.le_add_right _ _)), infinityBits,
      twoTo_eq, leastExponent]
    dsimp only
    omega

/-! ### Parts of a number -/

/-- The sign and the magnitude of a number that is taken apart, if it is finite. -/
def parts? : UnpackedFloat → Option (Sign × Magnitude)
  | .finite sign significand exponent _ => some (sign, ⟨significand, exponent⟩)
  | .zero sign => some (sign, ⟨0, -1074⟩)
  | .infinity _ | .notANumber => none

/-- The sign in a pattern of 64 bits. -/
def signOfBits (bits : Nat) : Sign :=
  if 2 ^ 63 ≤ bits then .negative else .positive

theorem toNat_unpackMantissa (v : BitVec 64) :
    (@UnpackedFloat.unpackMantissa .binary64 v).toNat = v.toNat % 2 ^ 52 := by
  rw [UnpackedFloat.unpackMantissa_def, BitVec.extractLsb'_toNat, Nat.shiftRight_zero]

theorem toNat_unpackExponent (v : BitVec 64) :
    (@UnpackedFloat.unpackExponent .binary64 v).toNat = v.toNat / 2 ^ 52 % 2 ^ 11 := by
  rw [UnpackedFloat.unpackExponent_def, BitVec.extractLsb'_toNat, Nat.shiftRight_eq_div_pow]

theorem sign_unpackSign (v : BitVec 64) :
    Sign.ofBitVec (@UnpackedFloat.unpackSign .binary64 v) = signOfBits v.toNat := by
  have hlt := v.isLt
  have hfront : BitVec.extractLsb' (52 + 11) 1 v = 0#1 ↔ ¬ 2 ^ 63 ≤ v.toNat := by
    rw [← BitVec.toNat_inj, BitVec.extractLsb'_toNat, Nat.shiftRight_eq_div_pow]
    simp
    omega
  rw [UnpackedFloat.unpackSign_def, Sign.ofBitVec, signOfBits]
  by_cases hneg : 2 ^ 63 ≤ v.toNat
  · rw [if_neg (fun h => hfront.mp h hneg), if_pos hneg]
  · rw [if_pos (hfront.mpr hneg), if_neg hneg]

/-- A significand with its leading bit in front. -/
theorem toNat_leading (fraction : BitVec 52) :
    (1#1 ++ fraction).toNat = 2 ^ 52 + fraction.toNat := by
  rw [BitVec.toNat_append, ← Nat.shiftLeft_add_eq_or_of_lt fraction.isLt]
  rfl

/-- The parts of a number are the sign and the magnitude that are read off its bits. -/
theorem parts?_unpack (v : BitVec 64) :
    parts? (UnpackedFloat.unpack .binary64 v) =
      (magnitudeOfBits? v.toNat).map fun m => (signOfBits v.toNat, m) := by
  have hall (field : BitVec 11) : field = -1#11 ↔ field.toNat = 2047 := by
    rw [← BitVec.toNat_inj]
    rfl
  have hnone (field : BitVec 11) : field = 0#11 ↔ field.toNat = 0 := by
    rw [← BitVec.toNat_inj]
    rfl
  have hzero (fraction : BitVec 52) : fraction = 0#52 ↔ fraction.toNat = 0 := by
    rw [← BitVec.toNat_inj]
    rfl
  unfold UnpackedFloat.unpack magnitudeOfBits?
  dsimp only
  rw [sign_unpackSign, ← toNat_unpackMantissa, ← toNat_unpackExponent]
  -- the exponent field tells the kinds apart: all ones, all zeros, or a leading one to restore
  by_cases hspecial : (@UnpackedFloat.unpackExponent .binary64 v).toNat = 2047
  · rw [if_pos ((hall _).mpr hspecial), if_pos hspecial]
    split <;> rfl
  · rw [if_neg (mt (hall _).mp hspecial), if_neg hspecial]
    by_cases hleast : (@UnpackedFloat.unpackExponent .binary64 v).toNat = 0
    · rw [if_pos ((hnone _).mpr hleast), if_pos hleast]
      by_cases hfraction : (@UnpackedFloat.unpackMantissa .binary64 v).toNat = 0
      · rw [dif_pos ((hzero _).mpr hfraction), hfraction]
        rfl
      · rw [dif_neg (mt (hzero _).mp hfraction), hleast]
        rfl
    · rw [if_neg (mt (hnone _).mp hleast), if_neg hleast]
      show some (_, Magnitude.mk (1#1 ++ @UnpackedFloat.unpackMantissa .binary64 v).toNat _) = _
      rw [toNat_leading]
      rfl

/-! ### Numbers taken apart -/

section Parts

variable {u v : UnpackedFloat} {s t : Sign} {a b m : Magnitude}

theorem parts?_abs (u : UnpackedFloat) :
    parts? u.abs = (parts? u).map fun p => (.positive, p.2) := by
  cases u <;> rfl

theorem eq_zero_of_parts? (h : parts? u = some (s, m)) (hzero : m.significand = 0) :
    u = .zero s := by
  cases u with
  | infinity | notANumber => cases h
  | zero =>
    cases h
    rfl
  | finite _ _ _ hpos =>
    cases h
    exact absurd hzero hpos.ne'

theorem eq_finite_of_parts? (h : parts? u = some (s, m)) (hpos : 0 < m.significand) :
    u = .finite s m.significand m.exponent hpos := by
  cases u with
  | infinity | notANumber => cases h
  | zero =>
    cases h
    exact absurd hpos (lt_irrefl 0)
  | finite =>
    cases h
    rfl

/-- A number is known by its parts. -/
theorem eq_of_parts? (hu : parts? u = some (s, m)) (hv : parts? v = some (s, m)) : u = v := by
  rcases Nat.eq_zero_or_pos m.significand with hzero | hpos
  · rw [eq_zero_of_parts? hu hzero, eq_zero_of_parts? hv hzero]
  · rw [eq_finite_of_parts? hu hpos, eq_finite_of_parts? hv hpos]

/-- The order of positive numbers is that of their magnitudes. -/
theorem compare_positive (hu : parts? u = some (.positive, a)) (hv : parts? v = some (.positive, b))
    (ha : 0 < a.significand) (hb : 0 < b.significand) :
    u.compare v =
      some ((compare a.exponent b.exponent).then (compare a.significand b.significand)) := by
  rw [eq_finite_of_parts? hu ha, eq_finite_of_parts? hv hb]
  rfl

theorem compare_zero (hu : parts? u = some (.positive, a)) (hv : parts? v = some (t, b))
    (ha : 0 < a.significand) (hb : b.significand = 0) : u.compare v = some .gt := by
  rw [eq_finite_of_parts? hu ha, eq_zero_of_parts? hv hb]
  rfl

/-- Numbers with the same magnitude are equal if they have the same sign or are zero. -/
theorem compare_same (hu : parts? u = some (s, m)) (hv : parts? v = some (t, m))
    (h : s = t ∨ m.significand = 0) : u.compare v = some .eq := by
  rcases Nat.eq_zero_or_pos m.significand with hzero | hpos
  · rw [eq_zero_of_parts? hu hzero, eq_zero_of_parts? hv hzero]
    rfl
  · obtain rfl := h.resolve_right hpos.ne'
    rw [eq_finite_of_parts? hu hpos, eq_finite_of_parts? hv hpos]
    cases s <;> simp [UnpackedFloat.compare]

theorem lt_zero_iff (hu : parts? u = some (s, m)) :
    u.compare (.zero .positive) = some .lt ↔ s = .negative ∧ 0 < m.significand := by
  rcases Nat.eq_zero_or_pos m.significand with hzero | hpos
  · rw [eq_zero_of_parts? hu hzero]
    simp [UnpackedFloat.compare, hzero]
  · rw [eq_finite_of_parts? hu hpos]
    cases s <;> simp [UnpackedFloat.compare, hpos]

theorem parts?_of_eq_zero (h : u.compare (.zero .positive) = some .eq) :
    ∃ s, parts? u = some (s, ⟨0, -1074⟩) := by
  cases u with
  | notANumber => cases h
  | infinity s => cases s <;> cases h
  | zero s => exact ⟨s, rfl⟩
  | finite s => cases s <;> cases h

end Parts

/-! ### Numbers and their magnitudes -/

section Numbers

variable {x y : Float} {m n : Magnitude}

theorem lt_iff (x y : Float) : x < y ↔ x.toModel.unpack.compare y.toModel.unpack = some .lt :=
  decide_eq_true_iff.trans beq_iff_eq

theorem le_iff (x y : Float) :
    x ≤ y ↔ (x.toModel.unpack.compare y.toModel.unpack).any (·.isLE) = true :=
  decide_eq_true_iff

theorem beq_iff (x y : Float) :
    (x == y) = true ↔ x.toModel.unpack.compare y.toModel.unpack = some .eq := by
  show (x.toModel.unpack.compare y.toModel.unpack == some .eq) = true ↔ _
  exact beq_iff_eq

theorem parts?_toModel (x : Float) :
    parts? x.toModel.unpack = (magnitude? x).map fun m => (signOfBits x.toBits.toNat, m) :=
  parts?_unpack x.toBits.toBitVec

/-- The parts of a number are its magnitude and its sign. -/
theorem parts?_of_magnitude? (h : magnitude? x = some m) :
    parts? x.toModel.unpack = some (if isNegative x then .negative else .positive, m) := by
  have hparts := parts?_toModel x
  rw [h] at hparts
  have hnumber : x.isNaN = false := by
    show x.toModel.unpack.isNaN = false
    generalize x.toModel.unpack = u at hparts
    cases u with
    | notANumber => cases hparts
    | infinity | zero | finite => rfl
  have hsign : isNegative x = decide (2 ^ 63 ≤ x.toBits.toNat) := by
    rw [isNegative, hnumber]
    rfl
  rw [hparts, hsign]
  simp only [Option.map_some, signOfBits, decide_eq_true_eq]

theorem parts?_of_none (h : magnitude? x = none) : parts? x.toModel.unpack = none := by
  rw [parts?_toModel, h]
  rfl

theorem isCanonical_of_magnitude? (h : magnitude? x = some m) : m.IsCanonical :=
  isCanonical_of_bits h

/-- Taking apart what was put together from the bits of a finite number. -/
theorem unpack_ofBits {bits : UInt64} {p : Sign × Magnitude}
    (h : parts? (UnpackedFloat.unpack .binary64 bits.toBitVec) = some p) :
    (Float.ofBits bits).toModel.unpack = UnpackedFloat.unpack .binary64 bits.toBitVec := by
  have hnumber : @UnpackedFloat.isNaNBits .binary64 bits.toBitVec = false := by
    by_contra hnan
    rw [Bool.not_eq_false, UnpackedFloat.isNaNBits, decide_eq_true_eq] at hnan
    unfold UnpackedFloat.unpack at h
    dsimp only at h
    rw [if_pos hnan.1, if_neg hnan.2] at h
    cases h
  show UnpackedFloat.unpack .binary64
    ((UnpackedFloat.unpack .binary64 bits.toBitVec).pack .binary64) = _
  rw [UnpackedFloat.pack_unpack, hnumber, if_neg Bool.false_ne_true]

/-- The pattern of the magnitude of a number, read as bits. -/
theorem parts?_bitsOf (h : magnitude? x = some m) :
    parts? (UnpackedFloat.unpack .binary64 (UInt64.ofNat (bitsOf m)).toBitVec) =
      some (.positive, m) := by
  have hbits : bitsOf m = x.toBits.toNat % 2 ^ 63 := bitsOf_of_bits h
  have hlt : bitsOf m < 2 ^ 63 := hbits ▸ Nat.mod_lt _ (Nat.two_pow_pos 63)
  have hsize : UInt64.size = 2 ^ 64 := rfl
  have hnat : (UInt64.ofNat (bitsOf m)).toBitVec.toNat = bitsOf m :=
    UInt64.toNat_ofNat_of_lt (by omega)
  rw [parts?_unpack, hnat, signOfBits, if_neg (by omega), hbits, magnitudeOfBits?_mod,
    ← magnitude?_eq, h]
  rfl

theorem unpack_abs (h : magnitude? x = some m) :
    x.toModel.unpack.abs = UnpackedFloat.unpack .binary64 (UInt64.ofNat (bitsOf m)).toBitVec := by
  refine eq_of_parts? (s := .positive) (m := m) ?_ (parts?_bitsOf h)
  rw [parts?_abs, parts?_of_magnitude? h]
  rfl

/-- The pattern of the magnitude of a number is the number without its sign. -/
theorem ofSignBits_bitsOf (h : magnitude? x = some m) : ofSignBits false (bitsOf m) = x.abs := by
  rw [ofSignBits, if_neg Bool.false_ne_true, Float.abs, Float.Model.abs, unpack_abs h,
    Float.ofBits, Float.Model.ofBits]

/-- A number without its sign has the same magnitude. -/
theorem parts?_of_abs (h : magnitude? x = some m) :
    parts? x.abs.toModel.unpack = some (.positive, m) := by
  rw [← ofSignBits_bitsOf h, ofSignBits, if_neg Bool.false_ne_true, unpack_ofBits (parts?_bitsOf h),
    parts?_bitsOf h]

/-! ### Order -/

theorem then_compare_eq_lt {a b : Magnitude} :
    (compare a.exponent b.exponent).then (compare a.significand b.significand) = .lt ↔
      a.Precedes b := by
  rw [Ordering.then_eq_lt, compare_lt_iff_lt, compare_eq_iff_eq, compare_lt_iff_lt]
  rfl

theorem then_compare_eq_eq {a b : Magnitude} :
    (compare a.exponent b.exponent).then (compare a.significand b.significand) = .eq ↔
      a = b := by
  rw [Ordering.then_eq_eq, compare_eq_iff_eq, compare_eq_iff_eq, Magnitude.mk.injEq, and_comm]

/-- A number at most as great as the magnitude of another one. -/
theorem precedes_or_eq_of_le_abs (hx : magnitude? x = some m) (hy : magnitude? y = some n)
    (hnegative : isNegative y = false) (hn : 0 < n.significand) (h : y ≤ x.abs) :
    0 < m.significand ∧ (n.Precedes m ∨ n = m) := by
  have hxparts := parts?_of_abs hx
  have hyparts := parts?_of_magnitude? hy
  rw [hnegative, if_neg Bool.false_ne_true] at hyparts
  rw [le_iff] at h
  rcases Nat.eq_zero_or_pos m.significand with hzero | hm
  · rw [compare_zero hyparts hxparts hn hzero] at h
    cases h
  · rw [compare_positive hyparts hxparts hn hm, Option.any_some] at h
    refine ⟨hm, ?_⟩
    rw [← then_compare_eq_lt, ← then_compare_eq_eq]
    generalize (compare n.exponent m.exponent).then _ = order at *
    cases order with
    | lt => exact .inl rfl
    | eq => exact .inr rfl
    | gt => cases h

theorem precedes_of_abs_lt (hx : magnitude? x = some m) (hy : magnitude? y = some n)
    (hnegative : isNegative y = false) (hm : 0 < m.significand) (hn : 0 < n.significand)
    (h : x.abs < y) : m.Precedes n := by
  have hyparts := parts?_of_magnitude? hy
  rw [hnegative, if_neg Bool.false_ne_true] at hyparts
  rw [lt_iff, compare_positive (parts?_of_abs hx) hyparts hm hn, Option.some_inj] at h
  exact then_compare_eq_lt.mp h

/-- The magnitude of an infinity or NaN is below no finite number. -/
theorem not_abs_lt_of_none (hx : magnitude? x = none) (hy : magnitude? y = some n) :
    ¬ x.abs < y := by
  have hxparts := parts?_of_none hx
  have hyparts := parts?_of_magnitude? hy
  rw [lt_iff]
  change ¬ (Float.Model.pack x.toModel.unpack.abs).unpack.compare _ = _
  generalize x.toModel.unpack = u at *
  generalize y.toModel.unpack = v at *
  cases u with
  | zero | finite => cases hxparts
  | infinity s =>
    have hread : (Float.Model.pack (UnpackedFloat.infinity s).abs).unpack =
        .infinity .positive := by
      show UnpackedFloat.unpack .binary64 (UnpackedFloat.packedInfinity .binary64 .positive) = _
      simp [UnpackedFloat.unpack, UnpackedFloat.packedInfinity]
    rw [hread]
    cases v with
    | infinity | notANumber => cases hyparts
    | zero | finite => exact nofun
  | notANumber =>
    have hread : (Float.Model.pack UnpackedFloat.notANumber.abs).unpack = .notANumber :=
      UnpackedFloat.unpack_packedNaN
    rw [hread]
    exact nofun

theorem unpack_zero : (0 : Float).toModel.unpack = .zero .positive :=
  UnpackedFloat.unpack_packedZero

/-- What is below zero has its sign set and is not zero. -/
theorem lt_zero_iff_isNegative (hx : magnitude? x = some m) :
    x < 0 ↔ isNegative x = true ∧ 0 < m.significand := by
  rw [lt_iff, unpack_zero, lt_zero_iff (parts?_of_magnitude? hx)]
  cases isNegative x <;> simp

theorem magnitude?_of_beq_zero (h : (x == 0) = true) : magnitude? x = some ⟨0, -1074⟩ := by
  rw [beq_iff, unpack_zero] at h
  obtain ⟨s, hs⟩ := parts?_of_eq_zero h
  cases hx : magnitude? x with
  | none => rw [parts?_of_none hx] at hs; cases hs
  | some m =>
    rw [parts?_of_magnitude? hx, Option.some_inj, Prod.mk.injEq] at hs
    rw [hs.2]

/-- A number is known by its magnitude and whether it is below zero. -/
theorem beq_of_abs_eq (hx : magnitude? x = some m) (hy : magnitude? y = some n)
    (habs : x.abs = y.abs) (hsign : x < 0 ↔ y < 0) : (x == y) = true := by
  obtain rfl : m = n := by
    have hparts := parts?_of_abs hx
    rw [habs, parts?_of_abs hy, Option.some_inj, Prod.mk.injEq] at hparts
    exact hparts.2.symm
  have hxparts := parts?_of_magnitude? hx
  have hyparts := parts?_of_magnitude? hy
  rw [beq_iff]
  refine compare_same hxparts hyparts ?_
  rw [lt_zero_iff_isNegative hx, lt_zero_iff_isNegative hy] at hsign
  rcases Nat.eq_zero_or_pos m.significand with hzero | hpos
  · exact .inr hzero
  · simp only [hpos, and_true] at hsign
    rw [Bool.eq_iff_iff.mpr hsign]
    exact .inl rfl

end Numbers

end Binary64

end TypedScript
