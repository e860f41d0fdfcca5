import TypedScript.Proofs.LongestMatch
import TypedScript.Proofs.NumberParts
import TypedScript.Proofs.ShortestDecimals
import TypedScript.Proofs.Spacing

/-!
# Printed numbers read back

The digits of a decimal are laid out in one of three ways: with zeros behind them, with the
point between them, or with zeros in front of them. Each is the text of a number token, and
as a literal it denotes the decimal again, or one with the same value (`positional_reads`).
The text has no sign and no power of ten, so all of it is one token (`scan_number`), and with
a minus in front it is two (`scan_minus`).

A number that is zero, or from `1e-6` up to `1e21`, is printed in this way from its shortest
decimal. That decimal lies in the interval that rounds to the number, so the token has the
value of the number without its sign, and the minus is there exactly if the number is below
zero (`printed_reads_back`). An integer up to `maxSafeInteger` is printed as the integer that
it is (`text_of_safeInteger?`).
-/

namespace TypedScript

namespace Decimal

open Pattern

/-! ### Digits -/

theorem toList_zeros (count : Nat) : (zeros count).toList = List.replicate count '0' :=
  String.toList_ofList

theorem isRun_toDigits (n : Nat) : IsRun Char.isDigit (Nat.toDigits 10 n) :=
  ⟨Nat.toDigits_ne_nil, fun _ hc => Nat.isDigit_of_mem_toDigits (by norm_num) le_rfl hc⟩

theorem isDigit_of_mem_zeros {count : Nat} {c : Char} (hc : c ∈ List.replicate count '0') :
    c.isDigit = true := by
  rw [List.eq_of_mem_replicate hc]
  rfl

theorem valueOfDigits_eq (digits : List Char) :
    valueOfDigits digits = Nat.ofDigitChars 10 digits 0 :=
  Nat.ofDigitChars_eq_foldl.symm

theorem valueOfDigits_toDigits (n : Nat) : valueOfDigits (Nat.toDigits 10 n) = n := by
  rw [valueOfDigits_eq, Nat.ofDigitChars_ten_toDigits]

/-- Zeros behind the digits are a power of ten. -/
theorem valueOfDigits_append_zeros (digits : List Char) (count : Nat) :
    valueOfDigits (digits ++ List.replicate count '0') = valueOfDigits digits * 10 ^ count := by
  rw [valueOfDigits_eq, valueOfDigits_eq, Nat.ofDigitChars_append, Nat.ofDigitChars_replicate_zero,
    Nat.mul_comm]

/-- Zeros in front of the digits say nothing. -/
theorem valueOfDigits_zeros_append (count : Nat) (digits : List Char) :
    valueOfDigits (List.replicate count '0' ++ digits) = valueOfDigits digits := by
  rw [valueOfDigits_eq, valueOfDigits_eq, Nat.ofDigitChars_append, Nat.ofDigitChars_replicate_zero,
    Nat.mul_zero]

/-- Zeros behind the digits of a positive number make it greater by a power of ten. -/
theorem toDigits_mul_pow {n : Nat} (hpos : 0 < n) (count : Nat) :
    Nat.toDigits 10 (n * 10 ^ count) = Nat.toDigits 10 n ++ List.replicate count '0' := by
  induction count with
  | zero => rw [Nat.pow_zero, Nat.mul_one, List.replicate_zero, List.append_nil]
  | succ count ih =>
    have hmore : 0 < n * 10 ^ count := Nat.mul_pos hpos (Nat.pow_pos (by norm_num))
    rw [List.replicate_succ', ← List.append_assoc, ← ih,
      show n * 10 ^ (count + 1) = 10 * (n * 10 ^ count) + 0 by ring,
      ← Nat.toDigits_append_toDigits (by norm_num) hmore (by norm_num)]
    rfl

/-- An integer below `2 ^ 53` is written like the natural number that it is. -/
theorem text_shortest_of_integer {m : Magnitude} {n : Nat} (hm : m.IsCanonical)
    (hpos : 0 < m.significand) (hvalue : m.value = n) (hlt : n < 2 ^ 53) :
    (shortest m).text = toString n := by
  obtain ⟨places, hexponent, hdigits⟩ := shortest_of_integer hm hpos hvalue hlt
  have hn := pos_of_value hpos hvalue
  have hshortest : (shortest m).value = n := by
    rw [value, hexponent, zpow_natCast, ← hdigits]
    push_cast
    rfl
  have htext : (shortest m).text = (shortest m).positional := by
    have hone : (1 : ℚ) ≤ n := by exact_mod_cast hn
    have hmost : (n : ℚ) < 2 ^ 53 := by exact_mod_cast hlt
    refine text_of_value ?_ ?_ <;> rw [hshortest]
    · norm_num
      linarith
    · norm_num at hmost ⊢
      linarith
  have hleading : 0 < (shortest m).digits := by
    refine Nat.pos_of_ne_zero fun hzero => ?_
    rw [hzero, Nat.zero_mul] at hdigits
    omega
  rw [htext, positional, if_pos (by omega), ← String.toList_inj, String.toList_append, toList_zeros,
    toList_toString, toList_toString, hexponent, Int.toNat_natCast, ← hdigits,
    toDigits_mul_pow hleading]

/-! ### Literals -/

theorem ne_point_of_isDigit {c : Char} (hc : c.isDigit = true) : c ≠ '.' := by
  rintro rfl
  cases hc

theorem ofLiteral_whole {digits : List Char} (h : ∀ c ∈ digits, c.isDigit = true) :
    ofLiteral digits = ⟨valueOfDigits digits, 0⟩ := by
  have hpoint : ∀ c ∈ digits, decide (c ≠ '.') = true := fun c hc =>
    decide_eq_true (ne_point_of_isDigit (h c hc))
  unfold ofLiteral
  dsimp only
  rw [List.takeWhile_eq_self_iff.mpr hpoint, List.dropWhile_eq_nil_iff.mpr hpoint]
  simp

theorem ofLiteral_point {whole : List Char} (h : ∀ c ∈ whole, c.isDigit = true)
    (fraction : List Char) :
    ofLiteral (whole ++ '.' :: fraction) =
      ⟨valueOfDigits (whole ++ fraction), -(fraction.length : ℤ)⟩ := by
  have hpoint : ∀ c ∈ whole, decide (c ≠ '.') = true := fun c hc =>
    decide_eq_true (ne_point_of_isDigit (h c hc))
  unfold ofLiteral
  dsimp only
  rw [List.takeWhile_append_of_pos hpoint, List.dropWhile_append_of_pos hpoint]
  simp

/-- The three layouts: zeros behind the digits, the point between them, or a zero, the point
and perhaps more zeros in front of them. -/
theorem toList_positional (d : Decimal) :
    d.positional.toList =
      if 0 ≤ d.exponent then Nat.toDigits 10 d.digits ++ List.replicate d.exponent.toNat '0'
      else if (-d.exponent).toNat < (Nat.toDigits 10 d.digits).length then
        (Nat.toDigits 10 d.digits).take
            ((Nat.toDigits 10 d.digits).length - (-d.exponent).toNat) ++
          '.' :: (Nat.toDigits 10 d.digits).drop
            ((Nat.toDigits 10 d.digits).length - (-d.exponent).toNat)
      else ['0'] ++ '.' :: (List.replicate
        ((-d.exponent).toNat - (Nat.toDigits 10 d.digits).length) '0' ++
          Nat.toDigits 10 d.digits) := by
  unfold positional
  dsimp only
  rw [toList_toString, length_toString, List.splitAt_eq]
  dsimp only
  split
  · rw [String.toList_append, toList_toString, toList_zeros]
  · split
    · simp only [String.toList_append, String.toList_ofList]
      simp
    · simp only [String.toList_append, toList_zeros, toList_toString]
      simp

/-- The text of a decimal is matched as a number, and denotes a decimal that rounds to the
same number. -/
theorem positional_reads (d : Decimal) :
    Matches .number d.positional.toList ∧ (ofLiteral d.positional.toList).nearest = d.nearest := by
  obtain ⟨digits, exponent⟩ := d
  have hrun := isRun_toDigits digits
  have hvalue := valueOfDigits_toDigits digits
  rw [toList_positional]
  dsimp only
  generalize Nat.toDigits 10 digits = row at *
  split
  · -- a whole number, written with zeros behind its digits
    next hexponent =>
    have hall : ∀ c ∈ row ++ List.replicate exponent.toNat '0', c.isDigit = true := by
      intro c hc
      exact (List.mem_append.mp hc).elim (hrun.all c) isDigit_of_mem_zeros
    refine ⟨.whole ⟨by simp [hrun.nonempty], hall⟩, ?_⟩
    rw [ofLiteral_whole hall, valueOfDigits_append_zeros, hvalue, nearest, nearest]
    dsimp only
    rw [tenTo_eq, tenTo_eq, tenTo_eq, tenTo_eq, show (-exponent).toNat = 0 by omega]
    simp
  · next hexponent =>
    split
    · -- the point stands among the digits
      next hplaces =>
      have hwhole : ∀ c ∈ row.take (row.length - (-exponent).toNat), c.isDigit = true :=
        fun c hc => hrun.all c (List.mem_of_mem_take hc)
      refine ⟨.decimal ⟨?_, hwhole⟩ ⟨?_, fun c hc => hrun.all c (List.mem_of_mem_drop hc)⟩, ?_⟩
      · rw [Ne, ← List.length_eq_zero_iff, List.length_take]
        omega
      · rw [Ne, ← List.length_eq_zero_iff, List.length_drop]
        omega
      · have hlength : (row.drop (row.length - (-exponent).toNat)).length = (-exponent).toNat := by
          rw [List.length_drop]
          omega
        rw [ofLiteral_point hwhole, List.take_append_drop, hvalue, hlength,
          show -((-exponent).toNat : ℤ) = exponent by omega]
    · -- the point stands in front of all digits, with zeros between where there are too few
      next hplaces =>
      have hzero : ∀ c ∈ ['0'], c.isDigit = true := List.forall_mem_singleton.mpr rfl
      have hall : ∀ c ∈ List.replicate ((-exponent).toNat - row.length) '0' ++ row,
          c.isDigit = true := by
        intro c hc
        exact (List.mem_append.mp hc).elim isDigit_of_mem_zeros (hrun.all c)
      refine ⟨.decimal ⟨by simp, hzero⟩ ⟨by simp [hrun.nonempty], hall⟩, ?_⟩
      have hlength : (List.replicate ((-exponent).toNat - row.length) '0' ++ row).length =
          (-exponent).toNat := by
        rw [List.length_append, List.length_replicate]
        omega
      have hfront : ['0'] ++ (List.replicate ((-exponent).toNat - row.length) '0' ++ row) =
          List.replicate ((-exponent).toNat - row.length + 1) '0' ++ row := by
        rw [List.replicate_succ, List.cons_append]
        rfl
      rw [ofLiteral_point hzero, hfront, valueOfDigits_zeros_append, hvalue, hlength,
        show -((-exponent).toNat : ℤ) = exponent by omega]

/-- A decimal in the interval around a magnitude is read as the number with its pattern. -/
theorem nearest_of_contains (d : Decimal) {m : Magnitude} (hm : m.IsCanonical)
    (hpos : 0 < m.significand) (h : (Interval.around m).Contains d.value) :
    d.nearest = Binary64.ofSignBits false (Binary64.bitsOf m) := by
  have hvalue : d.value =
      (d.digits * tenTo d.exponent.toNat : Nat) / (tenTo (-d.exponent).toNat : Nat) := by
    rw [value, zpow_eq_div_toNat (by norm_num)]
    push_cast [tenTo_eq]
    ring
  have hden : 0 < tenTo (-d.exponent).toNat := Nat.pow_pos (by norm_num)
  rw [hvalue] at h
  rw [nearest, Binary64.nearest, Binary64.nearestBits_of_contains hm hpos hden h]

/-- The shortest decimal of a finite number is nearest to the number without its sign. -/
theorem nearest_shortest {x : Float} {m : Magnitude} (hx : Binary64.magnitude? x = some m) :
    (shortest m).nearest = x.abs := by
  rw [← Binary64.ofSignBits_bitsOf hx]
  rcases Nat.eq_zero_or_pos m.significand with hzero | hpos
  · have hpattern : Binary64.bitsOf m = Binary64.nearestBits 0 1 := by
      rw [Binary64.bitsOf, hzero, twoTo_eq, if_pos (Nat.two_pow_pos 52)]
      decide
    rw [shortest, if_pos hzero, hpattern]
    rfl
  · have hm := Binary64.isCanonical_of_magnitude? hx
    exact nearest_of_contains _ hm hpos (shortest_contains hm hpos)

end Decimal

/-! ### Sources -/

section Sources

open Pattern

variable {run : List Char}

theorem head_isDigit (h : Matches .number run) {c : Char} (hc : run.head? = some c) :
    c.isDigit = true := by
  cases h with
  | whole hdigits => exact hdigits.all c (List.mem_of_mem_head? hc)
  | decimal hdigits =>
    rw [List.head?_append_of_ne_nil _ hdigits.nonempty] at hc
    exact hdigits.all c (List.mem_of_mem_head? hc)

theorem not_isDigit_of_mem_spelling (sign : Symbol) {c : Char} (hc : c ∈ sign.spelling.toList) :
    c.isDigit = false := by
  have hall : sign.spelling.toList.all (fun c => !c.isDigit) = true := by
    cases sign <;> decide
  simpa using List.all_eq_true.mp hall c hc

/-- The text of a number is one token. -/
theorem scan_number (h : Matches .number run) (position : Position) :
    scan run position =
      [.ok ⟨.number (Decimal.ofLiteral run).nearest, String.ofList run, position⟩,
        .ok ⟨.endOfInput, "", position.advance run⟩] := by
  have hlongest : longest? (run ++ []) = some (.number, run.length) :=
    h.longest?_append (by simp [all]) rfl (fun c hc => by cases hc)
  have hscan : scan (run ++ []) position = _ := scan_of_token rfl hlongest
  rw [List.append_nil, scan.eq_def []] at hscan
  exact hscan

/-- A minus in front of a number is a token of its own. -/
theorem scan_minus (h : Matches .number run) (position : Position) :
    scan ('-' :: run) position =
      .ok ⟨.symbol .minus, "-", position⟩ :: scan run (position.step '-') := by
  refine scan_of_symbol .minus (longest?_of_symbol (fun other hother => ?_) ?_)
  · change other.spelling.toList <+: '-' :: run at hother
    show other.spelling.toList.length ≤ 1
    rcases hspelling : other.spelling.toList with _ | ⟨c, _ | ⟨d, tail⟩⟩
    · exact Nat.zero_le 1
    · exact Nat.le_refl 1
    · -- a longer symbol would go over the first digit
      rw [hspelling] at hother
      obtain ⟨behind, hbehind⟩ := (List.cons_prefix_cons.mp hother).2
      have hdigit : d.isDigit = true := head_isDigit h (by rw [← hbehind]; rfl)
      have hsign : d.isDigit = false := not_isDigit_of_mem_spelling other (by simp [hspelling])
      rw [hdigit] at hsign
      cases hsign
  · rintro run (hrun | hrun) hfront <;> cases hrun <;> simp [Symbol.spelling] at hfront

end Sources

/-! ### Printing -/

namespace Number

open Binary64 Decimal

/-- The numbers that are printed without a power of ten: zero, and those from `1e-6` up to
`1e21` on both sides of it. -/
def IsPlain (x : Float) : Prop :=
  (x == 0) = true ∨ 1e-6 ≤ x.abs ∧ x.abs < 1e21

variable {x y : Float} {m : Magnitude}

theorem magnitude?_least : magnitude? 1e-6 = some leastPlain := by
  decide +kernel

theorem magnitude?_above : magnitude? 1e21 = some abovePlain := by
  decide +kernel

theorem not_isNegative_least : isNegative 1e-6 = false := by
  decide +kernel

theorem not_isNegative_above : isNegative 1e21 = false := by
  decide +kernel

theorem IsPlain.exists_magnitude (h : IsPlain x) :
    ∃ m, magnitude? x = some m ∧ (shortest m).text = (shortest m).positional := by
  rcases h with hzero | ⟨hlow, hhigh⟩
  · exact ⟨_, magnitude?_of_beq_zero hzero, rfl⟩
  · obtain ⟨m, hx⟩ := Option.ne_none_iff_exists'.mp fun hnone =>
      not_abs_lt_of_none hnone magnitude?_above hhigh
    obtain ⟨hpos, hleast⟩ := precedes_or_eq_of_le_abs hx magnitude?_least not_isNegative_least
      (by decide) hlow
    have habove := precedes_of_abs_lt hx magnitude?_above not_isNegative_above hpos (by decide)
      hhigh
    exact ⟨m, hx, text_shortest (isCanonical_of_magnitude? hx) hpos hleast habove⟩

/-- The integer that a number is has its magnitude and its sign. -/
theorem value_of_safeInteger? {n : Int} (hx : magnitude? x = some m)
    (h : safeInteger? x = some n) : ∃ k : Nat, m.value = k ∧ k < 2 ^ 53 ∧
      n = if isNegative x then -(k : Int) else k := by
  unfold safeInteger? at h
  rw [hx] at h
  dsimp only at h
  split at h
  · cases h
  · next k hwhole =>
    split at h
    · next hsafe =>
      have hlt : k < 2 ^ 53 := by
        rw [maxSafeInteger, twoTo_eq] at hsafe
        omega
      refine ⟨k, ?_, hlt, ?_⟩
      · rw [Magnitude.value, zpow_eq_div_toNat two_ne_zero]
        split at hwhole
        · next hexponent =>
          rw [← Option.some.inj hwhole, show (-m.exponent).toNat = 0 by omega, twoTo_eq]
          push_cast
          ring
        · next hexponent =>
          split at hwhole
          · next hdvd =>
            rw [twoTo_eq] at hdvd hwhole
            rw [← Option.some.inj hwhole, show m.exponent.toNat = 0 by omega, pow_zero,
              Nat.cast_div (Nat.dvd_of_mod_eq_zero hdvd) (by positivity)]
            push_cast
            ring
          · cases hwhole
      · rw [← Option.some.inj h]
    · cases h

/-- An integer in the safe range is printed as such, and zero without its sign. -/
theorem text_of_safeInteger? {n : Int} (h : safeInteger? x = some n) : text x = toString n := by
  obtain ⟨m, hx⟩ : ∃ m, magnitude? x = some m := by
    cases hx : magnitude? x with
    | none => simp [safeInteger?, hx] at h
    | some m => exact ⟨m, rfl⟩
  obtain ⟨k, hvalue, hlt, rfl⟩ := value_of_safeInteger? hx h
  unfold text
  rw [hx]
  dsimp only
  rcases Nat.eq_zero_or_pos m.significand with hzero | hpos
  · have hk : k = 0 := by
      rw [Magnitude.value, hzero, Nat.cast_zero, zero_mul] at hvalue
      exact_mod_cast hvalue.symm
    rw [if_neg (by simp [hzero]), shortest, if_pos hzero, hk]
    split <;> rfl
  · rw [text_shortest_of_integer (isCanonical_of_magnitude? hx) hpos hvalue hlt]
    obtain ⟨below, rfl⟩ := Nat.exists_eq_succ_of_ne_zero (pos_of_value hpos hvalue).ne'
    cases isNegative x with
    | true =>
      rw [if_pos ⟨hpos.ne', rfl⟩]
      rfl
    | false =>
      rw [if_neg (by simp)]
      exact String.empty_append

/-- The sign of a number and the digits of its shortest decimal. -/
theorem toList_text (hx : magnitude? x = some m)
    (hplain : (shortest m).text = (shortest m).positional) :
    (text x).toList =
      (if x < 0 then ['-'] else []) ++ (shortest m).positional.toList := by
  have hsign : (m.significand ≠ 0 ∧ isNegative x = true) ↔ x < 0 := by
    rw [lt_zero_iff_isNegative hx, Nat.pos_iff_ne_zero, and_comm]
  unfold text
  rw [hx]
  dsimp only
  rw [hplain, String.toList_append]
  by_cases hnegative : x < 0
  · rw [if_pos (hsign.mpr hnegative), if_pos hnegative]
    rfl
  · rw [if_neg (mt hsign.mp hnegative), if_neg hnegative]
    rfl

/-- The tokens of a printed number are its sign and the number without it. -/
theorem ofSource?_text (hx : magnitude? x = some m)
    (hplain : (shortest m).text = (shortest m).positional) :
    ∃ tokens, Token.ofSource? (text x) = .ok tokens ∧
      tokens.map (·.kind) =
        (if x < 0 then [.symbol .minus] else []) ++ [.number x.abs, .endOfInput] := by
  obtain ⟨hmatches, hnearest⟩ := positional_reads (shortest m)
  rw [nearest_shortest hx] at hnearest
  unfold Token.ofSource?
  rw [toList_text hx hplain]
  by_cases hnegative : x < 0
  · rw [if_pos hnegative, if_pos hnegative, List.singleton_append, scan_minus hmatches,
      scan_number hmatches, hnearest]
    exact ⟨_, rfl, rfl⟩
  · rw [if_neg hnegative, if_neg hnegative, List.nil_append, scan_number hmatches, hnearest]
    exact ⟨_, rfl, rfl⟩

/-- The sign and the number are what the kinds of the tokens say. -/
theorem signed_inj {p q : Prop} [Decidable p] [Decidable q] {a b : Float}
    (h : (if p then [.symbol .minus] else []) ++ [Token.Kind.number a, .endOfInput] =
      (if q then [.symbol .minus] else []) ++ [.number b, .endOfInput]) :
    (p ↔ q) ∧ a = b := by
  by_cases hp : p <;> by_cases hq : q <;> simp [hp, hq] at h ⊢ <;> exact h

/-- What is printed of a number that is zero, or from `1e-6` up to `1e21` but for its sign, is
read as one number token with the value of the number without its sign; a minus stands in
front of it exactly if the number is below zero. So two such numbers are printed alike only
if they are equal. -/
theorem printed_reads_back (hx : IsPlain x) :
    (∃ tokens, Token.ofSource? (text x) = .ok tokens ∧
      tokens.map (·.kind) =
        (if x < 0 then [.symbol .minus] else []) ++ [.number x.abs, .endOfInput]) ∧
    ∀ y : Float, IsPlain y → text y = text x → (y == x) = true := by
  obtain ⟨m, hm, hplain⟩ := hx.exists_magnitude
  refine ⟨ofSource?_text hm hplain, fun y hy htext => ?_⟩
  obtain ⟨n, hn, hplain'⟩ := hy.exists_magnitude
  obtain ⟨tokens, hread, hkinds⟩ := ofSource?_text hm hplain
  obtain ⟨tokens', hread', hkinds'⟩ := ofSource?_text hn hplain'
  rw [htext, hread] at hread'
  cases hread'
  rw [hkinds] at hkinds'
  obtain ⟨hsign, habs⟩ := signed_inj hkinds'
  exact beq_of_abs_eq hn hm habs.symm hsign.symm

/-- The least of these numbers, below zero: its digits stand behind zeros. -/
theorem printed_reads_back_of_least :
    IsPlain (-1e-6) ∧ text (-1e-6) = "-0.000001" ∧
      ∃ tokens, Token.ofSource? (text (-1e-6)) = .ok tokens ∧
        tokens.map (·.kind) = [.symbol .minus, .number 1e-6, .endOfInput] := by
  have hplain : IsPlain (-1e-6) := .inr (by decide +kernel)
  have hread := (printed_reads_back hplain).1
  have habs : (-1e-6 : Float).abs = 1e-6 := by decide +kernel
  rw [if_pos (by decide +kernel), habs] at hread
  exact ⟨hplain, by decide +kernel, hread⟩

end Number

end TypedScript
