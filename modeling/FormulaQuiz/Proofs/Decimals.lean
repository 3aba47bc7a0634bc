import FormulaQuiz.Decimal.Numeral
import FormulaQuiz.Number.PowerOfTen
import FormulaQuiz.Proofs.Floats

/-!
# Decimals as floats

Powers of ten up to the twenty-second are floats.  A decimal is read as the float that its exact
value is rounded to, whether it is short enough to be computed from floats or not.
-/

namespace FormulaQuiz.Rounding

open Float.Model Float.Model.UnpackedFloat

/-- A float with an exact value is finite. -/
theorem exists_exactly_of_ofFloat? {x : Float} {d : Dyadic} (h : Dyadic.ofFloat? x = some d) :
    Exactly x (if d.negative then .negative else .positive) (d.numerator / d.denominator) := by
  have hfinite : x.isFinite = true := by
    rcases unpack_cases x.toModel with ⟨s, hx⟩ | hx | ⟨s, r, hr, he, hx⟩
    · rw [Dyadic.ofFloat?, hx] at h
      cases h
    · rw [Dyadic.ofFloat?, hx] at h
      cases h
    · exact Exactly.isFinite ⟨r, hr, he, hx, rfl⟩
  obtain ⟨s, a, hx⟩ := exists_exactly hfinite
  obtain ⟨d', hd', hsign, ha⟩ := hx.ofFloat?
  obtain rfl : d = d' := Option.some.inj (h.symm.trans hd')
  rw [hsign, ← ha]
  cases s <;> exact hx

/-- A float is a natural number, as is seen by running. -/
def isExactNat (x : Float) (n : ℕ) : Bool :=
  (Dyadic.ofFloat? x).any fun d ↦ !d.negative && d.numerator == n * d.denominator

theorem exactly_of_isExactNat {x : Float} {n : ℕ} (h : isExactNat x n = true) :
    Exactly x .positive n := by
  rw [isExactNat, Option.any_eq_true] at h
  obtain ⟨d, hd, h⟩ := h
  rw [Bool.and_eq_true, Bool.not_eq_true', beq_iff_eq] at h
  have hx := exists_exactly_of_ofFloat? hd
  have hden : (d.denominator : ℚ) ≠ 0 := Nat.cast_ne_zero.mpr d.denominator_pos.ne'
  rw [h.1, h.2, Nat.cast_mul, mul_div_cancel_right₀ _ hden] at hx
  exact hx

/-- The exact value of a power of ten that was made by squaring. -/
def scale (places : UInt8) : ℚ :=
  (Dyadic.ofFloat? (powerOfTen places)).elim 0 fun d ↦ d.numerator / d.denominator

/-- By what part of itself a power of ten may be off. -/
def slack (places : UInt8) : ℚ := if places.toNat ≤ 22 then 0 else 1 / 2 ^ 49

/-- A power of ten is off by no more than its slack, as is seen by running. -/
def isClose (places : UInt8) : Bool :=
  (Dyadic.ofFloat? (powerOfTen places)).any fun d ↦ !d.negative &&
    if places.toNat ≤ 22 then d.numerator == 10 ^ places.toNat * d.denominator
    else
      let exact := 10 ^ places.toNat * d.denominator
      decide (d.numerator * 2 ^ 49 ≤ exact * 2 ^ 49 + exact) &&
        decide (exact * 2 ^ 49 ≤ d.numerator * 2 ^ 49 + exact)

theorem isClose_all (places : UInt8) : isClose places = true := by
  -- Sixteen precisions are run at a time: what the kernel keeps of one run is let go before the next.
  have hall : ∀ p q : Fin 16, isClose (.ofNat (16 * p + q)) = true := by
    intro p
    fin_cases p <;> decide +kernel
  have hlt := places.toNat_lt
  have hp := hall ⟨places.toNat / 16, by omega⟩ ⟨places.toNat % 16, by omega⟩
  rwa [Nat.div_add_mod, UInt8.ofNat_toNat] at hp

theorem exactly_scale (places : UInt8) :
    Exactly (powerOfTen places) .positive (scale places) := by
  have hclose := isClose_all places
  rw [isClose, Option.any_eq_true] at hclose
  obtain ⟨d, hd, hclose⟩ := hclose
  rw [Bool.and_eq_true, Bool.not_eq_true'] at hclose
  have hx := exists_exactly_of_ofFloat? hd
  rw [hclose.1] at hx
  rw [scale, hd]
  exact hx

theorem slack_nonneg (places : UInt8) : 0 ≤ slack places := by
  rw [slack]
  split <;> norm_num

theorem slack_le (places : UInt8) : slack places ≤ 1 / 2 ^ 49 := by
  rw [slack]
  split <;> norm_num

theorem abs_scale_sub_le (places : UInt8) :
    |scale places - (10 ^ places.toNat : ℕ)| ≤ slack places * (10 ^ places.toNat : ℕ) := by
  have hclose := isClose_all places
  rw [isClose, Option.any_eq_true] at hclose
  obtain ⟨d, hd, hclose⟩ := hclose
  rw [Bool.and_eq_true, Bool.not_eq_true'] at hclose
  have hden : (0 : ℚ) < d.denominator := Nat.cast_pos.mpr d.denominator_pos
  have hscale : scale places = d.numerator / d.denominator := by
    rw [scale, hd]
    rfl
  rw [hscale, slack]
  obtain ⟨-, hclose⟩ := hclose
  generalize 10 ^ places.toNat = ten at *
  split at hclose
  next hp =>
    rw [beq_iff_eq] at hclose
    rw [if_pos hp, hclose, Nat.cast_mul, mul_div_cancel_right₀ _ hden.ne', sub_self, abs_zero,
      zero_mul]
  next hp =>
    rw [Bool.and_eq_true, decide_eq_true_eq, decide_eq_true_eq] at hclose
    have hhigh : (d.numerator : ℚ) * 2 ^ 49 ≤ ten * d.denominator * 2 ^ 49 + ten * d.denominator := by
      exact_mod_cast hclose.1
    have hlow : (ten : ℚ) * d.denominator * 2 ^ 49 ≤ d.numerator * 2 ^ 49 + ten * d.denominator := by
      exact_mod_cast hclose.2
    rw [if_neg hp, abs_le]
    constructor
    · rw [le_sub_iff_add_le, le_div_iff₀ hden]
      linarith
    · rw [sub_le_iff_le_add, div_le_iff₀ hden]
      linarith

theorem isExactNat_exactlyRepresentable (p : Fin Float.exactlyRepresentablePowersOfTen.size) :
    isExactNat Float.exactlyRepresentablePowersOfTen[p] (10 ^ p.val) = true := by
  revert p
  decide

theorem exactly_exactlyRepresentable (e : ℕ) (h : e < Float.exactlyRepresentablePowersOfTen.size) :
    Exactly Float.exactlyRepresentablePowersOfTen[e] .positive (10 ^ e : ℕ) :=
  exactly_of_isExactNat (isExactNat_exactlyRepresentable ⟨e, h⟩)

theorem exactly_toFloat {n : ℕ} (h : n < 2 ^ 53) : Exactly n.toUInt64.toFloat .positive n := by
  have hn : n.toUInt64.toNat = n := by
    change n % 2 ^ 64 = n
    omega
  change Exactly (.ofModel (.pack (UnpackedFloat.ofUInt64 _ n.toUInt64))) _ _
  rw [UnpackedFloat.ofUInt64, hn, UnpackedFloat.ofNat, UnpackedFloat.ofInt, UnpackedFloat.normalize]
  rcases eq_or_ne n 0 with rfl | hne
  · rw [Nat.cast_zero]
    exact exactly_zero .positive
  · have hpos : compare (n : ℤ) 0 = .gt := compare_gt_iff_gt.mpr (by omega)
    rw [hpos]
    exact exactly_round_natCast h .positive

section Nearest

variable {coefficient : ℕ} {exponent : ℤ}

/-- A decimal that is not short is read in the model of floats. -/
theorem nearestFloat_eq_model (h : ¬(coefficient < 2 ^ 53 ∧ exponent.natAbs ≤ 22)) :
    Decimal.nearestFloat coefficient exponent =
      .ofModel (.pack (UnpackedFloat.ofScientific Format.binary64 coefficient exponent)) := by
  have he : (if decide (exponent < 0) = true then Int.negOfNat exponent.natAbs
      else Int.ofNat exponent.natAbs) = exponent := by
    split
    next hneg =>
      rw [decide_eq_true_eq] at hneg
      rw [Int.negOfNat_eq]
      simp only [Int.ofNat_eq_natCast]
      omega
    next hneg =>
      rw [decide_eq_true_eq] at hneg
      simp only [Int.ofNat_eq_natCast]
      omega
  rw [Decimal.nearestFloat, Float.ofScientific, dif_neg h]
  simp only [he]
  rfl

theorem decimal_pos (hc : coefficient ≠ 0) (exponent : ℤ) :
    (0 : ℚ) < coefficient * 10 ^ exponent :=
  mul_pos (Nat.cast_pos.mpr (Nat.pos_of_ne_zero hc)) (zpow_pos (by norm_num) _)

/-- A small decimal with a small power of ten is one product or quotient of floats. -/
theorem nearestFloat_eq_of_fast (hc : coefficient ≠ 0)
    (hfast : coefficient < 2 ^ 53 ∧ exponent.natAbs ≤ 22) :
    Decimal.nearestFloat coefficient exponent =
      .ofModel (.pack (signed .positive (rounded (coefficient * 10 ^ exponent)))) := by
  have hpos : (0 : ℚ) < coefficient := Nat.cast_pos.mpr (Nat.pos_of_ne_zero hc)
  have hten : (0 : ℚ) < (10 ^ exponent.natAbs : ℕ) := by positivity
  have hx := exactly_toFloat hfast.1
  have hy := exactly_exactlyRepresentable exponent.natAbs
    (by simp only [Float.exactlyRepresentablePowersOfTen]; simp; omega)
  rw [Decimal.nearestFloat, Float.ofScientific, dif_pos hfast]
  dsimp only
  split
  next hneg =>
    rw [decide_eq_true_eq] at hneg
    rw [hx.div hy hpos hten, show exponent = -(exponent.natAbs : ℤ) by omega, zpow_neg,
      zpow_natCast, ← div_eq_mul_inv, Int.natAbs_neg, Int.natAbs_natCast]
    push_cast
    rfl
  next hneg =>
    rw [decide_eq_true_eq] at hneg
    rw [hx.mul hy hpos hten, show exponent = (exponent.natAbs : ℤ) by omega, zpow_natCast,
      Int.natAbs_natCast]
    push_cast
    rfl

/-- The rounding of a decimal that is in reach of floats by its exponent. -/
theorem ofScientific_eq (hc : coefficient ≠ 0) (hlow : -(2048 + (coefficient.log2 : ℤ)) ≤ exponent)
    (hhigh : exponent ≤ 2048) : UnpackedFloat.ofScientific Format.binary64 coefficient exponent =
      signed .positive (rounded (coefficient * 10 ^ exponent)) := by
  rw [UnpackedFloat.ofScientific, dif_neg hc, if_neg (by change ¬ exponent > 2048; omega),
    if_neg (by change ¬ exponent < -(2048 + (coefficient.log2 : ℤ)); omega)]
  split
  next hnonneg =>
    obtain ⟨k, rfl⟩ := Int.eq_ofNat_of_zero_le hnonneg
    have hne : coefficient * 2 ^ 53 * 10 ^ k ≠ 0 := by positivity
    have hlong : 2 ^ 52 ≤ coefficient * 2 ^ 53 * 10 ^ k :=
      calc 2 ^ 52 ≤ 1 * 2 ^ 53 * 1 := by norm_num
        _ ≤ coefficient * 2 ^ 53 * 10 ^ k := Nat.mul_le_mul
          (Nat.mul_le_mul_right _ (Nat.pos_of_ne_zero hc)) (Nat.pos_of_ne_zero (by positivity))
    have hamount : amount (coefficient * 2 ^ 53 * 10 ^ k, -53) = coefficient * 10 ^ (k : ℤ) := by
      rw [amount, zpow_neg, zpow_natCast]
      push_cast
      field_simp
    have hround := roundWithAccuracy_exact (r := (coefficient * 2 ^ 53 * 10 ^ k, -53)) hne
      (.inl hlong) .positive
    rw [hamount] at hround
    simp only [UnpackedFloat.mul, Nat.shiftLeft_eq, Int.toNat_natCast, add_zero]
    exact hround
  next hneg =>
    obtain ⟨k, hk⟩ := Int.eq_ofNat_of_zero_le (show 0 ≤ -exponent by omega)
    have hround := @round_divCore (coefficient, 0) (10 ^ k, 0) hc (by positivity) .positive
    have hamount : amount (coefficient, 0) / amount (10 ^ k, 0) =
        coefficient * 10 ^ exponent := by
      rw [amount, amount, show exponent = -(k : ℤ) by omega, zpow_neg, zpow_natCast]
      push_cast
      rw [mul_one, mul_one, div_eq_mul_inv]
    rw [hamount] at hround
    simp only [hk, Int.toNat_natCast]
    exact hround

/-- A decimal that is in reach of floats by its exponent is rounded from its exact value. -/
theorem nearestFloat_eq (hc : coefficient ≠ 0) (hlow : -(2048 + (coefficient.log2 : ℤ)) ≤ exponent)
    (hhigh : exponent ≤ 2048) : Decimal.nearestFloat coefficient exponent =
      .ofModel (.pack (signed .positive (rounded (coefficient * 10 ^ exponent)))) := by
  by_cases hfast : coefficient < 2 ^ 53 ∧ exponent.natAbs ≤ 22
  · exact nearestFloat_eq_of_fast hc hfast
  · rw [nearestFloat_eq_model hfast, ofScientific_eq hc hlow hhigh]

/-- No power of ten makes a number of nothing. -/
theorem exactly_nearestFloat_zero (exponent : ℤ) :
    Exactly (Decimal.nearestFloat 0 exponent) .positive 0 := by
  by_cases hfast : 0 < 2 ^ 53 ∧ exponent.natAbs ≤ 22
  · have hx := exactly_toFloat hfast.1
    have hy := exactly_exactlyRepresentable exponent.natAbs
      (by simp only [Float.exactlyRepresentablePowersOfTen]; simp; omega)
    rw [Nat.cast_zero] at hx
    rw [Decimal.nearestFloat, Float.ofScientific, dif_pos hfast]
    dsimp only
    split
    · rw [hx.zero_div hy (by positivity)]
      exact exactly_zero .positive
    · rw [hx.mul_zero hy]
      exact exactly_zero .positive
  · rw [nearestFloat_eq_model hfast, UnpackedFloat.ofScientific, dif_pos rfl]
    exact exactly_zero .positive

/-- A decimal whose exponent is below those in reach is read as zero. -/
theorem exactly_nearestFloat_of_lt (hc : coefficient ≠ 0)
    (hlow : exponent < -(2048 + (coefficient.log2 : ℤ))) :
    Exactly (Decimal.nearestFloat coefficient exponent) .positive 0 := by
  rw [nearestFloat_eq_model (by omega), UnpackedFloat.ofScientific, dif_neg hc,
    if_neg (by change ¬ exponent > 2048; omega),
    if_pos (by change exponent < -(2048 + (coefficient.log2 : ℤ)); exact hlow)]
  exact exactly_zero .positive

/-- A decimal whose exponent is above those in reach is read as the infinity. -/
theorem nearestFloat_of_gt (hc : coefficient ≠ 0) (hhigh : 2048 < exponent) :
    Decimal.nearestFloat coefficient exponent = .ofModel (.pack (.infinity .positive)) := by
  rw [nearestFloat_eq_model (by omega), UnpackedFloat.ofScientific, dif_neg hc,
    if_pos (by change exponent > 2048; exact hhigh)]

/-- A decimal the exponent of which is below those in reach is less than one. -/
theorem decimal_lt_one (h : exponent < -(2048 + (coefficient.log2 : ℤ))) :
    (coefficient : ℚ) * 10 ^ exponent < 1 := by
  have hlt : (coefficient : ℚ) < 10 ^ (-exponent) := by
    calc (coefficient : ℚ) < 2 ^ (coefficient.log2 + 1) := by
          exact_mod_cast Nat.lt_log2_self
      _ ≤ 10 ^ (coefficient.log2 + 1) := pow_le_pow_left₀ (by norm_num) (by norm_num) _
      _ = 10 ^ ((coefficient.log2 + 1 : ℕ) : ℤ) := (zpow_natCast _ _).symm
      _ ≤ 10 ^ (-exponent) := zpow_le_zpow_right₀ (by norm_num) (by push_cast; omega)
  calc (coefficient : ℚ) * 10 ^ exponent < 10 ^ (-exponent) * 10 ^ exponent :=
        mul_lt_mul_of_pos_right hlt (zpow_pos (by norm_num) _)
    _ = 1 := by rw [← zpow_add₀ (by norm_num), neg_add_cancel, zpow_zero]

/-- What a decimal is read as: its exact value, rounded, unless its exponent is out of reach. -/
inductive IsNearest (coefficient : ℕ) (exponent : ℤ) (x : Float) : Prop
  | zero (hx : Exactly x .positive 0) (hlt : (coefficient : ℚ) * 10 ^ exponent < 1)
  | rounded (hc : coefficient ≠ 0)
    (hx : x = .ofModel (.pack (signed .positive (rounded (coefficient * 10 ^ exponent)))))
  | infinite (hc : coefficient ≠ 0) (hhigh : 2048 < exponent)
    (hx : x = .ofModel (.pack (.infinity .positive)))

theorem isNearest_nearestFloat (coefficient : ℕ) (exponent : ℤ) :
    IsNearest coefficient exponent (Decimal.nearestFloat coefficient exponent) := by
  rcases eq_or_ne coefficient 0 with rfl | hc
  · exact .zero (exactly_nearestFloat_zero exponent) (by rw [Nat.cast_zero, zero_mul]; exact one_pos)
  rcases lt_or_ge exponent (-(2048 + (coefficient.log2 : ℤ))) with hlow | hlow
  · exact .zero (exactly_nearestFloat_of_lt hc hlow) (decimal_lt_one hlow)
  rcases le_or_gt exponent 2048 with hhigh | hhigh
  · exact .rounded hc (nearestFloat_eq hc hlow hhigh)
  · exact .infinite hc hhigh (nearestFloat_of_gt hc hhigh)

/-- A decimal is read as a float without minus sign. -/
theorem exactly_nearestFloat (h : (Decimal.nearestFloat coefficient exponent).isFinite = true) :
    ∃ a, Exactly (Decimal.nearestFloat coefficient exponent) .positive a := by
  cases isNearest_nearestFloat coefficient exponent with
  | zero hx => exact ⟨0, hx⟩
  | rounded hc hx =>
    rw [hx] at h ⊢
    exact ⟨_, exactly_ofModel_pack (canonical_rounded (decimal_pos hc exponent)) h⟩
  | infinite hc hhigh hx =>
    rw [hx] at h
    exact absurd h (by decide)

end Nearest

end FormulaQuiz.Rounding
