import FormulaQuiz.Proofs.Acceptance
import FormulaQuiz.Proofs.Limits

/-!
# How far deviations go

The deviations of a range are counted off from its lower end in float arithmetic.  Every operation
adds an error, so the last one may lie a little beyond the upper end; but it cannot lie far beyond.
-/

namespace FormulaQuiz

open Float.Model Rounding

namespace Rounding

/-! ## Counts -/

section Counts

variable {x : Float} {a : ℚ}

/-- A float that is a positive number has no minus sign. -/
theorem Is.exactly_of_pos (h : Is x a) (ha : 0 < a) : Exactly x .positive a := by
  obtain ⟨s, b, hx, rfl⟩ := h
  cases s with
  | positive => exact hx
  | negative => exact absurd ha (not_lt.mpr (neg_nonpos.mpr hx.nonneg))

/-- A count is a float. -/
theorem is_ofNat {n : ℕ} (hn : n < 2 ^ 53) : Is (Float.ofNat n) n := by
  rcases eq_or_ne n 0 with rfl | hne
  · rw [Nat.cast_zero]
    exact is_zero
  · have hpos : (0 : ℚ) < n := Nat.cast_pos.mpr (Nat.pos_of_ne_zero hne)
    have hlt : (n : ℚ) < 2 ^ 53 := by exact_mod_cast hn
    change Is (Decimal.nearestFloat n 0) n
    rw [nearestFloat_eq hne (by omega) (by norm_num), zpow_zero, mul_one]
    have hx := exactly_rounded hpos (hlt.trans two_pow_lt_overflow) .positive
    rw [amount_rounded_natCast hne hn] at hx
    exact hx.is_of_positive

/-- The integer that a float is truncated to is not greater. -/
theorem roundToInt_le (r : ℕ × ℤ) :
    ((UnpackedFloat.roundToInt .positive r.1 r.2).toNat : ℚ) ≤ amount r := by
  have hshifted : Approximates (r.1 <<< r.2.toNat) ((r.1 : ℚ) * 2 ^ r.2.toNat) .exact := by
    change (r.1 : ℚ) * 2 ^ r.2.toNat = (r.1 <<< r.2.toNat : ℕ)
    rw [Nat.shiftLeft_eq]
    push_cast
    rfl
  have hle := (hshifted.ofMantissaAndAccuracy.shiftRight (0 - (r.2 - r.2.toNat)).toNat).le
  have hamount : (r.1 : ℚ) * 2 ^ r.2.toNat / 2 ^ (0 - (r.2 - r.2.toNat)).toNat = amount r := by
    rw [amount, ← zpow_natCast, ← zpow_natCast, mul_div_assoc, ← zpow_sub₀ two_ne_zero]
    congr 2
    omega
  rw [hamount] at hle
  simp only [UnpackedFloat.roundToInt, UnpackedFloat.decreaseExponent,
    UnpackedFloat.shiftToExponent, sub_zero]
  exact hle

/-- A float is not less than the count that it is taken for. -/
theorem Exactly.toNat_toUInt64_le (h : Exactly x .positive a) : (x.toUInt64.toNat : ℚ) ≤ a := by
  obtain ⟨r, -, -, hx, rfl⟩ := h
  have htrunc :
      ((UnpackedFloat.toInt 0 (UInt64.size - 1) x.toModel.unpack).toNat : ℚ) ≤ amount r := by
    rw [hx, signed]
    split
    · exact amount_nonneg r
    · exact roundToInt_le r
  refine le_trans ?_ htrunc
  change ((UInt64.ofNatClamp _).toNat : ℚ) ≤ _
  rw [UInt64.ofNatClamp]
  split
  · rw [UInt64.toNat_ofNatLT]
  next hsize =>
    rw [UInt64.toNat_ofNatLT, Nat.cast_le]
    exact (Nat.sub_le _ _).trans (not_lt.mp hsize)

end Counts

end Rounding

/-! ## Deviations -/

namespace DecoyRange

variable {range : DecoyRange} {ds : List Float}

/-- The number of steps that the deviations of a range go. -/
def steps (range : DecoyRange) : ℕ := (toIntegral .down (range.span + 1e-9)).toUInt64.toNat

/-- The deviations of a range, with what is checked before they are counted off. -/
theorem of_deviations_eq_ok (h : range.deviations = .ok ds) :
    range.step.isFinite = true ∧ 0 < range.step ∧ ¬ range.min > range.max ∧
      range.span.isFinite = true ∧ ¬ range.span ≥ Float.ofNat Fault.deviationLimit ∧
      ds = ((List.range (range.steps + 1)).map range.deviation).filter fun d ↦ d.abs > 1e-12 := by
  rw [deviations] at h
  dsimp only at h
  split at h
  · cases h
  next hstep =>
    split at h
    · cases h
    next hle =>
      split at h
      · cases h
      next hspan =>
        simp only [Bool.not_eq_true', Bool.and_eq_false_iff, not_or, Bool.not_eq_false,
          decide_eq_true_eq, Bool.or_eq_true, decide_eq_true_eq] at hstep hspan
        cases h
        exact ⟨hstep.1, hstep.2, hle, hspan.1, hspan.2, rfl⟩

section Bounds

variable {low high width δ σ τ t B : ℚ} {i : ℕ}

/-- Counting steps by a rounded quotient of a rounded width leads beyond the width by a part of a
step at most. -/
theorem mul_le_of_roundsTo (hwidth : 0 ≤ width) (ht : 0 < t) (hδ : RoundsTo width δ)
    (hσ : RoundsTo (δ / t) σ) (hτ : RoundsTo (σ + billionth) τ) (hi : (i : ℚ) ≤ τ) :
    i * t ≤ width + t / 10 ^ 9 + (width + 1) / 2 ^ 50 := by
  rcases Nat.eq_zero_or_pos i with rfl | hpos
  · rw [Nat.cast_zero, zero_mul]
    positivity
  · have hone : (1 : ℚ) ≤ i := by exact_mod_cast hpos
    have hδ0 := hδ.nonneg hwidth
    have hσ0 := hσ.nonneg (div_nonneg hδ0 ht.le)
    have hδle := (abs_le.mp hδ.abs_sub_le_add_one).2
    have hσle := (abs_le.mp hσ.abs_sub_le_add_one).2
    have hτle := (abs_le.mp hτ.abs_sub_le_add_one).2
    rw [abs_of_nonneg hwidth] at hδle
    rw [abs_of_nonneg (div_nonneg hδ0 ht.le)] at hσle
    rw [abs_of_nonneg (add_nonneg hσ0 billionth_pos.le)] at hτle
    -- in percent, so that the quotients are gone
    have hquotient : σ * t ≤ δ + (δ + t) / 2 ^ 53 := by
      have hscaled : σ * t ≤ (δ / t + (δ / t + 1) / 2 ^ 53) * t :=
        mul_le_mul_of_nonneg_right (by linarith) ht.le
      refine hscaled.trans_eq ?_
      field_simp
    have hmargin : billionth * t ≤ (1 / 10 ^ 9 + 1 / 10 ^ 25) * t :=
      mul_le_mul_of_nonneg_right billionth_le ht.le
    have hcounted : i * t ≤ (σ * t + billionth * t) + (σ * t + billionth * t + t) / 2 ^ 53 := by
      have hscaled : i * t ≤ (σ + billionth + (σ + billionth + 1) / 2 ^ 53) * t :=
        mul_le_mul_of_nonneg_right (by linarith) ht.le
      refine hscaled.trans_eq ?_
      ring
    have hstep : t ≤ i * t := le_mul_of_one_le_left ht.le hone
    norm_num at *
    linarith

/-- The ends and the step of a range are numbers; the ends are in order and not too far apart, and
the step leads upward. -/
structure Measures (range : DecoyRange) (low high t : ℚ) : Prop where
  min : Is range.min low
  max : Is range.max high
  step : Is range.step t
  le : low ≤ high
  pos : 0 < t
  width : high - low < overflow
  span : range.span.isFinite = true

/-- The number of steps is a quotient of the width, rounded with a margin. -/
theorem Measures.exists_steps_le (h : range.Measures low high t) :
    ∃ δ σ τ, RoundsTo (high - low) δ ∧ RoundsTo (δ / t) σ ∧ Is range.span σ ∧
      RoundsTo (σ + billionth) τ ∧ Is (range.span + 1e-9) τ ∧ (range.steps : ℚ) ≤ τ := by
  have hwidth := sub_nonneg.mpr h.le
  obtain ⟨δ, hδ, hδround⟩ := h.max.exists_sub h.min
    (h.max.isFinite_sub h.min (by rw [abs_of_nonneg hwidth]; exact h.width))
  obtain ⟨σ, hσ, hσround⟩ := hδ.exists_div h.step h.pos.ne' h.span
  have hσ0 := hσround.nonneg (div_nonneg (hδround.nonneg hwidth) h.pos.le)
  have hsum0 := add_nonneg hσ0 billionth_pos.le
  have hsum : |σ + billionth| < overflow := by
    rw [abs_of_nonneg hsum0]
    linarith [(abs_le.mp hσ.abs_le_largest).2, largest_add_two_lt, billionth_le]
  obtain ⟨τ, hτ, hτround⟩ := hσ.exists_add is_billionth (hσ.isFinite_add is_billionth hsum)
  have hτpos : 0 < τ := by
    have hlow := (abs_le.mp hτround.abs_sub_le_add_one).1
    rw [abs_of_nonneg hsum0, billionth] at hlow
    linarith
  obtain ⟨n, hn, hnle, -⟩ := (hτ.exactly_of_pos hτpos).toIntegral_down
  exact ⟨δ, σ, τ, hδround, hσround, hσ, hτround, hτ, hn.toNat_toUInt64_le.trans hnle⟩

/-- There are not many steps. -/
theorem Measures.steps_le (h : range.Measures low high t)
    (hlimit : ¬ range.span ≥ Float.ofNat Fault.deviationLimit) :
    range.steps ≤ Fault.deviationLimit := by
  obtain ⟨δ, σ, τ, hδ, hσ, hspan, hτ, -, hsteps⟩ := h.exists_steps_le
  have hσ0 := hσ.nonneg (div_nonneg (hδ.nonneg (sub_nonneg.mpr h.le)) h.pos.le)
  have hlt : σ < Fault.deviationLimit :=
    not_le.mp fun hle ↦ hlimit (((is_ofNat (by decide)).le_iff hspan).mpr hle)
  have hτle := hτ.abs_sub_le_add_one
  rw [abs_of_nonneg (add_nonneg hσ0 billionth_pos.le)] at hτle
  have hcount : (range.steps : ℚ) < (Fault.deviationLimit + 1 : ℕ) := by
    rw [Fault.deviationLimit] at *
    push_cast at *
    linarith [(abs_le.mp hτle).2, billionth_le]
  exact Nat.lt_succ_iff.mp (by exact_mod_cast hcount)

/-- What is counted off lies within the width of the range, up to rounding and a part of a step. -/
theorem Measures.mul_le (h : range.Measures low high t) (hi : i ≤ range.steps) :
    i * t ≤ high - low + t / 10 ^ 9 + (high - low + 1) / 2 ^ 50 := by
  obtain ⟨δ, σ, τ, hδ, hσ, -, hτ, -, hsteps⟩ := h.exists_steps_le
  have hcount : (i : ℚ) ≤ τ := le_trans (by exact_mod_cast hi) hsteps
  exact mul_le_of_roundsTo (sub_nonneg.mpr h.le) h.pos hδ hσ hτ hcount

/-- What is counted off lies not far beyond the width. -/
theorem Measures.mul_le_add (h : range.Measures low high t) (hi : i ≤ range.steps) :
    i * t ≤ (high - low) * (1 + 1 / 10 ^ 6) + 1 / 10 ^ 6 := by
  have hwidth := sub_nonneg.mpr h.le
  rcases Nat.eq_zero_or_pos i with rfl | hpos
  · rw [Nat.cast_zero, zero_mul]
    positivity
  · have hstep : t ≤ i * t := le_mul_of_one_le_left h.pos.le (by exact_mod_cast hpos)
    linarith [h.mul_le hi]

/-- A percentage that is counted off lies between the ends, up to rounding. -/
theorem Measures.exists_is_percentage (h : range.Measures low high t)
    (hlimit : ¬ range.span ≥ Float.ofNat Fault.deviationLimit) (hlow : |low| ≤ B)
    (hhigh : |high| ≤ B) (hB : 16 * (B + 1) ≤ overflow) (hi : i ≤ range.steps) :
    ∃ p, Is (range.min + Float.ofNat i * range.step) p ∧
      |p| ≤ B * (1 + 1 / 10 ^ 5) + 1 / 10 ^ 5 := by
  have hlt : i < 2 ^ 53 := (hi.trans (h.steps_le hlimit)).trans_lt (by decide)
  have hcounted := h.mul_le_add hi
  have hcounted0 : 0 ≤ i * t := mul_nonneg i.cast_nonneg h.pos.le
  obtain ⟨hlow', -⟩ := abs_le.mp hlow
  obtain ⟨-, hhigh'⟩ := abs_le.mp hhigh
  have hfinite : (Float.ofNat i * range.step).isFinite = true := by
    refine ((is_ofNat hlt).isFinite_mul_iff h.step).mpr ?_
    rw [abs_of_nonneg hcounted0]
    linarith
  obtain ⟨m, hm, hround⟩ := (is_ofNat hlt).exists_mul h.step hfinite
  have hm0 := hround.nonneg hcounted0
  have hmle := hround.abs_le
  rw [abs_of_nonneg hcounted0, abs_of_nonneg hm0] at hmle
  have hsum : |low + m| ≤ B * (1 + 1 / 10 ^ 6 * 8) + 1 / 10 ^ 6 * 8 := by
    rw [abs_le]
    constructor <;> linarith
  obtain ⟨p, hp, hpround⟩ := h.min.exists_add hm (h.min.isFinite_add hm (by linarith))
  exact ⟨p, hp, by linarith [hpround.abs_le]⟩

/-- A deviation is a hundredth of a number between the ends, up to rounding. -/
theorem Measures.exists_is_deviation (h : range.Measures low high t)
    (hlimit : ¬ range.span ≥ Float.ofNat Fault.deviationLimit) (hlow : |low| ≤ B)
    (hhigh : |high| ≤ B) (hB : 16 * (B + 1) ≤ overflow) (hi : i ≤ range.steps) :
    ∃ w, Is (range.deviation i) w ∧ |w| ≤ B / 100 * (1 + 1 / 10 ^ 4) + 1 / 50 := by
  obtain ⟨p, hp, hple⟩ := h.exists_is_percentage hlimit hlow hhigh hB hi
  obtain ⟨u, hu, hule⟩ := exists_is_roundTo hp 9
  have hB0 := (abs_nonneg low).trans hlow
  have hhundred : Is 100 (100 : ℕ) := is_ofNat (by decide)
  have hsize : |u / (100 : ℕ)| ≤ B / 100 * (1 + 1 / 10 ^ 4 / 2) + 1 / 75 := by
    rw [abs_div, Nat.abs_cast, div_le_iff₀ (by norm_num)]
    push_cast
    linarith
  obtain ⟨w, hw, hround⟩ := hu.exists_div hhundred (by norm_num)
    (hu.isFinite_div hhundred (by norm_num) (by linarith))
  exact ⟨w, hw, by linarith [hround.abs_le]⟩

end Bounds

end DecoyRange

end FormulaQuiz
