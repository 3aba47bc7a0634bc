import FormulaQuiz.Proofs.Deviations
import FormulaQuiz.Proofs.Neighbours

/-!
# The spread of deviations

Deviations are counted off from the lower end of a range in steps, and rounded as percentages with
nine decimal places.  As the number of steps is taken with a margin, the last one may be beyond the
upper end by a small part of a step; but for this and for rounding all are between the ends.
-/

namespace FormulaQuiz

open Rounding

/-! ## Finite parts -/

namespace Rounding

open Float.Model Float.Model.UnpackedFloat

variable {x y : Float}

/-- The parts of a finite sum are finite. -/
theorem isFinite_of_add (h : (x + y).isFinite = true) :
    x.isFinite = true ∧ y.isFinite = true := by
  have hadd : (UnpackedFloat.add .binary64 x.toModel.unpack y.toModel.unpack).isFinite = true :=
    isFinite_of_pack h
  change x.toModel.unpack.isFinite = true ∧ y.toModel.unpack.isFinite = true
  generalize x.toModel.unpack = u, y.toModel.unpack = u' at *
  cases u <;> cases u' <;> first
    | exact ⟨rfl, rfl⟩
    | exact Bool.noConfusion hadd
    | (rename_i s t; cases s <;> cases t <;> exact Bool.noConfusion hadd)

/-- The parts of a finite difference are finite. -/
theorem isFinite_of_sub (h : (x - y).isFinite = true) :
    x.isFinite = true ∧ y.isFinite = true := by
  have hsub : (UnpackedFloat.sub .binary64 x.toModel.unpack y.toModel.unpack).isFinite = true :=
    isFinite_of_pack h
  change x.toModel.unpack.isFinite = true ∧ y.toModel.unpack.isFinite = true
  generalize x.toModel.unpack = u, y.toModel.unpack = u' at *
  cases u <;> cases u' <;> first
    | exact ⟨rfl, rfl⟩
    | exact Bool.noConfusion hsub
    | (rename_i s t; cases s <;> cases t <;> exact Bool.noConfusion hsub)

/-- What has a finite quotient is finite. -/
theorem isFinite_of_div (h : (x / y).isFinite = true) : x.isFinite = true := by
  have hdiv : (UnpackedFloat.div .binary64 x.toModel.unpack y.toModel.unpack).isFinite = true :=
    isFinite_of_pack h
  change x.toModel.unpack.isFinite = true
  generalize x.toModel.unpack = u, y.toModel.unpack = u' at *
  cases u <;> cases u' <;> first
    | rfl
    | exact nomatch hdiv

/-- A difference is finite just if it lies below the limit. -/
theorem Is.isFinite_sub_iff {v w : ℚ} (hx : Is x v) (hy : Is y w) :
    (x - y).isFinite = true ↔ |v - w| < overflow := by
  refine ⟨fun h ↦ ?_, hx.isFinite_sub hy⟩
  rcases eq_or_ne (v - w) 0 with h0 | h0
  · rw [h0, abs_zero]
    exact (by norm_num : (0 : ℚ) < 2 ^ 53).trans two_pow_lt_overflow
  · rw [hx.sub hy h0] at h
    exact (isFinite_closest_iff h0).mp h

end Rounding

/-! ## Nine decimal places -/

section Places

variable {x : Float} {v : ℚ}

theorem scale_nine : scale 9 = 10 ^ 9 := by
  have hexact := abs_scale_sub_le 9
  rw [slack, if_pos (by decide), zero_mul, show (9 : UInt8).toNat = 9 from rfl] at hexact
  have heq := sub_eq_zero.mp (abs_nonpos_iff.mp hexact)
  rw [heq]
  norm_num

/-- A value is moved by half of a billionth at most when it is rounded to nine decimal places, but
for the errors of rounding. -/
theorem exists_is_roundTo_nine (h : Is x v) :
    ∃ u, Is (roundTo x 9) u ∧ |u - v| ≤ 1 / (2 * 10 ^ 9) + (|v| + 1) / 2 ^ 51 := by
  by_cases hscaled : (x * powerOfTen 9).isFinite = true
  · obtain ⟨k, hunits, hk⟩ := exists_inUnits h hscaled
    rw [scale_nine] at hunits hk
    refine ⟨_, hk, ?_⟩
    have hnear := (roundsTo_near (v * 10 ^ 9)).abs_sub_le_add_one
    have hquotient : |(k : ℚ) / 10 ^ 9 - v| ≤ 1 / (2 * 10 ^ 9) + (|v| + 1 / 10 ^ 9) / 2 ^ 53 := by
      have hclose := abs_sub_le (k : ℚ) (near (v * 10 ^ 9)) (v * 10 ^ 9)
      have hscale : |(k : ℚ) / 10 ^ 9 - v| = |k - v * 10 ^ 9| / 10 ^ 9 := by
        rw [div_sub' (by norm_num), abs_div, abs_of_pos (by norm_num : (0 : ℚ) < 10 ^ 9),
          mul_comm (10 ^ 9) v]
      have hsize : |v * 10 ^ 9| = |v| * 10 ^ 9 := by
        rw [abs_mul, abs_of_pos (by norm_num : (0 : ℚ) < 10 ^ 9)]
      rw [hscale, div_le_iff₀ (by norm_num)]
      rw [hsize] at hnear
      have hhalf := hunits.close
      norm_num at *
      linarith
    have hround := (roundsTo_near ((k : ℚ) / 10 ^ 9)).abs_sub_le_add_one
    have hsize := abs_sub_abs_le_abs_sub ((k : ℚ) / 10 ^ 9) v
    have hparts := abs_sub_le (near ((k : ℚ) / 10 ^ 9)) ((k : ℚ) / 10 ^ 9) v
    norm_num at *
    linarith [abs_nonneg v]
  · rw [roundTo_of_not_scaled (Bool.not_eq_true _ ▸ hscaled)]
    refine ⟨v, h, ?_⟩
    rw [sub_self, abs_zero]
    positivity

end Places

/-! ## Deviations -/

namespace DecoyRange

variable {range : DecoyRange} {ds : List Float} {low high t B : ℚ} {i : ℕ}

/-- The ends and the step of an accepted range are numbers. -/
theorem exists_measures (h : range.deviations = .ok ds) :
    ∃ low high t, range.Measures low high t := by
  obtain ⟨hstep, hpos, hle, hspan, -, -⟩ := of_deviations_eq_ok h
  have hwidth := isFinite_of_div hspan
  obtain ⟨hmax, hmin⟩ := isFinite_of_sub hwidth
  obtain ⟨low, hlow⟩ := exists_is hmin
  obtain ⟨high, hhigh⟩ := exists_is hmax
  obtain ⟨t, ht⟩ := exists_is hstep
  refine ⟨low, high, t, hlow, hhigh, ht, not_lt.mp fun hlt ↦ hle ((hhigh.lt_iff hlow).mpr hlt),
    (is_zero.lt_iff ht).mp hpos, ?_, hspan⟩
  exact (le_abs_self _).trans_lt ((hhigh.isFinite_sub_iff hlow).mp hwidth)

/-- If the span with its margin is below the limit, the number of deviations is not above it. -/
theorem Measures.length_le (h : range.Measures low high t) (hds : range.deviations = .ok ds)
    (hlt : range.span + 1e-9 < Float.ofNat Fault.deviationLimit) :
    ds.length ≤ Fault.deviationLimit := by
  obtain ⟨-, -, τ, -, -, -, -, hτ, hsteps⟩ := h.exists_steps_le
  have hbelow : τ < Fault.deviationLimit := (hτ.lt_iff (is_ofNat (by decide))).mp hlt
  have hcount : range.steps < Fault.deviationLimit := by exact_mod_cast hsteps.trans_lt hbelow
  obtain ⟨-, -, -, -, -, rfl⟩ := of_deviations_eq_ok hds
  calc _ ≤ ((List.range (range.steps + 1)).map range.deviation).length := List.length_filter_le _ _
    _ = range.steps + 1 := by rw [List.length_map, List.length_range]
    _ ≤ Fault.deviationLimit := hcount

/-- A percentage that is counted off is calculated with small errors. -/
theorem Measures.exists_abs_percentage_sub_le (h : range.Measures low high t)
    (hlimit : ¬ range.span ≥ Float.ofNat Fault.deviationLimit) (hlow : |low| ≤ B)
    (hhigh : |high| ≤ B) (hB : 16 * (B + 1) ≤ overflow) (hi : i ≤ range.steps) :
    ∃ p, Is (range.min + Float.ofNat i * range.step) p ∧ |p - (low + i * t)| ≤ (B + 1) / 2 ^ 51 ∧
      |p| ≤ B * (1 + 1 / 10 ^ 5) + 1 / 10 ^ 5 := by
  obtain ⟨p, hp, hsize⟩ := h.exists_is_percentage hlimit hlow hhigh hB hi
  have hcount : i < 2 ^ 53 := (hi.trans (h.steps_le hlimit)).trans_lt (by decide)
  obtain ⟨m, hm, hmround⟩ :=
    (is_ofNat hcount).exists_mul h.step (isFinite_of_add hp.isFinite).2
  obtain ⟨p', hp', hpround⟩ := h.min.exists_add hm hp.isFinite
  obtain rfl := hp.unique hp'
  refine ⟨p, hp, ?_, hsize⟩
  have hcounted0 : 0 ≤ i * t := mul_nonneg i.cast_nonneg h.pos.le
  have hcounted := h.mul_le_add hi
  have hmerror := hmround.abs_sub_le_add_one
  have hperror := hpround.abs_sub_le_add_one
  rw [abs_of_nonneg hcounted0] at hmerror
  have hsum : |low + m| ≤ |p| + |p - (low + m)| := by
    have := abs_sub_abs_le_abs_sub (low + m) p
    rw [abs_sub_comm] at this
    linarith
  have hsplit : p - (low + i * t) = p - (low + m) + (m - i * t) := by ring
  have hparts := hsplit ▸ abs_add_le (p - (low + m)) (m - i * t)
  linarith [(abs_le.mp hlow).1, (abs_le.mp hhigh).2]

/-- By how much a deviation of a range with ends up to `B`, in percent, may be off by rounding. -/
def blur (B : ℚ) : ℚ := 6 / 10 ^ 10 + B / 2 ^ 48

/-- A deviation is a hundredth of what is counted off, but for rounding. -/
theorem Measures.exists_abs_deviation_sub_le (h : range.Measures low high t)
    (hlimit : ¬ range.span ≥ Float.ofNat Fault.deviationLimit) (hlow : |low| ≤ B)
    (hhigh : |high| ≤ B) (hB : 16 * (B + 1) ≤ overflow) (hi : i ≤ range.steps) :
    ∃ w, Is (range.deviation i) w ∧ |100 * w - (low + i * t)| ≤ 55 / 10 ^ 11 + B / 2 ^ 49 := by
  obtain ⟨w, hw, -⟩ := h.exists_is_deviation hlimit hlow hhigh hB hi
  obtain ⟨p, hp, hperror, hpsize⟩ := h.exists_abs_percentage_sub_le hlimit hlow hhigh hB hi
  obtain ⟨u, hu, huerror⟩ := exists_is_roundTo_nine hp
  have hhundred : Is 100 (100 : ℕ) := is_ofNat (by decide)
  obtain ⟨w', hw', hround⟩ := hu.exists_div hhundred (by norm_num) hw.isFinite
  obtain rfl := hw.unique hw'
  refine ⟨w, hw, ?_⟩
  have hB0 := (abs_nonneg low).trans hlow
  have hwerror := hround.abs_sub_le_add_one
  rw [abs_div, Nat.abs_cast, Nat.cast_ofNat] at hwerror
  have husize := abs_sub_abs_le_abs_sub u p
  have hscaled : |100 * w - u| = 100 * |w - u / 100| := by
    rw [show 100 * w - u = 100 * (w - u / 100) by ring, abs_mul,
      abs_of_pos (by norm_num : (0 : ℚ) < 100)]
  have hsplit : 100 * w - (low + i * t) = (100 * w - u) + (u - p) + (p - (low + i * t)) := by ring
  have hparts := hsplit ▸ abs_add_le (100 * w - u + (u - p)) (p - (low + i * t))
  have hparts' := abs_add_le (100 * w - u) (u - p)
  linarith

/-- The deviations of a range lie between its ends but for rounding and a small part of a step, and
there are not too many. -/
structure Spreads (range : DecoyRange) (ds : List Float) : Prop where
  /-- The span with its margin tells whether there are too many. -/
  length_le : range.span + 1e-9 < Float.ofNat Fault.deviationLimit →
    ds.length ≤ Fault.deviationLimit
  /-- The bounds on all deviations in percent, if the ends are not near the limit of floats. -/
  within : ∃ low high t, Is range.min low ∧ Is range.max high ∧ Is range.step t ∧
    ∀ B, |low| ≤ B → |high| ≤ B → 16 * (B + 1) ≤ overflow → ∀ d ∈ ds, ∃ w, Is d w ∧
      low - blur B ≤ 100 * w ∧ 100 * w ≤ high + t / 10 ^ 9 + blur B

/-- The deviations of an accepted range spread over it. -/
theorem spreads_of_deviations (h : range.deviations = .ok ds) : range.Spreads ds := by
  obtain ⟨low, high, t, hmeasures⟩ := exists_measures h
  refine ⟨hmeasures.length_le h, low, high, t, hmeasures.min, hmeasures.max, hmeasures.step,
    fun B hlow hhigh hB d hd ↦ ?_⟩
  obtain ⟨-, -, -, -, hlimit, rfl⟩ := of_deviations_eq_ok h
  obtain ⟨i, hi, rfl⟩ := List.mem_map.mp (List.mem_filter.mp hd).1
  have hsteps := Nat.lt_succ_iff.mp (List.mem_range.mp hi)
  obtain ⟨w, hw, herror⟩ := hmeasures.exists_abs_deviation_sub_le hlimit hlow hhigh hB hsteps
  have hcounted := hmeasures.mul_le hsteps
  have hcounted0 : 0 ≤ i * t := mul_nonneg i.cast_nonneg hmeasures.pos.le
  obtain ⟨hbelow, habove⟩ := abs_le.mp herror
  refine ⟨w, hw, ?_, ?_⟩ <;> rw [blur]
  · linarith [(abs_nonneg low).trans hlow]
  · linarith [(abs_le.mp hlow).1, (abs_le.mp hhigh).2]

/-- The range that is taken if none is given has deviations, which spread over it. -/
theorem exists_spreads_defaultDecoys :
    ∃ ds, defaultDecoys.deviations = .ok ds ∧ defaultDecoys.Spreads ds := by
  obtain ⟨ds, hds, -⟩ := Except.exists_eq_ok_of_any
    (show defaultDecoys.deviations.toOption.any (fun _ ↦ true) = true by decide +kernel)
  exact ⟨ds, hds, spreads_of_deviations hds⟩

/-- A range whose second step ends a little beyond it. -/
def nearlyTwoSteps : DecoyRange := ⟨20, 39.99999999, 20⟩

/-- A margin of a part of a step may be more than a billionth of a percent. -/
theorem not_forall_deviation_within : ¬ ∀ (range : DecoyRange) (ds : List Float),
    range.deviations = .ok ds → ds.length ≤ Fault.deviationLimit ∧
      ∀ d ∈ ds, ∃ low high w, Is range.min low ∧ Is range.max high ∧ Is d w ∧
        low - 1 / 10 ^ 9 ≤ 100 * w ∧ 100 * w ≤ high + 1 / 10 ^ 9 := by
  intro hall
  obtain ⟨ds, hds, hany⟩ := Except.exists_eq_ok_of_any
    (show nearlyTwoSteps.deviations.toOption.any (·.any fun d ↦
      Dyadic.ofFloat? d == some ⟨false, 7205759403792794, -54⟩) = true by decide +kernel)
  obtain ⟨d, hd, hvalue⟩ := List.any_eq_true.mp hany
  obtain ⟨low, high, w, -, hhigh, hw, -, hle⟩ := (hall _ ds hds).2 d hd
  have hfar : Is d ((7205759403792794 : ℕ) / 2 ^ 54) := is_of_ofFloat? (beq_iff_eq.mp hvalue)
  have hend : Is nearlyTwoSteps.max ((5629499532805745 : ℕ) / 2 ^ 47) :=
    is_of_ofFloat? (by decide +kernel)
  rw [hw.unique hfar, hhigh.unique hend] at hle
  norm_num at hle

end DecoyRange

end FormulaQuiz
