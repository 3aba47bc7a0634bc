import FormulaQuiz.Proofs.Infinities
import FormulaQuiz.Proofs.Printing
import FormulaQuiz.Proofs.Trial
import FormulaQuiz.Variation.Draw

/-!
# Values of a range

A value at an author's precision is finite if the value itself is.  A range that has been checked can
be drawn from: its width has a finite scale, so what is drawn is defined, and its ends at the
author's precision are finite, so what is drawn and rounded goes to a number between them.
-/

namespace FormulaQuiz

open Float.Model Rounding

/-! ## Values at a precision -/

section RoundTo

variable {x : Float} {s : UnpackedFloat.Sign}

/-- A finite value is finite at a precision. -/
theorem isFinite_roundTo (h : x.isFinite = true) (places : UInt8) :
    (roundTo x places).isFinite = true := by
  by_cases hscaled : (x * powerOfTen places).isFinite = true
  · obtain ⟨t, b, hb⟩ := exists_exactly hscaled
    obtain ⟨n, -, -, -, hn⟩ := exists_onGrid hb
    exact hn.exactly.isFinite
  · rw [roundTo]
    dsimp only
    rwa [if_neg hscaled]

/-- An infinity has no precision. -/
theorem roundTo_of_infinite (h : Infinite x s) (places : UInt8) : roundTo x places = x := by
  have hscaled := h.mul (exactly_scale places) (scale_pos places)
  rw [roundTo]
  exact if_neg (by rw [hscaled.isFinite]; exact Bool.false_ne_true)

theorem defined_roundTo (h : Defined x) (places : UInt8) : Defined (roundTo x places) := by
  rcases h with ⟨v, hv⟩ | ⟨s, hs⟩
  · exact .inl (exists_is (isFinite_roundTo hv.isFinite places))
  · exact (roundTo_of_infinite hs places).symm ▸ hs.defined

/-- A unit of the last place is not great. -/
theorem exists_is_lastPlace (places : UInt8) : ∃ u, Is (lastPlace places) u ∧ |u| ≤ 2 := by
  have hone : Exactly 1 .positive (1 : ℕ) := exactly_of_isExactNat rfl
  have hpos : 0 < (1 : ℕ) / scale places := div_pos (by norm_num) (scale_pos places)
  have hle : (1 : ℕ) / scale places ≤ 1 :=
    (div_le_one (scale_pos places)).mpr (by exact_mod_cast one_le_scale places)
  have hnear := (abs_le.mp (abs_amount_rounded_sub_le (tiny_le_div_scale places one_ne_zero))).2
  have hlimit : |(1 : ℕ) / scale places| < overflow := by
    rw [abs_of_pos hpos]
    linarith [two_pow_lt_overflow]
  have his := is_closest hpos.ne' hlimit
  rw [← hone.is_of_positive.div (exactly_scale places).is_of_positive hpos.ne'] at his
  refine ⟨_, his, ?_⟩
  rw [abs_oriented (amount_nonneg _), abs_of_pos hpos]
  linarith

/-- A value at a precision is finite also when it is moved by a unit. -/
theorem isFinite_add_lastPlace (h : x.isFinite = true) (places : UInt8) :
    (x + lastPlace places).isFinite = true := by
  obtain ⟨v, hx⟩ := exists_is h
  obtain ⟨u, hu, hle⟩ := exists_is_lastPlace places
  refine hx.isFinite_add hu ((abs_add_le v u).trans_lt ?_)
  linarith [hx.abs_le_largest, largest_add_two_lt]

theorem isFinite_sub_lastPlace (h : x.isFinite = true) (places : UInt8) :
    (x - lastPlace places).isFinite = true := by
  obtain ⟨v, hx⟩ := exists_is h
  obtain ⟨u, hu, hle⟩ := exists_is_lastPlace places
  refine hx.isFinite_sub hu ((abs_sub v u).trans_lt ?_)
  linarith [hx.abs_le_largest, largest_add_two_lt]

end RoundTo

/-! ## Scales -/

namespace Random

/-- What an inclusive draw needs: finite ends in order, and a finite scale to begin with. -/
structure CanDraw (low high : Float) : Prop where
  isFinite_low : low.isFinite = true
  isFinite_high : high.isFinite = true
  le : low ≤ high
  isFinite_scale : ((high - low) / greatestFraction).isFinite = true

/-- The greatest fraction is not small. -/
theorem exists_exactly_greatestFraction :
    ∃ f, Exactly greatestFraction .positive f ∧ 1 / 2 < f := by
  have hvalue : Dyadic.ofFloat? greatestFraction = some ⟨false, 2 ^ 53 - 2, -53⟩ := by
    rfl
  refine ⟨_, exists_exactly_of_ofFloat? hvalue, ?_⟩
  rw [show Dyadic.numerator ⟨false, 2 ^ 53 - 2, -53⟩ = 2 ^ 53 - 2 from rfl,
    show Dyadic.denominator ⟨false, 2 ^ 53 - 2, -53⟩ = 2 ^ 53 from rfl]
  norm_num

/-- Half of the greatest float, as a number. -/
theorem exists_is_half_greatestFloat : ∃ h, Is (greatestFloat / 2) h ∧ 2 * h < overflow := by
  have hvalue : Exactly (greatestFloat / 2) .positive ((2 ^ 53 - 1) * 2 ^ 970 : ℕ) :=
    exactly_of_isExactNat (by decide +kernel)
  refine ⟨_, hvalue.is_of_positive, ?_⟩
  rw [overflow, show (971 : ℤ) = (970 : ℕ) + 1 from rfl, zpow_add₀ two_ne_zero,
    zpow_natCast, Nat.cast_mul, Nat.cast_pow 2 970, Nat.cast_ofNat]
  have hpos : (0 : ℚ) < 2 ^ 970 := pow_pos two_pos 970
  generalize (2 : ℚ) ^ 970 = unit at *
  norm_num
  linarith

variable {low high : Float} {v w : ℚ}

/-- The width of a range has no minus sign. -/
theorem exists_exactly_width (hlow : Is low v) (hhigh : Is high w) (hlt : v < w)
    (h : (high - low).isFinite = true) : ∃ a, Exactly (high - low) .positive a := by
  have hpos := sub_pos.mpr hlt
  rw [hhigh.sub hlow hpos.ne', closest, signOf, if_neg (not_lt.mpr hpos.le)] at h ⊢
  exact ⟨_, exactly_ofModel_pack (canonical_rounded (abs_pos.mpr hpos.ne')) h⟩

/-- A range that is narrow enough has a finite scale. -/
theorem canDraw_of_isDrawable {range : DrawRange} (hmin : range.min.isFinite = true)
    (hmax : range.max.isFinite = true) (hle : range.min ≤ range.max)
    (h : range.isDrawable = true) : CanDraw range.min range.max := by
  refine ⟨hmin, hmax, hle, ?_⟩
  rw [DrawRange.isDrawable, Bool.and_eq_true, decide_eq_true_eq] at h
  obtain ⟨u, hu⟩ := exists_is hmin
  obtain ⟨u', hu'⟩ := exists_is hmax
  obtain ⟨bound, hbound, hlimit⟩ := exists_is_half_greatestFloat
  obtain ⟨f, hf, hhalf⟩ := exists_exactly_greatestFraction
  have hpos : 0 < f := one_half_pos.trans hhalf
  rcases ((hu.le_iff hu').mp hle).eq_or_lt with heq | hlt
  · exact ((hu'.sub_of_eq_zero hu (sub_eq_zero.mpr heq.symm)).zero_div hf.is_of_positive
      hpos.ne').isFinite
  · obtain ⟨a, ha⟩ := exists_exactly_width hu hu' hlt h.1
    refine ha.is_of_positive.isFinite_div hf.is_of_positive hpos.ne' ?_
    rw [abs_div, abs_of_nonneg ha.nonneg, abs_of_pos hpos]
    have hwidth := (ha.is_of_positive.lt_iff hbound).mp h.2
    calc a / f ≤ a / (1 / 2) := div_le_div_of_nonneg_left ha.nonneg one_half_pos hhalf.le
      _ = 2 * a := by ring
      _ ≤ 2 * bound := by linarith
      _ < overflow := hlimit

/-- The scale to begin with has no minus sign. -/
theorem CanDraw.exists_exactly_scale (h : CanDraw low high) (hlt : low < high) :
    ∃ a, Exactly ((high - low) / greatestFraction) .positive a := by
  obtain ⟨v, hv⟩ := exists_is h.isFinite_low
  obtain ⟨w, hw⟩ := exists_is h.isFinite_high
  obtain ⟨f, hf, hhalf⟩ := exists_exactly_greatestFraction
  have hne := (sub_pos.mpr ((hv.lt_iff hw).mp hlt)).ne'
  have hwidth : (high - low).isFinite = true := by
    rcases hw.sub hv hne ▸ defined_closest hne with ⟨u, hu⟩ | ⟨s, hs⟩
    · exact hu.isFinite
    · exact absurd h.isFinite_scale (by rw [(hs.div hf).isFinite]; exact Bool.false_ne_true)
  obtain ⟨a, ha⟩ := exists_exactly_width hv hw ((hv.lt_iff hw).mp hlt) hwidth
  rcases ha.nonneg.eq_or_lt with rfl | hpos
  · exact ⟨0, ha.zero_div hf (one_half_pos.trans hhalf) ▸ exactly_zero _⟩
  · have hscale := h.isFinite_scale
    have hquot := div_pos hpos (one_half_pos.trans hhalf)
    rw [ha.div hf hpos (one_half_pos.trans hhalf)] at hscale ⊢
    exact ⟨_, exactly_ofModel_pack (canonical_rounded hquot) hscale⟩

/-- A scale that is fitted has the bits of a finite number, if the first one has. -/
theorem isFinite_fitScale (low high : Float) {bits : ℕ} (h : bits < infinityBits) :
    (fitScale low high bits).isFinite = true := by
  induction bits with
  | zero => exact is_zero.isFinite
  | succ bits ih =>
    rw [fitScale]
    split
    · exact ih (by omega)
    · obtain ⟨a, ha⟩ := exists_exactly_ofBits h
      exact ha.isFinite

/-- A number of a few units is a finite float. -/
theorem isFinite_toFloat {n : ℕ} (hn : n < 2 ^ 52) :
    (Dyadic.toFloat ⟨false, n, -52⟩).isFinite = true := by
  rcases eq_or_ne n 0 with rfl | h0
  · rfl
  · have hpos := amount_pos (r := (n, -52)) h0
    have hlt : amount (n, -52) < overflow := by
      have hn' : (n : ℚ) < 2 ^ 52 := by exact_mod_cast hn
      rw [amount]
      norm_num
      linarith [two_pow_lt_overflow]
    rw [Dyadic.toFloat]
    dsimp only
    rw [round_eq (r := (n, -52)) h0]
    exact (exactly_rounded hpos hlt _).isFinite

variable {σ : Type} [WordSource σ]

/-- What is drawn is a number or an infinity. -/
theorem CanDraw.defined_between (h : CanDraw low high) (hlt : low < high) (source : σ) :
    Defined ((between low high : Draw σ Float).run source).1 := by
  obtain ⟨a, ha⟩ := h.exists_exactly_scale hlt
  obtain ⟨v, hv⟩ := exists_is h.isFinite_low
  obtain ⟨scale, hscale⟩ := exists_is (isFinite_fitScale low high ha.toBits_lt)
  change Defined (Dyadic.toFloat ⟨false, (doubleWord source).1.toNat >>> 12, -52⟩ *
    intervalScale low high + low)
  have hlt : (doubleWord source).1.toNat >>> 12 < 2 ^ 52 := by
    rw [Nat.shiftRight_eq_div_pow]
    have := (doubleWord source).1.toNat_lt
    omega
  obtain ⟨f, hf⟩ := exists_is (isFinite_toFloat hlt)
  exact (hf.defined_mul hscale).add hv

end Random

/-! ## Draws -/

namespace DrawRange

/-- What a check has found of a range. -/
structure IsChecked (range : DrawRange) : Prop where
  canDraw : Random.CanDraw range.min range.max
  isDrawable : range.isDrawable = true

variable {range : DrawRange} {low high x : Float}

/-- The ends of a range at its precision are finite and in order. -/
theorem isFinite_bounds (h : Random.CanDraw range.min range.max)
    (hbounds : range.bounds? = some (low, high)) :
    low.isFinite = true ∧ high.isFinite = true ∧ low ≤ high := by
  rw [bounds?, Option.ite_none_right_eq_some] at hbounds
  obtain ⟨hle, hbounds⟩ := hbounds
  obtain ⟨rfl, rfl⟩ := Prod.mk.inj (Option.some.inj hbounds)
  have hlow := isFinite_roundTo h.isFinite_low range.places
  have hhigh := isFinite_roundTo h.isFinite_high range.places
  refine ⟨?_, ?_, hle⟩
  · split
    · exact isFinite_roundTo (isFinite_add_lastPlace hlow _) _
    · exact hlow
  · split
    · exact isFinite_roundTo (isFinite_sub_lastPlace hhigh _) _
    · exact hhigh

/-- What is moved between two numbers is a number between them. -/
theorem clamp_mem (hlow : low.isFinite = true) (hhigh : high.isFinite = true) (hle : low ≤ high)
    (hx : Defined x) : low ≤ clamp low high x ∧ clamp low high x ≤ high ∧
      (clamp low high x).isFinite = true := by
  obtain ⟨v, hv⟩ := exists_is hlow
  obtain ⟨w, hw⟩ := exists_is hhigh
  rw [clamp]
  rcases hx with ⟨u, hu⟩ | ⟨s, hs⟩
  · split
    · exact ⟨(hv.le_iff hv).mpr le_rfl, hle, hlow⟩
    next h =>
      split
      · exact ⟨hle, (hw.le_iff hw).mpr le_rfl, hhigh⟩
      next h' =>
        rw [hu.lt_iff hv, not_lt] at h
        rw [gt_iff_lt, hw.lt_iff hu, not_lt] at h'
        exact ⟨(hv.le_iff hu).mpr h, (hu.le_iff hw).mpr h', hu.isFinite⟩
  · cases s with
    | negative =>
      rw [if_pos (hs.lt hv)]
      exact ⟨(hv.le_iff hv).mpr le_rfl, hle, hlow⟩
    | positive =>
      rw [if_neg (hs.gt hv).2, if_pos (hs.gt hw).1]
      exact ⟨hle, (hw.le_iff hw).mpr le_rfl, hhigh⟩

variable {σ : Type} [Random.WordSource σ]

/-- A draw from a range that has been checked fails only if no value has its precision; else it gives
a number between the ends of the range at its precision. -/
theorem IsChecked.outcome_draw (h : range.IsChecked) (name : String) (source : σ) :
    (range.bounds? = none ∧ (range.draw name : Trial σ Float).outcome source =
      (.error (.randomBoundsUnrepresentable name range.places range.min range.max), source)) ∨
    ∃ low high x rest, range.bounds? = some (low, high) ∧
      (range.draw name : Trial σ Float).Gives source x rest ∧ low ≤ x ∧ x ≤ high ∧
        x.isFinite = true := by
  rw [draw, h.isDrawable]
  cases hbounds : range.bounds? with
  | none => exact .inl ⟨rfl, rfl⟩
  | some bounds =>
    obtain ⟨low, high⟩ := bounds
    obtain ⟨hlow, hhigh, hle⟩ := isFinite_bounds h.canDraw hbounds
    obtain ⟨raw, hraw⟩ : ∃ raw : Random.Draw σ Float, raw =
      if range.min < range.max then Random.between range.min range.max else pure range.min := ⟨_, rfl⟩
    have hdefined : Defined (raw.run source).1 := by
      rw [hraw]
      split
      next hlt => exact h.canDraw.defined_between hlt source
      next => exact .inl (exists_is h.canDraw.isFinite_low)
    rw [← hraw]
    exact .inr ⟨low, high, _, _, rfl, rfl, clamp_mem hlow hhigh hle (defined_roundTo hdefined _)⟩

end DrawRange

end FormulaQuiz
