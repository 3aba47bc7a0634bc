import FormulaQuiz.Proofs.Neighbours
import FormulaQuiz.Random.ChaCha

/-!
# Draws inside a range

An end of a range that its precision moves out by more than the tolerance is moved back by a unit of
the last place.  Where this unit is not lost to the precision of floats, the end is inside then, so
what is drawn is out of the range by no more than the tolerance.  It is not lost at ends with up to
fifteen digits, nor needed at ends up to a million.
-/

namespace FormulaQuiz

open Rounding

theorem Rounding.le_trans_of_isFinite {x y z : Float} (hx : x.isFinite = true)
    (hy : y.isFinite = true) (hz : z.isFinite = true) (hxy : x ≤ y) (hyz : y ≤ z) : x ≤ z := by
  obtain ⟨u, hu⟩ := exists_is hx
  obtain ⟨v, hv⟩ := exists_is hy
  obtain ⟨w, hw⟩ := exists_is hz
  exact (hu.le_iff hw).mpr (((hu.le_iff hv).mp hxy).trans ((hv.le_iff hw).mp hyz))

/-! ## The tolerance -/

theorem is_rangeTolerance : Is rangeTolerance billionth := is_billionth

section Tolerance

variable {x : Float} (h : x.isFinite = true)
include h

theorem isFinite_sub_rangeTolerance : (x - rangeTolerance).isFinite = true := by
  obtain ⟨v, hv⟩ := exists_is h
  refine hv.isFinite_sub is_rangeTolerance ((abs_sub v billionth).trans_lt ?_)
  rw [abs_of_pos billionth_pos]
  linarith [hv.abs_le_largest, largest_add_two_lt, billionth_le]

theorem isFinite_add_rangeTolerance : (x + rangeTolerance).isFinite = true := by
  obtain ⟨v, hv⟩ := exists_is h
  refine hv.isFinite_add is_rangeTolerance ((abs_add_le v billionth).trans_lt ?_)
  rw [abs_of_pos billionth_pos]
  linarith [hv.abs_le_largest, largest_add_two_lt, billionth_le]

end Tolerance

/-! ## Moving by a unit -/

section Step

variable {x : Float} {f v : ℚ} {k k' : ℤ} {places : UInt8}

/-- What a scale and a number of its units must be for a unit not to be lost: there are no more than
fifteen digits, but for rounding. -/
structure Fits (f : ℚ) (k : ℤ) : Prop where
  one_le : 1 ≤ f
  le : f ≤ 2 ^ 900
  digits : |(k : ℚ)| ≤ 10 ^ 15 + 3

theorem Fits.neg (h : Fits f k) : Fits f (-k) :=
  ⟨h.one_le, h.le, by rw [Int.cast_neg, abs_neg]; exact h.digits⟩

/-- The error of rounding, in units. -/
theorem abs_near_mul_sub_le (hf : 1 ≤ f) (hle : f ≤ 2 ^ 900) (v : ℚ) :
    |near v * f - v * f| ≤ |v * f| / 2 ^ 53 + 1 / 2 ^ 100 := by
  have hpos : 0 < f := one_pos.trans_le hf
  have htiny : (2 : ℚ) ^ (-1075 : ℤ) * 2 ^ 900 ≤ 1 / 2 ^ 100 := by
    rw [← zpow_natCast, ← zpow_add₀ two_ne_zero]
    exact (zpow_le_zpow_right₀ one_le_two (by norm_num : (-1075 : ℤ) + (900 : ℕ) ≤ -100)).trans
      (by norm_num)
  have hη : (0 : ℚ) < 2 ^ (-1075 : ℤ) := zpow_pos two_pos _
  calc |near v * f - v * f| = |near v - v| * f := by
        rw [← sub_mul, abs_mul, abs_of_pos hpos]
    _ ≤ (|v| / 2 ^ 53 + 2 ^ (-1075 : ℤ)) * f :=
        mul_le_mul_of_nonneg_right (roundsTo_near v).abs_sub_le hpos.le
    _ = |v * f| / 2 ^ 53 + 2 ^ (-1075 : ℤ) * f := by
        rw [abs_mul, abs_of_pos hpos]
        ring
    _ ≤ |v * f| / 2 ^ 53 + 1 / 2 ^ 100 := by
        refine add_le_add le_rfl (le_trans ?_ htiny)
        exact mul_le_mul_of_nonneg_left hle hη.le

/-- Different numbers of units are different values. -/
theorem Fits.near_lt (h : Fits f k) : near (k / f) < near ((k + 1 : ℤ) / f) := by
  have hpos : 0 < f := one_pos.trans_le h.one_le
  have hlow := (abs_le.mp (abs_near_mul_sub_le h.one_le h.le (k / f))).2
  have hhigh := (abs_le.mp (abs_near_mul_sub_le h.one_le h.le ((k + 1 : ℤ) / f))).1
  rw [div_mul_cancel₀ _ hpos.ne'] at hlow hhigh
  have hsize := abs_add_le (k : ℚ) 1
  have hk := h.digits
  push_cast at hhigh ⊢
  rw [abs_one] at hsize
  refine lt_of_mul_lt_mul_right ?_ hpos.le
  norm_num at *
  linarith

/-- A value at a precision that is moved by a unit is close to the value of one unit more. -/
theorem Fits.abs_moved_sub_le (h : Fits f k) :
    |near (near (k / f) + near (1 / f)) * f - (k + 1)| ≤ 1 / 4 := by
  have hpos : 0 < f := one_pos.trans_le h.one_le
  obtain ⟨value, hvalue⟩ : ∃ value, value = near (k / f) := ⟨_, rfl⟩
  obtain ⟨unit, hunit⟩ : ∃ unit, unit = near (1 / f) := ⟨_, rfl⟩
  have hvaluef := abs_near_mul_sub_le h.one_le h.le (k / f)
  have hunitf := abs_near_mul_sub_le h.one_le h.le (1 / f)
  rw [← hvalue, div_mul_cancel₀ _ hpos.ne'] at hvaluef
  rw [← hunit, div_mul_cancel₀ _ hpos.ne', abs_one] at hunitf
  rw [← hvalue, ← hunit]
  have hk := h.digits
  have hnext := abs_add_le (k : ℚ) 1
  rw [abs_one] at hnext
  have hsum : |(value + unit) * f - (k + 1)| ≤ 1 / 8 := by
    have hsplit : (value + unit) * f - (k + 1) = (value * f - k) + (unit * f - 1) := by ring
    have hparts := hsplit ▸ abs_add_le (value * f - k) (unit * f - 1)
    norm_num at *
    linarith
  have herror := abs_near_mul_sub_le h.one_le h.le (value + unit)
  have hsize := abs_sub_abs_le_abs_sub ((value + unit) * f) (k + 1)
  have hparts := abs_sub_le (near (value + unit) * f) ((value + unit) * f) (k + 1)
  norm_num at *
  linarith

theorem Fits.abs_moved_le (h : Fits f k) :
    |near (near (k / f) + near (1 / f)) * f| ≤ 10 ^ 15 + 5 := by
  have hsize := abs_sub_abs_le_abs_sub (near (near (k / f) + near (1 / f)) * f) (k + 1)
  have hnext := abs_add_le (k : ℚ) 1
  rw [abs_one] at hnext
  linarith [h.abs_moved_sub_le, h.digits]

/-- A value at a precision that is moved by a unit goes to the value of one unit more. -/
theorem Fits.eq_succ (h : Fits f k)
    (hunits : InUnits f (near (near (k / f) + near (1 / f))) k') : k' = k + 1 := by
  have hmoved := h.abs_moved_sub_le
  have hsize := h.abs_moved_le
  generalize near (near (k / f) + near (1 / f)) = moved at *
  have hstep : |((k' - (k + 1) : ℤ) : ℚ)| < 1 := by
    have herror := (roundsTo_near (moved * f)).abs_sub_le_add_one
    have hclose := hunits.close
    have hparts := abs_sub_le (k' : ℚ) (near (moved * f)) (k + 1)
    have hparts' := abs_sub_le (near (moved * f)) (moved * f) (k + 1)
    push_cast
    norm_num at *
    linarith
  have hzero : |k' - (k + 1)| < 1 := by exact_mod_cast hstep
  exact sub_eq_zero.mp (Int.abs_lt_one_iff.mp hzero)

/-- A scale is off by little. -/
theorem scale_le (places : UInt8) :
    scale places ≤ (10 ^ places.toNat : ℕ) * (1 + 1 / 2 ^ 49) ∧
      (10 ^ places.toNat : ℕ) * (1 - 1 / 2 ^ 49) ≤ scale places ∧ scale places ≤ 2 ^ 900 := by
  have hten := ten_pow_pos places.toNat
  have hslack := mul_le_mul_of_nonneg_right (slack_le places) hten.le
  obtain ⟨hlow, hhigh⟩ := abs_le.mp (abs_scale_sub_le places)
  have hpower : 10 ^ places.toNat ≤ (2 ^ 10) ^ 85 := by
    calc 10 ^ places.toNat ≤ 10 ^ (3 * 85) :=
          Nat.pow_le_pow_right (by norm_num) (Nat.lt_succ_iff.mp places.toNat_lt)
      _ = (10 ^ 3) ^ 85 := pow_mul 10 3 85
      _ ≤ (2 ^ 10) ^ 85 := Nat.pow_le_pow_left (by norm_num) 85
  refine ⟨by linarith, by linarith, ?_⟩
  calc scale places ≤ (10 ^ places.toNat : ℕ) * 2 := by linarith
    _ ≤ ((2 ^ 10) ^ 85 : ℕ) * 2 :=
        mul_le_mul_of_nonneg_right (by exact_mod_cast hpower) (by norm_num)
    _ = 2 ^ (10 * 85 + 1) := by
        rw [Nat.cast_pow, Nat.cast_pow, Nat.cast_ofNat, ← pow_mul, ← pow_succ]
    _ ≤ 2 ^ 900 := pow_le_pow_right₀ one_le_two (by norm_num)

/-- A value with up to fifteen digits is not great in units. -/
theorem abs_mul_scale_le (h : |v| * 10 ^ places.toNat ≤ 10 ^ 15) :
    |v * scale places| ≤ 10 ^ 15 + 2 := by
  have hhigh := (scale_le places).1
  push_cast at hhigh
  rw [abs_mul, abs_of_pos (scale_pos places)]
  calc |v| * scale places ≤ |v| * (10 ^ places.toNat * (1 + 1 / 2 ^ 49)) :=
        mul_le_mul_of_nonneg_left hhigh (abs_nonneg v)
    _ = |v| * 10 ^ places.toNat * (1 + 1 / 2 ^ 49) := by ring
    _ ≤ 10 ^ 15 * (1 + 1 / 2 ^ 49) := mul_le_mul_of_nonneg_right h (by norm_num)
    _ ≤ 10 ^ 15 + 2 := by norm_num

/-- The digits of a value are those of its units, but for rounding. -/
theorem fits_of_le (hunits : InUnits (scale places) v k)
    (h : |v| * 10 ^ places.toNat ≤ 10 ^ 15) : Fits (scale places) k := by
  refine ⟨by exact_mod_cast one_le_scale places, (scale_le places).2.2, ?_⟩
  have hscaled := abs_mul_scale_le h
  have hnear := (roundsTo_near (v * scale places)).abs_le
  have hclose := abs_sub_abs_le_abs_sub (k : ℚ) (near (v * scale places))
  have hhalf := hunits.close
  norm_num at *
  linarith

/-- Values at a precision and the unit of its last place, as they are calculated. -/
theorem is_lastPlace (places : UInt8) : Is (lastPlace places) (near (1 / scale places)) := by
  have hone : Is 1 (1 : ℕ) := (exactly_of_isExactNat rfl : Exactly 1 .positive _).is
  have hfactor := (exactly_scale places).is_of_positive
  obtain ⟨u, hu, -⟩ := exists_is_lastPlace places
  rw [← Nat.cast_one]
  exact hone.div_near hfactor (scale_pos places).ne' hu.isFinite

/-- A value with up to fifteen digits can be scaled. -/
theorem isFinite_scaled (hx : Is x v) (h : |v| * 10 ^ places.toNat ≤ 10 ^ 15) :
    (x * powerOfTen places).isFinite = true := by
  refine (hx.isFinite_mul_iff (exactly_scale places).is_of_positive).mpr ?_
  refine (abs_mul_scale_le h).trans_lt (lt_trans ?_ two_pow_lt_overflow)
  norm_num

/-- A unit is not lost at a value with up to fifteen digits. -/
theorem lt_roundTo_add (hx : Is x v) (h : |v| * 10 ^ places.toNat ≤ 10 ^ 15) :
    roundTo x places < roundTo (roundTo x places + lastPlace places) places := by
  obtain ⟨k, hunits, hk⟩ := exists_inUnits hx (isFinite_scaled hx h)
  have hfits := fits_of_le hunits h
  have hmoved := hk.add_near (is_lastPlace places) (isFinite_add_lastPlace hk.isFinite places)
  have hscaled : ((roundTo x places + lastPlace places) * powerOfTen places).isFinite = true := by
    refine (hmoved.isFinite_mul_iff (exactly_scale places).is_of_positive).mpr ?_
    refine hfits.abs_moved_le.trans_lt (lt_trans ?_ two_pow_lt_overflow)
    norm_num
  obtain ⟨k', hunits', hk'⟩ := exists_inUnits hmoved hscaled
  rw [hfits.eq_succ hunits'] at hk'
  exact (hk.lt_iff hk').mpr hfits.near_lt

theorem near_sub_eq (f : ℚ) (k : ℤ) :
    near (near (k / f) - near (1 / f)) = -near (near ((-k : ℤ) / f) + near (1 / f)) := by
  rw [Int.cast_neg, neg_div, near_neg (k / f), ← near_neg, neg_add, neg_neg, sub_eq_add_neg]

theorem roundTo_sub_lt (hx : Is x v) (h : |v| * 10 ^ places.toNat ≤ 10 ^ 15) :
    roundTo (roundTo x places - lastPlace places) places < roundTo x places := by
  obtain ⟨k, hunits, hk⟩ := exists_inUnits hx (isFinite_scaled hx h)
  have hfits := (fits_of_le hunits h).neg
  have hmoved := hk.sub_near (is_lastPlace places) (isFinite_sub_lastPlace hk.isFinite places)
  rw [near_sub_eq] at hmoved
  have hscaled : ((roundTo x places - lastPlace places) * powerOfTen places).isFinite = true := by
    refine (hmoved.isFinite_mul_iff (exactly_scale places).is_of_positive).mpr ?_
    rw [neg_mul, abs_neg]
    refine hfits.abs_moved_le.trans_lt (lt_trans ?_ two_pow_lt_overflow)
    norm_num
  obtain ⟨k', hunits', hk'⟩ := exists_inUnits hmoved hscaled
  have hneg := hunits'.neg
  rw [neg_neg] at hneg
  have hlt := hfits.near_lt
  rw [← hfits.eq_succ hneg, Int.cast_neg, Int.cast_neg, neg_div, neg_div, near_neg, near_neg,
    neg_lt_neg_iff] at hlt
  exact (hk'.lt_iff hk).mpr hlt

/-- A value of more than fifteen digits is moved by its precision by less than the tolerance, if it
is no more than a million. -/
theorem exists_abs_sub_le (hx : Is x v) (hsize : |v| ≤ 10 ^ 6)
    (h : 10 ^ 15 < |v| * 10 ^ places.toNat) :
    ∃ u, Is (roundTo x places) u ∧ |u - v| ≤ billionth := by
  have hpos := scale_pos places
  by_cases hscaled : (x * powerOfTen places).isFinite = true
  · obtain ⟨k, hunits, hk⟩ := exists_inUnits hx hscaled
    refine ⟨_, hk, ?_⟩
    have herror := (roundsTo_near (v * scale places)).abs_sub_le_add_one
    have herror' := (roundsTo_near (k / scale places)).abs_sub_le_add_one
    have hunit : 1 / scale places ≤ (1 + 1 / 2 ^ 40) / 10 ^ 9 := by
      have hlow := (scale_le places).2.1
      have hten : (10 : ℚ) ^ 9 < 10 ^ places.toNat := by
        have hle := mul_le_mul_of_nonneg_right hsize
          (pow_nonneg (by norm_num : (0 : ℚ) ≤ 10) places.toNat)
        linarith
      push_cast at hlow
      rw [div_le_div_iff₀ hpos (by norm_num)]
      linarith
    have hquot : |k / scale places - v| ≤ (1 / 2 + 1 / 2 ^ 53) * (1 / scale places) + |v| / 2 ^ 53 := by
      have hsub : |k - v * scale places| ≤ 1 / 2 + (|v * scale places| + 1) / 2 ^ 53 :=
        (abs_sub_le _ (near (v * scale places)) _).trans (add_le_add hunits.close herror)
      rw [abs_mul, abs_of_pos hpos] at hsub
      rw [div_sub' hpos.ne', abs_div, abs_of_pos hpos, div_le_iff₀ hpos, mul_comm (scale places) v]
      refine hsub.trans_eq ?_
      field_simp
      ring
    have hparts := abs_sub_le (near (k / scale places)) (k / scale places) v
    have hquot' := abs_sub_abs_le_abs_sub (k / scale places) v
    rw [billionth]
    norm_num at *
    linarith
  · rw [roundTo_of_not_scaled (Bool.not_eq_true _ ▸ hscaled)]
    exact ⟨v, hx, by rw [sub_self, abs_zero]; exact billionth_pos.le⟩

end Step

/-! ## Ends of a range -/

namespace DrawRange

variable {range : DrawRange} {low high x : Float}

/-- A value is at least the least one of the range, or this one at the precision of the range, where
that is less by no more than the tolerance; and so with the greatest one. -/
structure Admits (range : DrawRange) (x : Float) : Prop where
  lower : range.min ≤ x ∨ range.min - rangeTolerance ≤ roundTo range.min range.places ∧
    roundTo range.min range.places ≤ x
  upper : x ≤ range.max ∨ roundTo range.max range.places ≤ range.max + rangeTolerance ∧
    x ≤ roundTo range.max range.places

/-- Where an end is to be moved by a unit of the last place, floats are fine enough for it to move. -/
structure IsFine (range : DrawRange) : Prop where
  low : roundTo range.min range.places < range.min - rangeTolerance →
    roundTo range.min range.places <
      roundTo (roundTo range.min range.places + lastPlace range.places) range.places
  high : range.max + rangeTolerance < roundTo range.max range.places →
    roundTo (roundTo range.max range.places - lastPlace range.places) range.places <
      roundTo range.max range.places

/-- The ends of a range at its precision are out of it by no more than the tolerance. -/
theorem IsFine.admits_bounds (hfine : range.IsFine) (h : Random.CanDraw range.min range.max)
    (hbounds : range.bounds? = some (low, high)) :
    (range.min ≤ low ∨ range.min - rangeTolerance ≤ low ∧ low = roundTo range.min range.places) ∧
      (high ≤ range.max ∨
        high ≤ range.max + rangeTolerance ∧ high = roundTo range.max range.places) := by
  rw [bounds?, Option.ite_none_right_eq_some] at hbounds
  obtain ⟨-, hbounds⟩ := hbounds
  obtain ⟨rfl, rfl⟩ := Prod.mk.inj (Option.some.inj hbounds)
  have hlow := isFinite_roundTo h.isFinite_low range.places
  have hhigh := isFinite_roundTo h.isFinite_high range.places
  constructor
  · split
    next hlt =>
      exact .inl (le_roundTo_of_lt h.isFinite_low (isFinite_add_lastPlace hlow _) (hfine.low hlt))
    next hge =>
      exact .inr ⟨le_of_not_lt (isFinite_sub_rangeTolerance h.isFinite_low) hlow hge, rfl⟩
  · split
    next hlt =>
      exact .inl (roundTo_le_of_lt h.isFinite_high (isFinite_sub_lastPlace hhigh _) (hfine.high hlt))
    next hge =>
      exact .inr ⟨le_of_not_lt hhigh (isFinite_add_rangeTolerance h.isFinite_high) hge, rfl⟩

/-- Floats are fine enough for ends with up to fifteen digits, and for ends up to a million. -/
theorem isFine_of_digits {v w : ℚ} (hmin : Is range.min v) (hmax : Is range.max w)
    (hlow : |v| * 10 ^ range.places.toNat ≤ 10 ^ 15 ∨ |v| ≤ 10 ^ 6)
    (hhigh : |w| * 10 ^ range.places.toNat ≤ 10 ^ 15 ∨ |w| ≤ 10 ^ 6) : range.IsFine := by
  constructor
  · intro hlt
    by_cases hdigits : |v| * 10 ^ range.places.toNat ≤ 10 ^ 15
    · exact lt_roundTo_add hmin hdigits
    · obtain ⟨u, hu, hclose⟩ :=
        exists_abs_sub_le hmin (hlow.resolve_left hdigits) (not_le.mp hdigits)
      have hsub := hmin.sub_near is_rangeTolerance (isFinite_sub_rangeTolerance hmin.isFinite)
      have hle : near (v - billionth) ≤ u := hu.near_le (by linarith [(abs_le.mp hclose).1])
      exact absurd ((hu.lt_iff hsub).mp hlt) (not_lt.mpr hle)
  · intro hlt
    by_cases hdigits : |w| * 10 ^ range.places.toNat ≤ 10 ^ 15
    · exact roundTo_sub_lt hmax hdigits
    · obtain ⟨u, hu, hclose⟩ :=
        exists_abs_sub_le hmax (hhigh.resolve_left hdigits) (not_le.mp hdigits)
      have hadd := hmax.add_near is_rangeTolerance (isFinite_add_rangeTolerance hmax.isFinite)
      have hle : u ≤ near (w + billionth) := hu.le_near (by linarith [(abs_le.mp hclose).2])
      exact absurd ((hadd.lt_iff hu).mp hlt) (not_lt.mpr hle)

variable {σ : Type} [Random.WordSource σ]

/-- Where floats are fine enough for its ends, a draw from a range that can be drawn from fails only
if the range has no value of its precision; else it gives a value that is admitted. -/
theorem IsFine.fails_or_admits (hmin : range.min.isFinite = true) (hmax : range.max.isFinite = true)
    (hle : range.min ≤ range.max) (hdrawable : range.isDrawable = true) (hfine : range.IsFine)
    (name : String) (source : σ) :
    (range.draw name : Trial σ Float).Fails source
        (.randomBoundsUnrepresentable name range.places range.min range.max) source ∨
      ∃ x rest, (range.draw name : Trial σ Float).Gives source x rest ∧ x.isFinite = true ∧
        range.Admits x := by
  have hcan := Random.canDraw_of_isDrawable hmin hmax hle hdrawable
  rcases (IsChecked.mk hcan hdrawable).outcome_draw name source with
    ⟨-, hfails⟩ | ⟨low, high, x, rest, hbounds, hgives, hlow, hhigh, hfinite⟩
  · exact .inl hfails
  · obtain ⟨hlower, hupper⟩ := hfine.admits_bounds hcan hbounds
    obtain ⟨hlowfinite, hhighfinite, -⟩ := isFinite_bounds hcan hbounds
    refine .inr ⟨x, rest, hgives, hfinite, hlower.imp ?_ ?_, hupper.imp ?_ ?_⟩
    · exact fun h ↦ le_trans_of_isFinite hmin hlowfinite hfinite h hlow
    · rintro ⟨htolerance, rfl⟩
      exact ⟨htolerance, hlow⟩
    · exact fun h ↦ le_trans_of_isFinite hfinite hhighfinite hmax hhigh h
    · rintro ⟨htolerance, rfl⟩
      exact ⟨htolerance, hhigh⟩

/-- The numbers between one and five with one decimal place. -/
def oneToFive : DrawRange := ⟨1, 5, 1⟩

theorem isFine_oneToFive : oneToFive.IsFine :=
  isFine_of_digits (v := (1 : ℕ)) (w := (5 : ℕ))
    (exactly_of_isExactNat rfl).is_of_positive
    (exactly_of_isExactNat rfl).is_of_positive (.inr (by norm_num))
    (.inr (by norm_num))

theorem exists_draw_oneToFive : ∃ x rest, oneToFive.IsFine ∧
    (oneToFive.draw "x").Gives (Random.ChaCha.ofSeed 1) x rest ∧ x.isFinite = true ∧
      oneToFive.Admits x := by
  obtain ⟨x, rest, hgives, -⟩ : ∃ x rest,
      (oneToFive.draw "x").Gives (Random.ChaCha.ofSeed 1) x rest ∧ (fun _ ↦ true) x = true :=
    Trial.exists_gives_of_any (by decide +kernel)
  rcases isFine_oneToFive.fails_or_admits (by decide +kernel) (by decide +kernel) (by decide +kernel)
    (by decide +kernel) "x" (Random.ChaCha.ofSeed 1) with hfails | ⟨x, rest, hdraws⟩
  · exact absurd hfails hgives.not_fails
  · exact ⟨x, rest, isFine_oneToFive, hdraws⟩

/-- The least value of a range may be above its draws, as no draw has its precision. -/
theorem not_forall_draw_inside : ¬ ∀ (range : DrawRange) (source : Random.ChaCha),
    range.min.isFinite = true → range.max.isFinite = true → range.min ≤ range.max →
    range.isDrawable = true →
    (∃ rest, (range.draw "x").Fails source
        (.randomBoundsUnrepresentable "x" range.places range.min range.max) rest) ∨
      ∃ x rest, (range.draw "x").Gives source x rest ∧ range.min ≤ x ∧ x ≤ range.max := by
  intro hall
  obtain ⟨x, rest, hgives, hbelow⟩ : ∃ x rest,
      (draw ⟨1e-10, 1e-10, 2⟩ "x").Gives (Random.ChaCha.ofSeed 1) x rest ∧
        (fun x ↦ !decide ((1e-10 : Float) ≤ x)) x = true :=
    Trial.exists_gives_of_any (by decide +kernel)
  rcases hall ⟨1e-10, 1e-10, 2⟩ (Random.ChaCha.ofSeed 1) (by decide +kernel) (by decide +kernel)
    (by decide +kernel) (by decide +kernel) with ⟨rest', hfails⟩ | ⟨x', rest', hgives', hle, -⟩
  · exact hgives.not_fails hfails
  · have hsame : x = x' := by
      have heq := hgives.symm.trans hgives'
      simp only [Prod.mk.injEq, Except.ok.injEq] at heq
      exact heq.1
    subst hsame
    simp [hle] at hbelow

end DrawRange

end FormulaQuiz
