import FormulaQuiz.Decimal.Places
import FormulaQuiz.Proofs.Decimals
import FormulaQuiz.Proofs.Digits
import FormulaQuiz.Proofs.Sums

/-!
# Printing rounded values

A value at an author's precision is the float nearest to a whole number of units of the last place.
As long as that number is not too great, rounding the value again finds the same number, and printing
shows it; so two such values print alike only if they are equal.  Above the bound, which is `2 ^ 51`
if the power of ten is exact, a float may be nearer to the next unit than rounding can tell.
-/

namespace FormulaQuiz

open Float.Model UnpackedFloat
open Rounding

/-- How many units of the last place a value may have, so that rounding it again keeps them: fewer
when the power of ten is not exact. -/
def unitLimit (places : UInt8) : ℕ := if places.toNat ≤ 22 then 2 ^ 51 else 2 ^ 46

/-- Whether a value is finite and has fewer units of the last place than the limit. -/
def isLegible (places : UInt8) (x : Float) : Bool :=
  (Dyadic.ofFloat? x).any fun d ↦
    decide (d.numerator * 10 ^ places.toNat < unitLimit places * d.denominator)

section Grid

variable {x : Float} {places : UInt8} {s : Sign} {a : ℚ} {n : ℕ}

theorem exactly_of_isLegible (h : isLegible places x = true) :
    ∃ s a, Exactly x s a ∧ a * (10 ^ places.toNat : ℕ) < unitLimit places := by
  rw [isLegible, Option.any_eq_true] at h
  obtain ⟨d, hd, h⟩ := h
  rw [decide_eq_true_eq] at h
  have hden : (0 : ℚ) < d.denominator := Nat.cast_pos.mpr d.denominator_pos
  refine ⟨_, _, exists_exactly_of_ofFloat? hd, ?_⟩
  rw [div_mul_eq_mul_div, div_lt_iff₀ hden]
  exact_mod_cast h

theorem ten_pow_pos (n : ℕ) : (0 : ℚ) < (10 ^ n : ℕ) := by positivity

/-- A power of ten made by squaring is off by so little that it is more than a half of itself. -/
theorem half_lt_scale (places : UInt8) : (10 ^ places.toNat : ℕ) / 2 < scale places := by
  have hten := ten_pow_pos places.toNat
  have hsub := (abs_le.mp (abs_scale_sub_le places)).1
  have hslack := mul_le_mul_of_nonneg_right (slack_le places) hten.le
  linarith

theorem scale_pos (places : UInt8) : 0 < scale places :=
  (div_pos (ten_pow_pos _) two_pos).trans (half_lt_scale places)

/-- Units of the last place and multiples of the power of ten that was made by squaring differ by
little, if there are not too many. -/
theorem abs_mul_scale_sub_le (ha : 0 ≤ a) (h : a * (10 ^ places.toNat : ℕ) < unitLimit places) :
    |a * scale places - a * (10 ^ places.toNat : ℕ)| ≤ slack places * unitLimit places := by
  rw [← mul_sub, abs_mul, abs_of_nonneg ha]
  calc a * |scale places - (10 ^ places.toNat : ℕ)|
      ≤ a * (slack places * (10 ^ places.toNat : ℕ)) :=
        mul_le_mul_of_nonneg_left (abs_scale_sub_le places) ha
    _ = slack places * (a * (10 ^ places.toNat : ℕ)) := by ring
    _ ≤ slack places * unitLimit places := mul_le_mul_of_nonneg_left h.le (slack_nonneg places)

/-- The limit leaves room for what a power of ten may be off. -/
theorem slack_mul_unitLimit (places : UInt8) :
    slack places = 0 ∧ (unitLimit places : ℚ) = 2 ^ 51 ∨
      slack places * unitLimit places = 1 / 8 ∧ (unitLimit places : ℚ) = 2 ^ 46 := by
  rw [slack, unitLimit]
  split
  · exact .inl ⟨rfl, by norm_num⟩
  · exact .inr ⟨by norm_num, by norm_num⟩

/-- The magnitude of the float nearest to a number of units of a decimal place. -/
def gridAmount (places : UInt8) (n : ℕ) : ℚ :=
  if n = 0 then 0 else amount (rounded (n / scale places))

/-- A float is the one nearest to a number of units of a decimal place, and zero has no sign. -/
structure OnGrid (x : Float) (places : UInt8) (s : Sign) (n : ℕ) : Prop where
  exactly : Exactly x s (gridAmount places n)
  sign : n = 0 → s = .positive

theorem sign_mul_positive (s : Sign) : s * .positive = s := by cases s <;> rfl

theorem sign_div_positive (s : Sign) : s / .positive = s := by cases s <;> rfl

/-- Scaling a value to units of the last place. -/
theorem Rounding.Exactly.mul_powerOfTen (hx : Exactly x s a)
    (ha : a * (10 ^ places.toNat : ℕ) < unitLimit places) :
    Exactly (x * powerOfTen places) s
      (if a = 0 then 0 else amount (rounded (a * scale places))) := by
  have hscale := exactly_scale places
  split
  next h0 =>
    subst h0
    have hzero := exactly_zero (s * .positive)
    rw [← hx.mul_zero hscale, sign_mul_positive] at hzero
    exact hzero
  next h0 =>
    have hpos : 0 < a := lt_of_le_of_ne hx.nonneg (Ne.symm h0)
    rw [hx.mul hscale hpos (scale_pos places), sign_mul_positive]
    refine exactly_rounded (mul_pos hpos (scale_pos places)) ?_ s
    have hsub := (abs_le.mp (abs_mul_scale_sub_le hpos.le ha)).2
    have hbig := two_pow_lt_overflow
    rcases slack_mul_unitLimit places with ⟨hs, hl⟩ | ⟨hs, hl⟩
    · rw [hs, zero_mul] at hsub
      rw [hl] at ha
      linarith
    · rw [hs] at hsub
      rw [hl] at ha
      linarith

/-- The power of ten with the most places is far from the limits of floats. -/
theorem tiny_le_div_scale (places : UInt8) (hne : n ≠ 0) :
    (2 : ℚ) ^ (-1022 : ℤ) ≤ n / scale places := by
  have hnpos : (1 : ℚ) ≤ n := Nat.one_le_cast.mpr (Nat.pos_of_ne_zero hne)
  have hten := ten_pow_pos places.toNat
  have hplaces : places.toNat ≤ 255 := Nat.le_of_lt_succ places.toNat_lt
  have hle : ((10 ^ places.toNat : ℕ) : ℚ) ≤ 2 ^ (4 * places.toNat) := by
    have hpow : 10 ^ places.toNat ≤ (2 ^ 4) ^ places.toNat := Nat.pow_le_pow_left (by norm_num) _
    rw [← pow_mul] at hpow
    exact_mod_cast hpow
  have hhigh : scale places ≤ 2 ^ (4 * places.toNat + 1) := by
    have hsub := (abs_le.mp (abs_scale_sub_le places)).2
    have hslack := mul_le_mul_of_nonneg_right (slack_le places) hten.le
    rw [pow_succ]
    linarith
  rw [le_div_iff₀ (scale_pos places)]
  calc (2 : ℚ) ^ (-1022 : ℤ) * scale places
      ≤ 2 ^ (-1022 : ℤ) * 2 ^ (4 * places.toNat + 1) :=
        mul_le_mul_of_nonneg_left hhigh (zpow_pos two_pos _).le
    _ = 2 ^ (-1022 + ((4 * places.toNat + 1 : ℕ) : ℤ)) := by
        rw [zpow_add₀ two_ne_zero, zpow_natCast]
    _ ≤ 1 := zpow_le_one_of_nonpos₀ one_le_two (by omega)
    _ ≤ n := hnpos

/-- The float nearest to a number of units of a decimal place is off by little of a unit. -/
theorem abs_gridAmount_mul_sub_le (places : UInt8) (n : ℕ) :
    |gridAmount places n * scale places - n| ≤ n / 2 ^ 53 := by
  rw [gridAmount]
  split
  next h0 => simp [h0]
  next hne =>
    have hpos := scale_pos places
    have herror := abs_amount_rounded_sub_le (tiny_le_div_scale places hne)
    calc |amount (rounded (n / scale places)) * scale places - n|
        = |amount (rounded (n / scale places)) - n / scale places| * scale places := by
          rw [← abs_of_pos hpos, ← abs_mul, abs_of_pos hpos, sub_mul, div_mul_cancel₀ _ hpos.ne']
      _ ≤ n / scale places / 2 ^ 53 * scale places := mul_le_mul_of_nonneg_right herror hpos.le
      _ = n / 2 ^ 53 := by field_simp

theorem gridAmount_pos (places : UInt8) (hne : n ≠ 0) : 0 < gridAmount places n := by
  have herror := (abs_le.mp (abs_gridAmount_mul_sub_le places n)).1
  have hnpos : (0 : ℚ) < n := Nat.cast_pos.mpr (Nat.pos_of_ne_zero hne)
  have hsmall : (n : ℚ) / 2 ^ 53 < n := div_lt_self hnpos (by norm_num)
  exact pos_of_mul_pos_left (by linarith) (scale_pos places).le

theorem one_le_scale (places : UInt8) : 1 ≤ scale places := by
  rcases Nat.eq_zero_or_pos places.toNat with h0 | hpos
  · have hsub := (abs_le.mp (abs_scale_sub_le places)).1
    rw [slack, if_pos (by omega), h0, zero_mul] at hsub
    norm_num at hsub
    exact hsub
  · have hten : (10 : ℚ) ≤ (10 ^ places.toNat : ℕ) := by
      exact_mod_cast Nat.le_self_pow hpos.ne' 10
    linarith [half_lt_scale places]

/-- A value that can be scaled goes to the integer nearest to its scaled value, in units of the last
place. -/
theorem exists_onGrid (hscaled : Exactly (x * powerOfTen places) s a) :
    ∃ n : ℕ, (n : ℚ) ≤ a + 1 / 2 ∧ a + 1 / 2 < n + 1 ∧ (∃ y, Exactly y s n) ∧
      OnGrid (roundTo x places) places (if n = 0 then .positive else s) n := by
  have hscale := exactly_scale places
  have hscalepos := scale_pos places
  obtain ⟨n, hn, hlow, hhigh⟩ := hscaled.toIntegral_nearest
  refine ⟨n, hlow, hhigh, ⟨_, hn⟩, ?_⟩
  rw [roundTo]
  dsimp only
  rw [if_pos hscaled.isFinite]
  rcases eq_or_ne n 0 with rfl | hne
  · rw [Nat.cast_zero] at hn
    have hquot := exactly_zero (s / .positive)
    rw [← hn.zero_div hscale hscalepos] at hquot
    rw [if_pos (hquot.beq_zero_iff.mpr rfl), zero_eq, if_pos rfl]
    exact ⟨exactly_zero .positive, fun _ ↦ rfl⟩
  · have hnpos : (0 : ℚ) < n := Nat.cast_pos.mpr (Nat.pos_of_ne_zero hne)
    have hquot : Exactly (toIntegral .nearest (x * powerOfTen places) / powerOfTen places) s
        (gridAmount places n) := by
      rw [hn.div hscale hnpos hscalepos, sign_div_positive, gridAmount, if_neg hne]
      refine exactly_rounded (div_pos hnpos hscalepos) ?_ s
      calc (n : ℚ) / scale places ≤ n := div_le_self hnpos.le (one_le_scale places)
        _ ≤ a + 1 / 2 := hlow
        _ ≤ largest + 2 := by linarith [hscaled.le_largest]
        _ < overflow := largest_add_two_lt
    rw [if_neg fun h0 ↦ (gridAmount_pos places hne).ne' (hquot.beq_zero_iff.mp h0), if_neg hne]
    exact ⟨hquot, fun h0 ↦ absurd h0 hne⟩

/-- A legible value that has been rounded is on the grid. -/
theorem onGrid_of_roundTo (h : isLegible places (roundTo x places) = true) :
    ∃ s n, OnGrid (roundTo x places) places s n := by
  by_cases hfinite : (x * powerOfTen places).isFinite = true
  · obtain ⟨s, b, hb⟩ := exists_exactly hfinite
    obtain ⟨n, -, -, -, hn⟩ := exists_onGrid hb
    exact ⟨_, n, hn⟩
  · -- a value that is too great to be scaled is not legible
    obtain ⟨s, a, hc, ha⟩ := exactly_of_isLegible h
    rw [roundTo] at hc
    dsimp only at hc
    rw [if_neg hfinite] at hc
    exact absurd (hc.mul_powerOfTen ha).isFinite hfinite

/-- A legible number of units, its float in units, and its float in units of the last place are all
close together. -/
theorem gridAmount_close (h : gridAmount places n * (10 ^ places.toNat : ℕ) < unitLimit places) :
    n / 2 ^ 53 + gridAmount places n * scale places / 2 ^ 53 < 1 / 2 ∧
      |gridAmount places n * (10 ^ places.toNat : ℕ) - n| < 1 / 2 := by
  have hnonneg : 0 ≤ gridAmount places n := by
    rcases eq_or_ne n 0 with rfl | hne
    · exact (if_pos rfl).ge
    · exact (gridAmount_pos places hne).le
  have hgrid := abs_gridAmount_mul_sub_le places n
  have hscaled := abs_mul_scale_sub_le hnonneg h
  obtain ⟨h₁, h₂⟩ := abs_le.mp hgrid
  rcases slack_mul_unitLimit places with ⟨hs, hl⟩ | ⟨hs, hl⟩
  · rw [hs, zero_mul] at hscaled
    have heq := sub_eq_zero.mp (abs_nonpos_iff.mp hscaled)
    rw [← heq] at h ⊢
    rw [hl] at h
    have hn : (n : ℚ) ≤ 2 ^ 51 := by
      have hlt : (n : ℚ) < (2 ^ 51 + 1 : ℕ) := by
        push_cast
        linarith
      exact_mod_cast Nat.lt_succ_iff.mp (Nat.cast_lt.mp hlt)
    refine ⟨by linarith, ?_⟩
    rw [abs_lt]
    constructor <;> linarith
  · rw [hs] at hscaled
    obtain ⟨h₃, h₄⟩ := abs_le.mp hscaled
    rw [hl] at h
    have hn : (n : ℚ) ≤ 2 ^ 47 := by linarith
    refine ⟨by linarith, ?_⟩
    rw [abs_lt]
    constructor <;> linarith

/-- A number of units that is close to an integer goes to it. -/
theorem eq_of_abs_sub_lt {m : ℕ} {b : ℚ} (hlow : (m : ℚ) ≤ b + 1 / 2) (hhigh : b + 1 / 2 < m + 1)
    (hb : |b - n| < 1 / 2) : m = n := by
  obtain ⟨h, h'⟩ := abs_lt.mp hb
  have hle : (m : ℚ) < n + 1 := by linarith
  have hge : (n : ℚ) < m + 1 := by linarith
  exact Nat.le_antisymm (Nat.lt_succ_iff.mp (by exact_mod_cast hle))
    (Nat.lt_succ_iff.mp (by exact_mod_cast hge))

/-- Rounding again does not move a value on the grid that is not too great. -/
theorem OnGrid.roundTo (h : OnGrid x places s n)
    (hlt : gridAmount places n * (10 ^ places.toNat : ℕ) < unitLimit places) :
    OnGrid (roundTo x places) places s n := by
  obtain ⟨m, hlow, hhigh, -, hm⟩ := exists_onGrid (h.exactly.mul_powerOfTen hlt)
  rcases eq_or_ne n 0 with rfl | hne
  · rw [gridAmount, if_pos rfl, if_pos rfl] at hlow hhigh
    obtain rfl : m = 0 := eq_of_abs_sub_lt hlow hhigh (by norm_num)
    rwa [if_pos rfl, ← h.sign rfl] at hm
  · have hapos := gridAmount_pos places hne
    set w := gridAmount places n * scale places with hw
    have hwpos : 0 < w := mul_pos hapos (scale_pos places)
    have hwn := abs_gridAmount_mul_sub_le places n
    have hclose := (gridAmount_close hlt).1
    rw [← hw] at hwn hclose
    obtain ⟨h₁, h₂⟩ := abs_le.mp hwn
    have hwlow : (2 : ℚ) ^ (-1022 : ℤ) ≤ w := by
      have hn1 : (1 : ℚ) ≤ n := Nat.one_le_cast.mpr (Nat.pos_of_ne_zero hne)
      have htiny : (2 : ℚ) ^ (-1022 : ℤ) ≤ 2 ^ (-1 : ℤ) :=
        zpow_le_zpow_right₀ one_le_two (by norm_num)
      have hhalf : (2 : ℚ) ^ (-1 : ℤ) = 1 / 2 := by norm_num
      have hpos : 0 < w / 2 ^ 53 := div_pos hwpos (by norm_num)
      refine (htiny.trans hhalf.le).trans ?_
      linarith
    obtain ⟨h₃, h₄⟩ := abs_le.mp (abs_amount_rounded_sub_le hwlow)
    rw [if_neg hapos.ne'] at hlow hhigh
    obtain rfl : m = n := by
      refine eq_of_abs_sub_lt hlow hhigh ?_
      rw [abs_lt]
      constructor <;> linarith
    rwa [if_neg hne] at hm

/-! ## Texts -/

/-- A quotient is printed as the integer nearest to it. -/
theorem nearestEven_eq_nearest (num : ℕ) {den : ℕ} (hden : 0 < den) :
    Decimal.nearestEven num den = nearest ((num : ℚ) / den) := by
  rw [← (approximates_div num hden).nearest_eq, Decimal.nearestEven,
    accuracyOfFraction]
  split
  next hlt =>
    split
    · rfl
    · rw [compare_lt_iff_lt.mpr hlt]
      rfl
  next hge =>
    rw [if_neg (by omega : ¬num % den = 0)]
    split
    next heq =>
      rw [compare_eq_iff_eq.mpr heq]
      rfl
    next hne =>
      rw [compare_gt_iff_gt.mpr (by omega)]
      rfl

/-- A float is printed with its sign and the number of units nearest to it. -/
theorem Rounding.Exactly.fixedChars (h : Exactly x s a) (places : ℕ) :
    Decimal.fixedChars places x =
      if s == .negative then '-' :: Decimal.placedText places (nearest (a * 10 ^ places))
      else Decimal.placedText places (nearest (a * 10 ^ places)) := by
  obtain ⟨d, hd, hsign, ha⟩ := h.ofFloat?
  have hunits : Decimal.unitsAt places d = nearest (a * 10 ^ places) := by
    rw [Decimal.unitsAt, nearestEven_eq_nearest _ d.denominator_pos, Nat.pow_eq, ha]
    push_cast
    rw [div_mul_eq_mul_div]
  rw [Decimal.fixedChars, hd]
  dsimp only
  rw [hunits, hsign]

/-- A value on the grid is printed with its number of units. -/
theorem OnGrid.fixedChars (h : OnGrid x places s n)
    (hlt : gridAmount places n * (10 ^ places.toNat : ℕ) < unitLimit places) :
    Decimal.fixedChars places.toNat x =
      if s == .negative then '-' :: Decimal.placedText places.toNat n
      else Decimal.placedText places.toNat n := by
  have hclose := (gridAmount_close hlt).2
  have hnonneg := mul_nonneg h.exactly.nonneg (ten_pow_pos places.toNat).le
  rw [Nat.cast_pow, Nat.cast_ofNat] at hclose hnonneg
  rw [h.exactly.fixedChars, nearest_eq hnonneg (.inl hclose)]

theorem dropZeroSign_placedText (places n : ℕ) :
    dropZeroSign (Decimal.placedText places n) = Decimal.placedText places n := by
  cases htext : Decimal.placedText places n with
  | nil => rfl
  | cons c cs =>
    have hc : c ≠ '-' := by
      rintro rfl
      have hmem : '-' ∈ Decimal.placedText places n := htext ▸ List.mem_cons_self
      exact absurd (Decimal.isDigit_or_eq_point hmem) (by decide)
    rw [dropZeroSign]
    rintro cs' heq
    exact hc (List.cons.inj heq).1

/-- Only zero loses its sign. -/
theorem dropZeroSign_minus (places n : ℕ) : dropZeroSign ('-' :: Decimal.placedText places n) =
    if n = 0 then Decimal.placedText places n else '-' :: Decimal.placedText places n := by
  rcases eq_or_ne n 0 with rfl | hne
  · exact if_pos Decimal.all_placedText_zero
  · rw [if_neg hne]
    exact if_neg fun hall ↦ hne (Decimal.eq_zero_of_all_placedText hall)

/-- What is printed of a legible value is its sign and its number of units. -/
theorem formatFixed_of_onGrid (h : OnGrid x places s n)
    (hlt : gridAmount places n * (10 ^ places.toNat : ℕ) < unitLimit places) :
    (formatFixed x places).toList =
      if s == .negative then '-' :: Decimal.placedText places.toNat n
      else Decimal.placedText places.toNat n := by
  rw [formatFixed, (h.roundTo hlt).fixedChars hlt, String.toList_ofList]
  cases s with
  | negative =>
    have hne : n ≠ 0 := fun h0 ↦ nomatch h.sign h0
    exact (dropZeroSign_minus _ _).trans (if_neg hne)
  | positive => exact dropZeroSign_placedText _ _

end Grid

/-- Legible values that have been rounded are equal if they are printed alike. -/
theorem beq_of_formatFixed_eq {x y : Float} {places : UInt8}
    (hx : isLegible places (roundTo x places) = true)
    (hy : isLegible places (roundTo y places) = true)
    (heq : formatFixed (roundTo x places) places = formatFixed (roundTo y places) places) :
    (roundTo x places == roundTo y places) = true := by
  obtain ⟨_, a, ha, hlt⟩ := exactly_of_isLegible hx
  obtain ⟨_, a', ha', hlt'⟩ := exactly_of_isLegible hy
  obtain ⟨s, n, hn⟩ := onGrid_of_roundTo hx
  obtain ⟨s', n', hn'⟩ := onGrid_of_roundTo hy
  rw [ha.amount_unique hn.exactly] at hlt
  rw [ha'.amount_unique hn'.exactly] at hlt'
  have htext := congrArg String.toList heq
  rw [formatFixed_of_onGrid hn hlt, formatFixed_of_onGrid hn' hlt'] at htext
  have hminus : ∀ {n : ℕ} {cs : List Char},
      Decimal.placedText places.toNat n ≠ '-' :: cs := by
    intro n cs hcs
    have hmem : '-' ∈ Decimal.placedText places.toNat n := hcs ▸ List.mem_cons_self
    exact absurd (Decimal.isDigit_or_eq_point hmem) (by decide)
  have hsame : s = s' ∧ n = n' := by
    cases s with
    | negative =>
      cases s' with
      | negative => exact ⟨rfl, Decimal.placedText_inj (List.cons.inj htext).2⟩
      | positive => exact absurd htext.symm hminus
    | positive =>
      cases s' with
      | negative => exact absurd htext hminus
      | positive => exact ⟨rfl, Decimal.placedText_inj htext⟩
  obtain ⟨rfl, rfl⟩ := hsame
  exact hn.exactly.beq hn'.exactly

end FormulaQuiz
