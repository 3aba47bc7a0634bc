import FormulaQuiz.Proofs.Limits

/-!
# Neighbouring floats

Rounding keeps the order of numbers and leaves floats as they are, so no float lies between a number
and what it is rounded to; and a float is away from the others by a part of itself.  Both carry over
to values at a precision: a value that goes below a second one there is no greater than it.
-/

namespace FormulaQuiz

namespace Rounding

/-! ## Order -/

section Order

variable {x y : Float} {a b v w : ℚ}

theorem nearest_mono (ha : 0 ≤ a) (h : a ≤ b) : nearest a ≤ nearest b := by
  have hlow := (abs_le.mp (abs_nearest_sub_le ha)).2
  have hhigh := (abs_le.mp (abs_nearest_sub_le (ha.trans h))).1
  by_contra hlt
  have hstep : (nearest b : ℚ) + 1 ≤ nearest a := by exact_mod_cast not_le.mp hlt
  -- both numbers would be the middle between the two integers, which goes to one of them
  obtain rfl : a = b := by linarith
  exact hlt le_rfl

theorem place_mono (ha : 0 < a) (h : a ≤ b) : place a ≤ place b := by
  have hlog : Int.log 2 a ≤ Int.log 2 b := Int.log_mono_right ha h
  rw [place, place]
  omega

theorem amount_rounded_mono (ha : 0 < a) (h : a ≤ b) :
    amount (rounded a) ≤ amount (rounded b) := by
  have hb := ha.trans_le h
  rw [amount_rounded, amount_rounded]
  rcases (place_mono ha h).eq_or_lt with heq | hlt
  · have hunit : (0 : ℚ) < 2 ^ place b := zpow_pos two_pos _
    rw [heq]
    refine mul_le_mul_of_nonneg_right ?_ hunit.le
    exact_mod_cast nearest_mono (div_nonneg ha.le hunit.le) (div_le_div_of_nonneg_right h hunit.le)
  · have hlow : nearest (a / 2 ^ place a) ≤ 2 ^ 53 := nearest_place_le ha
    have hhigh : 2 ^ 52 ≤ nearest (b / 2 ^ place b) :=
      le_nearest_place hb ((le_max_right _ _).trans_lt hlt)
    calc (nearest (a / 2 ^ place a) : ℚ) * 2 ^ place a
        ≤ 2 ^ 53 * 2 ^ place a :=
          mul_le_mul_of_nonneg_right (by exact_mod_cast hlow) (zpow_pos two_pos _).le
      _ = 2 ^ 52 * 2 ^ (place a + 1) := by
          rw [zpow_add₀ two_ne_zero, zpow_one]
          ring
      _ ≤ 2 ^ 52 * 2 ^ place b :=
          mul_le_mul_of_nonneg_left (zpow_le_zpow_right₀ one_le_two hlt) (by norm_num)
      _ ≤ nearest (b / 2 ^ place b) * 2 ^ place b :=
          mul_le_mul_of_nonneg_right (by exact_mod_cast hhigh) (zpow_pos two_pos _).le

/-- Rounding keeps the order. -/
theorem near_mono (h : v ≤ w) : near v ≤ near w := by
  have key : ∀ {a b : ℚ}, 0 ≤ a → a ≤ b → near a ≤ near b := by
    intro a b ha hab
    rcases ha.eq_or_lt with rfl | hpos
    · rw [near_zero]
      exact near_nonneg hab
    · rw [near_of_nonneg ha, near_of_nonneg (ha.trans hab)]
      exact amount_rounded_mono hpos hab
  rcases le_total 0 v with hv | hv
  · exact key hv h
  rcases le_total 0 w with hw | hw
  · calc near v = -near (-v) := by rw [near_neg, neg_neg]
      _ ≤ 0 := neg_nonpos.mpr (near_nonneg (neg_nonneg.mpr hv))
      _ ≤ near w := near_nonneg hw
  · have hneg := key (neg_nonneg.mpr hw) (neg_le_neg h)
    rwa [near_neg, near_neg, neg_le_neg_iff] at hneg

theorem near_abs (v : ℚ) : near |v| = |near v| := by
  rcases le_total 0 v with h | h
  · rw [abs_of_nonneg h, abs_of_nonneg (near_nonneg h)]
  · have hneg := near_nonneg (neg_nonneg.mpr h)
    rw [near_neg] at hneg
    rw [abs_of_nonpos h, near_neg, abs_of_nonpos (neg_nonneg.mp hneg)]

theorem abs_near_sub (v : ℚ) : |near v - v| = abs (near |v| - |v|) := by
  rcases le_total 0 v with h | h
  · rw [abs_of_nonneg h]
  · rw [abs_of_nonpos h, near_neg, neg_sub_neg, abs_sub_comm]

/-- A float is rounded to itself. -/
theorem Is.near_eq (h : Is x v) : near v = v := by
  obtain ⟨s, a, ⟨r, hr, -, -, rfl⟩, rfl⟩ := h
  rcases eq_or_ne r.1 0 with h0 | h0
  · rw [amount_eq_zero_iff.mpr h0, oriented_zero, near_zero]
  · have hpos := amount_pos h0
    rw [near, signOf_oriented hpos, abs_oriented hpos.le, rounded_amount hr h0]

/-- No float lies between a number and what it is rounded to. -/
theorem Is.le_near (h : Is x v) (hle : v ≤ w) : v ≤ near w := h.near_eq ▸ near_mono hle

theorem Is.near_le (h : Is x v) (hle : w ≤ v) : near w ≤ v := h.near_eq ▸ near_mono hle

end Order

/-! ## Distance -/

section Distance

variable {x y : Float} {a b v w : ℚ} {r r' : ℕ × ℤ}

/-- A greater float is away from a smaller one by a part of itself. -/
theorem Canonical.div_le_sub (hr : Canonical r) (hr' : Canonical r') (h : amount r < amount r') :
    amount r' / 2 ^ 53 ≤ amount r' - amount r := by
  have hm : (r.1 : ℚ) + 1 ≤ 2 ^ 53 := by exact_mod_cast hr.lt
  have hm' : (r'.1 : ℚ) + 1 ≤ 2 ^ 53 := by exact_mod_cast hr'.lt
  rcases le_or_gt r'.2 r.2 with hle | hlt
  · -- both are multiples of the unit of the greater one
    obtain ⟨n, hn⟩ := Int.eq_ofNat_of_zero_le (sub_nonneg.mpr hle)
    have hunit : (0 : ℚ) < 2 ^ r'.2 := zpow_pos two_pos _
    have hamount : amount r = (r.1 * 2 ^ n : ℕ) * 2 ^ r'.2 := by
      rw [amount, show r.2 = n + r'.2 by omega, zpow_add₀ two_ne_zero, zpow_natCast]
      push_cast
      ring
    rw [hamount, amount] at h ⊢
    have hstep : ((r.1 * 2 ^ n : ℕ) : ℚ) + 1 ≤ r'.1 := by
      exact_mod_cast (mul_lt_mul_iff_left₀ hunit).mp h
    rw [div_le_iff₀ (by norm_num), ← sub_mul]
    nlinarith
  · -- the smaller one has less than the significand that the greater one begins with
    have hlow : (2 : ℚ) ^ 52 ≤ r'.1 := by exact_mod_cast hr'.normal (hr.le.trans_lt hlt)
    obtain ⟨unit, hunit⟩ : ∃ unit : ℚ, unit = 2 ^ (r'.2 - 1) := ⟨_, rfl⟩
    have hpos : 0 < unit := hunit ▸ zpow_pos two_pos _
    have hamount' : amount r' = 2 * r'.1 * unit := by
      rw [hunit, amount, zpow_sub_one₀ two_ne_zero]
      ring
    have hamount : amount r ≤ (2 ^ 53 - 1) * unit := by
      rw [hunit, amount]
      exact mul_le_mul (by linarith) (zpow_le_zpow_right₀ one_le_two (by omega))
        (zpow_pos two_pos _).le (by norm_num)
    rw [hamount', div_le_iff₀ (by norm_num)]
    rcases hlow.eq_or_lt with heq | hgt
    · rw [← heq] at *
      nlinarith
    · have hgt' : (2 : ℚ) ^ 52 + 1 ≤ r'.1 := by
        have : 2 ^ 52 < r'.1 := by exact_mod_cast hgt
        exact_mod_cast this
      nlinarith

/-- Different floats are not closer to each other than a part of the greater. -/
theorem Is.div_le_sub (hx : Is x v) (hy : Is y w) (h : v < w) : |w| / 2 ^ 53 ≤ w - v := by
  obtain ⟨s, a, ⟨r, hr, -, -, rfl⟩, rfl⟩ := hx
  obtain ⟨t, b, ⟨r', hr', -, -, rfl⟩, rfl⟩ := hy
  have ha := amount_nonneg r
  have hb := amount_nonneg r'
  rw [abs_oriented hb, div_le_iff₀ (by norm_num)]
  cases t with
  | positive =>
    change _ < amount r' at h
    change _ ≤ (amount r' - _) * _
    cases s with
    | positive => exact (div_le_iff₀ (by norm_num)).mp (hr.div_le_sub hr' h)
    | negative =>
      change _ ≤ (amount r' - -amount r) * _
      nlinarith
  | negative =>
    change _ < -amount r' at h
    change _ ≤ (-amount r' - _) * _
    cases s with
    | positive =>
      change amount r < _ at h
      linarith
    | negative =>
      change -amount r < _ at h
      change _ ≤ (-amount r' - -amount r) * _
      have hgap := (div_le_iff₀ (by norm_num)).mp (hr'.div_le_sub hr (neg_lt_neg_iff.mp h))
      linarith

/-- A float that is not small is a multiple of a power of two. -/
theorem Exactly.exists_mul_zpow {s : Float.Model.UnpackedFloat.Sign} (h : Exactly x s a) (t : ℤ)
    (ha : 2 ^ (t + 52) ≤ a) : ∃ n : ℕ, a = n * 2 ^ t := by
  obtain ⟨r, hr, -, -, rfl⟩ := h
  have hexp : t ≤ r.2 := by
    by_contra hneg
    have hm : (r.1 : ℚ) < 2 ^ 53 := by exact_mod_cast hr.lt
    have hunit : (2 : ℚ) ^ r.2 ≤ 2 ^ (t - 1) := zpow_le_zpow_right₀ one_le_two (by omega)
    have hlt : amount r < 2 ^ 53 * 2 ^ (t - 1) :=
      mul_lt_mul hm hunit (zpow_pos two_pos _) (by norm_num)
    refine absurd ha (not_le.mpr (hlt.trans_eq ?_))
    rw [show t + 52 = (t - 1) + (53 : ℕ) by push_cast; ring, zpow_add₀ two_ne_zero, zpow_natCast,
      mul_comm]
  obtain ⟨n, hn⟩ := Int.eq_ofNat_of_zero_le (sub_nonneg.mpr hexp)
  refine ⟨r.1 * 2 ^ n, ?_⟩
  rw [amount, show r.2 = n + t by omega, zpow_add₀ two_ne_zero, zpow_natCast]
  push_cast
  ring

/-- A float that is not small is an integer. -/
theorem Exactly.exists_natCast {s : Float.Model.UnpackedFloat.Sign} (h : Exactly x s a)
    (ha : 2 ^ 52 ≤ a) : ∃ n : ℕ, a = n := by
  obtain ⟨n, hn⟩ := h.exists_mul_zpow 0 (by exact_mod_cast ha)
  exact ⟨n, by rw [hn, zpow_zero, mul_one]⟩

/-- A float with a shorter unit than those around a number is below the power of two at which these
begin, by half of their unit. -/
theorem half_le_abs_sub_of_lt_place (ha : 0 < a) (hr : Canonical r) (hexp : r.2 < place a) :
    1 / 2 * 2 ^ place a ≤ |amount r - a| := by
  have hunit : (0 : ℚ) < 2 ^ place a := zpow_pos two_pos _
  have hlow : 2 ^ 52 ≤ a / 2 ^ place a := by
    have hlog : place a = Int.log 2 a - 52 := by
      have hmin := hr.le
      rw [place] at hexp ⊢
      omega
    exact le_div_zpow_of_log ha (by rw [hlog]; exact (sub_add_cancel _ _).le)
  rw [le_div_iff₀ hunit] at hlow
  have hm : (r.1 : ℚ) ≤ 2 ^ 53 - 1 := by
    have hnat : (r.1 : ℚ) + 1 ≤ 2 ^ 53 := by exact_mod_cast hr.lt
    linarith
  have hhalf : (2 : ℚ) ^ r.2 ≤ 1 / 2 * 2 ^ place a :=
    calc (2 : ℚ) ^ r.2 ≤ 2 ^ (place a - 1) := zpow_le_zpow_right₀ one_le_two (by omega)
      _ = 1 / 2 * 2 ^ place a := by
        rw [zpow_sub_one₀ two_ne_zero]
        ring
  have hamount : amount r ≤ (2 ^ 53 - 1) * (1 / 2 * 2 ^ place a) :=
    mul_le_mul hm hhalf (zpow_pos two_pos _).le (by norm_num)
  refine le_trans ?_ (neg_le_abs _)
  linarith

/-- No float is nearer to a number than the one that it is rounded to. -/
theorem abs_amount_rounded_sub_le_abs (ha : 0 < a) (hr : Canonical r) :
    |amount (rounded a) - a| ≤ |amount r - a| := by
  have hunit : (0 : ℚ) < 2 ^ place a := zpow_pos two_pos _
  refine not_lt.mp fun hlt ↦ ?_
  have hclose : |amount r - a| < 1 / 2 * 2 ^ place a :=
    hlt.trans_le (abs_amount_rounded_sub_le_place ha)
  have hexp : place a ≤ r.2 := not_lt.mp fun hexp ↦
    absurd hclose (not_lt.mpr (half_le_abs_sub_of_lt_place ha hr hexp))
  obtain ⟨k, hk⟩ := Int.eq_ofNat_of_zero_le (sub_nonneg.mpr hexp)
  have hmultiple : amount r = (r.1 * 2 ^ k : ℕ) * 2 ^ place a := by
    rw [amount, show r.2 = k + place a by omega, zpow_add₀ two_ne_zero, zpow_natCast]
    push_cast
    ring
  have hnearest : nearest (a / 2 ^ place a) = r.1 * 2 ^ k := by
    refine nearest_eq (div_nonneg ha.le hunit.le) (.inl ?_)
    rw [← mul_lt_mul_iff_left₀ hunit, ← abs_of_pos hunit, ← abs_mul, abs_of_pos hunit, sub_mul,
      div_mul_cancel₀ _ hunit.ne', ← hmultiple, abs_sub_comm]
    exact hclose
  rw [amount_rounded, hnearest, ← hmultiple] at hlt
  exact lt_irrefl _ hlt

/-- A float keeps the numbers that are as near to it as one that is rounded to it, but for the powers
of two, which have a nearer neighbour below. -/
theorem rounded_eq_of_abs_sub_le (ha : 0 < a) (hb : 0 < b) (hpower : (rounded a).1 ≠ 2 ^ 52)
    (h : |b - amount (rounded a)| ≤ |a - amount (rounded a)|) : rounded b = rounded a := by
  have hunit : (0 : ℚ) < 2 ^ place a := zpow_pos two_pos _
  have hrounded : rounded a = (nearest (a / 2 ^ place a), place a) := by
    rw [rounded] at hpower ⊢
    split at hpower
    next => exact absurd rfl hpower
    next hcarry => exact if_neg hcarry
  have hreach : reachBelow (rounded a) = 1 / 2 := if_neg fun hboth ↦ hpower hboth.1
  have hunits : ∀ c : ℚ, |c - amount (rounded a)| =
      |c / 2 ^ place a - nearest (a / 2 ^ place a)| * 2 ^ place a := by
    intro c
    rw [amount_rounded, ← abs_of_pos hunit, ← abs_mul, abs_of_pos hunit, sub_mul,
      div_mul_cancel₀ _ hunit.ne']
  rw [hunits, hunits, mul_le_mul_iff_left₀ hunit] at h
  have hhalf := abs_nearest_sub_le (div_nonneg ha.le hunit.le)
  rw [abs_sub_comm] at hhalf
  obtain ⟨hlow, hhigh⟩ := abs_le.mp (h.trans hhalf)
  refine rounded_eq (canonical_rounded ha) hb ⟨?_, ?_, ?_⟩
  · rw [hreach, hrounded]
    linarith
  · rw [hrounded]
    linarith
  · rw [hreach, hrounded]
    refine (abs_sub_nearest_lt_or (div_nonneg ha.le hunit.le)).symm.imp id fun hlt ↦ ?_
    obtain ⟨hl, hh⟩ := abs_lt.mp (h.trans_lt hlt)
    exact ⟨by linarith, by linarith⟩

end Distance

end Rounding

/-! ## Values at a precision -/

open Rounding

section Units

variable {x y : Float} {f v w : ℚ} {k : ℤ} {places : UInt8}

/-- A number of units, of which there are `f` in one, to which a value goes: an integer that is
nearest to the value in units, as it is calculated. -/
structure InUnits (f v : ℚ) (k : ℤ) : Prop where
  close : |k - near (v * f)| ≤ 1 / 2
  /-- What is not small is an integer already. -/
  whole : 2 ^ 52 ≤ |near (v * f)| → k = near (v * f)

theorem InUnits.neg (h : InUnits f v k) : InUnits f (-v) (-k) := by
  have hvalue : near (-v * f) = -near (v * f) := by rw [neg_mul, near_neg]
  refine ⟨?_, fun hle ↦ ?_⟩
  · rw [hvalue, Int.cast_neg, neg_sub_neg, abs_sub_comm]
    exact h.close
  · rw [hvalue, abs_neg] at hle
    rw [hvalue, Int.cast_neg, h.whole hle]

/-- A float of moderate size has an integer nearest to it, which is also a float. -/
theorem Rounding.Is.exists_toIntegral (h : Is x v) : ∃ k : ℤ, Is (toIntegral .nearest x) k ∧
    |k - v| ≤ 1 / 2 ∧ (2 ^ 52 ≤ |v| → k = v) := by
  obtain ⟨s, a, ha, rfl⟩ := h
  obtain ⟨n, hn, hle, hlt⟩ := ha.toIntegral_nearest
  have hclose : |(n : ℚ) - a| ≤ 1 / 2 := by
    rw [abs_le]
    constructor <;> linarith
  have hwhole : 2 ^ 52 ≤ a → (n : ℚ) = a := by
    intro hge
    obtain ⟨m, rfl⟩ := ha.exists_natCast hge
    have h1 : (n : ℚ) < m + 1 := by linarith
    have h2 : (m : ℚ) < n + 1 := by linarith
    have h1' : n < m + 1 := by exact_mod_cast h1
    have h2' : m < n + 1 := by exact_mod_cast h2
    exact_mod_cast (by omega : n = m)
  rw [abs_oriented ha.nonneg]
  cases s with
  | positive => exact ⟨n, hn.is, hclose, hwhole⟩
  | negative =>
    refine ⟨-n, ?_, ?_, fun hge ↦ ?_⟩
    · rw [Int.cast_neg, Int.cast_natCast]
      exact hn.is
    · change |((-n : ℤ) : ℚ) - -a| ≤ 1 / 2
      rw [Int.cast_neg, Int.cast_natCast, neg_sub_neg, abs_sub_comm]
      exact hclose
    · change ((-n : ℤ) : ℚ) = -a
      rw [Int.cast_neg, Int.cast_natCast, hwhole hge]

/-- A value at a precision is a number of units. -/
theorem exists_inUnits (hx : Is x v) (hscaled : (x * powerOfTen places).isFinite = true) :
    ∃ k : ℤ, InUnits (scale places) v k ∧ Is (roundTo x places) (near (k / scale places)) := by
  have hfactor := (exactly_scale places).is_of_positive
  obtain ⟨k, hk, hclose, hwhole⟩ := (hx.mul_near hfactor hscaled).exists_toIntegral
  refine ⟨k, ⟨hclose, hwhole⟩, ?_⟩
  have hrounded := isFinite_roundTo hx.isFinite places
  rw [roundTo] at hrounded ⊢
  dsimp only at hrounded ⊢
  rw [if_pos hscaled] at hrounded ⊢
  split
  next hzero =>
    have hfinite := (isFinite_eq_of_beq hzero).trans is_zero.isFinite
    have hvalue := hk.div_near hfactor (scale_pos places).ne' hfinite
    obtain ⟨s, a, ha, heq⟩ := hvalue
    rw [← heq, ha.beq_zero_iff.mp hzero, oriented_zero]
    exact is_zero
  next hne =>
    rw [if_neg hne] at hrounded
    exact hk.div_near hfactor (scale_pos places).ne' hrounded

/-- A value that is too great to be scaled is kept. -/
theorem roundTo_of_not_scaled (h : (x * powerOfTen places).isFinite = false) :
    roundTo x places = x := by
  rw [roundTo]
  exact if_neg (by rw [h]; exact Bool.false_ne_true)

/-- What is not tiny is off by a part of it at most. -/
theorem abs_near_sub_le_div (h : 1 ≤ |near v|) : |near v - v| ≤ |v| / 2 ^ 53 := by
  rw [← near_abs] at h
  rw [abs_near_sub]
  have hhalf : 1 / 2 ≤ |v| := by
    by_contra hlt
    have herror := (abs_le.mp (roundsTo_near |v|).abs_sub_le_add_one).2
    rw [abs_abs] at herror
    linarith
  have hnormal : (2 : ℚ) ^ (-1022 : ℤ) ≤ |v| :=
    ((zpow_le_zpow_right₀ one_le_two (by norm_num : (-1022 : ℤ) ≤ -1)).trans (by norm_num)).trans
      hhalf
  rw [near_of_nonneg (abs_nonneg v)]
  exact abs_amount_rounded_sub_le hnormal

/-- What is not great is off by a half at most. -/
theorem abs_near_sub_le_half (h : |near v| < 2 ^ 52) : |near v - v| ≤ 1 / 2 := by
  rcases lt_or_ge |near v| 1 with hsmall | hone
  · have herror := (roundsTo_near v).abs_sub_le_add_one
    have hsize : |v| - |near v| ≤ |near v - v| := by
      rw [abs_sub_comm]
      exact abs_sub_abs_le_abs_sub v (near v)
    linarith
  · have hle : |v| ≤ 2 ^ 52 := by
      by_contra hgt
      have hpower := (exactly_round_natCast (n := 2 ^ 52) (by norm_num) .positive).is_of_positive
      have hbeyond := hpower.le_near (w := |v|) (by push_cast; exact (not_le.mp hgt).le)
      rw [near_abs] at hbeyond
      push_cast at hbeyond
      linarith
    linarith [abs_near_sub_le_div hone]

/-- The negation of a float is a float. -/
theorem Rounding.Is.opposite (h : Is x v) : Is (0 - x) (-v) := by
  have hfinite : (0 - x).isFinite = true := by
    refine is_zero.isFinite_sub h ?_
    rw [zero_sub, abs_neg]
    linarith [h.abs_le_largest, largest_add_two_lt]
  have hvalue := is_zero.sub_near h hfinite
  rwa [zero_sub, near_neg, h.near_eq] at hvalue

/-- What a value at a precision may be: a number of units, or a value that is too great to be
scaled. -/
def AtPrecision (f w : ℚ) : Prop := (∃ k : ℤ, w = near (k / f)) ∨ overflow ≤ |w * f|

theorem AtPrecision.neg {w : ℚ} (h : AtPrecision f w) : AtPrecision f (-w) := by
  rcases h with ⟨k, rfl⟩ | h
  · refine .inl ⟨-k, ?_⟩
    rw [← near_neg, Int.cast_neg, neg_div]
  · refine .inr ?_
    rwa [neg_mul, abs_neg]

theorem exists_atPrecision (hx : x.isFinite = true) (places : UInt8) :
    ∃ w, Is (roundTo x places) w ∧ AtPrecision (scale places) w := by
  obtain ⟨v, hv⟩ := exists_is hx
  by_cases hscaled : (x * powerOfTen places).isFinite = true
  · obtain ⟨k, -, hk⟩ := exists_inUnits hv hscaled
    exact ⟨_, hk, .inl ⟨k, rfl⟩⟩
  · rw [roundTo_of_not_scaled (Bool.not_eq_true _ ▸ hscaled)]
    refine ⟨v, hv, .inr (not_lt.mp fun hlt ↦ hscaled ?_)⟩
    exact (hv.isFinite_mul_iff (exactly_scale places).is_of_positive).mpr hlt

/-- A value goes below no other one that is below it: what is greater at the precision is not
less. -/
theorem InUnits.le_of_lt {w : ℚ} (hf : 0 < f) (h : InUnits f v k) (hx : Is x v) (hy : Is y w)
    (hw : AtPrecision f w) (hlt : near (k / f) < w) : v ≤ w := by
  rcases lt_or_ge |near (v * f)| (2 ^ 52) with hmoderate | hgreat
  · have hunits := (abs_le.mp (abs_near_sub_le_half hmoderate)).1
    have hclose := abs_le.mp h.close
    obtain ⟨hlow, hhigh⟩ := abs_lt.mp hmoderate
    rcases hw with ⟨k', rfl⟩ | hover
    · -- the other number of units is greater by one, but rounding moves by halves only
      have hstep : k + 1 ≤ k' := by
        by_contra hnot
        have hle : (k' : ℚ) ≤ k := by exact_mod_cast (by omega : k' ≤ k)
        exact absurd (near_mono (div_le_div_of_nonneg_right hle hf.le)) (not_le.mpr hlt)
      have hstep' : (k : ℚ) + 1 ≤ k' := by exact_mod_cast hstep
      refine hx.le_near ((le_div_iff₀ hf).mpr ?_)
      linarith [hclose.2]
    · have hlimit := two_pow_lt_overflow
      rcases le_abs.mp hover with hpos | hneg
      · refine le_of_mul_le_mul_right ?_ hf
        linarith
      · have hbelow : w ≤ k / f := by
          rw [le_div_iff₀ hf]
          linarith [hclose.1]
        exact absurd (hy.le_near hbelow) (not_le.mpr hlt)
  · -- a float that is greater than what the value goes to is not between the two
    by_contra hnot
    have hgap := hy.div_le_sub hx (not_le.mp hnot)
    have herror : |k - v * f| ≤ |v * f| / 2 ^ 53 := by
      rw [h.whole hgreat]
      exact abs_near_sub_le_div ((by norm_num : (1 : ℚ) ≤ 2 ^ 52).trans hgreat)
    have hpart : |v * f| / 2 ^ 53 = |v| / 2 ^ 53 * f := by
      rw [abs_mul, abs_of_pos hf]
      ring
    have hbelow : w ≤ k / f := by
      rw [le_div_iff₀ hf]
      nlinarith [(abs_le.mp herror).1]
    exact absurd (hy.le_near hbelow) (not_le.mpr hlt)

theorem InUnits.ge_of_gt {w : ℚ} (hf : 0 < f) (h : InUnits f v k) (hx : Is x v) (hy : Is y w)
    (hw : AtPrecision f w) (hgt : w < near (k / f)) : w ≤ v := by
  refine neg_le_neg_iff.mp (h.neg.le_of_lt hf hx.opposite hy.opposite hw.neg ?_)
  rwa [Int.cast_neg, neg_div, near_neg, neg_lt_neg_iff]

variable (hx : x.isFinite = true) (hy : y.isFinite = true)
include hx hy

/-- What is greater at a precision than another value is not less than this value. -/
theorem le_roundTo_of_lt (h : roundTo x places < roundTo y places) : x ≤ roundTo y places := by
  obtain ⟨v, hv⟩ := exists_is hx
  obtain ⟨w, hw, hprecision⟩ := exists_atPrecision hy places
  rw [hv.le_iff hw]
  by_cases hscaled : (x * powerOfTen places).isFinite = true
  · obtain ⟨k, hunits, hk⟩ := exists_inUnits hv hscaled
    exact hunits.le_of_lt (scale_pos places) hv hw hprecision ((hk.lt_iff hw).mp h)
  · rw [roundTo_of_not_scaled (Bool.not_eq_true _ ▸ hscaled), hv.lt_iff hw] at h
    exact h.le

/-- What is less at a precision than another value is not greater than this value. -/
theorem roundTo_le_of_lt (h : roundTo y places < roundTo x places) : roundTo y places ≤ x := by
  obtain ⟨v, hv⟩ := exists_is hx
  obtain ⟨w, hw, hprecision⟩ := exists_atPrecision hy places
  rw [hw.le_iff hv]
  by_cases hscaled : (x * powerOfTen places).isFinite = true
  · obtain ⟨k, hunits, hk⟩ := exists_inUnits hv hscaled
    exact hunits.ge_of_gt (scale_pos places) hv hw hprecision ((hw.lt_iff hk).mp h)
  · rw [roundTo_of_not_scaled (x := x) (Bool.not_eq_true _ ▸ hscaled), hw.lt_iff hv] at h
    exact h.le

end Units

end FormulaQuiz
