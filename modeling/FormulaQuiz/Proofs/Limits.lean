import FormulaQuiz.Proofs.Ranges

/-!
# The limit of the floats

A result is rounded to a finite float just if it lies below the overflow, and no operation makes a
finite float of one that is not; so finiteness can be decided on exact numbers.  What is finite lies
close to the exact result.
-/

namespace FormulaQuiz

namespace Rounding

open Float.Model Float.Model.UnpackedFloat

/-! ## The limit is exact -/

section Limit

variable {x y : Float} {v w : ℚ}

/-- What is not rounded out of the floats lies below the limit. -/
theorem lt_overflow_of_rounded_le {a : ℚ} (ha : 0 < a) (h : (rounded a).2 ≤ 971) :
    a < overflow := by
  have hunit : (0 : ℚ) < 2 ^ place a := zpow_pos two_pos _
  have hlt : a / 2 ^ place a < 2 ^ 53 := div_zpow_lt_of_log (by rw [place]; omega)
  by_cases hplace : place a ≤ 970
  · calc a < 2 ^ 53 * 2 ^ place a := (div_lt_iff₀ hunit).mp hlt
      _ ≤ 2 ^ 53 * 2 ^ (970 : ℤ) :=
        mul_le_mul_of_nonneg_left (zpow_le_zpow_right₀ one_le_two hplace) (by norm_num)
      _ = 2 ^ 52 * 2 ^ (971 : ℤ) := by
        rw [show (971 : ℤ) = 970 + 1 from rfl, zpow_add₀ two_ne_zero, zpow_one]
        ring
      _ ≤ overflow := mul_le_mul_of_nonneg_right (by norm_num) (zpow_pos two_pos _).le
  · by_contra hge
    rw [rounded] at h
    split at h
    next => simp only at h; omega
    next hcarry =>
      -- in the last power of two, all that is left above the limit goes to the even end of it
      obtain heq : place a = 971 := by simp only at h; omega
      have hlow : 2 ^ 53 - 1 / 2 ≤ a / 2 ^ place a := by
        rw [le_div_iff₀ hunit, heq]
        exact not_lt.mp hge
      refine hcarry (nearest_eq (div_nonneg ha.le hunit.le) (.inr ⟨?_, by norm_num⟩))
      rw [Nat.cast_pow, Nat.cast_ofNat, abs_le]
      constructor <;> linarith

/-- A number is rounded to a finite float just if it lies below the limit. -/
theorem isFinite_closest_iff (hv : v ≠ 0) : (closest v).isFinite = true ↔ |v| < overflow := by
  refine ⟨fun h ↦ ?_, fun h ↦ (is_closest hv h).isFinite⟩
  refine lt_overflow_of_rounded_le (abs_pos.mpr hv) (not_lt.mp fun hgt ↦ ?_)
  rw [closest, pack_of_lt (canonical_rounded (abs_pos.mpr hv)) hgt,
    (infinite_pack _).isFinite] at h
  exact Bool.false_ne_true h

/-- A decimal the exponent of which is out of reach of floats above is above their limit. -/
theorem overflow_le_decimal {coefficient : ℕ} {exponent : ℤ} (hc : coefficient ≠ 0)
    (h : 2048 < exponent) : overflow ≤ coefficient * 10 ^ exponent :=
  calc overflow ≤ 2 ^ 53 * 2 ^ (971 : ℤ) :=
        mul_le_mul_of_nonneg_right (by norm_num) (zpow_pos two_pos _).le
    _ = 2 ^ (1024 : ℤ) := by
        rw [← zpow_natCast (2 : ℚ) 53, ← zpow_add₀ two_ne_zero]
        rfl
    _ ≤ 10 ^ (1024 : ℤ) := zpow_le_zpow_left₀ (by norm_num) (by norm_num) (by norm_num)
    _ ≤ 10 ^ exponent := zpow_le_zpow_right₀ (by norm_num) (by omega)
    _ ≤ coefficient * 10 ^ exponent :=
        le_mul_of_one_le_left (zpow_pos (by norm_num) _).le
          (by exact_mod_cast Nat.pos_of_ne_zero hc)

/-- A decimal is read as a finite float just if its exact value lies below the limit. -/
theorem isFinite_nearestFloat_iff {coefficient : ℕ} {exponent : ℤ} :
    (Decimal.nearestFloat coefficient exponent).isFinite = true ↔
      coefficient * 10 ^ exponent < overflow := by
  cases isNearest_nearestFloat coefficient exponent with
  | zero hx hlt =>
    exact iff_of_true hx.isFinite (hlt.trans (by linarith [two_pow_lt_overflow]))
  | rounded hc hx =>
    have hpos := decimal_pos hc exponent
    have hclosest : Decimal.nearestFloat coefficient exponent =
        closest (coefficient * 10 ^ exponent) := by
      rw [hx, closest, signOf, if_neg (not_lt.mpr hpos.le), abs_of_pos hpos]
    rw [hclosest, isFinite_closest_iff hpos.ne', abs_of_pos hpos]
  | infinite hc hhigh hx =>
    refine iff_of_false (fun h ↦ ?_) (not_lt.mpr (overflow_le_decimal hc hhigh))
    rw [hx, (infinite_pack _).isFinite] at h
    exact Bool.false_ne_true h

/-- A product of finite floats is finite just if it lies below the limit. -/
theorem Is.isFinite_mul_iff (hx : Is x v) (hy : Is y w) :
    (x * y).isFinite = true ↔ |v * w| < overflow := by
  rcases eq_or_ne (v * w) 0 with h | h
  · refine iff_of_true (hx.mul_of_eq_zero hy h).isFinite ?_
    rw [h, abs_zero]
    exact (by norm_num : (0 : ℚ) < 2 ^ 53).trans two_pow_lt_overflow
  · rw [hx.mul hy h, isFinite_closest_iff h]

/-- Packing makes nothing finite. -/
theorem isFinite_of_pack {u : UnpackedFloat} (h : (Float.Model.pack u).unpack.isFinite = true) :
    u.isFinite = true := by
  cases u with
  | infinity s =>
    rw [unpack_pack_infinity] at h
    exact h
  | notANumber => exact absurd h (by decide)
  | zero s => rfl
  | finite s m e hm => rfl

/-- The parts of a finite product are finite. -/
theorem isFinite_of_mul (h : (x * y).isFinite = true) :
    x.isFinite = true ∧ y.isFinite = true := by
  have hmul : (UnpackedFloat.mul .binary64 x.toModel.unpack y.toModel.unpack).isFinite = true :=
    isFinite_of_pack h
  change x.toModel.unpack.isFinite = true ∧ y.toModel.unpack.isFinite = true
  generalize x.toModel.unpack = u, y.toModel.unpack = u' at *
  cases u <;> cases u' <;> first
    | exact ⟨rfl, rfl⟩
    | exact nomatch hmul

/-- Of equal floats both are finite or none is. -/
theorem isFinite_eq_of_beq (h : (x == y) = true) : x.isFinite = y.isFinite := by
  change x.toModel.unpack.beq y.toModel.unpack = true at h
  change x.toModel.unpack.isFinite = y.toModel.unpack.isFinite
  generalize x.toModel.unpack = u, y.toModel.unpack = u' at *
  cases u with
  | notANumber => cases u' <;> exact nomatch h
  | infinity s =>
    cases u' with
    | notANumber => rfl
    | infinity t => rfl
    | zero t => cases s <;> exact nomatch h
    | finite t m e hm => cases s <;> exact nomatch h
  | zero s =>
    cases u' with
    | notANumber => exact nomatch h
    | infinity t => cases t <;> exact nomatch h
    | zero t => rfl
    | finite t m e hm => rfl
  | finite s m e hm =>
    cases u' with
    | notANumber => exact nomatch h
    | infinity t => cases t <;> exact nomatch h
    | zero t => rfl
    | finite t m' e' hm' => rfl

end Limit

/-! ## Errors of rounding -/

/-- What rounding makes of a number: it lies close to it, and keeps its sign. -/
structure RoundsTo (v u : ℚ) : Prop where
  abs_sub_le : |u - v| ≤ |v| / 2 ^ 53 + 2 ^ (-1075 : ℤ)
  nonneg : 0 ≤ v → 0 ≤ u

section RoundsTo

variable {x y : Float} {a u v w : ℚ}

/-- A number is moved by its part of `2 ^ 53`, or by half of the least float if it is tiny. -/
theorem abs_amount_rounded_sub_le_add (ha : 0 < a) :
    |amount (rounded a) - a| ≤ a / 2 ^ 53 + 2 ^ (-1075 : ℤ) := by
  rcases le_or_gt (2 ^ (-1022 : ℤ)) a with h | h
  · exact (abs_amount_rounded_sub_le h).trans (le_add_of_nonneg_right (by positivity))
  · have hplace : place a = -1074 := by
      have hlog := (Int.lt_zpow_iff_log_lt (R := ℚ) one_lt_two ha).mp (by exact_mod_cast h)
      rw [place]
      omega
    calc |amount (rounded a) - a| ≤ 1 / 2 * 2 ^ place a := abs_amount_rounded_sub_le_place ha
      _ = 2 ^ (-1075 : ℤ) := by
          rw [hplace, show (-1075 : ℤ) = -1074 - 1 from rfl, zpow_sub_one₀ two_ne_zero, mul_comm,
            one_div]
      _ ≤ a / 2 ^ 53 + 2 ^ (-1075 : ℤ) := le_add_of_nonneg_left (by positivity)

/-- The error is a small part of the number, or small itself. -/
theorem RoundsTo.abs_sub_le_add_one (h : RoundsTo v u) : |u - v| ≤ (|v| + 1) / 2 ^ 53 := by
  have htiny : (2 : ℚ) ^ (-1075 : ℤ) ≤ 2 ^ (-53 : ℤ) := zpow_le_zpow_right₀ one_le_two (by norm_num)
  refine h.abs_sub_le.trans ?_
  rw [add_div]
  refine add_le_add le_rfl (htiny.trans_eq ?_)
  norm_num

theorem RoundsTo.abs_le (h : RoundsTo v u) : |u| ≤ |v| + (|v| + 1) / 2 ^ 53 := by
  linarith [h.abs_sub_le_add_one, abs_sub_abs_le_abs_sub u v]

theorem roundsTo_zero : RoundsTo 0 0 :=
  ⟨by rw [sub_self, abs_zero, zero_div, zero_add]; positivity, fun _ ↦ le_rfl⟩

/-- What a number is rounded to, if that is no infinity. -/
def near (v : ℚ) : ℚ := oriented (signOf v) (amount (rounded |v|))

theorem near_of_nonneg (h : 0 ≤ v) : near v = amount (rounded v) := by
  rw [near, signOf, if_neg (not_lt.mpr h), abs_of_nonneg h]
  rfl

@[simp] theorem near_zero : near 0 = 0 := by
  rw [near_of_nonneg le_rfl, amount_rounded, zero_div, ← Nat.cast_zero, nearest_natCast,
    Nat.cast_zero, zero_mul]

theorem near_nonneg (h : 0 ≤ v) : 0 ≤ near v := near_of_nonneg h ▸ amount_nonneg _

theorem near_neg (v : ℚ) : near (-v) = -near v := by
  rcases lt_trichotomy v 0 with h | rfl | h
  · rw [near_of_nonneg (neg_nonneg.mpr h.le), near, signOf, if_pos h, abs_of_neg h]
    exact (neg_neg _).symm
  · rw [neg_zero, near_zero, neg_zero]
  · rw [near_of_nonneg h.le, near, signOf, if_pos (neg_lt_zero.mpr h), abs_neg, abs_of_pos h]
    rfl

/-- What a number is rounded to lies close to it. -/
theorem roundsTo_near (v : ℚ) : RoundsTo v (near v) := by
  have key : ∀ {a : ℚ}, 0 < a → |near a - a| ≤ |a| / 2 ^ 53 + 2 ^ (-1075 : ℤ) := by
    intro a ha
    rw [near_of_nonneg ha.le, abs_of_pos ha]
    exact abs_amount_rounded_sub_le_add ha
  refine ⟨?_, near_nonneg⟩
  rcases lt_trichotomy v 0 with h | rfl | h
  · have hneg := key (neg_pos.mpr h)
    rwa [near_neg, neg_sub_neg, abs_sub_comm, abs_neg] at hneg
  · rw [near_zero]
    exact roundsTo_zero.abs_sub_le
  · exact key h

/-- A finite result is what the exact one is rounded to. -/
theorem is_closest_near (hv : v ≠ 0) (h : (closest v).isFinite = true) : Is (closest v) (near v) :=
  is_closest hv ((isFinite_closest_iff hv).mp h)

theorem Is.add_near (hx : Is x v) (hy : Is y w) (h : (x + y).isFinite = true) :
    Is (x + y) (near (v + w)) := by
  rcases eq_or_ne (v + w) 0 with h0 | h0
  · rw [h0, near_zero]
    exact hx.add_of_eq_zero hy h0
  · rw [hx.add hy h0] at h ⊢
    exact is_closest_near h0 h

theorem Is.sub_near (hx : Is x v) (hy : Is y w) (h : (x - y).isFinite = true) :
    Is (x - y) (near (v - w)) := by
  rcases eq_or_ne (v - w) 0 with h0 | h0
  · rw [h0, near_zero]
    exact hx.sub_of_eq_zero hy h0
  · rw [hx.sub hy h0] at h ⊢
    exact is_closest_near h0 h

theorem Is.mul_near (hx : Is x v) (hy : Is y w) (h : (x * y).isFinite = true) :
    Is (x * y) (near (v * w)) := by
  rcases eq_or_ne (v * w) 0 with h0 | h0
  · rw [h0, near_zero]
    exact hx.mul_of_eq_zero hy h0
  · rw [hx.mul hy h0] at h ⊢
    exact is_closest_near h0 h

theorem Is.div_near (hx : Is x v) (hy : Is y w) (hw : w ≠ 0) (h : (x / y).isFinite = true) :
    Is (x / y) (near (v / w)) := by
  rcases eq_or_ne v 0 with rfl | hv
  · have h0 : near (0 / w) = 0 := by simp
    exact h0.symm ▸ hx.zero_div hy hw
  · rw [hx.div hy (div_ne_zero hv hw)] at h ⊢
    exact is_closest_near (div_ne_zero hv hw) h

theorem Is.exists_add (hx : Is x v) (hy : Is y w) (h : (x + y).isFinite = true) :
    ∃ u, Is (x + y) u ∧ RoundsTo (v + w) u :=
  ⟨_, hx.add_near hy h, roundsTo_near _⟩

theorem Is.exists_sub (hx : Is x v) (hy : Is y w) (h : (x - y).isFinite = true) :
    ∃ u, Is (x - y) u ∧ RoundsTo (v - w) u :=
  ⟨_, hx.sub_near hy h, roundsTo_near _⟩

theorem Is.exists_mul (hx : Is x v) (hy : Is y w) (h : (x * y).isFinite = true) :
    ∃ u, Is (x * y) u ∧ RoundsTo (v * w) u :=
  ⟨_, hx.mul_near hy h, roundsTo_near _⟩

theorem Is.exists_div (hx : Is x v) (hy : Is y w) (hw : w ≠ 0) (h : (x / y).isFinite = true) :
    ∃ u, Is (x / y) u ∧ RoundsTo (v / w) u :=
  ⟨_, hx.div_near hy hw h, roundsTo_near _⟩

/-- A float without minus sign is its significand over a power of two. -/
theorem is_of_ofFloat? {m k : ℕ} (h : Dyadic.ofFloat? x = some ⟨false, m, -k⟩) :
    Is x (m / 2 ^ k) := by
  have hvalue := (exists_exactly_of_ofFloat? h).is_of_positive
  rwa [Dyadic.numerator, Dyadic.denominator, neg_neg, Int.toNat_natCast,
    Int.toNat_of_nonpos (neg_nonpos.mpr (Int.natCast_nonneg k)), Nat.shiftLeft_zero,
    Nat.one_shiftLeft, Nat.cast_pow, Nat.cast_ofNat] at hvalue

/-- The number that the float next to `10 ^ -9` is. -/
def billionth : ℚ := (4835703278458517 : ℕ) / 2 ^ 82

theorem is_billionth : Is 1e-9 billionth :=
  is_of_ofFloat? (k := 82) rfl

theorem billionth_pos : 0 < billionth := by
  rw [billionth]
  norm_num

theorem billionth_le : billionth ≤ 1 / 10 ^ 9 + 1 / 10 ^ 25 := by
  rw [billionth]
  norm_num

end RoundsTo

end Rounding

open Rounding

section RoundTo

variable {x : Float} {v : ℚ}

/-- A value at a precision is finite just if the value is. -/
theorem isFinite_roundTo_iff (places : UInt8) :
    (roundTo x places).isFinite = true ↔ x.isFinite = true := by
  refine ⟨fun h ↦ ?_, fun h ↦ isFinite_roundTo h places⟩
  by_cases hscaled : (x * powerOfTen places).isFinite = true
  · exact (isFinite_of_mul hscaled).1
  · rw [roundTo] at h
    dsimp only at h
    rwa [if_neg hscaled] at h

/-- A value at a precision is not much greater than the value. -/
theorem exists_is_roundTo (h : Is x v) (places : UInt8) :
    ∃ u, Is (roundTo x places) u ∧ |u| ≤ |v| * (1 + 1 / 2 ^ 50) + 1 := by
  have hpos := scale_pos places
  have hfactor := (exactly_scale places).is_of_positive
  have hrounded := isFinite_roundTo h.isFinite places
  rw [roundTo] at hrounded ⊢
  dsimp only at hrounded ⊢
  split
  next hscaled =>
    rw [if_pos hscaled] at hrounded
    split
    · exact ⟨0, is_zero, by rw [abs_zero]; positivity⟩
    next hne =>
      rw [if_neg hne] at hrounded
      obtain ⟨_, ⟨s, a, ha, rfl⟩, hround⟩ := h.exists_mul hfactor hscaled
      obtain ⟨n, hn, hle, -⟩ := ha.toIntegral_nearest
      obtain ⟨u, hu, hquotient⟩ := hn.is.exists_div hfactor hpos.ne' hrounded
      refine ⟨u, hu, ?_⟩
      have hscale : (1 : ℚ) ≤ scale places := by exact_mod_cast one_le_scale places
      have hproduct := hround.abs_le
      rw [abs_oriented ha.nonneg, abs_mul, abs_of_pos hpos] at hproduct
      have hsize : (n : ℚ) / scale places ≤ |v| * (1 + 1 / 2 ^ 53) + 3 / 4 := by
        rw [div_le_iff₀ hpos]
        linarith
      have hvalue := hquotient.abs_le
      rw [abs_div, abs_oriented n.cast_nonneg, abs_of_pos hpos] at hvalue
      linarith [abs_nonneg v]
  next =>
    refine ⟨v, h, ?_⟩
    linarith [abs_nonneg v]

end RoundTo

end FormulaQuiz
