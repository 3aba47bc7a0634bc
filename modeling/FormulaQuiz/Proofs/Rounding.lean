import FormulaQuiz.Number.Dyadic
import Mathlib

/-!
# Rounding to a float

A float is chosen for an exact number by shifting a significand and keeping two bits of what is
shifted out.  `roundWithAccuracy_eq` says that the float depends on the exact number alone: it is the
multiple of a power of two that is nearest to the number, an even one from the middle.  All float
operations are read through it.
-/

namespace FormulaQuiz.Rounding

open Float.Model Float.Model.UnpackedFloat

/-- The natural number nearest to a number, the even one from the middle. -/
def nearest (y : ℚ) : ℕ :=
  if y - ⌊y⌋₊ < 1 / 2 then ⌊y⌋₊
  else if y - ⌊y⌋₊ = 1 / 2 then ⌊y⌋₊ + ⌊y⌋₊ % 2
  else ⌊y⌋₊ + 1

section Nearest

variable {y : ℚ} {n : ℕ}

theorem floor_eq (h : (n : ℚ) ≤ y) (h' : y < n + 1) : ⌊y⌋₊ = n :=
  (Nat.floor_eq_iff (n.cast_nonneg.trans h)).mpr ⟨h, h'⟩

theorem nearest_of_lt (h : (n : ℚ) ≤ y) (h' : y < n + 1 / 2) : nearest y = n := by
  have hfloor : ⌊y⌋₊ = n := floor_eq h (by linarith)
  rw [nearest, hfloor, if_pos (by linarith)]

theorem nearest_of_eq (h : y = n + 1 / 2) : nearest y = n + n % 2 := by
  have hfloor : ⌊y⌋₊ = n := floor_eq (by linarith) (by linarith)
  rw [nearest, hfloor, if_neg (by linarith), if_pos (by linarith)]

theorem nearest_of_gt (h : (n : ℚ) + 1 / 2 < y) (h' : y < n + 1) : nearest y = n + 1 := by
  have hfloor : ⌊y⌋₊ = n := floor_eq (by linarith) h'
  rw [nearest, hfloor, if_neg (by linarith), if_neg (by linarith)]

@[simp] theorem nearest_natCast (n : ℕ) : nearest n = n := nearest_of_lt le_rfl (by linarith)

/-- A number lies between an integer and the next, and in one of their halves or in the middle. -/
theorem exists_floor (hy : 0 ≤ y) : ∃ n : ℕ, y = n ∨ (n < y ∧ y < n + 1 / 2) ∨ y = n + 1 / 2 ∨
    (n + 1 / 2 < y ∧ y < n + 1) := by
  refine ⟨⌊y⌋₊, ?_⟩
  have hle := Nat.floor_le hy
  have hlt := Nat.lt_floor_add_one y
  rcases lt_trichotomy y (⌊y⌋₊ + 1 / 2) with h | h | h
  · rcases hle.eq_or_lt with h' | h'
    · exact .inl h'.symm
    · exact .inr (.inl ⟨h', h⟩)
  · exact .inr (.inr (.inl h))
  · exact .inr (.inr (.inr ⟨h, hlt⟩))

/-- Rounding moves a number by no more than a half. -/
theorem abs_nearest_sub_le (hy : 0 ≤ y) : |(nearest y : ℚ) - y| ≤ 1 / 2 := by
  obtain ⟨n, rfl | ⟨h, h'⟩ | h | ⟨h, h'⟩⟩ := exists_floor hy
  · simp
  · rw [nearest_of_lt h.le h', abs_le]
    constructor <;> linarith
  · rw [nearest_of_eq h, h]
    rcases Nat.mod_two_eq_zero_or_one n with hn | hn
    · rw [hn, abs_le]
      constructor <;> push_cast <;> linarith
    · rw [hn, abs_le]
      constructor <;> push_cast <;> linarith
  · rw [nearest_of_gt h h', abs_le]
    constructor <;> push_cast <;> linarith

theorem nearest_le (hy : 0 ≤ y) (h : y ≤ n) : nearest y ≤ n := by
  have hle := (abs_le.mp (abs_nearest_sub_le hy)).2
  have hlt : (nearest y : ℚ) < n + 1 := by linarith
  exact Nat.lt_succ_iff.mp (by exact_mod_cast hlt)

theorem le_nearest (h : (n : ℚ) ≤ y) : n ≤ nearest y := by
  have hle := (abs_le.mp (abs_nearest_sub_le (n.cast_nonneg.trans h))).1
  have hlt : (n : ℚ) < nearest y + 1 := by linarith
  exact Nat.lt_succ_iff.mp (by exact_mod_cast hlt)

/-- A number that is less than a half away from an integer goes to it, and so does one that is a
half away from an even integer. -/
theorem nearest_eq (hy : 0 ≤ y) (h : |y - n| < 1 / 2 ∨ |y - n| ≤ 1 / 2 ∧ n % 2 = 0) :
    nearest y = n := by
  have hle : |y - n| ≤ 1 / 2 := h.elim le_of_lt And.left
  obtain ⟨hlow, hhigh⟩ := abs_le.mp hle
  rcases le_or_gt (n : ℚ) y with hn | hn
  · rcases hhigh.eq_or_lt with h' | h'
    · rw [nearest_of_eq (n := n) (by linarith)]
      rcases h with h | h
      · exact absurd h (not_lt.mpr (h' ▸ le_abs_self _))
      · rw [h.2, Nat.add_zero]
    · exact nearest_of_lt hn (by linarith)
  · obtain ⟨k, rfl⟩ : ∃ k, n = k + 1 :=
      Nat.exists_eq_succ_of_ne_zero fun h0 ↦ absurd hy (not_le.mpr (by simpa [h0] using hn))
    push_cast at hn hlow hhigh h
    rcases hlow.eq_or_lt with h' | h'
    · rw [nearest_of_eq (n := k) (by linarith)]
      rcases h with h | h
      · exact absurd h (not_lt.mpr (by rw [← h', abs_neg]; exact le_abs_self _))
      · omega
    · exact nearest_of_gt (by linarith) hn

/-- A number goes to the nearest integer, and from the middle between two of them to an even one. -/
theorem abs_sub_nearest_lt_or (hy : 0 ≤ y) : |y - nearest y| < 1 / 2 ∨ nearest y % 2 = 0 := by
  obtain ⟨n, rfl | ⟨h, h'⟩ | h | ⟨h, h'⟩⟩ := exists_floor hy
  · left
    rw [nearest_natCast, sub_self, abs_zero]
    norm_num
  · left
    rw [nearest_of_lt h.le h', abs_lt]
    constructor <;> linarith
  · right
    rw [nearest_of_eq h]
    omega
  · left
    rw [nearest_of_gt h h', abs_lt]
    constructor <;> push_cast <;> linarith

end Nearest

/-! ## Significands with two bits of what was shifted out -/

/-- A significand and its accuracy stand for a number. -/
def Approximates (m : ℕ) (y : ℚ) : Accuracy → Prop
  | .exact => y = m
  | .inexact .lt => m < y ∧ y < m + 1 / 2
  | .inexact .eq => y = m + 1 / 2
  | .inexact .gt => m + 1 / 2 < y ∧ y < m + 1

section Approximates

variable {m : ℕ} {y : ℚ} {acc : Accuracy}

theorem Approximates.le (h : Approximates m y acc) : (m : ℚ) ≤ y := by
  rcases acc with _ | (_ | _ | _)
  · exact h.ge
  · exact h.1.le
  · rw [show y = m + 1 / 2 from h]
    linarith
  · linarith [h.1]

theorem Approximates.lt (h : Approximates m y acc) : y < m + 1 := by
  rcases acc with _ | (_ | _ | _)
  · rw [show y = m from h]
    linarith
  · linarith [h.2]
  · rw [show y = m + 1 / 2 from h]
    linarith
  · exact h.2

theorem Approximates.nearest_eq (h : Approximates m y acc) :
    acc.roundToNearestEven m = nearest y := by
  rcases acc with _ | (_ | _ | _)
  · rw [show y = m from h, nearest_natCast]
    rfl
  · exact (nearest_of_lt h.1.le h.2).symm
  · exact (nearest_of_eq h).symm
  · exact (nearest_of_gt h.1 h.2).symm

/-- Shifting out one bit halves the number. -/
theorem Approximates.shiftRightOne {em : ExtendedMantissa}
    (h : Approximates em.mantissa y em.accuracy) :
    Approximates em.shiftRightOne.mantissa (y / 2) em.shiftRightOne.accuracy := by
  obtain ⟨m, roundBit, stickyBit⟩ := em
  obtain ⟨k, hk⟩ : ∃ k, k = m / 2 := ⟨_, rfl⟩
  have hdiv : ((m / 2 : ℕ) : ℚ) = k := by rw [hk]
  rcases Nat.mod_two_eq_zero_or_one m with hm | hm
  all_goals
    have hmk : (m : ℚ) = 2 * k + (m % 2 : ℕ) := by exact_mod_cast (by omega : m = 2 * k + m % 2)
    rw [hm] at hmk
    push_cast at hmk
    cases roundBit <;> cases stickyBit <;>
      simp only [ExtendedMantissa.shiftRightOne, ExtendedMantissa.accuracy, Approximates, hm,
        hdiv, hmk, bne_self_eq_false, Bool.or_self, Bool.or_true, Bool.true_or,
        show ((1 : ℕ) != 0) = true from rfl] at h ⊢
  all_goals
    first
    | linarith
    | constructor <;> linarith

theorem Approximates.shiftRight {em : ExtendedMantissa}
    (h : Approximates em.mantissa y em.accuracy) (n : ℕ) :
    Approximates (em >>> n).mantissa (y / 2 ^ n) (em >>> n).accuracy := by
  induction n with
  | zero =>
    rw [pow_zero, div_one]
    exact h
  | succ n ih =>
    rw [pow_succ, ← div_div]
    exact ih.shiftRightOne

theorem Approximates.ofMantissaAndAccuracy (h : Approximates m y acc) :
    Approximates (ExtendedMantissa.ofMantissaAndAccuracy m acc).mantissa y
      (ExtendedMantissa.ofMantissaAndAccuracy m acc).accuracy := by
  rcases acc with _ | (_ | _ | _) <;> exact h

end Approximates

/-! ## The float of an exact number -/

/-- The power of two of the last bit that the float of a positive number has. -/
def place (x : ℚ) : ℤ := max (Int.log 2 x - 52) (-1074)

/-- The significand and the power of two of the float nearest to a positive number, where the
significand has been carried to the next power if it has become too long. -/
def rounded (x : ℚ) : ℕ × ℤ :=
  if nearest (x / 2 ^ place x) = 2 ^ 53 then (2 ^ 52, place x + 1)
  else (nearest (x / 2 ^ place x), place x)

/-- A sign, a significand and a power of two as a float. -/
def signed (s : Sign) (r : ℕ × ℤ) : UnpackedFloat :=
  if h : r.1 = 0 then .zero s else .finite s r.1 r.2 (Nat.pos_of_ne_zero h)

@[simp] theorem targetExponent_binary64 (t : ℤ) :
    Format.binary64.targetExponent t = max (t - 53) (-1074) := rfl

section Place

variable {x : ℚ}

theorem div_zpow_lt_of_log {t : ℤ} {k : ℕ} (h : Int.log 2 x < t + k) : x / 2 ^ t < 2 ^ k := by
  have hpos : (0 : ℚ) < 2 ^ t := zpow_pos two_pos t
  rw [div_lt_iff₀ hpos, ← zpow_natCast, ← zpow_add₀ two_ne_zero]
  refine (Int.lt_zpow_succ_log_self one_lt_two x).trans_le ?_
  exact zpow_le_zpow_right₀ one_le_two (by omega)

theorem le_div_zpow_of_log (hx : 0 < x) {t : ℤ} {k : ℕ} (h : t + k ≤ Int.log 2 x) :
    2 ^ k ≤ x / 2 ^ t := by
  have hpos : (0 : ℚ) < 2 ^ t := zpow_pos two_pos t
  rw [le_div_iff₀ hpos, ← zpow_natCast, ← zpow_add₀ two_ne_zero]
  refine le_trans ?_ (Int.zpow_log_le_self one_lt_two hx)
  exact zpow_le_zpow_right₀ one_le_two (by omega)

/-- A significand that is not zero tells the power of two below a number. -/
theorem log_eq {m : ℕ} {e : ℤ} (hm : m ≠ 0) (h : (m : ℚ) ≤ x / 2 ^ e) (h' : x / 2 ^ e < m + 1) :
    Int.log 2 x = m.log2 + e := by
  have hpos : (0 : ℚ) < 2 ^ e := zpow_pos two_pos e
  have hmpos : (0 : ℚ) < m := Nat.cast_pos.mpr (Nat.pos_of_ne_zero hm)
  rw [le_div_iff₀ hpos] at h
  rw [div_lt_iff₀ hpos] at h'
  have hx : 0 < x := (mul_pos hmpos hpos).trans_le h
  refine le_antisymm ?_ ?_
  · rw [← Int.lt_add_one_iff]
    refine (Int.lt_zpow_iff_log_lt one_lt_two hx).mp (h'.trans_le ?_)
    have hlog : ((m + 1 : ℕ) : ℚ) ≤ (2 ^ (m.log2 + 1) : ℕ) := by
      exact_mod_cast Nat.lt_log2_self
    push_cast at hlog ⊢
    rw [show (m.log2 : ℤ) + e + 1 = ((m.log2 + 1 : ℕ) : ℤ) + e by push_cast; ring,
      zpow_add₀ two_ne_zero, zpow_natCast]
    exact mul_le_mul_of_nonneg_right hlog hpos.le
  · refine (Int.zpow_le_iff_le_log one_lt_two hx).mp (le_trans ?_ h)
    have hlog : ((2 ^ m.log2 : ℕ) : ℚ) ≤ m := by exact_mod_cast Nat.log2_self_le hm
    push_cast at hlog ⊢
    rw [zpow_add₀ two_ne_zero, zpow_natCast]
    exact mul_le_mul_of_nonneg_right hlog hpos.le

theorem place_eq {m : ℕ} {e : ℤ} (hx : 0 < x) (h : (m : ℚ) ≤ x / 2 ^ e) (h' : x / 2 ^ e < m + 1)
    (he : e ≤ place x) : max (totalExponent m e - 53) (-1074) = place x := by
  rcases eq_or_ne m 0 with rfl | hm
  · have hlog : Int.log 2 x < e := by
      refine (Int.lt_zpow_iff_log_lt one_lt_two hx).mp ?_
      rw [div_lt_iff₀ (zpow_pos two_pos e)] at h'
      simpa using h'
    rw [place] at he ⊢
    rw [totalExponent, Nat.log2_zero]
    omega
  · rw [place, log_eq hm h h', totalExponent]
    omega

theorem nearest_place_le (hx : 0 < x) : nearest (x / 2 ^ place x) ≤ 2 ^ 53 := by
  refine nearest_le (div_nonneg hx.le (zpow_pos two_pos _).le) ?_
  rw [Nat.cast_pow, Nat.cast_ofNat]
  refine (div_zpow_lt_of_log ?_).le
  rw [place]
  omega

theorem le_nearest_place (hx : 0 < x) (h : -1074 < place x) :
    2 ^ 52 ≤ nearest (x / 2 ^ place x) := by
  refine le_nearest ?_
  rw [Nat.cast_pow, Nat.cast_ofNat]
  refine le_div_zpow_of_log hx ?_
  rw [place] at h ⊢
  omega

end Place

/-- A significand that is short enough is not shifted. -/
theorem shiftToTargetExponent_of_lt {m : ℕ} {e : ℤ} (hm : m < 2 ^ 53) (he : -1074 ≤ e) :
    shiftToTargetExponent Format.binary64 m e .exact = (⟨m, false, false⟩, e) := by
  have hlog : m.log2 ≤ 52 := by
    rcases eq_or_ne m 0 with rfl | h
    · decide
    · exact Nat.lt_succ_iff.mp ((Nat.log2_lt h).mpr hm)
  have hshift : (max (totalExponent m e - 53) (-1074) - e).toNat = 0 := by
    rw [totalExponent]
    omega
  rw [shiftToTargetExponent, targetExponent_binary64, shiftToExponent, hshift]
  exact Prod.ext rfl (Int.add_zero e)

/-- A significand that has become too long by rounding is a power of two. -/
theorem shiftToTargetExponent_carry {e : ℤ} (he : -1074 ≤ e) :
    shiftToTargetExponent Format.binary64 (2 ^ 53) e .exact =
      (⟨2 ^ 52, false, false⟩, e + 1) := by
  have hshift : (max (totalExponent (2 ^ 53) e - 53) (-1074) - e).toNat = 1 := by
    rw [totalExponent, Nat.log2_two_pow]
    omega
  rw [shiftToTargetExponent, targetExponent_binary64, shiftToExponent, hshift]
  rfl

/-- Rounding gives the float of the exact number that a significand and its accuracy stand for, if
the significand has enough bits. -/
theorem roundWithAccuracy_eq {x : ℚ} {m : ℕ} {e : ℤ} {acc : Accuracy} (hx : 0 < x)
    (h : Approximates m (x / 2 ^ e) acc) (he : e ≤ place x) (s : Sign) :
    roundWithAccuracy Format.binary64 s m e acc = signed s (rounded x) := by
  have htarget := place_eq hx h.le h.lt he
  obtain ⟨n, hn⟩ := Int.eq_ofNat_of_zero_le (sub_nonneg.mpr he)
  have hshift : shiftToTargetExponent Format.binary64 m e acc =
      (ExtendedMantissa.ofMantissaAndAccuracy m acc >>> n, place x) := by
    rw [shiftToTargetExponent, targetExponent_binary64, htarget, shiftToExponent, hn,
      Int.toNat_natCast]
    exact Prod.ext rfl (by simp only; omega)
  have hnearest : (ExtendedMantissa.ofMantissaAndAccuracy m acc >>> n).roundedMantissa =
      nearest (x / 2 ^ place x) := by
    rw [ExtendedMantissa.roundedMantissa,
      (h.ofMantissaAndAccuracy.shiftRight n).nearest_eq, div_div, ← zpow_natCast,
      ← zpow_add₀ two_ne_zero, ← hn, add_sub_cancel]
  have hplace : -1074 ≤ place x := le_max_right _ _
  simp only [roundWithAccuracy, hshift, hnearest, rounded]
  by_cases hcarry : nearest (x / 2 ^ place x) = 2 ^ 53
  · rw [if_pos hcarry]
    simp only [hcarry, shiftToTargetExponent_carry hplace]
    rfl
  · rw [if_neg hcarry]
    have hlt := lt_of_le_of_ne (nearest_place_le hx) hcarry
    simp only [shiftToTargetExponent_of_lt hlt hplace]
    rfl

/-! ## Which numbers a float stands for -/

/-- A significand and a power of two are those of a float, if the power is not too great. -/
structure Canonical (r : ℕ × ℤ) : Prop where
  lt : r.1 < 2 ^ 53
  le : -1074 ≤ r.2
  normal : -1074 < r.2 → 2 ^ 52 ≤ r.1

/-- The number that a significand and a power of two are. -/
def amount (r : ℕ × ℤ) : ℚ := r.1 * 2 ^ r.2

section Rounded

variable {x : ℚ} {r r' : ℕ × ℤ}

/-- Different floats are different numbers. -/
theorem Canonical.eq_of_amount_eq (h : Canonical r) (h' : Canonical r') (hr : r.1 ≠ 0)
    (heq : amount r = amount r') : r = r' := by
  have key : ∀ {r r' : ℕ × ℤ}, Canonical r → Canonical r' → amount r = amount r' →
      r.2 ≤ r'.2 → r.1 ≠ 0 → r = r' := by
    intro r r' h h' heq hle hr
    obtain ⟨n, hn⟩ := Int.eq_ofNat_of_zero_le (sub_nonneg.mpr hle)
    have hmul : (r.1 : ℚ) = r'.1 * 2 ^ n := by
      rw [amount, amount, show r'.2 = n + r.2 by omega, zpow_add₀ two_ne_zero, ← mul_assoc,
        zpow_natCast] at heq
      exact mul_right_cancel₀ (zpow_pos two_pos r.2).ne' heq
    have hnat : r.1 = r'.1 * 2 ^ n := by exact_mod_cast hmul
    cases n with
    | zero => exact Prod.ext (by simpa using hnat) (by omega)
    | succ n =>
      have hnormal := h'.normal (by have := h.le; omega)
      have hlt := h.lt
      have hpow : 1 ≤ 2 ^ n := Nat.one_le_two_pow
      have hle := Nat.mul_le_mul hnormal hpow
      rw [pow_succ, ← mul_assoc] at hnat
      omega
  rcases le_total r.2 r'.2 with hle | hle
  · exact key h h' heq hle hr
  · refine (key h' h heq.symm hle fun h0 ↦ hr ?_).symm
    rw [amount, amount, h0, Nat.cast_zero, zero_mul] at heq
    exact_mod_cast (mul_eq_zero.mp heq).resolve_right (zpow_pos two_pos _).ne'

theorem canonical_rounded (hx : 0 < x) : Canonical (rounded x) := by
  have hplace : -1074 ≤ place x := le_max_right _ _
  rw [rounded]
  split
  · exact ⟨by norm_num, by simp only; omega, fun _ ↦ le_rfl⟩
  next hcarry =>
    exact ⟨lt_of_le_of_ne (nearest_place_le hx) hcarry, hplace, le_nearest_place hx⟩

/-- Carrying does not change the number. -/
theorem amount_rounded (x : ℚ) :
    amount (rounded x) = nearest (x / 2 ^ place x) * 2 ^ place x := by
  rw [rounded, amount]
  split
  next hcarry =>
    rw [hcarry, zpow_add₀ two_ne_zero]
    push_cast
    ring
  next => rfl

/-- Rounding moves a number by half a unit of the last bit of its float at most. -/
theorem abs_amount_rounded_sub_le_place (hx : 0 < x) :
    |amount (rounded x) - x| ≤ 1 / 2 * 2 ^ place x := by
  have hunit : (0 : ℚ) < 2 ^ place x := zpow_pos two_pos _
  calc |amount (rounded x) - x|
      = |(nearest (x / 2 ^ place x) : ℚ) - x / 2 ^ place x| * 2 ^ place x := by
        rw [amount_rounded, ← abs_of_pos hunit, ← abs_mul, abs_of_pos hunit, sub_mul,
          div_mul_cancel₀ _ hunit.ne']
    _ ≤ 1 / 2 * 2 ^ place x :=
        mul_le_mul_of_nonneg_right (abs_nearest_sub_le (div_nonneg hx.le hunit.le)) hunit.le

/-- A number that is not tiny is moved by no more than its part of `2 ^ 53`. -/
theorem abs_amount_rounded_sub_le (hx : 2 ^ (-1022 : ℤ) ≤ x) :
    |amount (rounded x) - x| ≤ x / 2 ^ 53 := by
  have hpos : 0 < x := (zpow_pos two_pos _).trans_le hx
  have hplace : place x = Int.log 2 x - 52 := by
    have hlog := (Int.zpow_le_iff_le_log (R := ℚ) one_lt_two hpos).mp (by exact_mod_cast hx)
    rw [place]
    omega
  have hle : (2 : ℚ) ^ place x * 2 ^ 52 ≤ x := by
    have hlog : (2 : ℚ) ^ Int.log 2 x ≤ x := Int.zpow_log_le_self one_lt_two hpos
    rw [show Int.log 2 x = place x + (52 : ℕ) by rw [hplace]; exact (sub_add_cancel _ _).symm,
      zpow_add₀ two_ne_zero, zpow_natCast] at hlog
    exact hlog
  calc |amount (rounded x) - x| ≤ 1 / 2 * 2 ^ place x := abs_amount_rounded_sub_le_place hpos
    _ ≤ x / 2 ^ 53 := by
        rw [le_div_iff₀ (by norm_num)]
        linarith

/-- How far below a float, in units of its last bit, the numbers begin that go to it. -/
def reachBelow (r : ℕ × ℤ) : ℚ := if r.1 = 2 ^ 52 ∧ r.2 ≠ -1074 then 1 / 4 else 1 / 2

/-- A float stands for the numbers around it, and an even one also for the ends of its range. -/
structure StandsFor (r : ℕ × ℤ) (x : ℚ) : Prop where
  low : r.1 - reachBelow r ≤ x / 2 ^ r.2
  high : x / 2 ^ r.2 ≤ r.1 + 1 / 2
  inside : r.1 % 2 = 0 ∨ r.1 - reachBelow r < x / 2 ^ r.2 ∧ x / 2 ^ r.2 < r.1 + 1 / 2

theorem place_of_le_of_lt (hx : 0 < x) {e : ℤ} (he : -1074 ≤ e)
    (h : e = -1074 ∨ 2 ^ 52 ≤ x / 2 ^ e) (h' : x / 2 ^ e < 2 ^ 53) : place x = e := by
  have hpos : (0 : ℚ) < 2 ^ e := zpow_pos two_pos e
  have hlog : Int.log 2 x < e + 53 := by
    refine (Int.lt_zpow_iff_log_lt one_lt_two hx).mp ?_
    rw [div_lt_iff₀ hpos] at h'
    rw [add_comm, zpow_add₀ (by norm_num)]
    exact_mod_cast h'
  rcases h with rfl | h
  · rw [place]
    omega
  · have hle : e + 52 ≤ Int.log 2 x := by
      refine (Int.zpow_le_iff_le_log one_lt_two hx).mp ?_
      rw [le_div_iff₀ hpos] at h
      rw [add_comm, zpow_add₀ (by norm_num)]
      exact_mod_cast h
    rw [place]
    omega

theorem reachBelow_le (r : ℕ × ℤ) : reachBelow r ≤ 1 / 2 := by
  rw [reachBelow]
  split <;> norm_num

/-- A number with the last bit of the float that stands for it goes to this float. -/
theorem StandsFor.rounded_eq_of_place (hr : Canonical r) (hx : 0 < x) (h : StandsFor r x)
    (hplace : r.2 = -1074 ∨ 2 ^ 52 ≤ x / 2 ^ r.2) : rounded x = r := by
  have hy : 0 ≤ x / 2 ^ r.2 := div_nonneg hx.le (zpow_pos two_pos _).le
  have hlt : (r.1 : ℚ) + 1 ≤ 2 ^ 53 := by exact_mod_cast hr.lt
  have hreach := reachBelow_le r
  have hlow := h.low
  have hhigh := h.high
  have hnear : nearest (x / 2 ^ r.2) = r.1 := by
    refine nearest_eq hy (h.inside.symm.imp (fun hin ↦ ?_) fun heven ↦ ⟨?_, heven⟩)
    · rw [abs_lt]
      constructor <;> linarith [hin.1, hin.2]
    · rw [abs_le]
      constructor <;> linarith
  rw [rounded, place_of_le_of_lt hx hr.le hplace (by linarith), hnear,
    if_neg (show r.1 ≠ 2 ^ 53 from hr.lt.ne)]

/-- A number with a smaller last bit goes to the float that stands for it, the power of two above
the number. -/
theorem StandsFor.rounded_eq_of_lt (hr : Canonical r) (hx : 0 < x) (h : StandsFor r x)
    (he : r.2 ≠ -1074) (hlt : x / 2 ^ r.2 < 2 ^ 52) : rounded x = r := by
  obtain ⟨m, e⟩ := r
  have hle : 2 ^ 52 ≤ m := hr.normal (lt_of_le_of_ne hr.le (Ne.symm he))
  have hreach := reachBelow_le (m, e)
  have hlow : (m : ℚ) - reachBelow (m, e) ≤ x / 2 ^ e := h.low
  obtain rfl : m = 2 ^ 52 := by
    have hlt' : (m : ℚ) < 2 ^ 52 + 1 := by linarith
    have : m < 2 ^ 52 + 1 := by exact_mod_cast hlt'
    omega
  rw [reachBelow, if_pos ⟨rfl, he⟩] at hlow
  push_cast at hlow
  have hdouble : x / 2 ^ (e - 1) = 2 * (x / 2 ^ e) := by
    rw [zpow_sub₀ two_ne_zero, zpow_one]
    field_simp
  have hplace : place x = e - 1 := by
    refine place_of_le_of_lt hx (by have := hr.le; simp only at this he; omega) (.inr ?_) ?_
    · rw [hdouble]
      linarith
    · rw [hdouble]
      linarith
  have hnear : nearest (x / 2 ^ (e - 1)) = 2 ^ 53 := by
    refine nearest_eq (by rw [hdouble]; linarith) (.inr ⟨?_, by norm_num⟩)
    rw [hdouble, abs_le]
    push_cast
    constructor <;> linarith
  rw [rounded, hplace, if_pos hnear, sub_add_cancel]

/-- A number goes to the float that stands for it. -/
theorem rounded_eq (hr : Canonical r) (hx : 0 < x) (h : StandsFor r x) : rounded x = r := by
  by_cases hplace : r.2 = -1074 ∨ 2 ^ 52 ≤ x / 2 ^ r.2
  · exact h.rounded_eq_of_place hr hx hplace
  · obtain ⟨he, hlt⟩ := not_or.mp hplace
    exact h.rounded_eq_of_lt hr hx he (not_le.mp hlt)

end Rounded

/-! ## Limits -/

/-- Numbers below this one are rounded to a significand and a power of two that make a float. -/
def overflow : ℚ := (2 ^ 53 - 1 / 2) * 2 ^ (971 : ℤ)

section Limits

variable {x : ℚ}

/-- A number that a significand can hold is far below the limit. -/
theorem two_pow_lt_overflow : (2 : ℚ) ^ 53 < overflow := by
  have hunit : (2 : ℚ) ^ (1 : ℤ) ≤ 2 ^ (971 : ℤ) := zpow_le_zpow_right₀ one_le_two (by norm_num)
  rw [overflow]
  generalize (2 : ℚ) ^ (971 : ℤ) = unit at *
  norm_num at *
  linarith

theorem rounded_le_of_lt (hx : 0 < x) (h : x < overflow) : (rounded x).2 ≤ 971 := by
  have hlog : Int.log 2 x < 1024 := by
    refine (Int.lt_zpow_iff_log_lt one_lt_two hx).mp (h.trans ?_)
    rw [overflow, Nat.cast_ofNat, show (1024 : ℤ) = 53 + 971 from rfl, zpow_add₀ two_ne_zero]
    exact mul_lt_mul_of_pos_right (by norm_num) (zpow_pos two_pos _)
  have hplace : place x ≤ 971 := by
    rw [place]
    omega
  rw [rounded]
  split
  next hcarry =>
    -- only a number that is at least the limit is carried out of the last power of two
    rcases hplace.eq_or_lt with heq | hlt
    · have hnear := (abs_le.mp (abs_nearest_sub_le
        (div_nonneg hx.le (zpow_pos (two_pos (α := ℚ)) (place x)).le))).2
      rw [hcarry, heq, Nat.cast_pow, Nat.cast_ofNat] at hnear
      have hhalf : x / 2 ^ (971 : ℤ) < 2 ^ 53 - 1 / 2 :=
        (div_lt_iff₀ (zpow_pos two_pos _)).mpr h
      generalize x / 2 ^ (971 : ℤ) = q at *
      linarith
    · simp only
      omega
  next => exact hplace

end Limits

end FormulaQuiz.Rounding
