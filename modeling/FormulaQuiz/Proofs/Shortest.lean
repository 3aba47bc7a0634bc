import FormulaQuiz.Decimal.Shortest
import FormulaQuiz.Proofs.Digits
import FormulaQuiz.Proofs.Rounding
import Mathlib.Data.Nat.Cast.Order.Field

/-!
# The shortest decimal reads back

The decimal that is chosen for a float rounds to the float.  The search may stop after seventeen
digits, because the step of that grid is less than the part `2 ^ 53` of the float, while the numbers
that round to the float reach at least half as far to both sides.
-/

namespace FormulaQuiz.Decimal

open Rounding

namespace Surround

variable {s : Surround} {place : ℤ} {n k : ℕ} {m : ℕ} {e : ℤ}

/-- What units and decimals are scaled by when they are compared. -/
def scaling (s : Surround) (place : ℤ) : ℚ := 10 ^ (-place).toNat * 2 ^ (-s.exponent).toNat

theorem scaling_pos (s : Surround) (place : ℤ) : 0 < s.scaling place := by
  rw [scaling]
  positivity

theorem zpow_toNat_mul {b : ℚ} (hb : b ≠ 0) (k : ℤ) : b ^ k.toNat = b ^ k * b ^ (-k).toNat := by
  rw [← zpow_natCast, ← zpow_natCast, ← zpow_add₀ hb]
  congr 1
  omega

theorem cast_scaleUnits (s : Surround) (place : ℤ) (units : ℕ) :
    (s.scaleUnits place units : ℚ) = units * 2 ^ s.exponent * s.scaling place := by
  rw [scaleUnits, scaling, Nat.shiftLeft_eq, Nat.pow_eq]
  push_cast
  rw [zpow_toNat_mul two_ne_zero s.exponent]
  ring

theorem cast_scaleDecimal (s : Surround) (place : ℤ) (n : ℕ) :
    (s.scaleDecimal place n : ℚ) = n * 10 ^ place * s.scaling place := by
  rw [scaleDecimal, scaling, Nat.shiftLeft_eq, Nat.pow_eq]
  push_cast
  rw [zpow_toNat_mul (by norm_num) place]
  ring

theorem scaleUnits_le_iff : s.scaleUnits place k ≤ s.scaleDecimal place n ↔
    (k : ℚ) * 2 ^ s.exponent ≤ n * 10 ^ place := by
  rw [← Nat.cast_le (α := ℚ), cast_scaleUnits, cast_scaleDecimal,
    mul_le_mul_iff_left₀ (s.scaling_pos place)]

theorem scaleDecimal_le_iff : s.scaleDecimal place n ≤ s.scaleUnits place k ↔
    (n : ℚ) * 10 ^ place ≤ k * 2 ^ s.exponent := by
  rw [← Nat.cast_le (α := ℚ), cast_scaleUnits, cast_scaleDecimal,
    mul_le_mul_iff_left₀ (s.scaling_pos place)]

/-- A decimal rounds to the float if it is between the ends, and at an end if the ends do. -/
theorem holds_iff : s.holds place n = true ↔
    (s.low : ℚ) * 2 ^ s.exponent ≤ n * 10 ^ place ∧ (n : ℚ) * 10 ^ place ≤ s.high * 2 ^ s.exponent ∧
      (s.closed = true ∨
        (s.low : ℚ) * 2 ^ s.exponent < n * 10 ^ place ∧
          (n : ℚ) * 10 ^ place < s.high * 2 ^ s.exponent) := by
  have hlow : s.scaleUnits place s.low ≤ s.scaleDecimal place n ↔ _ := scaleUnits_le_iff
  have hhigh : s.scaleDecimal place n ≤ s.scaleUnits place s.high ↔ _ := scaleDecimal_le_iff
  have hlow' : s.scaleDecimal place n ≤ s.scaleUnits place s.low ↔ _ := scaleDecimal_le_iff
  have hhigh' : s.scaleUnits place s.high ≤ s.scaleDecimal place n ↔ _ := scaleUnits_le_iff
  rw [holds]
  split
  next hclosed =>
    rw [Bool.and_eq_true, decide_eq_true_eq, decide_eq_true_eq, hlow, hhigh]
    exact ⟨fun ⟨h, h'⟩ ↦ ⟨h, h', .inl hclosed⟩, fun ⟨h, h', _⟩ ↦ ⟨h, h'⟩⟩
  next hclosed =>
    rw [Bool.and_eq_true, decide_eq_true_eq, decide_eq_true_eq, ← not_le, ← not_le, hlow', hhigh',
      not_le, not_le]
    exact ⟨fun ⟨h, h'⟩ ↦ ⟨h.le, h'.le, .inr ⟨h, h'⟩⟩,
      fun ⟨_, _, h⟩ ↦ h.resolve_left hclosed⟩

theorem holds_of_lt (h : (s.low : ℚ) * 2 ^ s.exponent < n * 10 ^ place)
    (h' : (n : ℚ) * 10 ^ place < s.high * 2 ^ s.exponent) : s.holds place n = true :=
  holds_iff.mpr ⟨h.le, h'.le, .inr ⟨h, h'⟩⟩

/-! ## The neighbours on a grid -/

/-- How many steps of a grid there are up to a float. -/
def stepsBelow (s : Surround) (place : ℤ) : ℕ := s.scaleUnits place s.value / s.scaleDecimal place 1

theorem scaleDecimal_eq_mul (s : Surround) (place : ℤ) (n : ℕ) :
    s.scaleDecimal place n = n * s.scaleDecimal place 1 := by
  rw [scaleDecimal, scaleDecimal, Nat.shiftLeft_eq, Nat.shiftLeft_eq, Nat.one_mul, Nat.mul_assoc]

theorem stepsBelow_mul_le (s : Surround) (place : ℤ) :
    (s.stepsBelow place : ℚ) * 10 ^ place ≤ s.value * 2 ^ s.exponent := by
  rw [← scaleDecimal_le_iff, scaleDecimal_eq_mul]
  exact Nat.div_mul_le_self _ _

theorem lt_stepsBelow_add_one_mul (s : Surround) (place : ℤ) :
    (s.value : ℚ) * 2 ^ s.exponent < (s.stepsBelow place + 1 : ℕ) * 10 ^ place := by
  have hunit : 0 < s.scaleDecimal place 1 := by
    rw [scaleDecimal, Nat.shiftLeft_eq, Nat.pow_eq]
    positivity
  rw [← not_le, ← scaleDecimal_le_iff, not_le, scaleDecimal_eq_mul, Nat.add_mul, Nat.one_mul]
  exact Nat.lt_div_mul_add hunit

/-- One of the two neighbours is found if it rounds to the float. -/
theorem isSome_neighbour?_of_holds {tie : Tie}
    (h : s.holds place (s.stepsBelow place) = true ∨
      s.holds place (s.stepsBelow place + 1) = true) :
    (s.neighbour? tie place).isSome = true := by
  rw [neighbour?.eq_def]
  extract_lets x step below above gapBelow gapAbove
  by_cases hbelow : s.holds place below = true
  · rw [if_pos hbelow]
    by_cases habove : s.holds place (below + 1) = true
    · rw [if_pos habove]
      split <;> rfl
    · rw [if_neg habove]
      rfl
  · have habove : s.holds place above = true := h.resolve_left hbelow
    rw [if_neg hbelow, if_pos habove]
    rfl

/-- A neighbour that is found rounds to the float. -/
theorem holds_of_neighbour? {tie : Tie} (h : s.neighbour? tie place = some n) :
    s.holds place n = true := by
  rw [neighbour?.eq_def] at h
  extract_lets x step below above gapBelow gapAbove at h
  by_cases hbelow : s.holds place below = true
  · rw [if_pos hbelow] at h
    by_cases habove : s.holds place (below + 1) = true
    · rw [if_pos habove] at h
      have hn : n = below ∨ n = below + 1 := by
        split at h <;> obtain rfl := Option.some.inj h
        · exact .inl rfl
        · exact .inr rfl
        · exact .inr rfl
        · exact ite_eq_or_eq _ _ _
      rcases hn with rfl | rfl
      · exact hbelow
      · exact habove
    · rw [if_neg habove] at h
      exact Option.some.inj h ▸ hbelow
  · rw [if_neg hbelow] at h
    by_cases habove : s.holds place (below + 1) = true
    · rw [if_pos habove] at h
      exact Option.some.inj h ▸ habove
    · rw [if_neg habove] at h
      exact nomatch h

/-- The search ends with a decimal that rounds to the float, if one of its grids has one. -/
theorem holds_of_search {tie : Tie} {mag : ℤ} {fuel count : ℕ} {r : ℕ × ℤ}
    (h : ∃ j, count ≤ j ∧ j < count + fuel ∧ (s.neighbour? tie (mag - j)).isSome = true)
    (hr : s.search tie mag fuel count = r) :
    s.holds r.2 r.1 = true ∧ mag - (count + fuel) < r.2 := by
  induction fuel generalizing count with
  | zero =>
    obtain ⟨j, hle, hlt, -⟩ := h
    omega
  | succ fuel ih =>
    obtain ⟨j, hle, hlt, hj⟩ := h
    rw [search] at hr
    split at hr
    next n hn =>
      obtain rfl := hr
      exact ⟨holds_of_neighbour? hn, by simp only; omega⟩
    next hnone =>
      have hne : count ≠ j := by
        rintro rfl
        rw [hnone] at hj
        exact nomatch hj
      obtain ⟨hholds, hplace⟩ := ih ⟨j, by omega, by omega, hj⟩ hr
      exact ⟨hholds, by push_cast at hplace ⊢; omega⟩

/-! ## The surroundings of a float -/

theorem cast_low (hm : m ≠ 0) :
    ((surround m e).low : ℚ) = 4 * (m - reachBelow (m, e)) := by
  rw [surround, reachBelow, Nat.one_shiftLeft]
  dsimp only
  split
  · rw [Nat.cast_sub (by omega)]
    push_cast
    ring
  · rw [Nat.cast_sub (by omega)]
    push_cast
    ring

theorem four_mul_zpow (e : ℤ) (q : ℚ) : 4 * q * 2 ^ (e - 2) = q * 2 ^ e := by
  rw [zpow_sub₀ two_ne_zero]
  norm_num
  ring

theorem low_mul (hm : m ≠ 0) :
    ((surround m e).low : ℚ) * 2 ^ (surround m e).exponent = (m - reachBelow (m, e)) * 2 ^ e := by
  rw [cast_low hm]
  exact four_mul_zpow e _

theorem high_mul : ((surround m e).high : ℚ) * 2 ^ (surround m e).exponent =
    (m + 1 / 2) * 2 ^ e := by
  rw [← four_mul_zpow e]
  simp only [surround]
  push_cast
  ring

theorem value_mul : ((surround m e).value : ℚ) * 2 ^ (surround m e).exponent = amount (m, e) := by
  rw [amount, ← four_mul_zpow e]
  simp only [surround]
  push_cast
  ring

/-- A decimal that rounds to a float is one that the float stands for. -/
theorem standsFor_of_holds (hm : m ≠ 0) (h : (surround m e).holds place n = true) :
    StandsFor (m, e) (n * 10 ^ place) := by
  have hpos : (0 : ℚ) < 2 ^ e := zpow_pos two_pos e
  obtain ⟨hlow, hhigh, hinside⟩ := holds_iff.mp h
  rw [low_mul hm] at hlow hinside
  rw [high_mul] at hhigh hinside
  refine ⟨(le_div_iff₀ hpos).mpr hlow, (div_le_iff₀ hpos).mpr hhigh, hinside.imp ?_ ?_⟩
  · exact fun hclosed ↦ of_decide_eq_true hclosed
  · exact fun ⟨hl, hh⟩ ↦ ⟨(lt_div_iff₀ hpos).mpr hl, (div_lt_iff₀ hpos).mpr hh⟩

theorem pos_of_holds (hm : m ≠ 0) (h : (surround m e).holds place n = true) : n ≠ 0 := by
  rintro rfl
  have hlow := (standsFor_of_holds hm h).low
  have hone : (1 : ℚ) ≤ m := by exact_mod_cast Nat.pos_of_ne_zero hm
  simp only [Nat.cast_zero, zero_mul, zero_div] at hlow
  linarith [reachBelow_le (m, e)]

/-- The numbers that round to a float reach at least the part `2 ^ 54` of it to both sides. -/
theorem amount_le_reach (hm : m < 2 ^ 53) (e : ℤ) :
    amount (m, e) ≤ reachBelow (m, e) * 2 ^ e * 2 ^ 54 ∧ amount (m, e) ≤ 1 / 2 * 2 ^ e * 2 ^ 54 := by
  have hpos : (0 : ℚ) < 2 ^ e := zpow_pos two_pos e
  have hlt : (m : ℚ) ≤ 2 ^ 53 := by exact_mod_cast hm.le
  rw [amount, reachBelow]
  dsimp only
  constructor
  · split
    next hm =>
      rw [hm.1]
      push_cast
      linarith
    · linarith [mul_le_mul_of_nonneg_right hlt hpos.le]
  · linarith [mul_le_mul_of_nonneg_right hlt hpos.le]

/-- A grid whose step is less than the part `2 ^ 53` of a float has a neighbour that rounds to
it. -/
theorem isSome_neighbour? {tie : Tie} (hm : m ≠ 0) (hlt : m < 2 ^ 53)
    (hstep : (10 : ℚ) ^ place * 2 ^ 53 < amount (m, e)) :
    ((surround m e).neighbour? tie place).isSome = true := by
  have hten : (0 : ℚ) < 10 ^ place := zpow_pos (by norm_num) place
  obtain ⟨hreach, hreach'⟩ := amount_le_reach hlt e
  have hbelow := (surround m e).stepsBelow_mul_le place
  have habove := (surround m e).lt_stepsBelow_add_one_mul place
  have hlow := low_mul (e := e) hm
  have hhigh := high_mul (m := m) (e := e)
  rw [value_mul] at hbelow habove
  push_cast at habove
  refine isSome_neighbour?_of_holds ?_
  -- the nearer one of the two is near enough
  rw [amount] at *
  dsimp only at *
  rcases le_total (2 * ((m : ℚ) * 2 ^ e - (surround m e).stepsBelow place * 10 ^ place))
    (10 ^ place) with hgap | hgap
  · refine .inl (holds_of_lt ?_ ?_)
    · rw [hlow]
      linarith
    · rw [hhigh]
      linarith
  · refine .inr (holds_of_lt ?_ ?_)
    · rw [hlow]
      push_cast
      linarith
    · rw [hhigh]
      push_cast
      linarith

/-! ## The search -/

/-- The power of ten of the first digit of a float is not above the float. -/
theorem ten_zpow_magnitude_le (hm : m ≠ 0) (he : -1074 ≤ e) :
    (10 : ℚ) ^ ((surround m e).magnitude - 1) ≤ amount (m, e) ∧ -350 < (surround m e).magnitude := by
  rw [magnitude, Nat.shiftRight_eq_div_pow, Nat.shiftLeft_eq, Nat.pow_eq]
  have hvalue := value_mul (m := m) (e := e)
  have hexponent : (surround m e).exponent = e - 2 := rfl
  have hfour : (surround m e).value = 4 * m := rfl
  set s := surround m e
  set lift := min (-s.exponent).toNat 350 with hlift
  set whole := s.value * 2 ^ s.exponent.toNat * 10 ^ lift / 2 ^ (-s.exponent).toNat
  have hpow : (0 : ℚ) < 2 ^ (-s.exponent).toNat := by positivity
  have hwhole : (whole : ℚ) ≤ amount (m, e) * 10 ^ lift := by
    refine Nat.cast_div_le.trans ?_
    push_cast
    rw [div_le_iff₀ hpow, ← hvalue, zpow_toNat_mul two_ne_zero s.exponent]
    exact le_of_eq (by ring)
  have hne : whole ≠ 0 := by
    refine (Nat.div_pos ?_ (by positivity)).ne'
    -- Lifting outweighs the power of two, or it is the greatest one, and no float is so small.
    have hlarge : 2 ^ (-s.exponent).toNat ≤ s.value * 10 ^ lift := by
      rcases le_total (-s.exponent).toNat 350 with hle | hle
      · rw [hlift, min_eq_left hle]
        calc 2 ^ (-s.exponent).toNat ≤ 10 ^ (-s.exponent).toNat := Nat.pow_le_pow_left (by norm_num) _
          _ ≤ s.value * 10 ^ (-s.exponent).toNat := Nat.le_mul_of_pos_left _ (by omega)
      · rw [hlift, min_eq_right hle]
        calc 2 ^ (-s.exponent).toNat ≤ 2 ^ 1076 := Nat.pow_le_pow_right (by norm_num) (by omega)
          _ ≤ 4 * 10 ^ 350 := by decide +kernel
          _ ≤ s.value * 10 ^ 350 := Nat.mul_le_mul_right _ (by omega)
    rw [Nat.mul_right_comm]
    exact hlarge.trans (Nat.le_mul_of_pos_right _ (by positivity))
  have hlength := length_digits_pos whole
  constructor
  · have hdigits : ((10 ^ ((digits whole).length - 1) : ℕ) : ℚ) ≤ whole := by
      exact_mod_cast ten_pow_length_digits_le hne
    have hten : (0 : ℚ) < 10 ^ lift := by positivity
    rw [← mul_le_mul_iff_left₀ hten]
    refine le_trans (le_of_eq ?_) (hdigits.trans hwhole)
    push_cast
    rw [← zpow_natCast, ← zpow_natCast, ← zpow_add₀ (by norm_num)]
    congr 1
    omega
  · omega

/-- The decimal that the search ends with is one that the float stands for. -/
theorem standsFor_of_search {tie : Tie} {r : ℕ × ℤ} (hm : m ≠ 0) (hlt : m < 2 ^ 53)
    (he : -1074 ≤ e)
    (hr : (surround m e).search tie (surround m e).magnitude 17 1 = r) :
    StandsFor (m, e) (r.1 * 10 ^ r.2) ∧ r.1 ≠ 0 ∧ -400 ≤ r.2 := by
  obtain ⟨hten, hmag⟩ := ten_zpow_magnitude_le hm he
  have hstep : (10 : ℚ) ^ ((surround m e).magnitude - (17 : ℕ)) * 2 ^ 53 < amount (m, e) := by
    refine lt_of_lt_of_le ?_ hten
    have hpos : (0 : ℚ) < 10 ^ ((surround m e).magnitude - (17 : ℕ)) := zpow_pos (by norm_num) _
    rw [show (surround m e).magnitude - 1 = (surround m e).magnitude - (17 : ℕ) + (16 : ℕ) by
      push_cast; ring, zpow_add₀ (by norm_num), zpow_natCast]
    exact mul_lt_mul_of_pos_left (by norm_num) hpos
  obtain ⟨hholds, hplace⟩ := holds_of_search
    ⟨17, by norm_num, by norm_num, isSome_neighbour? hm hlt hstep⟩ hr
  refine ⟨standsFor_of_holds hm hholds, pos_of_holds hm hholds, ?_⟩
  push_cast at hplace
  omega

end Surround

section Shortest

variable {tie : Tie} {m : ℕ} {e : ℤ}

/-- The magnitude that digits and a point are. -/
def Scaled.amount (s : Scaled) : ℚ := value s.digits * 10 ^ (s.point - s.digits.length)

/-- The shortest decimal of a float is one that the float stands for. -/
theorem standsFor_shortest (hm : m ≠ 0) (hlt : m < 2 ^ 53) (he : -1074 ≤ e) :
    StandsFor (m, e) (shortest tie m e).amount ∧ value (shortest tie m e).digits ≠ 0 ∧
      (∀ c ∈ (shortest tie m e).digits, isDigit c = true) ∧
      (shortest tie m e).digits.length ≤ 400 + (shortest tie m e).point := by
  rw [shortest]
  obtain ⟨r, hr⟩ : ∃ r, (surround m e).search tie (surround m e).magnitude 17 1 = r := ⟨_, rfl⟩
  obtain ⟨hstands, hn, hplace⟩ := Surround.standsFor_of_search hm hlt he hr
  obtain ⟨n, place⟩ := r
  obtain ⟨k, hk⟩ := exists_dropTrailing_append '0' (digits n)
  have hvalue : n = 10 ^ k * value (dropTrailing '0' (digits n)) := by
    have hvalue := congrArg value hk
    rwa [value_digits, value_append, List.length_replicate, ← zeros, value_zeros, add_zero] at hvalue
  have hlength : (digits n).length = (dropTrailing '0' (digits n)).length + k := by
    have hlength := congrArg List.length hk
    rwa [List.length_append, List.length_replicate] at hlength
  simp only [hr]
  refine ⟨?_, ?_, ?_, ?_⟩
  · have hamount : Scaled.amount ⟨dropTrailing '0' (digits n), (digits n).length + place⟩ =
        n * 10 ^ place := by
      have hten : (10 : ℚ) ≠ 0 := by norm_num
      rw [Scaled.amount, hlength, show (((dropTrailing '0' (digits n)).length + k : ℕ) : ℤ) + place -
        (dropTrailing '0' (digits n)).length = k + place by push_cast; ring, zpow_add₀ hten,
        zpow_natCast]
      conv_rhs => rw [hvalue]
      push_cast
      ring
    rw [hamount]
    exact hstands
  · intro hzero
    rw [hzero, mul_zero] at hvalue
    exact hn hvalue
  · intro c hc
    refine isDigit_of_mem_digits (n := n) ?_
    rw [hk]
    exact List.mem_append_left _ hc
  · simp only at hplace ⊢
    omega

end Shortest

end FormulaQuiz.Decimal
