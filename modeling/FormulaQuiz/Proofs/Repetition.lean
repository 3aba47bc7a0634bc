import FormulaQuiz.Proofs.Neighbours
import FormulaQuiz.Variation.Answers

/-!
# Rounding twice

A value at a precision is the float nearest to a number of units of the last place.  To be rounded
again it is scaled, and the scaled value is a float as well, so it may miss the number of units.
It comes back to this number as long as it misses it by less than a half; and where the scaled value
is an integer itself, dividing it by the power of ten gives the value again.  In between, from `2 ^ 51`
to `2 ^ 52` units, floats are halves: a value whose scaled value is the middle to the next number of
units drifts there.  `roundTo_roundTo_iff` says that this is the only way in which rounding again moves
a value.
-/

namespace FormulaQuiz

open Float.Model UnpackedFloat
open Rounding

/-! ## The scaled value of a number of units -/

section Scaled

variable {x y z : Float} {places : UInt8} {s : Sign} {a w : ℚ} {m n : ℕ}

/-- A number that is rounded below a power of two is moved by a part of this power. -/
theorem abs_amount_rounded_sub_le_of_lt {k : ℕ} (hk : k ≤ 52) (ha : 0 < a)
    (h : amount (rounded a) < 2 ^ k) : |amount (rounded a) - a| ≤ 2 ^ k / 2 ^ 54 := by
  have hpower : amount (rounded ((2 ^ k : ℕ) : ℚ)) = (2 ^ k : ℕ) :=
    amount_rounded_natCast (Nat.two_pow_pos k).ne' (Nat.pow_lt_pow_right (by norm_num) (by omega))
  have hlt : a < 2 ^ k := by
    refine not_le.mp fun hge ↦ not_le.mpr h ?_
    have hmono := amount_rounded_mono (a := ((2 ^ k : ℕ) : ℚ)) (by positivity) (by exact_mod_cast hge)
    rw [hpower] at hmono
    exact_mod_cast hmono
  have hlog : Int.log 2 a < k :=
    (Int.lt_zpow_iff_log_lt one_lt_two ha).mp (by exact_mod_cast hlt)
  calc |amount (rounded a) - a| ≤ 1 / 2 * 2 ^ place a := abs_amount_rounded_sub_le_place ha
    _ ≤ 1 / 2 * 2 ^ ((k : ℤ) - 53) := by
        refine mul_le_mul_of_nonneg_left (zpow_le_zpow_right₀ one_le_two ?_) (by norm_num)
        rw [place]
        omega
    _ = 2 ^ k / 2 ^ 54 := by
        rw [zpow_sub₀ two_ne_zero, zpow_natCast]
        norm_num
        ring

/-- The float of a number of units is in units at least a half. -/
theorem half_le_gridAmount_mul (places : UInt8) (hne : n ≠ 0) : 1 / 2 ≤ gridAmount places n * scale places := by
  have hone : (1 : ℚ) ≤ n := Nat.one_le_cast.mpr (Nat.pos_of_ne_zero hne)
  linarith [(abs_le.mp (abs_gridAmount_mul_sub_le places n)).1]

/-- What the float of a number of units is when it is scaled. -/
theorem OnGrid.scaled (h : OnGrid x places s n) (hne : n ≠ 0)
    (hfinite : (x * powerOfTen places).isFinite = true) :
    Exactly (x * powerOfTen places) s (amount (rounded (gridAmount places n * scale places))) := by
  have hpos := gridAmount_pos places hne
  rw [h.exactly.mul (exactly_scale places) hpos (scale_pos places), sign_mul_positive] at hfinite ⊢
  exact exactly_ofModel_pack (canonical_rounded (mul_pos hpos (scale_pos places))) hfinite

/-- A scaled value that is less than `2 ^ 51` misses its number of units by less than a half. -/
theorem abs_scaled_sub_lt (hne : n ≠ 0)
    (hlt : amount (rounded (gridAmount places n * scale places)) < 2 ^ 51) :
    |amount (rounded (gridAmount places n * scale places)) - n| < 1 / 2 := by
  have hpos : 0 < gridAmount places n * scale places :=
    (by norm_num : (0 : ℚ) < 1 / 2).trans_le (half_le_gridAmount_mul places hne)
  obtain ⟨h₁, h₂⟩ := abs_le.mp (abs_amount_rounded_sub_le_of_lt (by norm_num) hpos hlt)
  obtain ⟨h₃, h₄⟩ := abs_le.mp (abs_gridAmount_mul_sub_le places n)
  rw [abs_lt]
  constructor <;> linarith

/-- From `2 ^ 51` on, scaled values are halves, and one that is less than `2 ^ 52` misses its number of
units by a half at most. -/
theorem scaled_eq_half (hne : n ≠ 0) (hw : Exactly y s w)
    (heq : w = amount (rounded (gridAmount places n * scale places))) (hge : 2 ^ 51 ≤ w)
    (hlt : w < 2 ^ 52) : w = n - 1 / 2 ∨ w = n ∨ w = n + 1 / 2 := by
  have hpos : 0 < gridAmount places n * scale places :=
    (by norm_num : (0 : ℚ) < 1 / 2).trans_le (half_le_gridAmount_mul places hne)
  obtain ⟨h₁, h₂⟩ := abs_le.mp (abs_amount_rounded_sub_le_of_lt le_rfl hpos (heq ▸ hlt))
  obtain ⟨h₃, h₄⟩ := abs_le.mp (abs_gridAmount_mul_sub_le places n)
  obtain ⟨k, hk⟩ := hw.exists_mul_zpow (-1) (by norm_num; exact hge)
  have hhalf : w = k / 2 := by
    rw [hk]
    norm_num
    ring
  rw [← heq] at h₁ h₂
  have hn : (n : ℚ) ≤ 2 ^ 52 := by
    have hnat : (n : ℚ) < (2 ^ 52 + 1 : ℕ) := by
      push_cast
      linarith
    exact_mod_cast Nat.lt_succ_iff.mp (Nat.cast_lt.mp hnat)
  have hlow : 2 * n < k + 2 := by
    have : (2 * n : ℚ) < k + 2 := by linarith
    exact_mod_cast this
  have hhigh : k < 2 * n + 2 := by
    have : (k : ℚ) < 2 * n + 2 := by linarith
    exact_mod_cast this
  obtain hcase | hcase | hcase : k + 1 = 2 * n ∨ k = 2 * n ∨ k = 2 * n + 1 := by omega
  · have : (k : ℚ) + 1 = 2 * n := by exact_mod_cast hcase
    exact .inl (by linarith)
  · have : (k : ℚ) = 2 * n := by exact_mod_cast hcase
    exact .inr (.inl (by linarith))
  · have : (k : ℚ) = 2 * n + 1 := by exact_mod_cast hcase
    exact .inr (.inr (by linarith))

/-- If the float of a number of units is a power of two, it is scaled without error. -/
theorem scaled_of_power (hne : n ≠ 0) (hpower : (rounded (n / scale places)).1 = 2 ^ 52) :
    amount (rounded (gridAmount places n * scale places)) = gridAmount places n * scale places := by
  obtain ⟨r, hr, -, -, hscale⟩ := exactly_scale places
  have hone := one_le_scale places
  have hhalf := half_le_gridAmount_mul places hne
  have hm : (r.1 : ℚ) < 2 ^ 53 := by exact_mod_cast hr.lt
  have hexp : ∀ t : ℤ, 1 / 2 ≤ (r.1 : ℚ) * 2 ^ t → -54 < t := by
    intro t ht
    have hlt : (2 : ℚ) ^ (-1 : ℤ) < 2 ^ (53 + t) := by
      rw [zpow_add₀ two_ne_zero]
      refine lt_of_le_of_lt ((by norm_num : (2 : ℚ) ^ (-1 : ℤ) ≤ 1 / 2).trans ht) ?_
      exact mul_lt_mul_of_pos_right (by exact_mod_cast hm) (zpow_pos two_pos t)
    have := (zpow_lt_zpow_iff_right₀ one_lt_two).mp hlt
    omega
  have hproduct : gridAmount places n * scale places =
      amount (r.1, r.2 + (rounded (n / scale places)).2 + 52) := by
    rw [gridAmount, if_neg hne, amount, hpower, ← hscale, amount, amount, zpow_add₀ two_ne_zero,
      zpow_add₀ two_ne_zero]
    push_cast
    ring
  have hnormal : 2 ^ 52 ≤ r.1 := by
    refine hr.normal ?_
    have := hexp r.2 (by rw [amount] at hscale; linarith)
    omega
  rw [hproduct] at hhalf ⊢
  have hplace := hexp _ hhalf
  exact congrArg amount (rounded_amount ⟨hr.lt, by simp only; omega, fun _ ↦ hnormal⟩
    (by simp only; omega))

/-- Dividing an integer that is a scaled value by the power of ten gives the value again. -/
theorem gridAmount_eq_of_scaled (hne : n ≠ 0) (hn : Exactly z s n) (hm : m ≠ 0)
    (heq : (m : ℚ) = amount (rounded (gridAmount places n * scale places))) :
    gridAmount places m = gridAmount places n := by
  have hscale := scale_pos places
  have hnpos : (0 : ℚ) < n / scale places :=
    div_pos (Nat.cast_pos.mpr (Nat.pos_of_ne_zero hne)) hscale
  have hmpos : (0 : ℚ) < m / scale places :=
    div_pos (Nat.cast_pos.mpr (Nat.pos_of_ne_zero hm)) hscale
  have hgrid : gridAmount places n = amount (rounded (n / scale places)) := if_neg hne
  have hcanonical := canonical_rounded hnpos
  rw [gridAmount, if_neg hm, hgrid]
  refine congrArg amount ?_
  by_cases hpower : (rounded (n / scale places)).1 = 2 ^ 52
  · rw [heq, scaled_of_power hne hpower, mul_div_cancel_right₀ _ hscale.ne', hgrid]
    exact rounded_amount hcanonical (by rw [hpower]; norm_num)
  · -- the scaled value is the float nearest to the value in units, so it is nearer than the units
    refine rounded_eq_of_abs_sub_le hnpos hmpos hpower ?_
    obtain ⟨r, hr, -, -, hamount⟩ := hn
    have hnearest := abs_amount_rounded_sub_le_abs
      (mul_pos (gridAmount_pos places hne) hscale) hr
    rw [hamount, ← heq, hgrid] at hnearest
    have hunits : ∀ q : ℚ, |q / scale places - amount (rounded (n / scale places))| =
        |q - amount (rounded (n / scale places)) * scale places| / scale places := by
      intro q
      rw [← abs_of_pos hscale, ← abs_div, abs_of_pos hscale, sub_div,
        mul_div_cancel_right₀ _ hscale.ne']
    rw [hunits, hunits]
    exact div_le_div_of_nonneg_right hnearest hscale.le

/-- Different numbers of units that are not too great have different floats. -/
theorem gridAmount_succ_ne (hlt : n < 2 ^ 52) : gridAmount places (n + 1) ≠ gridAmount places n := by
  intro heq
  have hsucc := abs_gridAmount_mul_sub_le places (n + 1)
  have hn : (n : ℚ) + 1 ≤ 2 ^ 52 := by exact_mod_cast hlt
  rw [heq] at hsucc
  obtain ⟨h₁, -⟩ := abs_le.mp hsucc
  obtain ⟨-, h₂⟩ := abs_le.mp (abs_gridAmount_mul_sub_le places n)
  push_cast at h₁
  linarith

end Scaled

/-! ## Drift -/

/-- A value at a precision whose scaled value is the middle between its number of units and the next
one. -/
def Drifts (x : Float) (places : UInt8) : Prop :=
  ∃ s n, OnGrid x places s n ∧ Exactly (x * powerOfTen places) s (n + 1 / 2)

section Drift

variable {x y : Float} {places : UInt8} {s : Sign} {n : ℕ}

/-- A value that drifts has between `2 ^ 51` and `2 ^ 52` units, and goes to the next number of
units. -/
theorem OnGrid.roundTo_of_middle (h : OnGrid x places s n)
    (hmiddle : Exactly (x * powerOfTen places) s (n + 1 / 2)) :
    2 ^ 51 ≤ n ∧ n < 2 ^ 52 ∧ OnGrid (FormulaQuiz.roundTo x places) places s (n + 1) := by
  have hne : n ≠ 0 := by
    rintro rfl
    have hx : Exactly x s 0 := h.exactly
    have hzero := exactly_zero (s * .positive)
    rw [← hx.mul_zero (exactly_scale places)] at hzero
    have heq := hzero.amount_unique hmiddle
    norm_num at heq
  have heq := hmiddle.amount_unique (h.scaled hne hmiddle.isFinite)
  have hlow : 2 ^ 51 ≤ n := by
    refine not_lt.mp fun hlt ↦ ?_
    have hn : (n : ℚ) + 1 ≤ 2 ^ 51 := by exact_mod_cast hlt
    have hclose : |amount (rounded (gridAmount places n * scale places)) - n| < 1 / 2 :=
      abs_scaled_sub_lt hne (by rw [← heq]; linarith)
    rw [← heq, add_sub_cancel_left] at hclose
    norm_num at hclose
  have hhigh : n < 2 ^ 52 := by
    refine not_le.mp fun hge ↦ ?_
    have hn : (2 : ℚ) ^ 52 ≤ n := by exact_mod_cast hge
    obtain ⟨k, hk⟩ := hmiddle.exists_natCast (by linarith)
    have hodd : (2 * n + 1 : ℚ) = 2 * k := by linarith
    have : 2 * n + 1 = 2 * k := by exact_mod_cast hodd
    omega
  obtain ⟨m, hm₁, hm₂, -, hm⟩ := exists_onGrid hmiddle
  rw [add_assoc, add_halves] at hm₁ hm₂
  obtain rfl : m = n + 1 := by
    have h₁ : m ≤ n + 1 := by exact_mod_cast hm₁
    have h₂ : n + 1 < m + 1 := by exact_mod_cast hm₂
    omega
  rw [if_neg n.succ_ne_zero] at hm
  exact ⟨hlow, hhigh, hm⟩

theorem OnGrid.roundTo_zero (h : OnGrid x places s 0) : FormulaQuiz.roundTo x places = x := by
  refine (h.roundTo ?_).exactly.eq h.exactly
  rw [gridAmount, if_pos rfl, zero_mul]
  rcases slack_mul_unitLimit places with ⟨-, hl⟩ | ⟨-, hl⟩ <;> rw [hl] <;> norm_num

/-- A value on the grid is kept when it is rounded, unless its scaled value is the middle to the next
number of units. -/
theorem OnGrid.roundTo_eq (h : OnGrid x places s n) (hn : Exactly y s n)
    (hmiddle : ¬Exactly (x * powerOfTen places) s (n + 1 / 2)) :
    FormulaQuiz.roundTo x places = x := by
  rcases eq_or_ne n 0 with rfl | hne
  · exact h.roundTo_zero
  by_cases hfinite : (x * powerOfTen places).isFinite = true
  · have hw := h.scaled hne hfinite
    obtain ⟨m, hlow, hhigh, -, hm⟩ := exists_onGrid hw
    have hsame : gridAmount places m = gridAmount places n → m ≠ 0 →
        FormulaQuiz.roundTo x places = x := by
      intro heq hm0
      rw [if_neg hm0] at hm
      exact (heq ▸ hm.exactly).eq h.exactly
    rcases lt_or_ge (amount (rounded (gridAmount places n * scale places))) (2 ^ 51) with hlt | hge
    · obtain rfl : m = n := eq_of_abs_sub_lt hlow hhigh (abs_scaled_sub_lt hne hlt)
      exact hsame rfl hne
    rcases lt_or_ge (amount (rounded (gridAmount places n * scale places))) (2 ^ 52) with hlt | hge
    · obtain rfl : m = n := by
        obtain hcase | hcase | hcase := scaled_eq_half hne hw rfl hge hlt
        · rw [hcase] at hlow hhigh
          have h₁ : m ≤ n := by exact_mod_cast (by linarith : (m : ℚ) ≤ n)
          have h₂ : n < m + 1 := by exact_mod_cast (by linarith : (n : ℚ) < m + 1)
          omega
        · exact eq_of_abs_sub_lt hlow hhigh (by rw [hcase, sub_self, abs_zero]; norm_num)
        · exact absurd (hcase ▸ hw) hmiddle
      exact hsame rfl hne
    · obtain ⟨k, hk⟩ := hw.exists_natCast hge
      obtain rfl : m = k := by
        rw [hk] at hlow hhigh
        exact eq_of_abs_sub_lt hlow hhigh (by rw [sub_self, abs_zero]; norm_num)
      have hm0 : m ≠ 0 := by
        rintro rfl
        rw [hk] at hge
        norm_num at hge
      exact hsame (gridAmount_eq_of_scaled hne hn hm0 hk.symm) hm0
  · exact roundTo_of_not_scaled (Bool.not_eq_true _ ▸ hfinite)

/-- A value at a precision is kept when it is rounded again, unless it drifts. -/
theorem roundTo_roundTo_of_not_drifts (h : ¬Drifts (roundTo x places) places) :
    roundTo (roundTo x places) places = roundTo x places := by
  by_cases hscaled : (x * powerOfTen places).isFinite = true
  · obtain ⟨s, a, ha⟩ := exists_exactly hscaled
    obtain ⟨n, -, -, ⟨y, hy⟩, hn⟩ := exists_onGrid ha
    rcases eq_or_ne n 0 with rfl | hne
    · exact hn.roundTo_zero
    · rw [if_neg hne] at hn
      exact hn.roundTo_eq hy fun hmiddle ↦ h ⟨s, n, hn, hmiddle⟩
  · have hkept := roundTo_of_not_scaled (Bool.not_eq_true _ ▸ hscaled)
    rw [hkept, hkept]

/-- A value that drifts goes to the next number of units. -/
theorem Drifts.exists_onGrid (h : Drifts x places) :
    ∃ s n, 2 ^ 51 ≤ n ∧ n < 2 ^ 52 ∧ OnGrid x places s n ∧
      OnGrid (roundTo x places) places s (n + 1) := by
  obtain ⟨s, n, hn, hmiddle⟩ := h
  obtain ⟨hlow, hhigh, hsucc⟩ := hn.roundTo_of_middle hmiddle
  exact ⟨s, n, hlow, hhigh, hn, hsucc⟩

theorem Drifts.roundTo_ne (h : Drifts x places) : roundTo x places ≠ x := by
  obtain ⟨s, n, -, hlt, hn, hsucc⟩ := h.exists_onGrid
  intro heq
  rw [heq] at hsucc
  exact gridAmount_succ_ne hlt (hsucc.exactly.amount_unique hn.exactly)

/-- Rounding a value at a precision again moves it just if it drifts, and then to the next number of
units.  All that is rounded again is kept otherwise: what is printed of it, the value of a final answer
that is bound to it, and the value and text of an input. -/
theorem roundTo_roundTo_iff (hx : x.isFinite = true) (places : UInt8) :
    (roundTo (roundTo x places) places = roundTo x places ↔ ¬Drifts (roundTo x places) places) ∧
    (Drifts (roundTo x places) places → ∃ s n, 2 ^ 51 ≤ n ∧ n < 2 ^ 52 ∧
      OnGrid (roundTo x places) places s n ∧
      OnGrid (roundTo (roundTo x places) places) places s (n + 1)) ∧
    (¬Drifts (roundTo x places) places →
      formatFixed (roundTo x places) places = formatFixed x places ∧
      ∀ (v : Variable) (progress : Progress), v.boundValue progress = some (roundTo x places) →
        (∀ decoys, v.finalValue progress places decoys =
          .ok ⟨v.name, v.unit, places, decoys, roundTo x places⟩) ∧
        (v.decimalPlaces = some places →
          v.shown? progress = some ⟨v.name, v.unit, roundTo x places, formatFixed x places⟩)) := by
  refine ⟨⟨fun heq h ↦ h.roundTo_ne heq, roundTo_roundTo_of_not_drifts⟩, Drifts.exists_onGrid,
    fun h ↦ ?_⟩
  have hkept := roundTo_roundTo_of_not_drifts h
  have htext : formatFixed (roundTo x places) places = formatFixed x places := by
    rw [formatFixed, hkept, formatFixed]
  refine ⟨htext, fun v progress hbound ↦ ⟨fun decoys ↦ ?_, fun hplaces ↦ ?_⟩⟩
  · rw [Variable.finalValue, hbound]
    dsimp only
    rw [hkept, if_pos (isFinite_roundTo hx places)]
  · rw [Variable.shown?, hbound, hplaces, Option.map_some]
    dsimp only
    rw [hkept, htext]

/-- An amount with three places that is rounded to two is printed as it was rounded. -/
theorem formatFixed_roundTo_amount : (1.005 : Float).isFinite = true ∧
    formatFixed (roundTo 1.005 2) 2 = formatFixed 1.005 2 := by
  have hfinite : (1.005 : Float).isFinite = true := by decide +kernel
  have hkept : roundTo (roundTo 1.005 2) 2 = roundTo 1.005 2 :=
    Float.toBits_inj.mp (by decide +kernel)
  obtain ⟨hiff, -, htext⟩ := roundTo_roundTo_iff hfinite 2
  exact ⟨hfinite, (htext (hiff.mp hkept)).1⟩

/-- With two places, `35732257007115.836` goes to a value that goes up by a unit when it is rounded
again. -/
theorem roundTo_roundTo_ne : ∃ (x : Float) (places : UInt8), x.isFinite = true ∧
    roundTo (roundTo x places) places ≠ roundTo x places := by
  refine ⟨35732257007115.836, 2, by decide +kernel, fun heq ↦ ?_⟩
  have hbits : (roundTo (roundTo 35732257007115.836 2) 2).toBits ≠
      (roundTo 35732257007115.836 2).toBits := by decide +kernel
  exact hbits (congrArg Float.toBits heq)

end Drift

end FormulaQuiz
