import FormulaQuiz.Proofs.Decimals
import FormulaQuiz.Proofs.Sums

/-!
# Infinities

What is too great for a float becomes an infinity, and an infinity stays one when a number is added
to it; so a sum of products of finite floats may be infinite, but it is never undefined.
-/

namespace FormulaQuiz.Rounding

open Float.Model Float.Model.UnpackedFloat

/-- A float is an infinity. -/
def Infinite (x : Float) (s : Sign) : Prop := x.toModel.unpack = .infinity s

/-- A float is a number or an infinity. -/
def Defined (x : Float) : Prop := (∃ v, Is x v) ∨ ∃ s, Infinite x s

section Defined

variable {x y : Float} {s : Sign} {a v w : ℚ} {r : ℕ × ℤ}

theorem Is.defined (h : Is x v) : Defined x := .inl ⟨v, h⟩

theorem Infinite.defined (h : Infinite x s) : Defined x := .inr ⟨s, h⟩

theorem infinite_pack (s : Sign) : Infinite (.ofModel (.pack (.infinity s))) s :=
  unpack_pack_infinity s

theorem Infinite.isFinite (h : Infinite x s) : x.isFinite = false := by
  change x.toModel.unpack.isFinite = false
  rw [h]
  rfl

/-- Rounding gives a number or an infinity. -/
theorem defined_closest (hv : v ≠ 0) : Defined (closest v) := by
  have hcanonical := canonical_rounded (abs_pos.mpr hv)
  by_cases he : (rounded |v|).2 ≤ 971
  · exact .inl ⟨_, Exactly.is ⟨_, hcanonical, he, unpack_pack_signed hcanonical he, rfl⟩⟩
  · rw [closest, pack_of_lt hcanonical (not_le.mp he)]
    exact (infinite_pack _).defined

theorem Is.defined_mul (hx : Is x v) (hy : Is y w) : Defined (x * y) := by
  rcases eq_or_ne (v * w) 0 with h | h
  · exact (hx.mul_of_eq_zero hy h).defined
  · rw [hx.mul hy h]
    exact defined_closest h

/-- An infinity stays one when a number is added. -/
theorem Infinite.add (hx : Infinite x s) (hy : Is y w) : Infinite (x + y) s := by
  obtain ⟨t, _, ⟨r, -, -, hy, -⟩, -⟩ := hy
  change Infinite (.ofModel (.pack (UnpackedFloat.add _ x.toModel.unpack y.toModel.unpack))) s
  rw [hx, hy, signed]
  split <;> exact infinite_pack s

theorem Defined.add (hx : Defined x) (hy : Is y w) : Defined (x + y) := by
  rcases hx with ⟨v, hx⟩ | ⟨s, hx⟩
  · rcases eq_or_ne (v + w) 0 with h | h
    · exact (hx.add_of_eq_zero hy h).defined
    · rw [hx.add hy h]
      exact defined_closest h
  · exact (hx.add hy).defined

/-- An infinity stays one when it is multiplied by a positive number. -/
theorem Infinite.mul (hx : Infinite x s) (hy : Exactly y .positive a) (ha : 0 < a) :
    Infinite (x * y) s := by
  obtain ⟨r, -, -, hy, rfl⟩ := hy
  have hsign : s * .positive = s := by cases s <;> rfl
  have hne : r.1 ≠ 0 := fun h ↦ ha.ne' (amount_eq_zero_iff.mpr h)
  change Infinite (.ofModel (.pack (UnpackedFloat.mul _ x.toModel.unpack y.toModel.unpack))) s
  rw [hx, hy, signed_of_ne_zero hne, UnpackedFloat.mul, hsign]
  exact infinite_pack s

/-- An infinity stays one when it is divided by a number without minus sign. -/
theorem Infinite.div (hx : Infinite x s) (hy : Exactly y .positive a) : Infinite (x / y) s := by
  obtain ⟨r, -, -, hy, rfl⟩ := hy
  have hsign : s / .positive = s := by cases s <;> rfl
  change Infinite (.ofModel (.pack (UnpackedFloat.div _ x.toModel.unpack y.toModel.unpack))) s
  rw [hx, hy, signed]
  split <;> rw [UnpackedFloat.div, hsign] <;> exact infinite_pack s

/-- A number lies above the negative infinity. -/
theorem Infinite.lt (hx : Infinite x .negative) (hy : Is y w) : x < y := by
  obtain ⟨t, _, ⟨r, -, -, hy, -⟩, -⟩ := hy
  rw [lt_iff_compare, hx, hy, signed]
  split <;> rfl

/-- A number lies below the positive infinity. -/
theorem Infinite.gt (hx : Infinite x .positive) (hy : Is y w) : y < x ∧ ¬ x < y := by
  obtain ⟨t, _, ⟨r, -, -, hy, -⟩, -⟩ := hy
  rw [lt_iff_compare, lt_iff_compare, hx, hy, signed]
  split
  · refine ⟨rfl, fun h ↦ ?_⟩
    cases h
  · cases t
    all_goals
      refine ⟨rfl, fun h ↦ ?_⟩
      cases h

/-- A decimal that no float can hold is read as the infinity. -/
theorem infinite_nearestFloat {coefficient : ℕ} {exponent : ℤ}
    (h : (Decimal.nearestFloat coefficient exponent).isFinite = false) :
    Infinite (Decimal.nearestFloat coefficient exponent) .positive := by
  have hnot : ∀ a, ¬Exactly (Decimal.nearestFloat coefficient exponent) .positive a := by
    intro a ha
    rw [ha.isFinite] at h
    exact Bool.false_ne_true h.symm
  cases isNearest_nearestFloat coefficient exponent with
  | zero hx => exact absurd hx (hnot 0)
  | rounded hc hx =>
    have hcanonical := canonical_rounded (decimal_pos hc exponent)
    rw [hx] at hnot ⊢
    have hgt : 971 < (rounded (coefficient * 10 ^ exponent)).2 := by
      by_contra hle
      exact hnot _ ⟨_, hcanonical, not_lt.mp hle,
        unpack_pack_signed hcanonical (not_lt.mp hle), rfl⟩
    rw [pack_of_lt hcanonical hgt]
    exact infinite_pack .positive
  | infinite hc hhigh hx =>
    rw [hx]
    exact infinite_pack .positive

end Defined

/-! ## Bits of positive floats -/

section Bits

variable {x : Float} {a : ℚ}

/-- The bits of a float, from the parts that they are read as. -/
theorem toNat_eq (b : BitVec 64) :
    b.toNat = ((@unpackSign Format.binary64 b).toNat * 2 ^ 11 +
      (@unpackExponent Format.binary64 b).toNat) * 2 ^ 52 +
        (@unpackMantissa Format.binary64 b).toNat := by
  have hb := b.isLt
  rw [unpackSign_def, unpackExponent_def, unpackMantissa_def, BitVec.extractLsb'_toNat,
    BitVec.extractLsb'_toNat, BitVec.extractLsb'_toNat, Nat.shiftRight_eq_div_pow,
    Nat.shiftRight_eq_div_pow, Nat.shiftRight_eq_div_pow]
  change b.toNat = (b.toNat / 2 ^ 63 % 2 ^ 1 * 2 ^ 11 + b.toNat / 2 ^ 52 % 2 ^ 11) * 2 ^ 52 +
    b.toNat / 2 ^ 0 % 2 ^ 52
  omega

/-- The number of the bits of the positive infinity. -/
def infinityBits : ℕ := 2047 * 2 ^ 52

theorem signed_inj_sign {s t : Sign} {r r' : ℕ × ℤ} (h : signed s r = signed t r') : s = t := by
  rw [signed, signed] at h
  split at h <;> split at h
  · exact UnpackedFloat.zero.inj h
  · cases h
  · cases h
  · exact (UnpackedFloat.finite.inj h).1

/-- The bits of a finite float without minus sign are less than those of the infinity. -/
theorem Exactly.toBits_lt (h : Exactly x .positive a) : x.toBits.toNat < infinityBits := by
  obtain ⟨r, -, -, hx, -⟩ := h
  change UnpackedFloat.unpack Format.binary64 x.toBits.toBitVec = signed .positive r at hx
  rw [← UInt64.toNat_toBitVec, toNat_eq]
  generalize x.toBits.toBitVec = b at *
  by_cases hexponent : @unpackExponent Format.binary64 b = -1#11
  · rw [Rounding.unpack_eq, if_pos hexponent, signed] at hx
    split at hx <;> split at hx <;> cases hx
  · obtain ⟨r', -, -, hb⟩ := exists_unpack_eq_signed hexponent
    have hsign : @unpackSign Format.binary64 b = 0#1 := by
      have hpositive := signed_inj_sign (hb.symm.trans hx)
      rw [← Sign.toBitVec_ofBitVec (@unpackSign Format.binary64 b), hpositive]
      rfl
    have hne : (@unpackExponent Format.binary64 b).toNat ≠ 2047 :=
      fun he ↦ hexponent (BitVec.eq_of_toNat_eq he)
    have hexponentLt := (@unpackExponent Format.binary64 b).isLt
    have hmantissaLt := (@unpackMantissa Format.binary64 b).isLt
    change _ < 2 ^ 11 at hexponentLt
    change _ < 2 ^ 52 at hmantissaLt
    rw [hsign, infinityBits]
    change (0 * 2 ^ 11 + _) * 2 ^ 52 + _ < _
    omega

/-- Every smaller bit pattern is that of a finite float without minus sign. -/
theorem exists_exactly_ofBits {n : ℕ} (hn : n < infinityBits) :
    ∃ a, Exactly (Float.ofBits (.ofNat n)) .positive a := by
  rw [infinityBits] at hn
  have hnat : (UInt64.ofNat n).toBitVec.toNat = n := by
    rw [UInt64.toNat_toBitVec, UInt64.toNat_ofNat']
    omega
  have hbits := toNat_eq (UInt64.ofNat n).toBitVec
  rw [hnat] at hbits
  have hexponent : @unpackExponent Format.binary64 (UInt64.ofNat n).toBitVec ≠ -1#11 := by
    intro he
    have := congrArg BitVec.toNat he
    change _ = 2047 at this
    omega
  have hsign : @unpackSign Format.binary64 (UInt64.ofNat n).toBitVec = 0#1 := by
    refine BitVec.eq_of_toNat_eq ?_
    change _ = 0
    omega
  obtain ⟨r, hr, he, hunpack⟩ := exists_unpack_eq_signed hexponent
  refine ⟨amount r, r, hr, he, ?_, rfl⟩
  change (Float.Model.pack (UnpackedFloat.unpack Format.binary64 (UInt64.ofNat n).toBitVec)).unpack = _
  rw [hunpack, hsign]
  exact unpack_pack_signed hr he

end Bits

end FormulaQuiz.Rounding
