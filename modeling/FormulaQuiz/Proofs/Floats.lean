import FormulaQuiz.Number.Integral
import FormulaQuiz.Proofs.Rounding

/-!
# Floats as exact numbers

A finite float is a sign and a magnitude.  The operations give the sign that the rules of signs say,
and the magnitude that rounding gives to the exact result; so nothing that follows looks into the
bits of a float.
-/

namespace FormulaQuiz

namespace Dyadic

variable {d : Dyadic} {direction : Direction}

/-- An integer stays, in whatever direction it is rounded. -/
theorem integralMagnitude_of_mod_eq_zero (h : d.numerator % d.denominator = 0) :
    d.integralMagnitude direction = d.numerator / d.denominator := by
  have hpos := d.denominator_pos
  cases direction <;> simp [integralMagnitude, h, hpos.ne']

theorem integralMagnitude_le (d : Dyadic) (direction : Direction) :
    d.integralMagnitude direction ≤ d.numerator / d.denominator + 1 := by
  cases direction
  all_goals
    simp only [integralMagnitude]
    split
    · exact le_rfl
    · exact Nat.le_succ _

end Dyadic

namespace Rounding

open Float.Model Float.Model.UnpackedFloat

/-! ## Bits -/

section Bits

variable {s : Sign} {r : ℕ × ℤ}

theorem toNat_implicitBit (m : BitVec 52) : (1#1 ++ m).toNat = 2 ^ 52 + m.toNat := by
  rw [BitVec.toNat_append, ← Nat.shiftLeft_add_eq_or_of_lt m.isLt]
  rfl

/-- What the parts of a bit pattern mean. -/
theorem unpack_eq (b : BitVec Format.binary64.numBits) :
    UnpackedFloat.unpack Format.binary64 b =
      if unpackExponent b = -1#11 then
        if unpackMantissa b = 0#52 then .infinity (Sign.ofBitVec (unpackSign b)) else .notANumber
      else if unpackExponent b = 0#11 then
        signed (Sign.ofBitVec (unpackSign b)) ((unpackMantissa b).toNat, -1074)
      else signed (Sign.ofBitVec (unpackSign b))
        (2 ^ 52 + (unpackMantissa b).toNat, (unpackExponent b).toNat - 1075) := by
  simp only [UnpackedFloat.unpack]
  split
  · rfl
  · split
    next he =>
      by_cases hm : unpackMantissa b = 0#52
      · rw [dif_pos hm, hm]
        rfl
      · have hne : (unpackMantissa b).toNat ≠ 0 := fun h0 ↦ hm (BitVec.eq_of_toNat_eq h0)
        rw [dif_neg hm, signed, dif_neg hne, he]
        rfl
    next he =>
      simp only [toNat_implicitBit, signed]
      rw [dif_neg (by omega)]
      rfl

/-- What a sign, an exponent and a significand without its first bit mean. -/
theorem unpack_packComponents (s : Sign) {e : BitVec 11} (m : BitVec 52) (he : e ≠ -1#11) :
    UnpackedFloat.unpack Format.binary64 (packComponents Format.binary64 s e m) =
      if e = 0#11 then signed s (m.toNat, -1074)
      else signed s (2 ^ 52 + m.toNat, e.toNat - 1075) := by
  simp only [unpack_eq, unpackExponent_packComponents, unpackMantissa_packComponents,
    unpackSign_packComponents, Sign.ofBitVec_toBitVec, if_neg he]

/-- Bits whose exponent is not the greatest mean a significand and a power of two. -/
theorem exists_unpack_eq_signed {b : BitVec Format.binary64.numBits} (h : unpackExponent b ≠ -1#11) :
    ∃ r, Canonical r ∧ r.2 ≤ 971 ∧
      UnpackedFloat.unpack Format.binary64 b = signed (Sign.ofBitVec (unpackSign b)) r := by
  have hmlt := (unpackMantissa b).isLt
  have helt := (unpackExponent b).isLt
  rw [unpack_eq, if_neg h]
  generalize unpackMantissa b = m at *
  generalize unpackExponent b = e at *
  change m.toNat < 2 ^ 52 at hmlt
  change e.toNat < 2 ^ 11 at helt
  split
  · exact ⟨_, ⟨by simp only; omega, le_rfl, fun h ↦ absurd h (lt_irrefl _)⟩, by norm_num, rfl⟩
  next he0 =>
    have hne : e.toNat ≠ 0 := fun h ↦ he0 (BitVec.eq_of_toNat_eq h)
    have hmax : e.toNat ≠ 2047 := fun he ↦ h (BitVec.eq_of_toNat_eq he)
    exact ⟨_, ⟨by simp only; omega, by simp only; omega, fun _ ↦ by simp only; omega⟩,
      by simp only; omega, rfl⟩

/-- Every float is an infinity, the undefined value, or a significand and a power of two. -/
theorem unpack_cases (f : Float.Model) :
    (∃ s, f.unpack = .infinity s) ∨ f.unpack = .notANumber ∨
      ∃ s r, Canonical r ∧ r.2 ≤ 971 ∧ f.unpack = signed s r := by
  by_cases h : @unpackExponent Format.binary64 f.toBits.toBitVec = -1#11
  · rw [Float.Model.unpack, unpack_eq, if_pos h]
    split
    · exact .inl ⟨_, rfl⟩
    · exact .inr (.inl rfl)
  · obtain ⟨r, hr⟩ := exists_unpack_eq_signed h
    exact .inr (.inr ⟨_, r, hr⟩)

/-- An exponent between the ends of its range is none of them. -/
theorem ofNat_exponent {n : ℕ} (hpos : 0 < n) (hlt : n < 2047) :
    (BitVec.ofNat 11 n).toNat = n ∧ BitVec.ofNat 11 n ≠ 0#11 ∧ BitVec.ofNat 11 n ≠ -1#11 := by
  have hn : (BitVec.ofNat 11 n).toNat = n := by
    rw [BitVec.toNat_ofNat]
    omega
  refine ⟨hn, fun h ↦ ?_, fun h ↦ ?_⟩
  · have hzero : n = 0 := hn.symm.trans (congrArg BitVec.toNat h)
    omega
  · have hmax : n = 2047 := hn.symm.trans (congrArg BitVec.toNat h)
    omega

/-- A significand and a power of two that is not too great make a float. -/
theorem unpack_pack_signed (hr : Canonical r) (he : r.2 ≤ 971) :
    (Float.Model.pack (signed s r)).unpack = signed s r := by
  obtain ⟨m, e⟩ := r
  have hlt : m < 2 ^ 53 := hr.lt
  have hle : -1074 ≤ e := hr.le
  simp only at he
  rw [Float.Model.unpack, Float.Model.pack]
  change UnpackedFloat.unpack Format.binary64 (UnpackedFloat.pack Format.binary64 _) = _
  rcases eq_or_ne m 0 with rfl | hm
  · exact (unpack_packComponents s 0 (by decide)).trans (if_pos rfl)
  · have hbiased : (e + Format.binary64.exponentBias + Format.binary64.mantissaBitsWithoutImplicit)
        = e + 1075 := by
      change e + 1023 + 52 = _
      omega
    rw [signed, dif_neg hm]
    simp only [UnpackedFloat.pack, hbiased]
    rw [if_neg (by omega)]
    by_cases hnormal : 2 ^ 52 ≤ m
    · have hlog : m.log2 = 52 := (Nat.log2_eq_iff hm).mpr ⟨hnormal, hlt⟩
      obtain ⟨hexponent, hzero, hmax⟩ :=
        @ofNat_exponent (e + 1075).toNat (by omega) (by omega)
      have hm52 : 2 ^ 52 + (BitVec.ofNat 52 m).toNat = m := by
        rw [BitVec.toNat_ofNat]
        omega
      rw [if_pos (by rw [hlog]; rfl), unpack_packComponents _ _ hmax, if_neg hzero, hm52, hexponent,
        signed, dif_neg hm]
      congr 1
      omega
    · have hsub : e = -1074 := by
        have := hr.normal
        simp only at this
        omega
      have hlog : m.log2 < 52 := (Nat.log2_lt hm).mpr (not_le.mp hnormal)
      have hm52 : (BitVec.ofNat 52 m).toNat = m := by
        rw [BitVec.toNat_ofNat]
        omega
      rw [if_neg (by change ¬ m.log2 + 1 = 53; omega), unpack_packComponents _ _ (by decide),
        if_pos rfl, hm52, signed, dif_neg hm, hsub]

end Bits

/-! ## Values -/

/-- A float is finite, with a sign and a magnitude. -/
def Exactly (x : Float) (s : Sign) (a : ℚ) : Prop :=
  ∃ r, Canonical r ∧ r.2 ≤ 971 ∧ x.toModel.unpack = signed s r ∧ amount r = a

section Exactly

variable {x y : Float} {s t : Sign} {a b : ℚ}

theorem amount_eq_zero_iff {r : ℕ × ℤ} : amount r = 0 ↔ r.1 = 0 := by
  rw [amount, mul_eq_zero, or_iff_left (zpow_pos two_pos _).ne', Nat.cast_eq_zero]

theorem amount_nonneg (r : ℕ × ℤ) : 0 ≤ amount r :=
  mul_nonneg r.1.cast_nonneg (zpow_pos two_pos _).le

theorem Exactly.nonneg (h : Exactly x s a) : 0 ≤ a := by
  obtain ⟨r, -, -, -, rfl⟩ := h
  exact amount_nonneg r

theorem signed_of_eq_zero {r : ℕ × ℤ} (h : r.1 = 0) : signed s r = .zero s := dif_pos h

theorem signed_of_ne_zero {r : ℕ × ℤ} (h : r.1 ≠ 0) :
    signed s r = .finite s r.1 r.2 (Nat.pos_of_ne_zero h) := dif_neg h

/-- Two finite floats with one sign and magnitude are read alike. -/
theorem Exactly.unpack_eq (hx : Exactly x s a) (hy : Exactly y s a) :
    x.toModel.unpack = y.toModel.unpack := by
  obtain ⟨r, hr, -, hx, rfl⟩ := hx
  obtain ⟨r', hr', -, hy, heq⟩ := hy
  rw [hx, hy]
  rcases eq_or_ne r.1 0 with h | h
  · have h' : r'.1 = 0 := amount_eq_zero_iff.mp (heq.trans (amount_eq_zero_iff.mpr h))
    rw [signed_of_eq_zero h, signed_of_eq_zero h']
  · rw [hr.eq_of_amount_eq hr' h heq.symm]

/-- A finite float is given by its sign and its magnitude. -/
theorem Exactly.eq (hx : Exactly x s a) (hy : Exactly y s a) :
    x = y := by
  have hbits := (unpack_inj_of_valid x.toModel.valid y.toModel.valid).mp (hx.unpack_eq hy)
  exact Float.toBits_inj.mp (UInt64.toBitVec_inj.mp hbits)

/-- A float has one magnitude. -/
theorem Exactly.amount_unique (hx : Exactly x s a) (hx' : Exactly x t b) : a = b := by
  obtain ⟨r, -, -, hx, rfl⟩ := hx
  obtain ⟨r', -, -, hx', rfl⟩ := hx'
  rw [hx] at hx'
  rcases eq_or_ne r.1 0 with h | h <;> rcases eq_or_ne r'.1 0 with h' | h'
  · rw [amount_eq_zero_iff.mpr h, amount_eq_zero_iff.mpr h']
  · rw [signed_of_eq_zero h, signed_of_ne_zero h'] at hx'
    exact nomatch hx'
  · rw [signed_of_ne_zero h, signed_of_eq_zero h'] at hx'
    exact nomatch hx'
  · rw [signed_of_ne_zero h, signed_of_ne_zero h'] at hx'
    obtain ⟨-, hm, he⟩ := UnpackedFloat.finite.inj hx'
    exact congrArg amount (Prod.ext hm he)

theorem Exactly.isFinite (h : Exactly x s a) : x.isFinite = true := by
  obtain ⟨r, -, -, hx, -⟩ := h
  change x.toModel.unpack.isFinite = true
  rw [hx, signed]
  split <;> rfl

theorem exists_exactly (h : x.isFinite = true) : ∃ s a, Exactly x s a := by
  change x.toModel.unpack.isFinite = true at h
  rcases unpack_cases x.toModel with ⟨s, hx⟩ | hx | ⟨s, r, hr, he, hx⟩
  · rw [hx] at h
    exact nomatch h
  · rw [hx] at h
    exact nomatch h
  · exact ⟨s, _, r, hr, he, hx, rfl⟩

/-- The sign and the magnitude of a finite float as an exact number. -/
theorem Exactly.ofFloat? (h : Exactly x s a) :
    ∃ d, Dyadic.ofFloat? x = some d ∧ d.negative = (s == .negative) ∧
      a = d.numerator / d.denominator := by
  obtain ⟨⟨m, e⟩, -, -, hx, rfl⟩ := h
  have hvalue : ∀ k : ℤ, (2 : ℚ) ^ k = (2 ^ k.toNat : ℕ) / (2 ^ (-k).toNat : ℕ) := by
    intro k
    push_cast
    rw [← zpow_natCast, ← zpow_natCast, ← zpow_sub₀ two_ne_zero]
    congr 1
    omega
  rcases eq_or_ne m 0 with rfl | hm
  · refine ⟨⟨s == .negative, 0, 0⟩, ?_, rfl, ?_⟩
    · rw [Dyadic.ofFloat?, hx]
      rfl
    · simp [amount, Dyadic.numerator]
  · refine ⟨⟨s == .negative, m, e⟩, ?_, rfl, ?_⟩
    · rw [Dyadic.ofFloat?, hx, signed_of_ne_zero hm]
    · rw [amount, hvalue, Dyadic.numerator, Dyadic.denominator, Nat.shiftLeft_eq, Nat.one_shiftLeft]
      push_cast
      ring

theorem unpack_pack_infinity (s : Sign) : (Float.Model.pack (.infinity s)).unpack = .infinity s := by
  change UnpackedFloat.unpack Format.binary64 (packedInfinity Format.binary64 s) = _
  rw [packedInfinity, Rounding.unpack_eq, unpackExponent_packComponents,
    unpackMantissa_packComponents, unpackSign_packComponents, Sign.ofBitVec_toBitVec]
  rfl

/-- A power of two that is too great makes an infinity. -/
theorem pack_of_lt {r : ℕ × ℤ} (hr : Canonical r) (he : 971 < r.2) (s : Sign) :
    Float.Model.pack (signed s r) = .pack (.infinity s) := by
  have hne : r.1 ≠ 0 := by
    have := hr.normal (by omega)
    omega
  have hpacked : UnpackedFloat.pack Format.binary64 (signed s r) =
      packedInfinity Format.binary64 s := by
    rw [signed_of_ne_zero hne, UnpackedFloat.pack]
    exact if_pos (by
      change 2 ^ 11 ≤ (r.2 + 1023 + 52).toNat + 1
      omega)
  rw [Float.Model.pack, Float.Model.pack, Float.Model.mk.injEq, hpacked]
  rfl

/-- A float that packs the result of rounding is finite with that magnitude, or infinite. -/
theorem exactly_ofModel_pack {r : ℕ × ℤ} (hr : Canonical r)
    (h : (Float.ofModel (.pack (signed s r))).isFinite = true) :
    Exactly (.ofModel (.pack (signed s r))) s (amount r) := by
  by_cases he : r.2 ≤ 971
  · exact ⟨r, hr, he, unpack_pack_signed hr he, rfl⟩
  · change (Float.Model.pack (signed s r)).unpack.isFinite = true at h
    rw [pack_of_lt hr (not_le.mp he), unpack_pack_infinity] at h
    cases h

/-- A number that is not too great is rounded to a finite float. -/
theorem exactly_rounded (ha : 0 < a) (h : a < overflow) (s : Sign) :
    Exactly (.ofModel (.pack (signed s (rounded a)))) s (amount (rounded a)) :=
  ⟨_, canonical_rounded ha, rounded_le_of_lt ha h,
    unpack_pack_signed (canonical_rounded ha) (rounded_le_of_lt ha h), rfl⟩

theorem canonical_zero : Canonical (0, -1074) :=
  ⟨by norm_num, le_rfl, fun h ↦ absurd h (lt_irrefl _)⟩

theorem unpack_pack_zero (s : Sign) : (Float.Model.pack (.zero s)).unpack = .zero s :=
  unpack_pack_signed (r := (0, -1074)) canonical_zero (by norm_num)

theorem exactly_zero (s : Sign) : Exactly (.ofModel (.pack (.zero s))) s 0 :=
  ⟨(0, -1074), canonical_zero, by norm_num, unpack_pack_zero s, by simp [amount]⟩

theorem zero_eq : (0 : Float) = .ofModel (.pack (.zero .positive)) := by rfl

/-- Floats with one sign and magnitude are equal. -/
theorem Exactly.beq (hx : Exactly x s a) (hy : Exactly y s a) : (x == y) = true := by
  change x.toModel.unpack.beq y.toModel.unpack = true
  rw [← hx.unpack_eq hy]
  obtain ⟨r, -, -, hx, -⟩ := hx
  rw [hx, signed]
  split
  · rfl
  · cases s <;> simp [UnpackedFloat.beq, UnpackedFloat.compare]

/-- A finite float is equal to zero just if its magnitude is zero. -/
theorem Exactly.beq_zero_iff (hx : Exactly x s a) : (x == 0) = true ↔ a = 0 := by
  have hzero : (0 : Float).toModel.unpack = .zero .positive := by
    rw [zero_eq]
    exact unpack_pack_zero _
  change x.toModel.unpack.beq (0 : Float).toModel.unpack = true ↔ _
  obtain ⟨r, -, -, hx, rfl⟩ := hx
  rw [hzero, amount_eq_zero_iff, hx]
  rcases eq_or_ne r.1 0 with h | h
  · rw [signed_of_eq_zero h]
    simp [UnpackedFloat.beq, UnpackedFloat.compare, h]
  · rw [signed_of_ne_zero h]
    cases s <;> simp [UnpackedFloat.beq, UnpackedFloat.compare, h]

end Exactly

/-! ## Operations -/

section Place

variable {m : ℕ} {e : ℤ}

theorem amount_pos {r : ℕ × ℤ} (h : r.1 ≠ 0) : 0 < amount r :=
  lt_of_le_of_ne (amount_nonneg r) fun h0 ↦ h (amount_eq_zero_iff.mp h0.symm)

theorem amount_div_zpow (r : ℕ × ℤ) : amount r / 2 ^ r.2 = r.1 :=
  mul_div_cancel_right₀ _ (zpow_pos two_pos _).ne'

theorem log_amount {r : ℕ × ℤ} (h : r.1 ≠ 0) : Int.log 2 (amount r) = r.1.log2 + r.2 := by
  refine log_eq h ?_ ?_
  · rw [amount_div_zpow]
  · rw [amount_div_zpow]
    linarith

/-- A significand with all the bits of a float, or a small enough power of two, need not be made
longer. -/
theorem le_place_amount {r : ℕ × ℤ} (h : r.1 ≠ 0) (hlong : 2 ^ 52 ≤ r.1 ∨ r.2 ≤ -1074) :
    r.2 ≤ place (amount r) := by
  rw [place, log_amount h]
  rcases hlong with hm | he
  · have := (Nat.le_log2 h).mpr hm
    omega
  · omega

/-- Rounding a significand that has enough bits. -/
theorem roundWithAccuracy_exact {r : ℕ × ℤ} (h : r.1 ≠ 0) (hlong : 2 ^ 52 ≤ r.1 ∨ r.2 ≤ -1074)
    (s : Sign) : roundWithAccuracy Format.binary64 s r.1 r.2 .exact = signed s (rounded (amount r)) :=
  roundWithAccuracy_eq (amount_pos h) (show Approximates r.1 _ .exact from amount_div_zpow r)
    (le_place_amount h hlong) s

end Place

section Operations

variable {x y : Float} {s t : Sign} {a b : ℚ}

/-- The product of finite floats is rounded from the exact product. -/
theorem Exactly.mul (hx : Exactly x s a) (hy : Exactly y t b) (ha : 0 < a) (hb : 0 < b) :
    x * y = .ofModel (.pack (signed (s * t) (rounded (a * b)))) := by
  obtain ⟨r, hr, -, hx, rfl⟩ := hx
  obtain ⟨r', hr', -, hy, rfl⟩ := hy
  have hne : r.1 ≠ 0 := fun h ↦ ha.ne' (amount_eq_zero_iff.mpr h)
  have hne' : r'.1 ≠ 0 := fun h ↦ hb.ne' (amount_eq_zero_iff.mpr h)
  have hprod : amount r * amount r' = amount (r.1 * r'.1, r.2 + r'.2) := by
    rw [amount, amount, amount, zpow_add₀ two_ne_zero]
    push_cast
    ring
  have hlong : 2 ^ 52 ≤ r.1 * r'.1 ∨ r.2 + r'.2 ≤ -1074 := by
    by_cases h : -1074 < r.2
    · exact .inl ((hr.normal h).trans (Nat.le_mul_of_pos_right _ (Nat.pos_of_ne_zero hne')))
    · by_cases h' : -1074 < r'.2
      · exact .inl ((hr'.normal h').trans (Nat.le_mul_of_pos_left _ (Nat.pos_of_ne_zero hne)))
      · exact .inr (by omega)
  change Float.ofModel (.pack (UnpackedFloat.mul _ x.toModel.unpack y.toModel.unpack)) = _
  rw [hx, hy, signed_of_ne_zero hne, signed_of_ne_zero hne', UnpackedFloat.mul, hprod,
    ← roundWithAccuracy_exact (r := (r.1 * r'.1, r.2 + r'.2)) (Nat.mul_ne_zero hne hne') hlong]

/-- A product with a zero is a zero. -/
theorem Exactly.mul_zero (hx : Exactly x s 0) (hy : Exactly y t b) :
    x * y = .ofModel (.pack (.zero (s * t))) := by
  obtain ⟨r, -, -, hx, h0⟩ := hx
  obtain ⟨r', -, -, hy, -⟩ := hy
  change Float.ofModel (.pack (UnpackedFloat.mul _ x.toModel.unpack y.toModel.unpack)) = _
  rw [hx, hy, signed_of_eq_zero (amount_eq_zero_iff.mp h0), signed]
  split <;> rfl

theorem approximates_div (m : ℕ) {n : ℕ} (hn : 0 < n) :
    Approximates (m / n) ((m : ℚ) / n) (accuracyOfFraction (m % n) n) := by
  have hnq : (0 : ℚ) < n := Nat.cast_pos.mpr hn
  have hmod : m % n < n := Nat.mod_lt m hn
  have hdiv : (m : ℚ) / n = (m / n : ℕ) + (m % n : ℕ) / n := by
    have hm : (m : ℚ) = (m / n : ℕ) * n + (m % n : ℕ) := by
      exact_mod_cast (Nat.div_add_mod' m n).symm
    rw [← mul_div_cancel_right₀ ((m / n : ℕ) : ℚ) hnq.ne', ← add_div]
    exact congrArg (· / (n : ℚ)) hm
  have hmodq : ((m % n : ℕ) : ℚ) / n < 1 := (div_lt_one hnq).mpr (by exact_mod_cast hmod)
  rw [accuracyOfFraction]
  split
  next h0 =>
    rw [h0, Nat.cast_zero, zero_div, add_zero] at hdiv
    exact hdiv
  next h0 =>
    have hpos : (0 : ℚ) < (m % n : ℕ) / n := div_pos (by exact_mod_cast Nat.pos_of_ne_zero h0) hnq
    rw [hdiv]
    rcases lt_trichotomy (2 * (m % n)) n with h | h | h
    · rw [compare_lt_iff_lt.mpr h]
      have hlt : ((m % n : ℕ) : ℚ) / n < 1 / 2 := by
        rw [div_lt_div_iff₀ hnq two_pos]
        exact_mod_cast (by omega : m % n * 2 < 1 * n)
      constructor <;> linarith
    · rw [compare_eq_iff_eq.mpr h]
      have heq : ((m % n : ℕ) : ℚ) / n = 1 / 2 := by
        rw [div_eq_div_iff hnq.ne' two_ne_zero]
        exact_mod_cast (by omega : m % n * 2 = 1 * n)
      change _ + _ = _ + _
      rw [heq]
    · rw [compare_gt_iff_gt.mpr h]
      have hgt : 1 / 2 < ((m % n : ℕ) : ℚ) / n := by
        rw [div_lt_div_iff₀ two_pos hnq]
        exact_mod_cast (by omega : 1 * n < m % n * 2)
      constructor <;> linarith

/-- The binary magnitude of a quotient is at most one below the difference of the magnitudes. -/
theorem le_log_amount_div {r r' : ℕ × ℤ} (h : r.1 ≠ 0) (h' : r'.1 ≠ 0) :
    (r.1.log2 : ℤ) + r.2 - (r'.1.log2 + r'.2) - 1 ≤ Int.log 2 (amount r / amount r') := by
  refine (Int.zpow_le_iff_le_log one_lt_two (div_pos (amount_pos h) (amount_pos h'))).mp ?_
  rw [le_div_iff₀ (amount_pos h')]
  have hlow : (2 : ℚ) ^ ((r.1.log2 : ℤ) + r.2) ≤ amount r := by
    rw [← log_amount h]
    exact_mod_cast Int.zpow_log_le_self one_lt_two (amount_pos h)
  have hhigh : amount r' < 2 ^ ((r'.1.log2 : ℤ) + r'.2 + 1) := by
    rw [← log_amount h']
    exact_mod_cast Int.lt_zpow_succ_log_self one_lt_two (amount r')
  calc _ ≤ (2 : ℚ) ^ ((r.1.log2 : ℤ) + r.2 - (r'.1.log2 + r'.2) - 1) *
        2 ^ ((r'.1.log2 : ℤ) + r'.2 + 1) :=
        mul_le_mul_of_nonneg_left hhigh.le (zpow_pos two_pos _).le
    _ = 2 ^ ((r.1.log2 : ℤ) + r.2) := by
        rw [← zpow_add₀ two_ne_zero]
        congr 1
        ring
    _ ≤ amount r := hlow

/-- The quotient of two significands is rounded from the exact quotient. -/
theorem round_divCore {r r' : ℕ × ℤ} (h : r.1 ≠ 0) (h' : r'.1 ≠ 0) (s : Sign) :
    (let (m, e, acc) := divCore Format.binary64 r.1 r.2 r'.1 r'.2
    roundWithAccuracy Format.binary64 s m e acc) = signed s (rounded (amount r / amount r')) := by
  have hpos : 0 < amount r / amount r' := div_pos (amount_pos h) (amount_pos h')
  set target : ℤ := min (r.2 - r'.2) (max (totalExponent r.1 r.2 - totalExponent r'.1 r'.2 - 53)
    (-1074)) with htarget
  obtain ⟨n, hn⟩ := Int.eq_ofNat_of_zero_le
    (sub_nonneg.mpr (min_le_left (r.2 - r'.2) _ : target ≤ r.2 - r'.2))
  have hcore : divCore Format.binary64 r.1 r.2 r'.1 r'.2 =
      (r.1 * 2 ^ n / r'.1, target, accuracyOfFraction (r.1 * 2 ^ n % r'.1) r'.1) := by
    rw [divCore, targetExponent_binary64, ← htarget, hn, Int.toNat_natCast, Nat.shiftLeft_eq]
  have hquot : amount r / amount r' / 2 ^ target = ((r.1 * 2 ^ n : ℕ) : ℚ) / r'.1 := by
    have hne' : (r'.1 : ℚ) ≠ 0 := Nat.cast_ne_zero.mpr h'
    rw [amount, amount, show r.2 = n + target + r'.2 by omega, zpow_add₀ two_ne_zero,
      zpow_add₀ two_ne_zero, zpow_natCast]
    push_cast
    field_simp
  have hplace : target ≤ place (amount r / amount r') := by
    have hlog := le_log_amount_div h h'
    rw [htarget, place, totalExponent, totalExponent]
    omega
  rw [hcore]
  refine roundWithAccuracy_eq hpos ?_ hplace s
  rw [hquot]
  exact approximates_div _ (Nat.pos_of_ne_zero h')

/-- The quotient of finite floats is rounded from the exact quotient. -/
theorem Exactly.div (hx : Exactly x s a) (hy : Exactly y t b) (ha : 0 < a) (hb : 0 < b) :
    x / y = .ofModel (.pack (signed (s / t) (rounded (a / b)))) := by
  obtain ⟨r, hr, -, hx, rfl⟩ := hx
  obtain ⟨r', hr', -, hy, rfl⟩ := hy
  have hne : r.1 ≠ 0 := fun h ↦ ha.ne' (amount_eq_zero_iff.mpr h)
  have hne' : r'.1 ≠ 0 := fun h ↦ hb.ne' (amount_eq_zero_iff.mpr h)
  change Float.ofModel (.pack (UnpackedFloat.div _ x.toModel.unpack y.toModel.unpack)) = _
  rw [hx, hy, signed_of_ne_zero hne, signed_of_ne_zero hne']
  exact congrArg (fun u ↦ Float.ofModel (.pack u)) (round_divCore hne hne' (s / t))

/-- A quotient of a zero is a zero. -/
theorem Exactly.zero_div (hx : Exactly x s 0) (hy : Exactly y t b) (hb : 0 < b) :
    x / y = .ofModel (.pack (.zero (s / t))) := by
  obtain ⟨r, -, -, hx, h0⟩ := hx
  obtain ⟨r', -, -, hy, rfl⟩ := hy
  have hne' : r'.1 ≠ 0 := fun h ↦ hb.ne' (amount_eq_zero_iff.mpr h)
  change Float.ofModel (.pack (UnpackedFloat.div _ x.toModel.unpack y.toModel.unpack)) = _
  rw [hx, hy, signed_of_eq_zero (amount_eq_zero_iff.mp h0), signed_of_ne_zero hne']
  rfl

end Operations

/-! ## Integers -/

section Integers

/-- Rounding makes a significand longer first, if it has too few bits. -/
theorem round_eq {r : ℕ × ℤ} (h : r.1 ≠ 0) (s : Sign) :
    UnpackedFloat.round Format.binary64 s r.1 r.2 = signed s (rounded (amount r)) := by
  obtain ⟨m, e⟩ := r
  obtain ⟨n, hn⟩ : ∃ n, n = (e - max (totalExponent m e - 53) (-1074)).toNat := ⟨_, rfl⟩
  have hne : m * 2 ^ n ≠ 0 := Nat.mul_ne_zero h (Nat.two_pow_pos n).ne'
  have hamount : amount (m, e) = amount (m * 2 ^ n, e - n) := by
    rw [amount, amount, zpow_sub₀ two_ne_zero, zpow_natCast]
    push_cast
    field_simp
  have hplace : e - n ≤ place (amount (m, e)) := by
    rw [place, log_amount h]
    rw [totalExponent] at hn
    simp only
    omega
  rw [UnpackedFloat.round]
  simp only [targetExponent_binary64, decreaseExponent, ← hn, Nat.shiftLeft_eq]
  refine roundWithAccuracy_eq (amount_pos h) (x := amount (m, e)) ?_ hplace s
  change amount (m, e) / 2 ^ (e - n : ℤ) = (m * 2 ^ n : ℕ)
  rw [hamount]
  exact amount_div_zpow (m * 2 ^ n, e - n)

/-- An integer that a significand can hold is not changed. -/
theorem amount_rounded_natCast {n : ℕ} (hn : n ≠ 0) (hlt : n < 2 ^ 53) :
    amount (rounded (n : ℚ)) = n := by
  have hlog : Int.log 2 (n : ℚ) < 53 := by
    refine (Int.lt_zpow_iff_log_lt one_lt_two (Nat.cast_pos.mpr (Nat.pos_of_ne_zero hn))).mp ?_
    exact_mod_cast hlt
  obtain ⟨k, hk⟩ : ∃ k : ℕ, place (n : ℚ) = -(k : ℤ) :=
    ⟨(-place (n : ℚ)).toNat, by rw [place]; omega⟩
  have hscaled : (n : ℚ) / 2 ^ place (n : ℚ) = (n * 2 ^ k : ℕ) := by
    rw [hk, zpow_neg, zpow_natCast, div_inv_eq_mul]
    push_cast
    ring
  rw [amount_rounded, hscaled, nearest_natCast, ← hscaled,
    div_mul_cancel₀ _ (zpow_pos two_pos _).ne']

/-- A sign and an integer that a significand can hold make a float. -/
theorem exactly_round_natCast {n : ℕ} (hlt : n < 2 ^ 53) (s : Sign) :
    Exactly (.ofModel (.pack (UnpackedFloat.round Format.binary64 s n 0))) s n := by
  rcases eq_or_ne n 0 with rfl | hn
  · rw [show UnpackedFloat.round Format.binary64 s 0 0 = .zero s by cases s <;> rfl, Nat.cast_zero]
    exact exactly_zero s
  · have hamount : amount (n, 0) = n := by simp [amount]
    rw [round_eq (r := (n, 0)) hn, hamount]
    have hbound : (n : ℚ) < 2 ^ 53 := by exact_mod_cast hlt
    have hx := exactly_rounded (Nat.cast_pos.mpr (Nat.pos_of_ne_zero hn))
      (hbound.trans two_pow_lt_overflow) s
    rwa [amount_rounded_natCast hn hlt] at hx

variable {x : Float} {s : Sign} {a : ℚ}

theorem significand_lt_of_ofFloat? {d : Dyadic} (h : Dyadic.ofFloat? x = some d) :
    d.significand < 2 ^ 53 := by
  rw [Dyadic.ofFloat?] at h
  rcases unpack_cases x.toModel with ⟨s, hx⟩ | hx | ⟨s, r, hr, -, hx⟩
  · rw [hx] at h
    exact nomatch h
  · rw [hx] at h
    exact nomatch h
  · rw [hx] at h
    rcases eq_or_ne r.1 0 with hm | hm
    · rw [signed_of_eq_zero hm] at h
      cases h
      exact Nat.two_pow_pos 53
    · rw [signed_of_ne_zero hm] at h
      cases h
      exact hr.lt

/-- The integer that a float goes to is found from its exact value, and has its sign. -/
theorem Exactly.exists_toIntegral (h : Exactly x s a) (direction : Direction) :
    ∃ d : Dyadic, d.negative = (s == .negative) ∧ a = d.numerator / d.denominator ∧
      Exactly (toIntegral direction x) s (d.integralMagnitude direction) := by
  obtain ⟨d, hd, hsign, hvalue⟩ := h.ofFloat?
  refine ⟨d, hsign, hvalue, ?_⟩
  rw [toIntegral, hd]
  dsimp only
  split
  next hexp =>
    have hden : d.denominator = 1 := by
      rw [Dyadic.denominator, Int.toNat_of_nonpos (neg_nonpos.mpr hexp), Nat.one_shiftLeft,
        pow_zero]
    rw [Dyadic.integralMagnitude_of_mod_eq_zero (by rw [hden, Nat.mod_one]), hden, Nat.div_one]
    rw [hden, Nat.cast_one, div_one] at hvalue
    exact hvalue ▸ h
  next hexp =>
    have hnum : d.numerator < 2 ^ 53 := by
      rw [Dyadic.numerator, Int.toNat_of_nonpos (not_le.mp hexp).le, Nat.shiftLeft_zero]
      exact significand_lt_of_ofFloat? hd
    have hden : 2 ≤ d.denominator := by
      obtain ⟨k, hk⟩ : ∃ k : ℕ, (-d.exponent).toNat = k + 1 := ⟨(-d.exponent).toNat - 1, by omega⟩
      rw [Dyadic.denominator, hk, Nat.one_shiftLeft, pow_succ]
      have := Nat.two_pow_pos k
      omega
    have hlt : d.integralMagnitude direction < 2 ^ 53 := by
      have hle := d.integralMagnitude_le direction
      have hdiv := Nat.div_le_div_left hden two_pos (a := d.numerator)
      omega
    have hround : (if d.negative = true then Sign.negative else .positive) = s := by
      rw [hsign]
      cases s <;> rfl
    rw [Dyadic.toFloat]
    simp only [hround]
    exact exactly_round_natCast hlt s

/-- Rounding a float to the nearest integer gives an integer, with the sign of the float. -/
theorem Exactly.toIntegral_nearest (h : Exactly x s a) :
    ∃ n : ℕ, Exactly (toIntegral .nearest x) s n ∧ (n : ℚ) ≤ a + 1 / 2 ∧ a + 1 / 2 < n + 1 := by
  obtain ⟨d, -, rfl, hn⟩ := h.exists_toIntegral .nearest
  have hden : (0 : ℚ) < d.denominator := by exact_mod_cast d.denominator_pos
  have hmod := Nat.mod_lt d.numerator d.denominator_pos
  have hdiv := Nat.div_add_mod' d.numerator d.denominator
  have hbounds :
      2 * (d.integralMagnitude .nearest * d.denominator) ≤ 2 * d.numerator + d.denominator ∧
        2 * d.numerator + d.denominator <
          2 * ((d.integralMagnitude .nearest + 1) * d.denominator) := by
    simp only [Dyadic.integralMagnitude, decide_eq_true_eq]
    generalize d.denominator = den at *
    split
    · rw [Nat.add_mul, Nat.add_mul, Nat.add_mul]
      omega
    · rw [Nat.add_mul]
      omega
  refine ⟨_, hn, ?_, ?_⟩
  · rw [div_add_div _ _ hden.ne' two_ne_zero, le_div_iff₀ (by positivity)]
    exact_mod_cast (by linarith [hbounds.1] : d.integralMagnitude .nearest * (d.denominator * 2) ≤
      d.numerator * 2 + d.denominator * 1)
  · rw [div_add_div _ _ hden.ne' two_ne_zero, div_lt_iff₀ (by positivity)]
    exact_mod_cast (by linarith [hbounds.2] : d.numerator * 2 + d.denominator * 1 <
      (d.integralMagnitude .nearest + 1) * (d.denominator * 2))

/-- Rounding a float without minus sign down gives the integer below it. -/
theorem Exactly.toIntegral_down (h : Exactly x .positive a) :
    ∃ n : ℕ, Exactly (toIntegral .down x) .positive n ∧ (n : ℚ) ≤ a ∧ a < n + 1 := by
  obtain ⟨d, hsign, rfl, hn⟩ := h.exists_toIntegral .down
  have hwhole : d.integralMagnitude .down = d.numerator / d.denominator := by
    simp only [Dyadic.integralMagnitude, hsign]
    rfl
  have hden : (0 : ℚ) < d.denominator := by exact_mod_cast d.denominator_pos
  have hmod := Nat.mod_lt d.numerator d.denominator_pos
  have hdiv := Nat.div_add_mod' d.numerator d.denominator
  rw [hwhole] at hn
  refine ⟨_, hn, Nat.cast_div_le, ?_⟩
  rw [div_lt_iff₀ hden]
  exact_mod_cast (by rw [Nat.add_mul]; omega :
    d.numerator < (d.numerator / d.denominator + 1) * d.denominator)
end Integers

end Rounding

end FormulaQuiz
