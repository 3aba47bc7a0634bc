import FormulaQuiz.Proofs.Floats

/-!
# Floats in order, and their sums

A finite float is a number, and floats are in the order of their numbers.  The operations round the
exact results; a result that is too great becomes an infinity, and what is computed from finite
floats is undefined only for a quotient by zero.
-/

namespace FormulaQuiz.Rounding

open Float.Model Float.Model.UnpackedFloat

/-- The number with a sign and a magnitude. -/
def oriented (s : Sign) (a : ℚ) : ℚ :=
  match s with
  | .negative => -a
  | .positive => a

/-- A float is finite, and exactly a number. -/
def Is (x : Float) (v : ℚ) : Prop := ∃ s a, Exactly x s a ∧ oriented s a = v

section Is

variable {x y : Float} {s t : Sign} {a b v w : ℚ} {r r' : ℕ × ℤ}

@[simp] theorem oriented_zero (s : Sign) : oriented s 0 = 0 := by
  cases s
  · exact neg_zero
  · rfl

theorem Exactly.is (h : Exactly x s a) : Is x (oriented s a) := ⟨s, a, h, rfl⟩

theorem Exactly.is_of_positive (h : Exactly x .positive a) : Is x a := h.is

theorem exists_is (h : x.isFinite = true) : ∃ v, Is x v := by
  obtain ⟨s, a, hx⟩ := exists_exactly h
  exact ⟨_, hx.is⟩

theorem Is.isFinite (h : Is x v) : x.isFinite = true := by
  obtain ⟨s, a, hx, -⟩ := h
  exact hx.isFinite

/-! ## Order -/

/-- Significands and powers of two are compared by the powers first. -/
theorem compare_amount (hr : Canonical r) (hr' : Canonical r') :
    (compare r.2 r'.2).then (compare r.1 r'.1) = compare (amount r) (amount r') := by
  have less : ∀ {r r' : ℕ × ℤ}, Canonical r → Canonical r' → r.2 < r'.2 →
      amount r < amount r' := by
    intro r r' hr hr' hlt
    have hlow := hr'.normal (hr.le.trans_lt hlt)
    calc amount r < 2 ^ 53 * 2 ^ r.2 :=
          mul_lt_mul_of_pos_right (by exact_mod_cast hr.lt) (zpow_pos two_pos _)
      _ = 2 ^ 52 * 2 ^ (r.2 + 1) := by
          rw [zpow_add₀ two_ne_zero, zpow_one]
          ring
      _ ≤ 2 ^ 52 * 2 ^ r'.2 :=
          mul_le_mul_of_nonneg_left (zpow_le_zpow_right₀ one_le_two hlt) (by norm_num)
      _ ≤ amount r' :=
          mul_le_mul_of_nonneg_right (by exact_mod_cast hlow) (zpow_pos two_pos _).le
  rcases lt_trichotomy r.2 r'.2 with hlt | heq | hgt
  · rw [compare_lt_iff_lt.mpr hlt, compare_lt_iff_lt.mpr (less hr hr' hlt)]
    rfl
  · have hpos : (0 : ℚ) < 2 ^ r'.2 := zpow_pos two_pos _
    rw [compare_eq_iff_eq.mpr heq, amount, amount, heq]
    rcases lt_trichotomy r.1 r'.1 with hm | hm | hm
    · rw [compare_lt_iff_lt.mpr hm, compare_lt_iff_lt.mpr
        (mul_lt_mul_of_pos_right (by exact_mod_cast hm) hpos)]
      rfl
    · rw [compare_eq_iff_eq.mpr hm, hm, compare_eq_iff_eq.mpr rfl]
      rfl
    · rw [compare_gt_iff_gt.mpr hm, compare_gt_iff_gt.mpr
        (mul_lt_mul_of_pos_right (by exact_mod_cast hm) hpos)]
      rfl
  · rw [compare_gt_iff_gt.mpr hgt, compare_gt_iff_gt.mpr (less hr' hr hgt)]
    rfl

theorem swap_compare_neg (a b : ℚ) : (compare a b).swap = compare (-a) (-b) := by
  rcases lt_trichotomy a b with h | rfl | h
  · rw [compare_lt_iff_lt.mpr h, compare_gt_iff_gt.mpr (neg_lt_neg h)]
    rfl
  · rw [compare_eq_iff_eq.mpr rfl, compare_eq_iff_eq.mpr rfl]
    rfl
  · rw [compare_gt_iff_gt.mpr h, compare_lt_iff_lt.mpr (neg_lt_neg h)]
    rfl

/-- Finite floats are compared as numbers. -/
theorem compare_signed (hr : Canonical r) (hr' : Canonical r') (s t : Sign) :
    (signed s r).compare (signed t r') =
      some (compare (oriented s (amount r)) (oriented t (amount r'))) := by
  rcases eq_or_ne r.1 0 with h | h <;> rcases eq_or_ne r'.1 0 with h' | h'
  · rw [signed_of_eq_zero h, signed_of_eq_zero h', amount_eq_zero_iff.mpr h,
      amount_eq_zero_iff.mpr h', oriented_zero, oriented_zero, compare_eq_iff_eq.mpr rfl]
    rfl
  · have hpos := amount_pos h'
    rw [signed_of_eq_zero h, signed_of_ne_zero h', amount_eq_zero_iff.mpr h, oriented_zero]
    cases t with
    | negative =>
      rw [oriented, compare_gt_iff_gt.mpr (neg_lt_zero.mpr hpos)]
      rfl
    | positive =>
      rw [oriented, compare_lt_iff_lt.mpr hpos]
      rfl
  · have hpos := amount_pos h
    rw [signed_of_ne_zero h, signed_of_eq_zero h', amount_eq_zero_iff.mpr h', oriented_zero]
    cases s with
    | negative =>
      rw [oriented, compare_lt_iff_lt.mpr (neg_lt_zero.mpr hpos)]
      rfl
    | positive =>
      rw [oriented, compare_gt_iff_gt.mpr hpos]
      rfl
  · have hpos := amount_pos h
    have hpos' := amount_pos h'
    rw [signed_of_ne_zero h, signed_of_ne_zero h']
    cases s <;> cases t
    · rw [oriented, oriented, ← swap_compare_neg, ← compare_amount hr hr']
      rfl
    · rw [oriented, oriented, compare_lt_iff_lt.mpr ((neg_lt_zero.mpr hpos).trans hpos')]
      rfl
    · rw [oriented, oriented, compare_gt_iff_gt.mpr ((neg_lt_zero.mpr hpos').trans hpos)]
      rfl
    · rw [oriented, oriented, ← compare_amount hr hr']
      rfl

/-- Finite floats are compared as numbers. -/
theorem Is.compare (hx : Is x v) (hy : Is y w) :
    x.toModel.unpack.compare y.toModel.unpack = some (compare v w) := by
  obtain ⟨s, _, ⟨r, hr, -, hx, rfl⟩, rfl⟩ := hx
  obtain ⟨t, _, ⟨r', hr', -, hy, rfl⟩, rfl⟩ := hy
  rw [hx, hy, compare_signed hr hr']

theorem lt_iff_compare : x < y ↔ x.toModel.unpack.compare y.toModel.unpack = some .lt := by
  change decide (x.toModel.unpack.lt y.toModel.unpack = true) = true ↔ _
  rw [decide_eq_true_iff, UnpackedFloat.lt, beq_iff_eq]

theorem le_iff_compare :
    x ≤ y ↔ ∃ o, x.toModel.unpack.compare y.toModel.unpack = some o ∧ o.isLE = true := by
  change decide (x.toModel.unpack.le y.toModel.unpack = true) = true ↔ _
  rw [decide_eq_true_iff, UnpackedFloat.le, Option.any_eq_true]

/-- One finite float is less than another if its number is. -/
theorem Is.lt_iff (hx : Is x v) (hy : Is y w) : x < y ↔ v < w := by
  rw [lt_iff_compare, hx.compare hy, Option.some.injEq, compare_lt_iff_lt]

theorem Is.le_iff (hx : Is x v) (hy : Is y w) : x ≤ y ↔ v ≤ w := by
  rw [le_iff_compare, hx.compare hy, ← compare_le_iff_le]
  cases Ord.compare v w <;> simp

/-- A float is not two numbers. -/
theorem Is.unique (h : Is x v) (h' : Is x w) : v = w := by
  have hle : x ≤ x := (h.le_iff h).mpr le_rfl
  exact le_antisymm ((h.le_iff h').mp hle) ((h'.le_iff h).mp hle)

/-- Two finite floats are in order one way or the other. -/
theorem le_of_not_lt (hx : x.isFinite = true) (hy : y.isFinite = true) (h : ¬ y < x) : x ≤ y := by
  obtain ⟨v, hv⟩ := exists_is hx
  obtain ⟨w, hw⟩ := exists_is hy
  rw [hw.lt_iff hv, not_lt] at h
  exact (hv.le_iff hw).mpr h

end Is

/-! ## Results -/

section Closest

variable {x y : Float} {s t : Sign} {a v w : ℚ} {r r' : ℕ × ℤ}

/-- The sign of a number other than zero. -/
def signOf (v : ℚ) : Sign := if v < 0 then .negative else .positive

/-- The float that a number other than zero is rounded to. -/
def closest (v : ℚ) : Float := .ofModel (.pack (signed (signOf v) (rounded |v|)))

theorem signOf_oriented (ha : 0 < a) (s : Sign) : signOf (oriented s a) = s := by
  cases s with
  | negative => exact if_pos (neg_lt_zero.mpr ha)
  | positive => exact if_neg (not_lt.mpr ha.le)

theorem abs_oriented (ha : 0 ≤ a) (s : Sign) : |oriented s a| = a := by
  cases s with
  | negative => exact (abs_neg a).trans (abs_of_nonneg ha)
  | positive => exact abs_of_nonneg ha

theorem closest_oriented (ha : 0 < a) (s : Sign) :
    closest (oriented s a) = .ofModel (.pack (signed s (rounded a))) := by
  rw [closest, signOf_oriented ha, abs_oriented ha.le]

theorem oriented_eq_zero_iff : oriented s a = 0 ↔ a = 0 := by
  cases s with
  | negative => exact neg_eq_zero
  | positive => exact Iff.rfl

theorem oriented_ne_zero_iff : oriented s a ≠ 0 ↔ a ≠ 0 := not_congr oriented_eq_zero_iff

/-- A float is the one that its number is rounded to. -/
theorem rounded_amount (hr : Canonical r) (h : r.1 ≠ 0) : rounded (amount r) = r := by
  have hreach : 0 < reachBelow r := by
    rw [reachBelow]
    split <;> norm_num
  refine rounded_eq hr (amount_pos h) ⟨?_, ?_, .inr ⟨?_, ?_⟩⟩ <;> rw [amount_div_zpow] <;> linarith

/-- An integer and a power of two are rounded to a float. -/
theorem normalize_eq {m : ℤ} (hm : m ≠ 0) (e : ℤ) (zero : Sign) :
    normalize Format.binary64 m e zero = signed (signOf (m * 2 ^ e)) (rounded |(m : ℚ) * 2 ^ e|) := by
  have hpos : (0 : ℚ) < 2 ^ e := zpow_pos two_pos e
  rw [UnpackedFloat.normalize]
  rcases lt_trichotomy m 0 with h | h | h
  · have hneg : (m : ℚ) * 2 ^ e < 0 := mul_neg_of_neg_of_pos (by exact_mod_cast h) hpos
    have hnat : ((-m).toNat : ℚ) = -m := by
      have hcast : ((-m).toNat : ℤ) = -m := Int.toNat_of_nonneg (by omega)
      exact_mod_cast hcast
    rw [compare_lt_iff_lt.mpr h, signOf, if_pos hneg, abs_of_neg hneg]
    dsimp only
    rw [round_eq (r := ((-m).toNat, e)) (by simp only; omega), amount, hnat, neg_mul]
  · exact absurd h hm
  · have hnonneg : 0 < (m : ℚ) * 2 ^ e := mul_pos (by exact_mod_cast h) hpos
    have hnat : (m.toNat : ℚ) = m := by
      have hcast : (m.toNat : ℤ) = m := Int.toNat_of_nonneg h.le
      exact_mod_cast hcast
    rw [compare_gt_iff_gt.mpr h, signOf, if_neg (not_lt.mpr hnonneg.le), abs_of_pos hnonneg]
    dsimp only
    rw [round_eq (r := (m.toNat, e)) (by simp only; omega), amount, hnat]

/-- A significand that is made longer stands for the same number. -/
theorem apply_decreaseExponent (s : Sign) (r : ℕ × ℤ) {e : ℤ} (he : e ≤ r.2) :
    ((s.apply (decreaseExponent r.1 r.2 e).1 : ℤ) : ℚ) * 2 ^ e = oriented s (amount r) := by
  obtain ⟨k, hk⟩ := Int.eq_ofNat_of_zero_le (sub_nonneg.mpr he)
  have hlong : (((decreaseExponent r.1 r.2 e).1 : ℕ) : ℚ) * 2 ^ e = amount r := by
    rw [decreaseExponent, hk, Int.toNat_natCast, Nat.shiftLeft_eq, amount,
      show r.2 = k + e by omega, zpow_add₀ two_ne_zero, zpow_natCast]
    push_cast
    ring
  rw [← hlong]
  cases s with
  | negative =>
    rw [Sign.apply, oriented]
    push_cast
    ring
  | positive => rfl

/-- A float is the one that its number, with its sign, is rounded to. -/
theorem signed_rounded_oriented (hr : Canonical r) (h : r.1 ≠ 0) (s : Sign) :
    signed (signOf (oriented s (amount r))) (rounded |oriented s (amount r)|) = signed s r := by
  have hpos := amount_pos h
  rw [signOf_oriented hpos, abs_oriented hpos.le, rounded_amount hr h]

/-- The sum of two floats that are not zero is an integer and a power of two, which are rounded. -/
theorem exists_add_eq_normalize (h : r.1 ≠ 0) (h' : r'.1 ≠ 0) (s t : Sign) :
    ∃ (m : ℤ) (e : ℤ), (m : ℚ) * 2 ^ e = oriented s (amount r) + oriented t (amount r') ∧
      UnpackedFloat.add Format.binary64 (signed s r) (signed t r') =
        normalize Format.binary64 m e .positive := by
  set e := min r.2 r'.2
  refine ⟨s.apply (decreaseExponent r.1 r.2 e).1 + t.apply (decreaseExponent r'.1 r'.2 e).1, e, ?_, ?_⟩
  · rw [Int.cast_add, add_mul, apply_decreaseExponent s r (min_le_left _ _),
      apply_decreaseExponent t r' (min_le_right _ _)]
  · rw [signed_of_ne_zero h, signed_of_ne_zero h']
    rfl

/-- Finite floats are added as numbers, and the sum is rounded. -/
theorem add_signed (hr : Canonical r) (hr' : Canonical r') (s t : Sign) :
    let v := oriented s (amount r) + oriented t (amount r')
    (v ≠ 0 → UnpackedFloat.add Format.binary64 (signed s r) (signed t r') =
      signed (signOf v) (rounded |v|)) ∧
    (v = 0 → ∃ u, UnpackedFloat.add Format.binary64 (signed s r) (signed t r') = .zero u) := by
  intro v
  have hv : v = oriented s (amount r) + oriented t (amount r') := rfl
  rcases eq_or_ne r.1 0 with h | h <;> rcases eq_or_ne r'.1 0 with h' | h'
  · rw [amount_eq_zero_iff.mpr h, amount_eq_zero_iff.mpr h', oriented_zero, oriented_zero,
      add_zero] at hv
    refine ⟨fun hne ↦ absurd hv hne, fun _ ↦ ?_⟩
    rw [signed_of_eq_zero h, signed_of_eq_zero h']
    cases s <;> cases t <;> exact ⟨_, rfl⟩
  · rw [amount_eq_zero_iff.mpr h, oriented_zero, zero_add] at hv
    rw [hv, signed_rounded_oriented hr' h', signed_of_eq_zero h, signed_of_ne_zero h']
    exact ⟨fun _ ↦ rfl, fun hzero ↦ absurd hzero (oriented_ne_zero_iff.mpr (amount_pos h').ne')⟩
  · rw [amount_eq_zero_iff.mpr h', oriented_zero, add_zero] at hv
    rw [hv, signed_rounded_oriented hr h, signed_of_eq_zero h', signed_of_ne_zero h]
    exact ⟨fun _ ↦ rfl, fun hzero ↦ absurd hzero (oriented_ne_zero_iff.mpr (amount_pos h).ne')⟩
  · obtain ⟨m, e, hm, hsum⟩ := exists_add_eq_normalize h h' s t
    rw [← hv] at hm
    rw [hsum]
    constructor
    · intro hne
      have hm0 : m ≠ 0 := by
        rintro rfl
        rw [Int.cast_zero, zero_mul] at hm
        exact hne hm.symm
      rw [normalize_eq hm0, hm]
    · intro hzero
      rw [hzero, mul_eq_zero, Int.cast_eq_zero] at hm
      exact ⟨.positive, by rw [hm.resolve_right (zpow_pos two_pos e).ne']; rfl⟩

/-- A difference is a sum. -/
theorem unpacked_sub_eq (x y : UnpackedFloat) :
    UnpackedFloat.sub Format.binary64 x y = UnpackedFloat.add Format.binary64 x y.neg := by
  have apply_neg : ∀ (u : Sign) (n : ℤ), (-u).apply n = -u.apply n := by
    intro u n
    cases u
    · exact (neg_neg n).symm
    · rfl
  cases x <;> cases y <;> try rfl
  simp only [UnpackedFloat.sub, UnpackedFloat.add, UnpackedFloat.neg, apply_neg,
    Int.sub_eq_add_neg]

theorem neg_signed (s : Sign) (r : ℕ × ℤ) : (signed s r).neg = signed (-s) r := by
  rw [signed, signed]
  split <;> rfl

theorem oriented_neg (s : Sign) (a : ℚ) : oriented (-s) a = -oriented s a := by
  cases s with
  | negative => exact (neg_neg a).symm
  | positive => rfl

theorem is_pack_zero (s : Sign) : Is (.ofModel (.pack (.zero s))) 0 :=
  ⟨s, 0, exactly_zero s, oriented_zero s⟩

theorem is_zero : Is 0 0 := by
  rw [zero_eq]
  exact is_pack_zero .positive

/-- The sum of finite floats is rounded from the exact sum. -/
theorem Is.add (hx : Is x v) (hy : Is y w) (h : v + w ≠ 0) : x + y = closest (v + w) := by
  obtain ⟨s, _, ⟨r, hr, -, hx, rfl⟩, rfl⟩ := hx
  obtain ⟨t, _, ⟨r', hr', -, hy, rfl⟩, rfl⟩ := hy
  change Float.ofModel (.pack (UnpackedFloat.add _ x.toModel.unpack y.toModel.unpack)) = _
  rw [hx, hy, (add_signed hr hr' s t).1 h, closest]

theorem Is.add_of_eq_zero (hx : Is x v) (hy : Is y w) (h : v + w = 0) : Is (x + y) 0 := by
  obtain ⟨s, _, ⟨r, hr, -, hx, rfl⟩, rfl⟩ := hx
  obtain ⟨t, _, ⟨r', hr', -, hy, rfl⟩, rfl⟩ := hy
  obtain ⟨u, hu⟩ := (add_signed hr hr' s t).2 h
  change Is (.ofModel (.pack (UnpackedFloat.add _ x.toModel.unpack y.toModel.unpack))) 0
  rw [hx, hy, hu]
  exact is_pack_zero u

/-- The difference of finite floats is rounded from the exact difference. -/
theorem Is.sub (hx : Is x v) (hy : Is y w) (h : v - w ≠ 0) : x - y = closest (v - w) := by
  obtain ⟨s, _, ⟨r, hr, -, hx, rfl⟩, rfl⟩ := hx
  obtain ⟨t, _, ⟨r', hr', -, hy, rfl⟩, rfl⟩ := hy
  change Float.ofModel (.pack (UnpackedFloat.sub _ x.toModel.unpack y.toModel.unpack)) = _
  rw [sub_eq_add_neg, ← oriented_neg] at h ⊢
  rw [unpacked_sub_eq, hx, hy, neg_signed, (add_signed hr hr' s (-t)).1 h, closest]

theorem Is.sub_of_eq_zero (hx : Is x v) (hy : Is y w) (h : v - w = 0) : Is (x - y) 0 := by
  obtain ⟨s, _, ⟨r, hr, -, hx, rfl⟩, rfl⟩ := hx
  obtain ⟨t, _, ⟨r', hr', -, hy, rfl⟩, rfl⟩ := hy
  rw [sub_eq_add_neg, ← oriented_neg] at h
  obtain ⟨u, hu⟩ := (add_signed hr hr' s (-t)).2 h
  change Is (.ofModel (.pack (UnpackedFloat.sub _ x.toModel.unpack y.toModel.unpack))) 0
  rw [unpacked_sub_eq, hx, hy, neg_signed, hu]
  exact is_pack_zero u

theorem oriented_mul (s t : Sign) (a b : ℚ) :
    oriented (s * t) (a * b) = oriented s a * oriented t b := by
  cases s <;> cases t
  · exact (neg_mul_neg a b).symm
  · exact (neg_mul a b).symm
  · exact (mul_neg a b).symm
  · rfl

theorem oriented_div (s t : Sign) (a b : ℚ) :
    oriented (s / t) (a / b) = oriented s a / oriented t b := by
  cases s <;> cases t
  · exact (neg_div_neg_eq a b).symm
  · exact (neg_div b a).symm
  · exact (div_neg a).symm
  · rfl

/-- The product of finite floats is rounded from the exact product. -/
theorem Is.mul (hx : Is x v) (hy : Is y w) (h : v * w ≠ 0) : x * y = closest (v * w) := by
  obtain ⟨s, a, hx, rfl⟩ := hx
  obtain ⟨t, b, hy, rfl⟩ := hy
  have ha := lt_of_le_of_ne hx.nonneg (oriented_ne_zero_iff.mp (left_ne_zero_of_mul h)).symm
  have hb := lt_of_le_of_ne hy.nonneg (oriented_ne_zero_iff.mp (right_ne_zero_of_mul h)).symm
  rw [hx.mul hy ha hb, ← oriented_mul, closest_oriented (mul_pos ha hb)]

theorem Is.mul_of_eq_zero (hx : Is x v) (hy : Is y w) (h : v * w = 0) : Is (x * y) 0 := by
  obtain ⟨s, _, ⟨r, -, -, hx, rfl⟩, rfl⟩ := hx
  obtain ⟨t, _, ⟨r', -, -, hy, rfl⟩, rfl⟩ := hy
  change Is (.ofModel (.pack (UnpackedFloat.mul _ x.toModel.unpack y.toModel.unpack))) 0
  rw [mul_eq_zero, oriented_eq_zero_iff, oriented_eq_zero_iff, amount_eq_zero_iff,
    amount_eq_zero_iff] at h
  rw [hx, hy]
  rcases h with h | h
  · rw [signed_of_eq_zero h, signed]
    split <;> exact is_pack_zero (s * t)
  · rw [signed_of_eq_zero h, signed]
    split <;> exact is_pack_zero (s * t)

/-- The quotient of finite floats is rounded from the exact quotient. -/
theorem Is.div (hx : Is x v) (hy : Is y w) (h : v / w ≠ 0) : x / y = closest (v / w) := by
  obtain ⟨s, a, hx, rfl⟩ := hx
  obtain ⟨t, b, hy, rfl⟩ := hy
  obtain ⟨hv, hw⟩ := div_ne_zero_iff.mp h
  have ha := lt_of_le_of_ne hx.nonneg (oriented_ne_zero_iff.mp hv).symm
  have hb := lt_of_le_of_ne hy.nonneg (oriented_ne_zero_iff.mp hw).symm
  rw [hx.div hy ha hb, ← oriented_div, closest_oriented (div_pos ha hb)]

theorem Is.zero_div (hx : Is x 0) (hy : Is y w) (h : w ≠ 0) : Is (x / y) 0 := by
  obtain ⟨s, a, hx, ha⟩ := hx
  obtain ⟨t, b, hy, rfl⟩ := hy
  have hb := lt_of_le_of_ne hy.nonneg (oriented_ne_zero_iff.mp h).symm
  obtain rfl := oriented_eq_zero_iff.mp ha
  rw [hx.zero_div hy hb]
  exact is_pack_zero _

end Closest

/-! ## Limits -/

section Limits

variable {x y : Float} {s : Sign} {a v w : ℚ} {r : ℕ × ℤ}

/-- The greatest float. -/
def largest : ℚ := amount (2 ^ 53 - 1, 971)

/-- The greatest float is far below the limit. -/
theorem largest_add_two_lt : largest + 2 < overflow := by
  have hunit : (2 : ℚ) ^ (3 : ℤ) ≤ 2 ^ (971 : ℤ) := zpow_le_zpow_right₀ one_le_two (by norm_num)
  rw [largest, overflow, amount]
  generalize (2 : ℚ) ^ (971 : ℤ) = unit at *
  norm_num at *
  linarith

/-- A finite float is not beyond the greatest. -/
theorem Exactly.le_largest (h : Exactly x s a) : a ≤ largest := by
  obtain ⟨r, hr, he, -, rfl⟩ := h
  rw [largest, amount, amount]
  have hm : r.1 ≤ 2 ^ 53 - 1 := Nat.le_sub_one_of_lt hr.lt
  exact mul_le_mul (by exact_mod_cast hm) (zpow_le_zpow_right₀ one_le_two he)
    (zpow_pos two_pos _).le (Nat.cast_nonneg _)

theorem Is.abs_le_largest (h : Is x v) : |v| ≤ largest := by
  obtain ⟨s, a, hx, rfl⟩ := h
  rw [abs_oriented hx.nonneg]
  exact hx.le_largest

/-- A number that is not too great is rounded to a finite float with its sign. -/
theorem is_closest (hv : v ≠ 0) (h : |v| < overflow) :
    Is (closest v) (oriented (signOf v) (amount (rounded |v|))) :=
  (exactly_rounded (abs_pos.mpr hv) h _).is

/-- A sum that is not too great is finite. -/
theorem Is.isFinite_add (hx : Is x v) (hy : Is y w) (h : |v + w| < overflow) :
    (x + y).isFinite = true := by
  rcases eq_or_ne (v + w) 0 with h0 | h0
  · exact (hx.add_of_eq_zero hy h0).isFinite
  · rw [hx.add hy h0]
    exact (is_closest h0 h).isFinite

theorem Is.isFinite_sub (hx : Is x v) (hy : Is y w) (h : |v - w| < overflow) :
    (x - y).isFinite = true := by
  rcases eq_or_ne (v - w) 0 with h0 | h0
  · exact (hx.sub_of_eq_zero hy h0).isFinite
  · rw [hx.sub hy h0]
    exact (is_closest h0 h).isFinite

/-- A quotient that is not too great is finite. -/
theorem Is.isFinite_div (hx : Is x v) (hy : Is y w) (hw : w ≠ 0) (h : |v / w| < overflow) :
    (x / y).isFinite = true := by
  rcases eq_or_ne v 0 with rfl | hv
  · exact (hx.zero_div hy hw).isFinite
  · have h0 := div_ne_zero hv hw
    rw [hx.div hy h0]
    exact (is_closest h0 h).isFinite

end Limits

end FormulaQuiz.Rounding
