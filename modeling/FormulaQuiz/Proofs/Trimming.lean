import FormulaQuiz.Proofs.Repetition
import FormulaQuiz.Proofs.Written
import Mathlib.Data.List.DropRight

/-!
# Trimmed numbers

A value is written without trailing zeros: its text with all places loses the zeros at its end and then
the point, which leaves the number as it is.  A value that is an integer up to `2 ^ -52` takes a way of
its own.  The only values that are so close to an integer without being one are faint: close to zero.
Of them nothing is left but a zero, and perhaps a sign.
-/

namespace FormulaQuiz

namespace Decimal

/-! ## Texts -/

section DropTrailing

variable {c : Char} {cs : List Char}

theorem dropTrailing_append_replicate (c : Char) (cs : List Char) (k : ℕ) :
    dropTrailing c (cs ++ List.replicate k c) = dropTrailing c cs := by
  induction k with
  | zero => rw [List.replicate_zero, List.append_nil]
  | succ k ih =>
    rw [List.replicate_succ', ← List.append_assoc]
    exact (List.rdropWhile_concat_pos (· == c) _ _ (beq_self_eq_true c)).trans ih

theorem dropTrailing_eq_self (h : ∀ d ∈ cs.getLast?, d ≠ c) : dropTrailing c cs = cs := by
  refine List.rdropWhile_eq_self_iff.mpr fun hne hlast ↦ ?_
  exact h _ (List.getLast?_eq_some_getLast hne) (beq_iff_eq.mp hlast)

theorem ne_of_mem_getLast?_dropTrailing {d : Char} (h : d ∈ (dropTrailing c cs).getLast?) :
    d ≠ c := by
  rintro rfl
  have hne : dropTrailing d cs ≠ [] := by
    intro hnil
    rw [hnil] at h
    exact nomatch h
  have hlast := List.rdropWhile_last_not (· == d) cs hne
  rw [Option.mem_def, List.getLast?_eq_some_getLast hne, Option.some_inj] at h
  exact hlast (beq_iff_eq.mpr h)

end DropTrailing

/-- What is left of a text when the zeros at the end of its fraction are dropped, and then a point at
the end. -/
def trimFraction (cs : List Char) : List Char :=
  if '.' ∈ cs then dropTrailing '.' (dropTrailing '0' cs) else cs

namespace Written

/-- A number without the zeros at the end of its fraction. -/
def trimmed (d : Written) : Written where
  negative := d.negative
  whole := d.whole
  fraction := dropTrailing '0' d.fraction
  isDigit c hc := by
    obtain ⟨k, hk⟩ := exists_dropTrailing_append '0' d.fraction
    refine d.isDigit c ?_
    rw [hk, ← List.append_assoc]
    exact List.mem_append_left _ hc
  whole_ne_nil := d.whole_ne_nil
  leading := d.leading
  sign hnegative := by
    obtain ⟨k, hk⟩ := exists_dropTrailing_append '0' d.fraction
    obtain ⟨c, hc, hne⟩ := d.sign hnegative
    rw [hk, ← List.append_assoc, List.mem_append] at hc
    exact ⟨c, hc.resolve_right fun hzero ↦ hne (List.eq_of_mem_replicate hzero), hne⟩

section Trimmed

variable (d : Written)

/-- Trimming leaves the number as it is. -/
theorem amount_trimmed : d.trimmed.amount = d.amount := by
  obtain ⟨k, hk⟩ := exists_dropTrailing_append '0' d.fraction
  have hunits : d.units = 10 ^ k * d.trimmed.units := by
    rw [units, hk, ← List.append_assoc, value_append, List.length_replicate]
    exact congrArg (_ + ·) (value_zeros k)
  have hlength : d.fraction.length = d.trimmed.fraction.length + k := by
    conv_lhs => rw [hk]
    rw [List.length_append, List.length_replicate]
    rfl
  rw [amount, amount, hunits, hlength]
  change (if d.negative = true then -1 else 1) * _ = _
  have hten : (10 : ℚ) ^ k ≠ 0 := by positivity
  push_cast
  rw [pow_add, mul_comm ((10 : ℚ) ^ k), mul_div_mul_right _ _ hten]

theorem point_mem_chars_iff : '.' ∈ d.chars ↔ d.fraction ≠ [] := by
  have hdigit : ∀ cs : List Char, (∀ c ∈ cs, Decimal.isDigit c = true) → '.' ∉ cs :=
    fun cs hcs hmem ↦ ne_point_of_isDigit (hcs _ hmem) rfl
  have hwhole := hdigit d.whole fun _ ↦ d.isDigit_of_mem_whole
  have hsign : '.' ∉ (if d.negative = true then ['-'] else []) := by split <;> decide
  rw [chars, List.mem_append, List.mem_append, or_iff_right (not_or.mpr ⟨hsign, hwhole⟩), tail]
  split
  next hnil => simp [hnil]
  next hne => simp [hne]

/-- The text that is trimmed is the text of the trimmed number. -/
theorem trimFraction_chars : trimFraction d.chars = d.trimmed.chars := by
  by_cases hnil : d.fraction = []
  · have htail : d.tail = [] := if_pos hnil
    have htrimmed : d.trimmed.tail = [] := if_pos (by change dropTrailing '0' _ = _; rw [hnil]; rfl)
    rw [trimFraction, if_neg (mt d.point_mem_chars_iff.mp (not_not.mpr hnil)), chars, chars, htail,
      htrimmed]
    rfl
  obtain ⟨k, hk⟩ := exists_dropTrailing_append '0' d.fraction
  set front := (if d.negative = true then ['-'] else []) ++ d.whole with hfront
  have hchars : d.chars = front ++ '.' :: dropTrailing '0' d.fraction ++ List.replicate k '0' := by
    rw [chars, tail, if_neg hnil, hfront, List.append_assoc _ (_ :: _), List.cons_append, ← hk]
  have hlast : ∀ c ∈ front.getLast?, c ≠ '.' := by
    intro c hc
    rw [hfront, List.getLast?_append_of_ne_nil _ d.whole_ne_nil] at hc
    exact ne_point_of_isDigit (d.isDigit_of_mem_whole (List.mem_of_mem_getLast? hc))
  have htrimmed : d.trimmed.chars =
      front ++ if dropTrailing '0' d.fraction = [] then [] else '.' :: dropTrailing '0' d.fraction := by
    rfl
  rw [trimFraction, if_pos (d.point_mem_chars_iff.mpr hnil), hchars, dropTrailing_append_replicate,
    htrimmed]
  by_cases hzeros : dropTrailing '0' d.fraction = []
  · have hpoint : dropTrailing '0' (front ++ ['.']) = front ++ ['.'] := dropTrailing_eq_self fun c hc ↦ by
      rw [List.getLast?_concat, Option.mem_some_iff] at hc
      exact hc ▸ by decide
    rw [hzeros, hpoint, if_pos rfl, List.append_nil]
    exact (dropTrailing_append_replicate '.' front 1).trans (dropTrailing_eq_self hlast)
  · have hend : ∀ c ∈ (front ++ '.' :: dropTrailing '0' d.fraction).getLast?, c ≠ '0' ∧ c ≠ '.' := by
      intro c hc
      rw [List.append_cons, List.getLast?_append_of_ne_nil _ hzeros] at hc
      exact ⟨ne_of_mem_getLast?_dropTrailing hc, ne_point_of_isDigit
        (d.trimmed.isDigit_of_mem_fraction (List.mem_of_mem_getLast? hc))⟩
    rw [if_neg hzeros, dropTrailing_eq_self fun c hc ↦ (hend c hc).1,
      dropTrailing_eq_self fun c hc ↦ (hend c hc).2]

/-- No number is written as a negative zero. -/
theorem chars_ne_negative_zero : d.chars ≠ ['-', '0'] := by
  intro h
  have hsplit := d.splitSign_chars
  rw [h, show splitSign ['-', '0'] = (['-'], ['0']) from rfl, Prod.mk.injEq] at hsplit
  obtain ⟨hsign, hbody⟩ := hsplit
  have hnegative : d.negative = true := by
    by_contra hpositive
    rw [if_neg hpositive] at hsign
    exact List.cons_ne_nil _ _ hsign
  obtain ⟨c, cs, hwhole⟩ := List.exists_cons_of_ne_nil d.whole_ne_nil
  rw [hwhole, List.cons_append, List.cons.injEq, eq_comm (a := []), List.append_eq_nil_iff] at hbody
  obtain ⟨rfl, rfl, htail⟩ := hbody
  have hfraction : d.fraction = [] := by
    by_contra hne
    rw [tail, if_neg hne] at htail
    exact List.cons_ne_nil _ _ htail
  obtain ⟨c, hc, hne⟩ := d.sign hnegative
  rw [hwhole, hfraction] at hc
  exact hne (List.mem_singleton.mp hc)

end Trimmed

end Written

end Decimal

open Float.Model UnpackedFloat
open Decimal Rounding

namespace Rounding

/-! ## Fractions -/

section Fraction

variable {x : Float} {s : Sign} {a v : ℚ}

/-- The integer part of a float is a float. -/
theorem Exactly.toIntegral_inward (h : Exactly x s a) :
    Exactly (toIntegral .inward x) s ⌊a⌋₊ := by
  obtain ⟨d, -, rfl, hn⟩ := h.exists_toIntegral .inward
  have hfloor : ⌊(d.numerator : ℚ) / d.denominator⌋₊ = d.integralMagnitude .inward :=
    Nat.floor_div_eq_div _ _
  rw [hfloor]
  exact hn

theorem near_oriented (s : Sign) (a : ℚ) : near (oriented s a) = oriented s (near a) := by
  cases s with
  | positive => rfl
  | negative => exact near_neg a

theorem oriented_sub (s : Sign) (a b : ℚ) : oriented s a - oriented s b = oriented s (a - b) := by
  cases s with
  | positive => rfl
  | negative => exact (neg_sub_neg a b).trans (neg_sub a b).symm

/-- What is left of a float after its integer part. -/
theorem Exactly.fraction (h : Exactly x s a) :
    Is (fraction x) (oriented s (near (a - ⌊a⌋₊))) := by
  have hle := Nat.floor_le h.nonneg
  have hfloor : (0 : ℚ) ≤ ⌊a⌋₊ := Nat.cast_nonneg _
  have hinteger := h.toIntegral_inward
  rw [← near_oriented, ← oriented_sub]
  refine h.is.sub_near hinteger.is (h.is.isFinite_sub hinteger.is ?_)
  rw [oriented_sub, abs_oriented (sub_nonneg.mpr hle)]
  linarith [h.le_largest, largest_add_two_lt]

/-- The absolute value of a float has no sign. -/
theorem Is.abs (h : Is x v) : Is x.abs |v| := by
  obtain ⟨s, _, ⟨r, hr, he, hx, rfl⟩, rfl⟩ := h
  have habs : x.abs = .ofModel (.pack (signed .positive r)) := by
    change Float.ofModel (.pack x.toModel.unpack.abs) = _
    rw [hx, signed, signed]
    split <;> rfl
  rw [habs, abs_oriented (amount_nonneg r)]
  exact (Exactly.is_of_positive ⟨r, hr, he, unpack_pack_signed hr he, rfl⟩)

theorem is_floatEpsilon : Is floatEpsilon (1 / 2 ^ 52) := by
  have hvalue : Is floatEpsilon ((4503599627370496 : ℕ) / 2 ^ 104) :=
    is_of_ofFloat? (k := 104) (by rfl)
  have heq : ((4503599627370496 : ℕ) / 2 ^ 104 : ℚ) = 1 / 2 ^ 52 := by norm_num
  rwa [heq] at hvalue

/-- The value of a float from one upward is an integer, or off the integer below it by `2 ^ -52`. -/
theorem Exactly.le_sub_floor (h : Exactly x s a) (hone : 1 ≤ a) (hne : a ≠ ⌊a⌋₊) :
    1 / 2 ^ 52 ≤ a - ⌊a⌋₊ := by
  have hlt : (⌊a⌋₊ : ℚ) < a := lt_of_le_of_ne (Nat.floor_le h.nonneg) (Ne.symm hne)
  obtain ⟨k, hk⟩ := h.exists_mul_zpow (-52) (by norm_num; exact hone)
  obtain ⟨unit, hunit⟩ : ∃ unit : ℕ, (unit : ℚ) = 2 ^ 52 := ⟨2 ^ 52, by norm_num⟩
  have hscaled : a * unit = k := by
    rw [hk, hunit, mul_assoc, ← zpow_natCast, ← zpow_add₀ two_ne_zero]
    exact mul_one _
  have hunits : ⌊a⌋₊ * unit + 1 ≤ k := by
    rw [Nat.succ_le_iff, ← Nat.cast_lt (α := ℚ), ← hscaled, Nat.cast_mul]
    exact mul_lt_mul_of_pos_right hlt (by rw [hunit]; positivity)
  rw [div_le_iff₀ (by norm_num), ← hunit, sub_mul, hscaled]
  have hcast : ((⌊a⌋₊ * unit + 1 : ℕ) : ℚ) ≤ k := Nat.cast_le.mpr hunits
  push_cast at hcast
  linarith

/-- A float that is an integer up to `2 ^ -52` is one, or is close to zero. -/
theorem Exactly.abs_fraction_lt_iff (h : Exactly x s a) :
    (FormulaQuiz.fraction x).abs < floatEpsilon ↔ (∃ n : ℕ, a = n) ∨ a < 1 / 2 ^ 52 := by
  have hself : near a = a := by
    have heq := near_oriented s a
    rw [h.is.near_eq] at heq
    cases s with
    | positive => exact heq.symm
    | negative => exact (neg_injective heq).symm
  rw [h.fraction.abs.lt_iff is_floatEpsilon,
    abs_oriented (near_nonneg (sub_nonneg.mpr (Nat.floor_le h.nonneg)))]
  rcases lt_or_ge a 1 with hsmall | hgreat
  · rw [Nat.floor_eq_zero.mpr hsmall, Nat.cast_zero, sub_zero, hself]
    refine ⟨.inr, fun hcase ↦ hcase.elim ?_ id⟩
    rintro ⟨n, rfl⟩
    rw [Nat.cast_lt_one.mp hsmall]
    norm_num
  · constructor
    · intro hlt
      refine .inl ⟨⌊a⌋₊, ?_⟩
      by_contra hne
      exact absurd (is_floatEpsilon.le_near (h.le_sub_floor hgreat hne)) (not_le.mpr hlt)
    · rintro (⟨n, rfl⟩ | hlt)
      · rw [Nat.floor_natCast, sub_self, near_zero]
        norm_num
      · norm_num at hlt
        linarith

end Fraction

end Rounding

/-! ## Values at a precision -/

/-- A value that is close to zero, but not zero: an integer up to `2 ^ -52`. -/
def Faint (x : Float) : Prop := ∃ s a, Exactly x s a ∧ a ≠ 0 ∧ a < 1 / 2 ^ 52

section AtPrecision

variable {x : Float} {places : UInt8} {s : Sign} {a : ℚ} {n : ℕ}

/-- A finite value at a precision has no sign if it is zero. -/
theorem exists_exactly_roundTo (hx : x.isFinite = true) (places : UInt8) :
    ∃ s a, Exactly (roundTo x places) s a ∧ (a = 0 → s = .positive) := by
  by_cases hscaled : (x * powerOfTen places).isFinite = true
  · obtain ⟨t, b, hb⟩ := exists_exactly hscaled
    obtain ⟨n, -, -, -, hn⟩ := exists_onGrid hb
    refine ⟨_, _, hn.exactly, fun hzero ↦ if_pos ?_⟩
    exact not_not.mp fun hne ↦ (gridAmount_pos places hne).ne' hzero
  · rw [roundTo_of_not_scaled (Bool.not_eq_true _ ▸ hscaled)]
    obtain ⟨s, a, ha⟩ := exists_exactly hx
    refine ⟨s, a, ha, ?_⟩
    rintro rfl
    refine absurd ?_ hscaled
    rw [ha.mul_zero (exactly_scale places)]
    exact (exactly_zero _).isFinite

theorem scale_eq_of_le (h : places.toNat ≤ 22) : scale places = (10 ^ places.toNat : ℕ) := by
  have hsub := abs_scale_sub_le places
  rw [slack, if_pos h, zero_mul] at hsub
  exact sub_eq_zero.mp (abs_nonpos_iff.mp hsub)

/-- An integer is scaled without error, or to what is an integer for its size. -/
theorem scaled_natCast (n : ℕ) (places : UInt8) :
    (∃ k : ℕ, n * scale places = k) ∨ 2 ^ 52 ≤ n * scale places := by
  by_cases hle : places.toNat ≤ 22
  · exact .inl ⟨n * 10 ^ places.toNat, by rw [scale_eq_of_le hle, Nat.cast_mul]⟩
  · rcases eq_or_ne n 0 with rfl | hne
    · exact .inl ⟨0, by rw [Nat.cast_zero, zero_mul]⟩
    · right
      have hn : (1 : ℚ) ≤ n := Nat.one_le_cast.mpr (Nat.pos_of_ne_zero hne)
      have hpower : ((10 ^ 23 : ℕ) : ℚ) ≤ (10 ^ places.toNat : ℕ) :=
        Nat.cast_le.mpr (Nat.pow_le_pow_right (by norm_num) (not_le.mp hle))
      calc (2 : ℚ) ^ 52 ≤ (10 ^ 23 : ℕ) / 2 := by norm_num
        _ ≤ (10 ^ places.toNat : ℕ) / 2 := div_le_div_of_nonneg_right hpower two_pos.le
        _ ≤ 1 * scale places := by rw [one_mul]; exact (half_lt_scale places).le
        _ ≤ n * scale places := mul_le_mul_of_nonneg_right hn (scale_pos places).le

/-- An integer does not drift. -/
theorem not_drifts_of_natCast (h : Exactly x s n) : ¬Drifts x places := by
  rintro ⟨t, m, hm, hmiddle⟩
  obtain ⟨-, hlt, -⟩ := hm.roundTo_of_middle hmiddle
  have hm52 : (m : ℚ) + 1 ≤ 2 ^ 52 := by
    have hcast : ((m + 1 : ℕ) : ℚ) ≤ (2 ^ 52 : ℕ) := Nat.cast_le.mpr hlt
    push_cast at hcast
    exact hcast
  have hfinite := hmiddle.isFinite
  rcases eq_or_ne n 0 with rfl | hne
  · have hzero := exactly_zero (s * .positive)
    rw [← Exactly.mul_zero (by exact_mod_cast h) (exactly_scale places)] at hzero
    have heq := hzero.amount_unique hmiddle
    linarith [(Nat.cast_nonneg m : (0 : ℚ) ≤ m)]
  have hpos : (0 : ℚ) < n := Nat.cast_pos.mpr (Nat.pos_of_ne_zero hne)
  have hproduct := mul_pos hpos (scale_pos places)
  have hscaled : Exactly (x * powerOfTen places) (s * .positive)
      (amount (rounded (n * scale places))) := by
    rw [h.mul (exactly_scale places) hpos (scale_pos places)] at hfinite ⊢
    exact exactly_ofModel_pack (canonical_rounded hproduct) hfinite
  have heq := hmiddle.amount_unique hscaled
  have hpower : amount (rounded ((2 ^ 52 : ℕ) : ℚ)) = (2 ^ 52 : ℕ) :=
    amount_rounded_natCast (by norm_num) (by norm_num)
  have hgreat : ¬2 ^ 52 ≤ n * scale places := by
    intro hge
    have hmono := amount_rounded_mono (a := ((2 ^ 52 : ℕ) : ℚ)) (by positivity) (by push_cast; exact hge)
    rw [hpower, ← heq] at hmono
    push_cast at hmono
    linarith
  obtain ⟨k, hk⟩ := (scaled_natCast n places).resolve_right hgreat
  rw [hk] at heq hgreat hproduct
  have hk52 : k < 2 ^ 52 := Nat.cast_lt.mp (by push_cast; exact not_le.mp hgreat : (k : ℚ) < (2 ^ 52 : ℕ))
  rw [amount_rounded_natCast (Nat.cast_pos.mp hproduct).ne' (by omega)] at heq
  have hodd : (2 * m + 1 : ℚ) = 2 * k := by linarith
  have : 2 * m + 1 = 2 * k := by exact_mod_cast hodd
  omega

/-- Without places, a value at a precision is an integer. -/
theorem exists_exactly_natCast (hx : x.isFinite = true) (h0 : places.toNat = 0) :
    ∃ s n, Exactly (roundTo x places) s (n : ℕ) := by
  have hscale : scale places = 1 := by
    rw [scale_eq_of_le (by omega), h0, pow_zero, Nat.cast_one]
  obtain ⟨v, hv⟩ := exists_is hx
  have hscaled : (x * powerOfTen places).isFinite = true := by
    refine (hv.isFinite_mul_iff (exactly_scale places).is_of_positive).mpr ?_
    rw [hscale, mul_one]
    linarith [hv.abs_le_largest, largest_add_two_lt]
  obtain ⟨t, b, hb⟩ := exists_exactly hscaled
  obtain ⟨n, -, -, ⟨y, hy⟩, hn⟩ := exists_onGrid hb
  have hgrid : gridAmount places n = n := by
    rcases eq_or_ne n 0 with rfl | hne
    · exact (if_pos rfl).trans Nat.cast_zero.symm
    · obtain ⟨r, hr, -, -, hamount⟩ := hy
      have hr0 : r.1 ≠ 0 := by
        intro h0
        rw [amount_eq_zero_iff.mpr h0] at hamount
        exact hne (by exact_mod_cast hamount.symm)
      rw [gridAmount, if_neg hne, hscale, div_one, ← hamount, rounded_amount hr hr0]
  exact ⟨_, n, hgrid ▸ hn.exactly⟩

/-- The text of an integer with all places is trimmed to the integer. -/
theorem trimmed_ofUnits_mul (s : Sign) (places n : ℕ) :
    (Written.ofUnits s places (n * 10 ^ places)).trimmed = Written.ofUnits s 0 n := by
  have hten : 0 < 10 ^ places := Nat.pow_pos (by decide)
  have hnegative : (n * 10 ^ places != 0) = (n != 0) := by
    rw [Bool.eq_iff_iff, bne_iff_ne, bne_iff_ne, Nat.mul_ne_zero_iff, and_iff_left hten.ne']
  have hwhole : digits (n * 10 ^ places / 10 ^ places) = digits (n / 10 ^ 0) := by
    rw [Nat.mul_div_cancel _ hten, pow_zero, Nat.div_one]
  have hfraction : dropTrailing '0' (Written.fractionDigits places (n * 10 ^ places)) =
      Written.fractionDigits 0 n := by
    have hvalue := congrArg value (Written.digits_append_fractionDigits places (n * 10 ^ places))
    rw [value_append, value_digits, value_paddedDigits, Written.length_fractionDigits,
      Nat.mul_div_cancel _ hten, Nat.mul_comm, Nat.add_eq_left] at hvalue
    have hzeros : ∀ c ∈ Written.fractionDigits places (n * 10 ^ places), c = '0' :=
      eq_zero_of_value_eq_zero (fun _ ↦
        (Written.ofUnits s places (n * 10 ^ places)).isDigit_of_mem_fraction) hvalue
    rw [List.eq_replicate_of_mem hzeros,
      List.eq_nil_of_length_eq_zero (Written.length_fractionDigits 0 n)]
    exact dropTrailing_append_replicate '0' [] _
  rw [Written.mk.injEq]
  exact ⟨congrArg (s == .negative && ·) hnegative, hwhole, hfraction⟩

/-- A value at a precision that is not faint is written as its text with all places, trimmed. -/
theorem formatTrimmed_of_not_faint (hx : x.isFinite = true) (h : ¬Faint (roundTo x places)) :
    (formatTrimmed x places).toList =
      trimFraction (formatFixed (roundTo x places) places).toList := by
  obtain ⟨s, a, ha, hsign⟩ := exists_exactly_roundTo hx places
  rw [formatTrimmed]
  dsimp only
  split
  next hwhole =>
    obtain ⟨n, rfl⟩ : ∃ n : ℕ, a = n := by
      refine (ha.abs_fraction_lt_iff.mp hwhole).elim id fun hsmall ↦ ⟨0, ?_⟩
      rw [Nat.cast_zero]
      exact not_not.mp fun hne ↦ h ⟨s, a, ha, hne, hsmall⟩
    have hkept := roundTo_roundTo_of_not_drifts (not_drifts_of_natCast ha)
    have htext : Exactly (roundTo (roundTo x places) places) s n := by rwa [hkept]
    have hunits : nearest ((n : ℚ) * 10 ^ places.toNat) = n * 10 ^ places.toNat := by
      rw [← nearest_natCast (n * 10 ^ places.toNat)]
      push_cast
      rfl
    rw [htext.formatFixed, Written.trimFraction_chars, hunits, trimmed_ofUnits_mul,
      String.toList_ofList, ha.fixedChars, pow_zero, mul_one, nearest_natCast, Written.chars_ofUnits]
    rcases eq_or_ne n 0 with rfl | hne
    · rw [hsign Nat.cast_zero]
      rfl
    · rw [bne_iff_ne.mpr hne, Bool.and_true]
  next hrest =>
    obtain ⟨t, b, hb⟩ := exists_exactly (isFinite_roundTo (isFinite_roundTo hx places) places)
    have hplaces : places.toNat ≠ 0 := by
      intro h0
      obtain ⟨t, n, hn⟩ := exists_exactly_natCast hx h0
      exact hrest (ha.abs_fraction_lt_iff.mpr (.inl ⟨n, ha.amount_unique hn⟩))
    have hpoint : '.' ∈ (formatFixed (roundTo x places) places).toList := by
      rw [hb.formatFixed, Written.point_mem_chars_iff]
      refine List.ne_nil_of_length_pos ?_
      exact (Written.length_fractionDigits _ _).symm ▸ Nat.pos_of_ne_zero hplaces
    rw [String.toList_ofList, trimFraction, if_pos hpoint]

/-! ## Faint values -/

/-- A faint value at a precision is a number of units, and this number is not zero. -/
theorem Faint.exists_onGrid (h : Faint (roundTo x places)) :
    ∃ s n, n ≠ 0 ∧ OnGrid (roundTo x places) places s n := by
  obtain ⟨s, a, ha, hne, hlt⟩ := h
  by_cases hscaled : (x * powerOfTen places).isFinite = true
  · obtain ⟨t, b, hb⟩ := exists_exactly hscaled
    obtain ⟨n, -, -, -, hn⟩ := FormulaQuiz.exists_onGrid hb
    refine ⟨_, n, ?_, hn⟩
    rintro rfl
    exact hne (ha.amount_unique hn.exactly)
  · -- what is too great to be scaled is not close to zero
    rw [roundTo_of_not_scaled (Bool.not_eq_true _ ▸ hscaled)] at ha
    refine absurd ((ha.is.isFinite_mul_iff (exactly_scale places).is_of_positive).mpr ?_) hscaled
    have hscale := scale_pos places
    have hlargest := (exactly_scale places).le_largest
    rw [abs_mul, abs_oriented ha.nonneg, abs_of_pos hscale]
    calc a * scale places ≤ 1 * scale places :=
          mul_le_mul_of_nonneg_right (hlt.le.trans (by norm_num)) hscale.le
      _ < overflow := by linarith [largest_add_two_lt]

/-- A number of units other than zero is not printed as zero. -/
theorem nearest_gridAmount_ne_zero (places : UInt8) (hne : n ≠ 0) :
    nearest (gridAmount places n * 10 ^ places.toNat) ≠ 0 := by
  have hten : (0 : ℚ) < (10 ^ places.toNat : ℕ) := ten_pow_pos _
  have hpos := gridAmount_pos places hne
  have hn : (1 : ℚ) ≤ n := Nat.one_le_cast.mpr (Nat.pos_of_ne_zero hne)
  have hgrid := (abs_le.mp (abs_gridAmount_mul_sub_le places n)).1
  have hscale : scale places ≤ (10 ^ places.toNat : ℕ) * (1 + 1 / 2 ^ 49) := by
    have hsub := (abs_le.mp (abs_scale_sub_le places)).2
    have hslack := mul_le_mul_of_nonneg_right (slack_le places) hten.le
    linarith
  have hunits : gridAmount places n * scale places ≤
      gridAmount places n * 10 ^ places.toNat * (1 + 1 / 2 ^ 49) := by
    have hmul := mul_le_mul_of_nonneg_left hscale hpos.le
    rwa [← mul_assoc, Nat.cast_pow, Nat.cast_ofNat] at hmul
  intro hzero
  have hclose := abs_nearest_sub_le (y := gridAmount places n * 10 ^ places.toNat) (by positivity)
  rw [hzero, Nat.cast_zero, zero_sub, abs_neg, abs_of_pos (by positivity)] at hclose
  linarith

/-- The text with all places of a faint value is not zero when it is trimmed. -/
theorem Faint.trimFraction_ne (h : Faint (roundTo x places)) :
    trimFraction (formatFixed (roundTo x places) places).toList ∉ [['0'], ['-', '0']] := by
  obtain ⟨t, m, hm, hgrid⟩ : ∃ t m, m ≠ 0 ∧ OnGrid (roundTo (roundTo x places) places) places t m := by
    by_cases hdrifts : Drifts (roundTo x places) places
    · obtain ⟨t, m, -, -, -, hsucc⟩ := hdrifts.exists_onGrid
      exact ⟨t, m + 1, m.succ_ne_zero, hsucc⟩
    · rw [roundTo_roundTo_of_not_drifts hdrifts]
      exact h.exists_onGrid
  have hunits := nearest_gridAmount_ne_zero places hm
  rw [hgrid.exactly.formatFixed, Written.trimFraction_chars, List.mem_cons, List.mem_singleton]
  rintro (hzero | hnegative)
  · have heq := Written.eq_of_chars_eq (e := Written.ofUnits .positive 0 0) (hzero.trans (by decide))
    have hamount := congrArg Written.amount heq
    rw [Written.amount_trimmed, Written.amount_ofUnits, Written.amount_ofUnits] at hamount
    have hamount0 := oriented_eq_zero_iff.mp (hamount.trans (by simp [oriented]))
    have hten : (10 : ℚ) ^ places.toNat ≠ 0 := by positivity
    exact hunits (Nat.cast_eq_zero.mp ((div_eq_zero_iff.mp hamount0).resolve_right hten))
  · exact Written.chars_ne_negative_zero _ hnegative

/-- A faint value is written as zero. -/
theorem Faint.formatTrimmed (h : Faint (roundTo x places)) :
    (formatTrimmed x places).toList ∈ [['0'], ['-', '0']] := by
  obtain ⟨s, a, ha, -, hlt⟩ := h
  have hnearest : nearest (a * 10 ^ 0) = 0 := by
    rw [pow_zero, mul_one]
    refine nearest_eq ha.nonneg (.inl ?_)
    rw [Nat.cast_zero, sub_zero, abs_of_nonneg ha.nonneg]
    exact hlt.trans (by norm_num)
  rw [FormulaQuiz.formatTrimmed]
  dsimp only
  rw [if_pos (ha.abs_fraction_lt_iff.mpr (.inr hlt)), String.toList_ofList, ha.fixedChars, hnearest]
  cases s <;> decide

/-- With at most fifteen places no value is faint. -/
theorem not_faint_of_le (hle : places.toNat ≤ 15) : ¬Faint (roundTo x places) := by
  intro h
  obtain ⟨t, n, hne, hn⟩ := h.exists_onGrid
  obtain ⟨s, a, ha, -, hlt⟩ := h
  have hone : (1 : ℚ) ≤ n := Nat.one_le_cast.mpr (Nat.pos_of_ne_zero hne)
  have hgrid := (abs_le.mp (abs_gridAmount_mul_sub_le places n)).1
  have hscale : scale places ≤ 10 ^ 15 := by
    rw [scale_eq_of_le (by omega)]
    exact_mod_cast Nat.pow_le_pow_right (by norm_num : 0 < 10) hle
  rw [← ha.amount_unique hn.exactly] at hgrid
  have hproduct : a * scale places ≤ 1 / 2 ^ 52 * 10 ^ 15 :=
    mul_le_mul hlt.le hscale (scale_pos places).le (by norm_num)
  norm_num at hproduct
  linarith

/-- A finite value is written as its text with all places, trimmed, just if it is not faint at the
precision.  The trimmed text denotes the same number and is no negative zero; a faint value is written
as a zero with its sign. -/
theorem formatTrimmed_eq_iff (hx : x.isFinite = true) (places : UInt8) :
    ((formatTrimmed x places).toList =
        trimFraction (formatFixed (roundTo x places) places).toList ↔ ¬Faint (roundTo x places)) ∧
    (¬Faint (roundTo x places) → ∃ d : Written,
      (formatFixed (roundTo x places) places).toList = d.chars ∧
      (formatTrimmed x places).toList = d.trimmed.chars ∧ d.trimmed.amount = d.amount ∧
      (formatTrimmed x places).toList ≠ ['-', '0']) ∧
    (Faint (roundTo x places) → (formatTrimmed x places).toList ∈ [['0'], ['-', '0']]) := by
  refine ⟨⟨fun heq h ↦ ?_, formatTrimmed_of_not_faint hx⟩, fun h ↦ ?_, Faint.formatTrimmed⟩
  · exact h.trimFraction_ne (heq ▸ h.formatTrimmed)
  · obtain ⟨s, a, ha⟩ := exists_exactly (isFinite_roundTo (isFinite_roundTo hx places) places)
    have htext := formatTrimmed_of_not_faint hx h
    rw [ha.formatFixed, Written.trimFraction_chars] at htext
    exact ⟨_, ha.formatFixed, htext, Written.amount_trimmed _,
      htext ▸ Written.chars_ne_negative_zero _⟩

/-- With three places `2 / 3` is written with three digits, none of which is trimmed. -/
theorem formatTrimmed_thirds : (2 / 3 : Float).isFinite = true ∧
    (formatTrimmed (2 / 3) 3).toList =
      trimFraction (formatFixed (roundTo (2 / 3) 3) 3).toList := by
  have hfinite : (2 / 3 : Float).isFinite = true := by rfl
  exact ⟨hfinite, (formatTrimmed_eq_iff hfinite 3).1.mpr (not_faint_of_le (by decide))⟩

/-- With twenty places `-1e-17` is written as a negative zero. -/
theorem formatTrimmed_negative_zero : ∃ (x : Float) (places : UInt8), x.isFinite = true ∧
    formatTrimmed x places = "-0" ∧
    trimFraction (formatFixed (roundTo x places) places).toList =
      "-0.00000000000000001".toList :=
  ⟨-1e-17, 20, by decide +kernel⟩

/-- A percentage is the trimmed text with six places. -/
theorem percentLabel_eq {deviation : Float} (h : (deviation * 100).isFinite = true) :
    (percentLabel deviation).toList =
      trimFraction (formatFixed (roundTo (deviation * 100) 6) 6).toList ++ ['%'] := by
  rw [percentLabel, String.toList_append, formatTrimmed_of_not_faint h (not_faint_of_le (by decide))]
  rfl

end AtPrecision

end FormulaQuiz
