import FormulaQuiz.Proofs.Literals
import FormulaQuiz.Proofs.Ranges

/-!
# Written numbers

What is printed of a finite value is a decimal number: a minus sign unless all digits are zeros, digits
without a superfluous zero in front, and behind a point as many digits as there are places.  Reading
the parts of such a text is unique, so the text denotes one number, and this number is off the value by
half a unit of the last place at most.
-/

namespace FormulaQuiz

namespace Decimal

/-- A decimal number as it is written: an optional minus sign, which zero does not have, digits without
a superfluous zero in front, and the digits behind the point. -/
structure Written where
  negative : Bool
  whole : List Char
  /-- If there are no digits behind the point, there is no point. -/
  fraction : List Char
  isDigit : ∀ c ∈ whole ++ fraction, isDigit c = true
  whole_ne_nil : whole ≠ []
  leading : whole.head? = some '0' → whole = ['0']
  sign : negative = true → ∃ c ∈ whole ++ fraction, c ≠ '0'

namespace Written

/-- The point and the digits behind it. -/
def tail (d : Written) : List Char := if d.fraction = [] then [] else '.' :: d.fraction

/-- The text of a number. -/
def chars (d : Written) : List Char := (if d.negative then ['-'] else []) ++ d.whole ++ d.tail

/-- The number of units of the last place. -/
def units (d : Written) : ℕ := value (d.whole ++ d.fraction)

/-- The number that is denoted. -/
def amount (d : Written) : ℚ :=
  (if d.negative then -1 else 1) * (d.units / 10 ^ d.fraction.length)

section Parts

variable (d : Written)

theorem isDigit_of_mem_whole {c : Char} (h : c ∈ d.whole) : Decimal.isDigit c = true :=
  d.isDigit c (List.mem_append_left _ h)

theorem isDigit_of_mem_fraction {c : Char} (h : c ∈ d.fraction) : Decimal.isDigit c = true :=
  d.isDigit c (List.mem_append_right _ h)

theorem head?_tail : ∀ c ∈ d.tail.head?, Decimal.isDigit c = false := by
  rw [tail]
  split
  · exact nofun
  · rintro c ⟨⟩
    decide

/-- The sign is split off the text. -/
theorem splitSign_chars :
    splitSign d.chars = (if d.negative then ['-'] else [], d.whole ++ d.tail) := by
  rw [chars, List.append_assoc]
  split
  · rfl
  next =>
    obtain ⟨c, cs, hwhole⟩ := List.exists_cons_of_ne_nil d.whole_ne_nil
    have hdigit := d.isDigit_of_mem_whole (hwhole ▸ List.mem_cons_self)
    have hsign : ¬(c = '+' ∨ c = '-') := by
      rintro (rfl | rfl) <;> exact absurd hdigit (by decide)
    rw [hwhole, List.nil_append, List.cons_append, splitSign, if_neg hsign]

/-- The digits in front of the point are split off the text. -/
theorem splitDigits_chars : splitDigits (d.whole ++ d.tail) = (d.whole, d.tail) :=
  Formula.splitDigits_append (fun _ ↦ d.isDigit_of_mem_whole) d.head?_tail

/-- The text is read in one way. -/
theorem eq_of_chars_eq {d e : Written} (h : d.chars = e.chars) : d = e := by
  have hsign := d.splitSign_chars
  rw [h, e.splitSign_chars, Prod.mk.injEq] at hsign
  obtain ⟨hnegative, hbody⟩ := hsign
  have hdigits := d.splitDigits_chars
  rw [← hbody, e.splitDigits_chars, Prod.mk.injEq] at hdigits
  obtain ⟨hwhole, htail⟩ := hdigits
  have hfraction : ∀ w : Written, w.fraction = w.tail.drop 1 := by
    intro w
    rw [tail]
    split
    next hnil => rw [hnil]; rfl
    · rfl
  have hneg : d.negative = e.negative := by
    cases hd : d.negative <;> cases he : e.negative <;> simp [hd, he] at hnegative ⊢
  obtain ⟨_, _, _, _, _, _, _⟩ := d
  obtain ⟨_, _, _, _, _, _, _⟩ := e
  have hfrac := (hfraction _).trans ((congrArg (List.drop 1) htail.symm).trans (hfraction _).symm)
  simp only at hneg hwhole hfrac
  subst hneg hwhole hfrac
  rfl

end Parts

/-- The digits of a number of units behind the point. -/
def fractionDigits (places n : ℕ) : List Char :=
  (paddedDigits (places + 1) n).drop ((paddedDigits (places + 1) n).length - places)

theorem length_fractionDigits (places n : ℕ) : (fractionDigits places n).length = places := by
  have hlength := length_paddedDigits (places + 1) n
  rw [fractionDigits, List.length_drop]
  omega

theorem digits_append_fractionDigits (places n : ℕ) :
    digits (n / 10 ^ places) ++ fractionDigits places n = paddedDigits (places + 1) n := by
  rw [← take_paddedDigits, fractionDigits, List.take_append_drop]

/-- A number of units of the last decimal place, with its sign if it is not zero. -/
def ofUnits (s : Float.Model.UnpackedFloat.Sign) (places n : ℕ) : Written where
  negative := s == .negative && n != 0
  whole := digits (n / 10 ^ places)
  fraction := fractionDigits places n
  isDigit c hc := by
    rw [digits_append_fractionDigits] at hc
    exact isDigit_of_mem_paddedDigits hc
  whole_ne_nil := List.ne_nil_of_length_pos (length_digits_pos _)
  leading hhead := by
    have hzero : n / 10 ^ places = 0 := not_not.mp fun hne ↦ head?_digits_ne hne hhead
    rw [hzero]
    rfl
  sign hnegative := by
    rw [Bool.and_eq_true, bne_iff_ne] at hnegative
    rw [digits_append_fractionDigits]
    by_contra hzeros
    push Not at hzeros
    have hvalue : value (paddedDigits (places + 1) n) = n := value_paddedDigits
    rw [List.eq_replicate_of_mem hzeros] at hvalue
    exact hnegative.2 (hvalue.symm.trans (value_zeros _))

section OfUnits

open Rounding Float.Model.UnpackedFloat

variable (s : Sign) (places n : ℕ)

theorem chars_ofUnits : (ofUnits s places n).chars =
    if s == .negative && n != 0 then '-' :: placedText places n else placedText places n := by
  have hunsigned : digits (n / 10 ^ places) ++ (ofUnits s places n).tail = placedText places n := by
    have htail : (ofUnits s places n).tail =
        if fractionDigits places n = [] then [] else '.' :: fractionDigits places n := rfl
    have hnil : fractionDigits places n = [] ↔ places = 0 := by
      rw [← List.length_eq_zero_iff, length_fractionDigits]
    rw [htail, placedText, take_paddedDigits]
    simp only [hnil]
    split
    · rw [List.append_nil]
    · rfl
  rw [chars, List.append_assoc]
  change (if (s == .negative && n != 0) = true then ['-'] else []) ++
    (digits (n / 10 ^ places) ++ (ofUnits s places n).tail) = _
  rw [hunsigned]
  split <;> rfl

theorem units_ofUnits : (ofUnits s places n).units = n := by
  change value (digits (n / 10 ^ places) ++ fractionDigits places n) = n
  rw [digits_append_fractionDigits, value_paddedDigits]

theorem amount_ofUnits : (ofUnits s places n).amount = oriented s (n / 10 ^ places) := by
  have hlength : (ofUnits s places n).fraction.length = places := length_fractionDigits places n
  rw [amount, units_ofUnits, hlength]
  change (if (s == .negative && n != 0) = true then -1 else 1) * _ = _
  cases s with
  | positive => exact one_mul _
  | negative =>
    rcases eq_or_ne n 0 with rfl | hne
    · simp
    · rw [if_pos (by simp [hne])]
      exact neg_one_mul _

end OfUnits

end Written

end Decimal

open Float.Model UnpackedFloat
open Decimal Rounding

section FormatFixed

variable {x : Float} {s : Sign} {a : ℚ} {places : UInt8}

/-- A value at a precision is printed as the number of units nearest to it. -/
theorem Rounding.Exactly.formatFixed (h : Exactly (roundTo x places) s a) :
    (formatFixed x places).toList =
      (Written.ofUnits s places.toNat (nearest (a * 10 ^ places.toNat))).chars := by
  generalize hn : nearest (a * 10 ^ places.toNat) = n
  rw [FormulaQuiz.formatFixed, String.toList_ofList, h.fixedChars, hn, Written.chars_ofUnits]
  cases s with
  | positive => exact dropZeroSign_placedText _ _
  | negative =>
    refine (dropZeroSign_minus _ _).trans ?_
    rcases eq_or_ne n 0 with rfl | hne
    · rfl
    · rw [if_neg hne, if_pos (by simp [hne])]

theorem abs_oriented_sub (s : Sign) (a b : ℚ) : |oriented s a - oriented s b| = |a - b| := by
  cases s with
  | positive => rfl
  | negative =>
    change |-a - -b| = _
    rw [neg_sub_neg, abs_sub_comm]

/-- What is printed of a finite value at a number of places is a decimal number with so many digits
behind the point, and off the rounded value by half a unit of the last place at most. -/
theorem exists_written_formatFixed (hx : x.isFinite = true) (places : UInt8) :
    ∃ d : Written, (formatFixed x places).toList = d.chars ∧ d.fraction.length = places.toNat ∧
      ∃ v, Is (roundTo x places) v ∧ |d.amount - v| ≤ 1 / 2 * (1 / 10 ^ places.toNat) := by
  obtain ⟨s, a, ha⟩ := exists_exactly (isFinite_roundTo hx places)
  refine ⟨_, ha.formatFixed, Written.length_fractionDigits _ _, _, ha.is, ?_⟩
  have hten : (0 : ℚ) < 10 ^ places.toNat := by positivity
  have hunits : (nearest (a * 10 ^ places.toNat) : ℚ) / 10 ^ places.toNat - a =
      (nearest (a * 10 ^ places.toNat) - a * 10 ^ places.toNat) * (1 / 10 ^ places.toNat) := by
    field_simp
  rw [Written.amount_ofUnits, abs_oriented_sub, hunits, abs_mul, abs_of_pos (one_div_pos.mpr hten)]
  exact mul_le_mul_of_nonneg_right (abs_nearest_sub_le (mul_nonneg ha.nonneg hten.le))
    (one_div_pos.mpr hten).le

/-- A value below zero whose digits are all zeros is printed without sign. -/
theorem exists_written_zero : (-0.0001 : Float).isFinite = true ∧
    ∃ d : Written, "0.00".toList = d.chars ∧ d.fraction.length = 2 ∧
      ∃ v, Is (roundTo (-0.0001) 2) v ∧ |d.amount - v| ≤ 1 / 2 * (1 / 10 ^ 2) := by
  have hfinite : (-0.0001 : Float).isFinite = true := by decide +kernel
  have htext : formatFixed (-0.0001) 2 = "0.00" := by decide +kernel
  exact ⟨hfinite, htext ▸ exists_written_formatFixed hfinite 2⟩

end FormatFixed

end FormulaQuiz
