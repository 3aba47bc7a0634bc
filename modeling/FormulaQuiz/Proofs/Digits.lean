import FormulaQuiz.Decimal.Fixed
import Mathlib.Algebra.Order.Ring.Nat
import Mathlib.Data.List.TakeWhile

/-!
# Digits and the numbers they denote

The digits of a number denote it, also after leading zeros, and a text with a set number of decimal
places has all of them; so two numbers with the same text are equal.
-/

namespace FormulaQuiz.Decimal

theorem value_append (ds es : List Char) :
    value (ds ++ es) = 10 ^ es.length * value ds + value es := by
  change Nat.ofDigitChars 10 (ds ++ es) 0 = _
  rw [Nat.ofDigitChars_append, Nat.ofDigitChars_eq_ofDigitChars_zero]
  rfl

theorem value_cons (c : Char) (cs : List Char) :
    value (c :: cs) = 10 ^ cs.length * digitValue c + value cs := by
  have hsingle : value [c] = digitValue c := by simp [value]
  rw [← List.singleton_append, value_append, hsingle]

theorem digitValue_lt {c : Char} (h : isDigit c = true) : digitValue c < 10 := by
  rw [isDigit, Bool.and_eq_true, decide_eq_true_eq, decide_eq_true_eq] at h
  have hle : c.toNat ≤ '9'.toNat := h.2
  rw [digitValue]
  change c.toNat - 48 < 10
  change c.toNat ≤ 57 at hle
  omega

/-- Digits denote less than the power of ten of their number. -/
theorem value_lt {ds : List Char} (h : ∀ c ∈ ds, isDigit c = true) : value ds < 10 ^ ds.length := by
  induction ds with
  | nil => exact Nat.one_pos
  | cons c cs ih =>
    obtain ⟨hc, hcs⟩ := List.forall_mem_cons.mp h
    have hdigit := Nat.mul_le_mul_left (10 ^ cs.length) (Nat.le_of_lt_succ (digitValue_lt hc))
    have hrest := ih hcs
    rw [value_cons, List.length_cons, Nat.pow_succ]
    omega

@[simp] theorem value_zeros (n : ℕ) : value (zeros n) = 0 := by
  change Nat.ofDigitChars 10 (List.replicate n '0') 0 = 0
  rw [Nat.ofDigitChars_replicate_zero, Nat.mul_zero]

@[simp] theorem value_digits (n : ℕ) : value (digits n) = n := Nat.ofDigitChars_ten_toDigits

theorem isDigit_of_mem_digits {n : ℕ} {c : Char} (h : c ∈ digits n) : isDigit c = true := by
  have hdigit := Nat.isDigit_of_mem_toDigits (by decide) (by decide) h
  rw [Char.isDigit, Bool.and_eq_true, decide_eq_true_eq, decide_eq_true_eq] at hdigit
  rw [isDigit, Bool.and_eq_true, decide_eq_true_eq, decide_eq_true_eq]
  exact hdigit

theorem isDigit_of_mem_zeros {n : ℕ} {c : Char} (h : c ∈ zeros n) : isDigit c = true := by
  rw [List.eq_of_mem_replicate h]
  decide

theorem length_digits_pos (n : ℕ) : 0 < (digits n).length := Nat.length_toDigits_pos

/-- A number that is not zero is at least the power of ten of its first digit. -/
theorem ten_pow_length_digits_le {n : ℕ} (hn : n ≠ 0) : 10 ^ ((digits n).length - 1) ≤ n := by
  rcases Nat.eq_zero_or_pos ((digits n).length - 1) with h | h
  · rw [h, Nat.pow_zero]
    exact Nat.pos_of_ne_zero hn
  · refine Nat.not_lt.mp fun hlt ↦ ?_
    have hle := (Nat.length_toDigits_le_iff (by decide) h).mpr hlt
    change (digits n).length ≤ _ at hle
    omega

/-- Digits that denote zero are zeros. -/
theorem eq_zero_of_value_eq_zero {ds : List Char} (hds : ∀ c ∈ ds, isDigit c = true)
    (h : value ds = 0) : ∀ c ∈ ds, c = '0' := by
  induction ds with
  | nil => exact nofun
  | cons d ds ih =>
    obtain ⟨hd, hds⟩ := List.forall_mem_cons.mp hds
    rw [value_cons, Nat.add_eq_zero_iff, Nat.mul_eq_zero,
      or_iff_right (Nat.pow_pos (by decide)).ne'] at h
    refine List.forall_mem_cons.mpr ⟨?_, ih hds h.2⟩
    rw [isDigit, Bool.and_eq_true, decide_eq_true_eq, decide_eq_true_eq] at hd
    have hle : d.toNat ≤ 48 := Nat.sub_eq_zero_iff_le.mp h.1
    have hge : 48 ≤ d.toNat := hd.1
    exact Char.toNat_inj.mp (Nat.le_antisymm hle hge)

/-- A number below ten is one digit. -/
theorem length_digits_of_lt {n : ℕ} (h : n < 10) : (digits n).length = 1 := by
  have hle : (digits n).length ≤ 1 :=
    (Nat.length_toDigits_le_iff (by decide) Nat.one_pos).mpr (by rwa [Nat.pow_one])
  have hpos := length_digits_pos n
  omega

/-- A number other than zero does not begin with a zero. -/
theorem head?_digits_ne {n : ℕ} (hn : n ≠ 0) : (digits n).head? ≠ some '0' := by
  intro hhead
  obtain ⟨ds, hds⟩ : ∃ ds, digits n = '0' :: ds := by
    cases h : digits n with
    | nil => rw [h] at hhead; exact nomatch hhead
    | cons c ds =>
      rw [h, List.head?_cons, Option.some_inj] at hhead
      exact ⟨ds, by rw [hhead]⟩
  have hlow := ten_pow_length_digits_le hn
  have hhigh := value_lt fun c hc ↦ isDigit_of_mem_digits (n := n) (hds ▸ List.mem_cons_of_mem '0' hc)
  have hvalue := value_digits n
  rw [hds, value_cons, show digitValue '0' = 0 from rfl, Nat.mul_zero, Nat.zero_add] at hvalue
  rw [hds, List.length_cons, Nat.add_sub_cancel] at hlow
  omega

/-- A text is what is left when its trailing characters are dropped, and these characters. -/
theorem exists_dropTrailing_append (c : Char) (cs : List Char) :
    ∃ k, cs = dropTrailing c cs ++ List.replicate k c := by
  refine ⟨(cs.reverse.takeWhile (· == c)).length, ?_⟩
  have hall : cs.reverse.takeWhile (· == c) =
      List.replicate (cs.reverse.takeWhile (· == c)).length c :=
    List.eq_replicate_iff.mpr ⟨rfl, fun d hd ↦ by
      simpa using List.mem_takeWhile_imp hd⟩
  have hsplit := congrArg List.reverse (List.takeWhile_append_dropWhile
    (p := (· == c)) (l := cs.reverse))
  rw [List.reverse_append, List.reverse_reverse, hall, List.reverse_replicate] at hsplit
  exact hsplit.symm

section PaddedDigits

variable {width n : ℕ}

@[simp] theorem value_paddedDigits : value (paddedDigits width n) = n := by
  rw [paddedDigits, value_append, value_zeros, value_digits, Nat.mul_zero, Nat.zero_add]

theorem isDigit_of_mem_paddedDigits {c : Char} (h : c ∈ paddedDigits width n) :
    isDigit c = true := by
  rw [paddedDigits, List.mem_append] at h
  exact h.elim isDigit_of_mem_zeros isDigit_of_mem_digits

theorem length_paddedDigits (width n : ℕ) :
    (paddedDigits width n).length = max width (digits n).length := by
  rw [paddedDigits, List.length_append, zeros, List.length_replicate]
  omega

/-- The last digit of a filled number stands behind those of a tenth of it. -/
theorem paddedDigits_add_two (width n : ℕ) :
    paddedDigits (width + 2) n = paddedDigits (width + 1) (n / 10) ++ digits (n % 10) := by
  rcases Nat.lt_or_ge n 10 with hlt | hge
  · have hzero : paddedDigits (width + 1) 0 = zeros (width + 1) := by
      change zeros width ++ ['0'] = zeros (width + 1)
      exact List.replicate_succ'.symm
    rw [Nat.div_eq_of_lt hlt, Nat.mod_eq_of_lt hlt, hzero, paddedDigits, length_digits_of_lt hlt]
    rfl
  · have hsplit : digits n = digits (n / 10) ++ digits (n % 10) := by
      have happend := Nat.toDigits_append_toDigits (show 1 < 10 by decide)
        (show 0 < n / 10 by omega) (Nat.mod_lt n (by decide))
      rw [Nat.div_add_mod] at happend
      exact happend.symm
    have hwidth : width + 2 - ((digits (n / 10)).length + 1) =
        width + 1 - (digits (n / 10)).length := by omega
    rw [paddedDigits, paddedDigits, hsplit, List.length_append,
      length_digits_of_lt (Nat.mod_lt n (by decide)), List.append_assoc, hwidth]

/-- The digits in front of the last ones are those of the whole part. -/
theorem take_paddedDigits (places n : ℕ) :
    (paddedDigits (places + 1) n).take ((paddedDigits (places + 1) n).length - places) =
      digits (n / 10 ^ places) := by
  induction places generalizing n with
  | zero =>
    have hnone : 0 + 1 - (digits n).length = 0 := Nat.sub_eq_zero_of_le (length_digits_pos n)
    rw [Nat.sub_zero, List.take_length, Nat.pow_zero, Nat.div_one, paddedDigits, hnone]
    rfl
  | succ places ih =>
    rw [paddedDigits_add_two, List.length_append, length_digits_of_lt (Nat.mod_lt n (by decide)),
      Nat.add_sub_add_right, List.take_append_of_le_length (Nat.sub_le _ _), ih,
      Nat.div_div_eq_div_mul, ← Nat.pow_succ']

end PaddedDigits

section PlacedText

variable {places n n' : ℕ}

theorem ne_point_of_isDigit {c : Char} (h : isDigit c = true) : c ≠ '.' := by
  rintro rfl
  exact absurd h (by decide)

/-- The digits of a text with decimal places are those of its number. -/
theorem filter_placedText :
    (placedText places n).filter (· != '.') = paddedDigits (places + 1) n := by
  have hdigits : (paddedDigits (places + 1) n).filter (· != '.') = paddedDigits (places + 1) n :=
    List.filter_eq_self.mpr fun c hc ↦
      bne_iff_ne.mpr (ne_point_of_isDigit (isDigit_of_mem_paddedDigits hc))
  rw [placedText]
  split
  next hplaces =>
    rw [hplaces, Nat.sub_zero, List.take_length, ← hplaces, hdigits]
  next =>
    rw [List.filter_append, List.filter_cons_of_neg (by decide), ← List.filter_append,
      List.take_append_drop, hdigits]

theorem placedText_inj (h : placedText places n = placedText places n') : n = n' := by
  have hdigits := congrArg (fun cs ↦ value (cs.filter (· != '.'))) h
  simpa only [filter_placedText, value_paddedDigits] using hdigits

/-- A character of a text with decimal places is a digit or the point. -/
theorem isDigit_or_eq_point {c : Char} (h : c ∈ placedText places n) :
    isDigit c = true ∨ c = '.' := by
  by_cases hc : c = '.'
  · exact .inr hc
  · have hmem : c ∈ (placedText places n).filter (· != '.') :=
      List.mem_filter.mpr ⟨h, bne_iff_ne.mpr hc⟩
    rw [filter_placedText] at hmem
    exact .inl (isDigit_of_mem_paddedDigits hmem)

/-- A text with nothing but zeros and a point is zero. -/
theorem eq_zero_of_all_placedText
    (h : (placedText places n).all fun c ↦ c == '0' || c == '.') : n = 0 := by
  have hzeros : paddedDigits (places + 1) n = zeros (paddedDigits (places + 1) n).length := by
    refine List.eq_replicate_iff.mpr ⟨rfl, fun c hc ↦ ?_⟩
    rw [← filter_placedText, List.mem_filter] at hc
    have hc' := List.all_eq_true.mp h c hc.1
    rw [Bool.or_eq_true, beq_iff_eq, beq_iff_eq] at hc'
    exact hc'.resolve_right (bne_iff_ne.mp hc.2)
  have hvalue := congrArg value hzeros
  rwa [value_paddedDigits, value_zeros] at hvalue

/-- Zero is nothing but zeros and a point. -/
theorem all_placedText_zero : (placedText places 0).all fun c ↦ c == '0' || c == '.' := by
  refine List.all_eq_true.mpr fun c hc ↦ ?_
  by_cases hpoint : c = '.'
  · simp [hpoint]
  · have hmem : c ∈ (placedText places 0).filter (· != '.') :=
      List.mem_filter.mpr ⟨hc, bne_iff_ne.mpr hpoint⟩
    rw [filter_placedText, paddedDigits] at hmem
    rcases List.mem_append.mp hmem with hzero | hzero
    · simp [List.eq_of_mem_replicate hzero]
    · change c ∈ ['0'] at hzero
      simp [List.mem_singleton.mp hzero]

end PlacedText

end FormulaQuiz.Decimal
