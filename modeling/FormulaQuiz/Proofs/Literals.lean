import FormulaQuiz.Formula.Lexeme
import FormulaQuiz.Proofs.Decimals
import FormulaQuiz.Proofs.Shortest

/-!
# Float literals

A number is written for evaluation with a point and digits on both sides of it, and it is read back
as the same float.
-/

namespace FormulaQuiz.Formula

open Decimal Rounding

/-- A text has digits, a point, and digits again. -/
structure HasPoint (cs whole fraction : List Char) : Prop where
  eq : cs = whole ++ '.' :: fraction
  ne : whole ≠ []
  whole : ∀ c ∈ whole, isDigit c = true
  fraction : ∀ c ∈ fraction, isDigit c = true

section HasPoint

variable {cs whole fraction rest : List Char}

theorem splitDigits_append {ds rest : List Char} (hds : ∀ c ∈ ds, isDigit c = true)
    (hrest : ∀ c ∈ rest.head?, isDigit c = false) : splitDigits (ds ++ rest) = (ds, rest) := by
  have hnone : rest.takeWhile isDigit = [] ∧ rest.dropWhile isDigit = rest := by
    cases rest with
    | nil => exact ⟨rfl, rfl⟩
    | cons c rest =>
      have hc : isDigit c = false := hrest c rfl
      rw [List.takeWhile_cons, List.dropWhile_cons, hc]
      exact ⟨rfl, rfl⟩
  rw [splitDigits, List.takeWhile_append_of_pos hds, List.dropWhile_append_of_pos hds, hnone.1,
    hnone.2, List.append_nil]

/-- A text with a point is split off as a numeral where neither a digit nor an exponent follows. -/
theorem HasPoint.splitNumeral (h : HasPoint cs whole fraction)
    (hrest : ∀ c ∈ rest.head?, isDigit c = false ∧ c ≠ 'e' ∧ c ≠ 'E') :
    splitNumeral (cs ++ rest) = (cs, rest) := by
  obtain ⟨rfl, -, hwhole, hfraction⟩ := h
  have hpoint : ∀ c ∈ ('.' :: (fraction ++ rest)).head?, isDigit c = false := by
    rintro c ⟨⟩
    decide
  have hexponent : splitExponent rest = ([], rest) := by
    cases rest with
    | nil => rfl
    | cons c rest =>
      obtain ⟨-, he, hE⟩ := hrest c rfl
      rw [splitExponent, if_neg (not_or.mpr ⟨he, hE⟩)]
  rw [Decimal.splitNumeral, List.append_assoc, List.cons_append, splitDigits_append hwhole hpoint]
  dsimp only
  rw [splitFraction, splitDigits_append hfraction fun c hc ↦ (hrest c hc).1]
  dsimp only
  rw [hexponent, List.append_nil]

theorem HasPoint.numeralValue (h : HasPoint cs whole fraction) :
    numeralValue cs = nearestFloat (value (whole ++ fraction)) (-fraction.length) := by
  obtain ⟨rfl, -, hwhole, hfraction⟩ := h
  have hpoint : ∀ c ∈ ('.' :: fraction).head?, isDigit c = false := by
    rintro c ⟨⟩
    decide
  have hdigits := @splitDigits_append fraction [] hfraction nofun
  rw [List.append_nil] at hdigits
  rw [Decimal.numeralValue, splitDigits_append hwhole hpoint]
  dsimp only
  rw [splitFraction, hdigits]
  dsimp only
  rw [exponentValue, List.drop_one, List.tail_cons, zero_sub]

end HasPoint

/-- A text as it is, or with a point and a zero after it if it has no point. -/
def withPoint (cs : List Char) : List Char := if cs.contains '.' then cs else cs ++ ".0".toList

section Positional

variable {s : Scaled}

theorem not_contains_point {cs : List Char} (h : ∀ c ∈ cs, isDigit c = true) :
    ¬cs.contains '.' = true := fun hmem ↦
  ne_point_of_isDigit (h _ (List.contains_iff_mem.mp hmem)) rfl

/-- A text with a point has the digits and the magnitude of a number, and no more digits behind the
point than the number has, or one. -/
structure Spells (s : Scaled) (cs whole fraction : List Char) : Prop where
  hasPoint : HasPoint cs whole fraction
  amount : (value (whole ++ fraction) : ℚ) * 10 ^ (-fraction.length : ℤ) = s.amount
  length_le : (fraction.length : ℤ) ≤ max 1 (s.digits.length - s.point)

/-- The digits of a number below one stand behind the point and zeros. -/
theorem spells_below (hd : ∀ c ∈ s.digits, isDigit c = true) (hpoint : s.point ≤ 0) :
    Spells s ("0.".toList ++ zeros (-s.point).toNat ++ s.digits) ['0']
      (zeros (-s.point).toNat ++ s.digits) := by
  have hvalue : value ('0' :: (zeros (-s.point).toNat ++ s.digits)) = value s.digits := by
    change value (zeros ((-s.point).toNat + 1) ++ s.digits) = _
    rw [value_append, value_zeros, mul_zero, zero_add]
  have hlength : (zeros (-s.point).toNat ++ s.digits).length = (-s.point).toNat + s.digits.length := by
    rw [List.length_append, zeros, List.length_replicate]
  refine ⟨⟨?_, List.cons_ne_nil _ _, ?_, ?_⟩, ?_, ?_⟩
  · rw [List.append_assoc]
    rfl
  · exact List.forall_mem_singleton.mpr (by decide)
  · exact List.forall_mem_append.mpr ⟨fun _ ↦ isDigit_of_mem_zeros, hd⟩
  · rw [List.singleton_append, hvalue, hlength, Scaled.amount]
    congr 2
    omega
  · omega

/-- The digits of an integer stand before zeros and the point. -/
theorem spells_above (hne : s.digits ≠ []) (hd : ∀ c ∈ s.digits, isDigit c = true)
    (hpoint : s.digits.length ≤ s.point) :
    Spells s (withPoint (s.digits ++ zeros (s.point - s.digits.length).toNat))
      (s.digits ++ zeros (s.point - s.digits.length).toNat) ['0'] := by
  have hdigits : ∀ c ∈ s.digits ++ zeros (s.point - s.digits.length).toNat, isDigit c = true :=
    List.forall_mem_append.mpr ⟨hd, fun _ ↦ isDigit_of_mem_zeros⟩
  have hvalue : value (s.digits ++ zeros (s.point - s.digits.length).toNat ++ ['0']) =
      10 ^ ((s.point - s.digits.length).toNat + 1) * value s.digits := by
    rw [List.append_assoc, value_append, List.length_append, zeros, List.length_replicate,
      ← List.replicate_succ', ← zeros, value_zeros, add_zero]
    rfl
  refine ⟨⟨?_, ?_, hdigits, ?_⟩, ?_, ?_⟩
  · rw [withPoint, if_neg (not_contains_point hdigits)]
    rfl
  · exact List.append_ne_nil_of_left_ne_nil hne _
  · exact List.forall_mem_singleton.mpr (by decide)
  · rw [hvalue, Scaled.amount]
    push_cast
    rw [mul_comm _ (value s.digits : ℚ), mul_assoc, ← zpow_natCast, ← zpow_add₀ (by norm_num)]
    congr 2
    simp only [List.length_singleton]
    omega
  · simp

/-- The point stands between the digits of a number. -/
theorem spells_between (hd : ∀ c ∈ s.digits, isDigit c = true) (hpos : 0 < s.point)
    (hpoint : s.point < s.digits.length) :
    Spells s (s.digits.take s.point.toNat ++ '.' :: s.digits.drop s.point.toNat)
      (s.digits.take s.point.toNat) (s.digits.drop s.point.toNat) := by
  refine ⟨⟨rfl, ?_, ?_, ?_⟩, ?_, ?_⟩
  · refine List.ne_nil_of_length_pos ?_
    rw [List.length_take]
    omega
  · exact fun c hc ↦ hd c (List.mem_of_mem_take hc)
  · exact fun c hc ↦ hd c (List.mem_of_mem_drop hc)
  · rw [List.take_append_drop, List.length_drop, Scaled.amount]
    congr 2
    omega
  · rw [List.length_drop]
    omega

/-- A text that has a point gets no other. -/
theorem withPoint_append (cs ds : List Char) : withPoint (cs ++ '.' :: ds) = cs ++ '.' :: ds := by
  rw [withPoint, if_pos]
  exact List.contains_iff_mem.mpr (List.mem_append_right _ List.mem_cons_self)

/-- A number without exponent has the digits and the magnitude that it is made of. -/
theorem exists_spells_positionalText (hne : s.digits ≠ []) (hd : ∀ c ∈ s.digits, isDigit c = true) :
    ∃ whole fraction, Spells s (withPoint (Layout.plain.positionalText s)) whole fraction := by
  rw [Layout.positionalText]
  split
  next hbelow => exact ⟨_, _, spells_below hd hbelow⟩
  next hbelow =>
    split
    next habove =>
      rw [Layout.plain, if_neg Bool.false_ne_true, List.append_nil]
      exact ⟨_, _, spells_above hne hd habove⟩
    next habove =>
      rw [withPoint_append]
      exact ⟨_, _, spells_between hd (not_le.mp hbelow) (not_le.mp habove)⟩

end Positional

/-- A float without minus sign is written with a point, and is read back from its literal. -/
theorem exists_hasPoint_floatLiteral {x : Float} {a : ℚ} (h : Exactly x .positive a) :
    ∃ whole fraction, HasPoint (Lexeme.floatLiteral x) whole fraction ∧
      numeralValue (Lexeme.floatLiteral x) = x := by
  obtain ⟨r, hr, hlt, hx, hamount⟩ := id h
  rcases eq_or_ne r.1 0 with hzero | hne
  · have hx0 : x = 0 := by
      rw [zero_eq]
      rw [← hamount, amount_eq_zero_iff.mpr hzero] at h
      exact h.eq (exactly_zero .positive)
    refine ⟨['0'], ['0'], ⟨?_, List.cons_ne_nil _ _,
      List.forall_mem_singleton.mpr (by decide), List.forall_mem_singleton.mpr (by decide)⟩, ?_⟩
    · rw [hx0]
      rfl
    · rw [hx0]
      rfl
  · obtain ⟨hstands, hvalue, hdigits, hlength⟩ :=
      @standsFor_shortest .upward r.1 r.2 hne hr.lt hr.le
    have hnil : (shortest .upward r.1 r.2).digits ≠ [] := fun hnil ↦ by
      rw [hnil] at hvalue
      exact hvalue rfl
    obtain ⟨whole, fraction, hpoint, hvalue', hfraction⟩ := exists_spells_positionalText hnil hdigits
    have htext : Lexeme.floatLiteral x =
        withPoint (Layout.plain.positionalText (shortest .upward r.1 r.2)) := by
      rw [Lexeme.floatLiteral, withPoint, Layout.chars, Dyadic.ofFloat?, hx, signed_of_ne_zero hne]
      simp only [if_neg hne]
      rfl
    rw [← htext] at hpoint
    refine ⟨whole, fraction, hpoint, ?_⟩
    have hpos : 0 < (shortest .upward r.1 r.2).amount := by
      rw [Scaled.amount]
      exact mul_pos (Nat.cast_pos.mpr (Nat.pos_of_ne_zero hvalue)) (zpow_pos (by norm_num) _)
    have hne' : value (whole ++ fraction) ≠ 0 := by
      intro hzero
      rw [hzero, Nat.cast_zero, zero_mul] at hvalue'
      exact hpos.ne hvalue'
    rw [hpoint.numeralValue, nearestFloat_eq hne' (by omega) (by omega), hvalue',
      rounded_eq hr hpos hstands]
    refine Exactly.eq ⟨r, hr, hlt, ?_, hamount⟩ h
    exact unpack_pack_signed hr hlt

/-- So is a numeral, if a float can hold it. -/
theorem exists_hasPoint_of_isFinite {cs : List Char} (h : (numeralValue cs).isFinite = true) :
    ∃ whole fraction, HasPoint (Lexeme.floatLiteral (numeralValue cs)) whole fraction ∧
      numeralValue (Lexeme.floatLiteral (numeralValue cs)) = numeralValue cs := by
  obtain ⟨a, ha⟩ : ∃ a, Exactly (numeralValue cs) .positive a := exactly_nearestFloat h
  exact exists_hasPoint_floatLiteral ha

end FormulaQuiz.Formula
