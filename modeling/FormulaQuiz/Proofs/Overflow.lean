import FormulaQuiz.Proofs.Candidates
import FormulaQuiz.Proofs.Deviations

/-!
# How far wrong values go

A right value is finite, but what it is moved to may lie beyond the greatest float.  The limit is
exact: a wrong value is finite just if the right one times the factor of its deviation lies below
the overflow, and all values of a pool are finite just if those of all deviations are.
-/

namespace FormulaQuiz

open Rounding

/-! ## Wrong values -/

/-- A value can be moved by all deviations of a range without getting beyond the limit. -/
def DecoyRange.Bears (range : DecoyRange) (value : Float) : Prop :=
  ∀ ds, range.deviations = .ok ds → ∀ d ∈ ds,
    ∃ v factor, Is value v ∧ Is (1 + d) factor ∧ |v * factor| < overflow

section Decoys

variable {value d : Float} {places : UInt8}

theorem isFinite_moved_iff : (value * (1 + d)).isFinite = true ↔
    ∃ v factor, Is value v ∧ Is (1 + d) factor ∧ |v * factor| < overflow := by
  constructor
  · intro h
    obtain ⟨hvalue, hfactor⟩ := isFinite_of_mul h
    obtain ⟨v, hv⟩ := exists_is hvalue
    obtain ⟨factor, hf⟩ := exists_is hfactor
    exact ⟨v, factor, hv, hf, (hv.isFinite_mul_iff hf).mp h⟩
  · rintro ⟨v, factor, hv, hf, hlt⟩
    exact (hv.isFinite_mul_iff hf).mpr hlt

/-- All wrong values are finite just if all deviations move the right one to a finite value: what is
left out is equal to a finite value. -/
theorem forall_isFinite_decoysFrom_iff {seen ds : List Float} (hvalue : value.isFinite = true)
    (hseen : ∀ x ∈ seen, x.isFinite = true) :
    (∀ c ∈ decoysFrom value places seen ds, c.value.isFinite = true) ↔
      ∀ d ∈ ds, (value * (1 + d)).isFinite = true := by
  induction ds generalizing seen with
  | nil => exact iff_of_true (List.forall_mem_nil _) (List.forall_mem_nil _)
  | cons d ds ih =>
    rw [decoysFrom, List.forall_mem_cons, ← isFinite_roundTo_iff places]
    split
    next hold =>
      have hfinite : (roundTo (value * (1 + d)) places).isFinite = true := by
        rcases Bool.or_eq_true_iff.mp hold with heq | hany
        · rw [isFinite_eq_of_beq heq, hvalue]
        · obtain ⟨x, hx, heq⟩ := List.any_eq_true.mp hany
          rw [← isFinite_eq_of_beq heq, hseen x hx]
      rw [ih hseen, and_iff_right hfinite]
    next =>
      rw [List.forall_mem_cons]
      refine and_congr_right fun hfinite ↦ ih (List.forall_mem_cons.mpr ⟨hfinite, hseen⟩)

/-- The wrong values of a pool are finite just if its range bears the right one. -/
theorem DecoyPool.forall_isFinite_iff {name : String} {range : DecoyRange} {required : ℕ}
    {pool : DecoyPool} (hvalue : value.isFinite = true)
    (h : decoyPool name value places range required = .ok pool) :
    (∀ c ∈ pool.candidates, c.value.isFinite = true) ↔ range.Bears value := by
  obtain ⟨ds, accepted, hcandidates, -⟩ := DecoyPool.candidates_eq h
  rw [hcandidates, forall_isFinite_decoysFrom_iff hvalue (List.forall_mem_nil _)]
  constructor
  · intro hall ds' accepted'
    cases accepted.symm.trans accepted'
    exact fun d hd ↦ isFinite_moved_iff.mp (hall d hd)
  · exact fun hbears d hd ↦ isFinite_moved_iff.mpr (hbears ds accepted d hd)

end Decoys

/-- A range bears a value if the value times the greatest percentage, counted from zero to its
greater end, stays below the limit. -/
theorem DecoyRange.bears_of_le {range : DecoyRange} {value : Float} {low high v B : ℚ}
    (hmin : Is range.min low) (hmax : Is range.max high) (hlow : |low| ≤ B) (hhigh : |high| ≤ B)
    (hB : 16 * (B + 1) ≤ overflow) (hvalue : Is value v) (h : |v| * (100 + B) ≤ 97 * overflow) :
    range.Bears value := by
  intro ds accepted d hd
  obtain ⟨hstep, hpos, hle, hspan, hlimit, rfl⟩ := of_deviations_eq_ok accepted
  obtain ⟨t, ht⟩ := exists_is hstep
  have hB0 := (abs_nonneg low).trans hlow
  have hmeasures : range.Measures low high t := by
    refine ⟨hmin, hmax, ht, not_lt.mp fun hlt ↦ hle ((hmax.lt_iff hmin).mpr hlt),
      (is_zero.lt_iff ht).mp hpos, ?_, hspan⟩
    linarith [(abs_le.mp hlow).1, (abs_le.mp hhigh).2]
  obtain ⟨i, hi, rfl⟩ := List.mem_map.mp (List.mem_filter.mp hd).1
  obtain ⟨w, hw, hwle⟩ := hmeasures.exists_is_deviation hlimit hlow hhigh hB
    (Nat.lt_succ_iff.mp (List.mem_range.mp hi))
  have hone : Is 1 1 := by
    rw [← Nat.cast_one (R := ℚ)]
    exact is_ofNat (by decide)
  have hsum : |1 + w| ≤ B / 100 * (1 + 1 / 10 ^ 4) + (1 + 1 / 50) := by
    refine (abs_add_le _ _).trans ?_
    rw [abs_one]
    linarith
  obtain ⟨factor, hfactor, hround⟩ := hone.exists_add hw (hone.isFinite_add hw (by linarith))
  have hfactorle : |factor| ≤ (100 + B) * (103 / 10000) := by linarith [hround.abs_le]
  refine ⟨v, factor, hvalue, hfactor, ?_⟩
  calc |v * factor| = |v| * |factor| := abs_mul v factor
    _ ≤ |v| * ((100 + B) * (103 / 10000)) := mul_le_mul_of_nonneg_left hfactorle (abs_nonneg v)
    _ = |v| * (100 + B) * (103 / 10000) := (mul_assoc _ _ _).symm
    _ ≤ 97 * overflow * (103 / 10000) := mul_le_mul_of_nonneg_right h (by norm_num)
    _ < overflow := by linarith

/-! ## Printed values -/

/-- A finite value is printed with digits, a point and a minus sign. -/
theorem isDigit_of_mem_formatFixed {x : Float} {places : UInt8} (h : x.isFinite = true) {c : Char}
    (hc : c ∈ (formatFixed x places).toList) : Decimal.isDigit c = true ∨ c = '.' ∨ c = '-' := by
  obtain ⟨s, a, hx⟩ := exists_exactly (isFinite_roundTo h places)
  obtain ⟨d, hd, -⟩ := hx.ofFloat?
  have hmem := mem_fixedChars_of_mem_formatFixed hc
  rw [Decimal.fixedChars, hd] at hmem
  dsimp only at hmem
  split at hmem
  · rcases List.mem_cons.mp hmem with rfl | hmem
    · exact .inr (.inr rfl)
    · exact (Decimal.isDigit_or_eq_point hmem).imp_right .inl
  · exact (Decimal.isDigit_or_eq_point hmem).imp_right .inl

/-- A finite value is not printed as an infinity or as undefined. -/
theorem formatFixed_notMem {x : Float} (h : x.isFinite = true) (places : UInt8) :
    formatFixed x places ∉ ["inf", "-inf", "NaN"] := by
  intro hmem
  have hchars : ∀ c ∈ (formatFixed x places).toList,
      Decimal.isDigit c = true ∨ c = '.' ∨ c = '-' := fun c ↦ isDigit_of_mem_formatFixed h
  rcases List.mem_cons.mp hmem with heq | hmem
  · exact absurd (hchars 'n' (heq ▸ by decide)) (by decide)
  · rcases List.mem_cons.mp hmem with heq | hmem
    · exact absurd (hchars 'n' (heq ▸ by decide)) (by decide)
    · rw [List.mem_singleton.mp hmem] at hchars
      exact absurd (hchars 'N' (by decide)) (by decide)

/-- Every option of a preview gives each final answer a finite value, and shows a number for it. -/
def Preview.OffersFinite (p : Preview) (q : Question) : Prop :=
  ∀ option ∈ p.variation.answers, ∃ value : FinalAnswerPreview → Float,
    option.content = q.answerText p.finalAnswers value ∧
      ∀ f ∈ p.finalAnswers, (value f).isFinite = true ∧
        ∀ places, formatFixed (value f) places ∉ ["inf", "-inf", "NaN"]

/-- The wrong values of a column are finite if its range bears the right one. -/
theorem AnswerColumn.Fits.isFinite_values {c : AnswerColumn} {count : ℕ} (h : c.Fits count)
    (hbears : c.answer.decoys.Bears c.answer.value) : ∀ x ∈ c.values, x.isFinite = true := by
  refine List.forall_mem_map.mpr fun decoy hdecoy ↦ ?_
  exact (DecoyPool.forall_isFinite_iff h.answers.finite h.pool).mpr hbears decoy
    (h.drawn.subset hdecoy)

/-- The ends of the deviations of an accepted question are numbers, and the range bears what is not
too great for them. -/
theorem Question.exists_ends {d : Draft} {q : Question} (hq : ofDraft d = .ok q) {v : Variable}
    (hv : v ∈ q.variables) {places : UInt8} {range : DecoyRange}
    (hrole : v.role = .finalAnswer places range) :
    ∃ low high, Is range.min low ∧ Is range.max high ∧
      ∀ value x, Is value x → 16 * (max |low| |high| + 1) ≤ overflow →
        |x| * (100 + max |low| |high|) ≤ 97 * overflow → range.Bears value := by
  obtain ⟨hmin, hmax⟩ := isFinite_ends hq hv hrole
  obtain ⟨low, hlow⟩ := exists_is hmin
  obtain ⟨high, hhigh⟩ := exists_is hmax
  refine ⟨low, high, hlow, hhigh, fun value x hvalue hends hproduct ↦ ?_⟩
  exact DecoyRange.bears_of_le hlow hhigh (le_max_left _ _) (le_max_right _ _) hends hvalue hproduct

section Options

variable {d : Draft} {q : Question}

/-- The options show finite values if the ranges of all final answers bear theirs. -/
theorem Settings.offersFinite_of_preview {σ : Type} [Random.WordSource σ] {s : Settings}
    {randomize : Bool} {source rest : σ} {p : Preview} (hq : Question.ofDraft d = .ok q)
    (h : (s.preview q randomize).Gives source p rest)
    (hbears : ∀ vf ∈ q.finalAnswers.zip p.finalAnswers, ∀ places range,
      vf.1.role = .finalAnswer places range → range.Bears vf.2.value) : p.OffersFinite q := by
  intro option hoption
  obtain ⟨cs, hfits, hasked, hreports, hperm, -⟩ := columns_of_preview h
  rw [hreports, ← hasked, List.zip_map', List.forall_mem_map] at hbears
  have hfinite : ∀ c ∈ cs, ∀ x ∈ c.values, x.isFinite = true := fun c hc ↦
    (hfits c hc).isFinite_values (hbears c hc _ _ (hfits c hc).answers.role)
  rw [hreports]
  rcases List.mem_cons.mp (hperm.mem_iff.mp hoption) with rfl | hwrong
  · refine ⟨(·.value), (Question.answerText_columns hq hasked hfits (·.value)).symm,
      List.forall_mem_map.mpr fun c hc ↦ ?_⟩
    have hvalue := (hfits c hc).answers.finite
    exact ⟨hvalue, formatFixed_notMem hvalue⟩
  · obtain ⟨r, hr, rfl⟩ := List.mem_map.mp hwrong
    refine ⟨(·.incorrectValues.getD r 0),
      (Question.answerText_columns hq hasked hfits (·.incorrectValues.getD r 0)).symm,
      List.forall_mem_map.mpr fun c hc ↦ ?_⟩
    have hlt : r < c.values.length := by
      rw [AnswerColumn.values, List.length_map, (hfits c hc).length]
      exact List.mem_range.mp hr
    have hvalue : (c.values.getD r 0).isFinite = true := by
      rw [List.getD_eq_getElem _ _ hlt]
      exact hfinite c hc _ (List.getElem_mem hlt)
    exact ⟨hvalue, formatFixed_notMem hvalue⟩

/-- The wrong values of a pool are all finite just if its range bears the right value, which it does
unless the value or the ends of the range are very great; and the options of an accepted question
show finite values if the ranges of all final answers bear theirs. -/
theorem Settings.isFinite_of_bears (hq : Question.ofDraft d = .ok q) :
    (∀ (name : String) (value : Float) (places : UInt8) (range : DecoyRange) (required : ℕ)
      (pool : DecoyPool), value.isFinite = true →
        decoyPool name value places range required = .ok pool →
        ((∀ c ∈ pool.candidates, c.value.isFinite = true) ↔ range.Bears value)) ∧
    (∀ v ∈ q.variables, ∀ places range, v.role = .finalAnswer places range →
      ∃ low high, Is range.min low ∧ Is range.max high ∧
        ∀ value x, Is value x → 16 * (max |low| |high| + 1) ≤ overflow →
          |x| * (100 + max |low| |high|) ≤ 97 * overflow → range.Bears value) ∧
    ∀ {σ : Type} [Random.WordSource σ] (s : Settings) (randomize : Bool) (source rest : σ)
      (p : Preview), (s.preview q randomize).Gives source p rest →
        (∀ vf ∈ q.finalAnswers.zip p.finalAnswers, ∀ places range,
          vf.1.role = .finalAnswer places range → range.Bears vf.2.value) →
        p.OffersFinite q :=
  ⟨fun _ _ _ _ _ _ ↦ DecoyPool.forall_isFinite_iff, fun _ hv _ _ ↦ Question.exists_ends hq hv,
    fun _ _ _ _ _ ↦ offersFinite_of_preview hq⟩

end Options

/-- Values below a bound are numbers below it. -/
theorem exists_is_of_isBelow {bound : ℕ} {p : Preview} {f : FinalAnswerPreview}
    (hp : p.isBelow bound = true) (hf : f ∈ p.finalAnswers) {x : Float}
    (hx : x ∈ f.value :: f.incorrectValues) : ∃ v, Is x v ∧ |v| < bound := by
  obtain ⟨d, hd, hlt⟩ := Preview.exists_of_isBelow hp hf hx
  have hexact := exists_exactly_of_ofFloat? hd
  refine ⟨_, hexact.is, ?_⟩
  rw [abs_oriented hexact.nonneg, div_lt_iff₀ (by exact_mod_cast d.denominator_pos)]
  exact_mod_cast hlt

/-- The ends of the range that is taken if none is given. -/
theorem abs_ends_defaultDecoys {low high : ℚ} (hlow : Is defaultDecoys.min low)
    (hhigh : Is defaultDecoys.max high) : |low| = 90 ∧ |high| = 90 := by
  have hmin := exists_exactly_of_ofFloat?
    (show Dyadic.ofFloat? defaultDecoys.min = some ⟨true, 90 * 2 ^ 46, -46⟩ by decide +kernel)
  have hmax : Is defaultDecoys.max (90 : ℕ) := is_ofNat (by decide)
  rw [hlow.unique hmin.is, hhigh.unique hmax, abs_oriented hmin.nonneg, Nat.abs_cast]
  refine ⟨?_, rfl⟩
  rw [show Dyadic.numerator ⟨true, 90 * 2 ^ 46, -46⟩ = 90 * 2 ^ 46 from rfl,
    show Dyadic.denominator ⟨true, 90 * 2 ^ 46, -46⟩ = 2 ^ 46 from rfl]
  norm_num

theorem Settings.isFinite_triple :
    (∃ p rest, (preview {} .triple false).Gives (Random.ChaCha.ofSeed 0) p rest ∧
      p.OffersFinite .triple) ∧
    ∃ pool, decoyPool "F" 6 1 defaultDecoys 3 = .ok pool ∧
      ∀ c ∈ pool.candidates, c.value.isFinite = true := by
  obtain ⟨hpool, hends, hoffers⟩ := isFinite_of_bears Question.ofDraft_triple
  have hbears : ∀ value x, Is value x → |x| < (1000 : ℕ) → defaultDecoys.Bears value := by
    intro value x hvalue hx
    obtain ⟨low, high, hlow, hhigh, hbears⟩ := hends
      ⟨"F", none, some 1, .finalAnswer 1 defaultDecoys⟩
      (List.mem_cons_of_mem _ (List.mem_singleton_self _)) 1 defaultDecoys rfl
    obtain ⟨hninety, hninety'⟩ := abs_ends_defaultDecoys hlow hhigh
    rw [hninety, hninety', max_self] at hbears
    have hlimit := two_pow_lt_overflow
    push_cast at hx
    exact hbears value x hvalue (by linarith) (by linarith)
  constructor
  · obtain ⟨p, rest, h, hbelow⟩ := exists_preview_triple
    refine ⟨p, rest, h, hoffers {} false _ _ p h fun vf hvf places range hrole ↦ ?_⟩
    obtain ⟨hasked, hreport⟩ := List.of_mem_zip hvf
    obtain ⟨x, hx, hlt⟩ := exists_is_of_isBelow hbelow hreport List.mem_cons_self
    rw [List.mem_singleton.mp hasked] at hrole
    cases hrole
    exact hbears _ x hx hlt
  · obtain ⟨pool, hpool', -⟩ := Except.exists_eq_ok_of_any
      (show (decoyPool "F" 6 1 defaultDecoys 3).toOption.any (fun _ ↦ true) = true by
        decide +kernel)
    have hsix : Is 6 (6 : ℕ) := is_ofNat (by decide)
    exact ⟨pool, hpool', (hpool "F" 6 1 defaultDecoys 3 pool (by decide +kernel) hpool').mpr
      (hbears 6 _ hsix (by norm_num))⟩

/-- A draft whose right value is near the limit. -/
def Draft.great : Draft :=
  ⟨[{ name := "F", isFinalAnswer := true, decimalPlaces := some 0, decoyMin := some 60,
      decoyMax := some 90, decoyStep := some 10 }], [{ expr := "F = 1e308" }]⟩

/-- The question that the draft is. -/
def Question.great : Question :=
  ⟨[⟨"F", none, some 0, .finalAnswer 0 ⟨60, 90, 10⟩⟩], [⟨1, "F = 1e308", "F", "1e308", none⟩]⟩

theorem Question.ofDraft_great : ofDraft .great = .ok .great := by with_unfolding_all rfl

theorem decoyPool_great : (decoyPool "F" 1e308 0 ⟨60, 90, 10⟩ 3).toOption.any
    (·.candidates.any fun c ↦ !c.value.isFinite && formatFixed c.value 0 == "inf") = true := by
  decide +kernel

set_option maxRecDepth 4000 in
theorem Settings.exists_preview_great :
    ∃ p rest, (preview {} .great false).Gives (Random.ChaCha.ofSeed 1) p rest ∧
      p.variation.answers.any (·.content == "F = inf") = true := by
  refine Trial.exists_gives_of_any ?_
  -- A numeral of so many digits is not to be put in a string and taken out of it again.
  simp only [preview, solve, Question.great, Step.runAll, Step.run, Step.value, Step.formula,
    Step.fail, Step.report, AliasTable.substitute_eq_foldl, Formula.evaluate,
    Formula.Term.ofFormula?, Formula.Parser.whole?, Formula.Token.ofText?,
    Formula.evaluationText, String.toList_ofList]
  decide +kernel

/-- A pool of a finite value may have an infinite one, and a question that was accepted may offer
it. -/
theorem Settings.offers_infinity : Question.ofDraft .great = .ok .great ∧
    (∃ v ∈ Question.great.variables, ∃ places range, v.role = .finalAnswer places range ∧
      ∃ (value : Float) (pool : DecoyPool), value.isFinite = true ∧
        decoyPool v.name value places range 3 = .ok pool ∧
        ∃ c ∈ pool.candidates, c.value.isFinite = false ∧ formatFixed c.value places = "inf") ∧
    ∃ p rest, (preview {} .great false).Gives (Random.ChaCha.ofSeed 1) p rest ∧
      ∃ option ∈ p.variation.answers, option.content = "F = inf" := by
  refine ⟨Question.ofDraft_great, ?_, ?_⟩
  · refine ⟨_, List.mem_singleton_self _, 0, ⟨60, 90, 10⟩, rfl, 1e308, ?_⟩
    obtain ⟨pool, hpool, hany⟩ := Except.exists_eq_ok_of_any decoyPool_great
    obtain ⟨c, hc, hinf⟩ := List.any_eq_true.mp hany
    rw [Bool.and_eq_true, Bool.not_eq_true', beq_iff_eq] at hinf
    exact ⟨pool, by decide +kernel, hpool, c, hc, hinf⟩
  · obtain ⟨p, rest, h, hany⟩ := exists_preview_great
    obtain ⟨option, hoption, heq⟩ := List.any_eq_true.mp hany
    exact ⟨p, rest, h, option, hoption, beq_iff_eq.mp heq⟩

end FormulaQuiz
