import FormulaQuiz.Proofs.Layout
import FormulaQuiz.Proofs.Questions
import FormulaQuiz.Proofs.Ranges

/-!
# What a check promises

The checks of a draft are made again, in other words, when the question is varied.  What the first
check has found of a range is stated once for each kind of range; the second check then finds nothing
that the first one did not.
-/

namespace FormulaQuiz

open Rounding

/-! ## Ranges of wrong answers -/

/-- What a check has found of the deviations of wrong answers. -/
structure DecoyRange.IsChecked (range : DecoyRange) : Prop where
  isFinite_step : range.step.isFinite = true
  step_pos : range.step > 0
  le : ¬ range.min > range.max

/-- The only fault that is left is that there are too many deviations. -/
theorem DecoyRange.IsChecked.eq_of_deviations {range : DecoyRange} (h : range.IsChecked)
    {fault : Fault} (hfault : range.deviations = .error fault) :
    fault = .decoyRangeTooLarge range.min range.max range.step := by
  have hstep : ¬ (!(range.step.isFinite && decide (range.step > 0))) = true := by
    rw [h.isFinite_step, decide_eq_true h.step_pos]
    exact nofun
  rw [deviations, if_neg hstep] at hfault
  dsimp only at hfault
  rw [if_neg h.le] at hfault
  split at hfault
  · exact (Except.error.inj hfault).symm
  · cases hfault

namespace Question

variable {d : Draft} {q : Question} {v : Variable}

/-- The ranges of an accepted question have been checked. -/
theorem isChecked_drawRange (h : ofDraft d = .ok q) (hv : v ∈ q.variables)
    {default : Option Quantity} {range : DrawRange}
    (hrole : v.role = .input default (some range)) : range.IsChecked := by
  obtain ⟨given, hgiven, hmade⟩ := exists_makes h hv
  have hplays := hrole ▸ hmade.role
  cases hplays with
  | drawn input random hmin hmax =>
    obtain ⟨min, max, hmin', hmax', ⟨hfinite, hfinite', hle⟩, hwidth⟩ :=
      (isAcceptable_of_ofDraft h).inputs given hgiven input random
    cases hmin'.symm.trans hmin
    cases hmax'.symm.trans hmax
    have hdrawable := Bool.and_eq_true_iff.mpr ⟨hwidth.1, decide_eq_true hwidth.2⟩
    have hle := le_of_not_lt hfinite hfinite' hle
    exact ⟨Random.canDraw_of_isDrawable hfinite hfinite' hle hdrawable, hdrawable⟩

theorem isChecked_decoyRange (h : ofDraft d = .ok q) (hv : v ∈ q.variables) {places : UInt8}
    {range : DecoyRange} (hrole : v.role = .finalAnswer places range) : range.IsChecked := by
  obtain ⟨given, hgiven, hmade⟩ := exists_makes h hv
  have hplays := hrole ▸ hmade.role
  cases hplays with
  | finalAnswer asked _ =>
    have hasked := (isAcceptable_of_ofDraft h).finalAnswers given hgiven asked
    exact ⟨hasked.isFinite_step, hasked.step_pos, hasked.le⟩

/-- The ends of the deviations are finite. -/
theorem isFinite_ends (h : ofDraft d = .ok q) (hv : v ∈ q.variables) {places : UInt8}
    {range : DecoyRange} (hrole : v.role = .finalAnswer places range) :
    range.min.isFinite = true ∧ range.max.isFinite = true := by
  obtain ⟨given, hgiven, hmade⟩ := exists_makes h hv
  have hplays := hrole ▸ hmade.role
  cases hplays with
  | finalAnswer asked _ =>
    have hasked := (isAcceptable_of_ofDraft h).finalAnswers given hgiven asked
    exact ⟨hasked.isFinite_min, hasked.isFinite_max⟩

end Question

/-! ## Faults of wrong answers -/

section Pools

variable {required : ℕ} {finals : List FinalValue} {answer : FinalValue} {fault : Fault}

/-- The deviations of a final answer are at fault, or there are not enough wrong values. -/
theorem FinalValue.of_pool_eq_error (h : answer.pool required = .error fault) :
    answer.decoys.deviations = .error fault ∨
      ∃ percentages, fault = .insufficientDecoys answer.name percentages := by
  cases hdeviations : answer.decoys.deviations with
  | error fault' =>
    rw [pool, decoyPool, hdeviations] at h
    cases h
    exact .inl rfl
  | ok ds =>
    rw [pool, decoyPool_eq hdeviations] at h
    split at h
    · cases h
    · exact .inr ⟨_, (Except.error.inj h).symm⟩

theorem exists_of_decoyPools_eq_error (h : decoyPools required finals = .error fault) :
    ∃ answer ∈ finals, answer.pool required = .error fault := by
  induction finals with
  | nil => exact nomatch h
  | cons answer finals ih =>
    rw [decoyPools] at h
    rcases Except.bind_eq_error_iff.mp h with hpool | ⟨pool, -, h⟩
    · exact ⟨answer, List.mem_cons_self, hpool⟩
    · rcases Except.bind_eq_error_iff.mp h with hrest | ⟨pools, -, h⟩
      · obtain ⟨other, hother, hpool⟩ := ih hrest
        exact ⟨other, List.mem_cons_of_mem _ hother, hpool⟩
      · cases h

/-- The range of every final answer of an accepted question has been checked. -/
theorem Question.isChecked_decoys {d : Draft} {q : Question} (hq : ofDraft d = .ok q)
    {progress : Progress} (hfinals : finalValues progress q.variables = .ok finals) :
    ∀ answer ∈ finals, answer.decoys.IsChecked := by
  have hall := finalValues_answers hfinals
  have hmem : ∀ v ∈ q.variables.filter Variable.isFinalAnswer, v ∈ q.variables :=
    fun v hv ↦ (List.mem_filter.mp hv).1
  clear hfinals
  generalize q.variables.filter Variable.isFinalAnswer = vs at hall hmem
  induction hall with
  | nil => exact nofun
  | cons hanswers _ ih =>
    obtain ⟨hv, hvs⟩ := List.forall_mem_cons.mp hmem
    exact List.forall_mem_cons.mpr ⟨isChecked_decoyRange hq hv hanswers.role, ih hvs⟩

/-- All that may be wrong with the wrong answers of an accepted question is that there are too many
or too few. -/
theorem Question.of_decoyPools_eq_error {d : Draft} {q : Question} (hq : ofDraft d = .ok q)
    {progress : Progress} (hfinals : finalValues progress q.variables = .ok finals)
    (h : decoyPools required finals = .error fault) :
    (∃ min max step, fault = .decoyRangeTooLarge min max step) ∨
      ∃ name percentages, fault = .insufficientDecoys name percentages := by
  obtain ⟨answer, hanswer, hpool⟩ := exists_of_decoyPools_eq_error h
  rcases FinalValue.of_pool_eq_error hpool with hdeviations | ⟨percentages, rfl⟩
  · have hchecked := isChecked_decoys hq hfinals answer hanswer
    exact .inl ⟨_, _, _, hchecked.eq_of_deviations hdeviations⟩
  · exact .inr ⟨_, percentages, rfl⟩

end Pools

end FormulaQuiz
