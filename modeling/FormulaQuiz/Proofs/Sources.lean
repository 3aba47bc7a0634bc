import FormulaQuiz.Proofs.Preview
import FormulaQuiz.Variation.Request

/-!
# What learners are served

A source with the same answers for all learners only moves them; it serves them if one is correct.
A source with a draft serves its variations, each of which has one correct option.  Both hold
whatever is drawn, so they hold with every seed and with none.
-/

namespace FormulaQuiz

namespace Settings

variable {σ : Type} [Random.WordSource σ] {q : Question} {s : Settings} {randomize : Bool}
  {source rest : σ} {v : Variation}

/-- Of the options of a variation one is correct. -/
theorem exists_filter_isCorrect (h : (s.generate q randomize).Gives source v rest) :
    ∃ right, v.answers.filter (·.isCorrect) = [right] := by
  obtain ⟨p, hpreview, rfl⟩ := exists_preview_of_generate h
  obtain ⟨cs, -, -, -, hperm, -⟩ := columns_of_preview hpreview
  exact ⟨_, filter_isCorrect_of_perm hperm rfl (List.forall_mem_map.mpr fun _ _ ↦ rfl)⟩

end Settings

namespace Source

variable {v : Variation}

/-- What a learner sees, as an action that draws. -/
def served {σ : Type} [Random.WordSource σ] : Source → Trial σ Variation
  | .dynamic draft => do
    let question ← Trial.ofExcept (Question.ofDraft draft)
    Settings.generate {} question true
  | .static answers => do
    if answers.isEmpty then throw .noAnswers
    if !answers.any (·.isCorrect) then throw .noCorrectAnswer
    let shuffled : Random.Draw σ (List AnswerOption) := Random.shuffle answers
    return ⟨[], ← shuffled⟩

/-- A seed starts the action with its generator. -/
theorem instantiate_eq (s : Source) (seed : UInt64) :
    s.instantiate seed = (s.served.outcome (Random.ChaCha.ofSeed seed)).1 := by
  cases s with
  | dynamic draft =>
    rw [instantiate, Request.generate, served, Trial.outcome_bind, Trial.outcome_ofExcept]
    cases Question.ofDraft draft with
    | error fault => rfl
    | ok question => rfl
  | static answers =>
    rw [instantiate, served]
    split
    · rfl
    · dsimp only
      split <;> rfl

section Served

variable {σ : Type} [Random.WordSource σ] {source : σ}

/-- The same answers are served, in some order, if there are any and one is correct. -/
theorem outcome_served_static (answers : List AnswerOption) (source : σ) :
    (answers ≠ [] ∧ ∃ a ∈ answers, a.isCorrect = true) ∧ (∃ moved, moved.Perm answers ∧
        ((static answers).served.outcome source).1 = .ok ⟨[], moved⟩) ∨
      ¬ (answers ≠ [] ∧ ∃ a ∈ answers, a.isCorrect = true) ∧
        ∃ fault, ((static answers).served.outcome source).1 = .error fault := by
  rw [served]
  split
  next hempty => exact .inr ⟨fun h ↦ h.1 (List.isEmpty_iff.mp hempty), _, rfl⟩
  next hempty =>
    have hnonempty : answers ≠ [] := fun h ↦ hempty (List.isEmpty_iff.mpr h)
    dsimp only
    split
    next hwrong =>
      rw [Bool.not_eq_true', List.any_eq_false] at hwrong
      exact .inr ⟨fun ⟨_, a, ha, hcorrect⟩ ↦ hwrong a ha hcorrect, _, rfl⟩
    next hright =>
      rw [Bool.not_eq_true', Bool.not_eq_false, List.any_eq_true] at hright
      rcases hmoved : (Random.shuffle answers).run source with ⟨moved, rest⟩
      refine .inl ⟨⟨hnonempty, hright⟩, moved, Random.shuffle_perm hmoved, ?_⟩
      simp only [Trial.outcome_bind, Trial.outcome_lift, Trial.outcome_pure, hmoved]

/-- A variation that is served of a draft has one correct option. -/
theorem filter_isCorrect_served_dynamic {draft : Draft}
    (h : ((dynamic draft).served.outcome source).1 = .ok v) :
    ∃ right, v.answers.filter (·.isCorrect) = [right] := by
  rcases hserved : (dynamic draft).served.outcome source with ⟨result, rest⟩
  rw [hserved] at h
  subst h
  obtain ⟨question, _, -, hgenerate⟩ := Trial.gives_bind_iff.mp hserved
  exact Settings.exists_filter_isCorrect hgenerate

/-- What is served of a source, and when. -/
structure Serves (s : Source) (result : Except Fault Variation) : Prop where
  /-- The same answers for all learners are served if there are any and one is correct. -/
  static_iff : ∀ answers, s = .static answers →
    ((∃ v, result = .ok v) ↔ answers ≠ [] ∧ ∃ a ∈ answers, a.isCorrect = true)
  /-- They are only moved, and no inputs are shown with them. -/
  static_perm : ∀ answers v, s = .static answers → result = .ok v →
    v.shown = [] ∧ v.answers.Perm answers
  /-- There is a correct answer among all that is served, -/
  correct : ∀ v, result = .ok v →
    ∃ right ∈ v.answers, v.correctAnswer? = some right ∧ right.isCorrect = true
  /-- and in a variation of a draft there is no other. -/
  dynamic : ∀ draft v, s = .dynamic draft → result = .ok v →
    ∃ right, v.correctAnswer? = some right ∧ v.answers.filter (·.isCorrect) = [right]

/-- The first correct answer is found wherever it stands. -/
theorem exists_correctAnswer (h : ∃ a ∈ v.answers, a.isCorrect = true) :
    ∃ right ∈ v.answers, v.correctAnswer? = some right ∧ right.isCorrect = true := by
  obtain ⟨right, hfound⟩ : ∃ right, v.answers.find? (·.isCorrect) = some right := by
    rw [← Option.isSome_iff_exists, List.find?_isSome]
    exact h
  exact ⟨right, List.mem_of_find?_eq_some hfound, hfound, List.find?_some hfound⟩

theorem serves_dynamic (draft : Draft) (source : σ) :
    (Source.dynamic draft).Serves ((Source.dynamic draft).served.outcome source).1 where
  static_iff := nofun
  static_perm := nofun
  correct := by
    intro v h
    obtain ⟨right, hone⟩ := filter_isCorrect_served_dynamic h
    have hright : right ∈ v.answers.filter (·.isCorrect) := hone ▸ List.mem_singleton_self right
    exact exists_correctAnswer ⟨right, List.mem_filter.mp hright⟩
  dynamic := by
    intro _ v _ h
    obtain ⟨right, hone⟩ := filter_isCorrect_served_dynamic h
    refine ⟨right, ?_, hone⟩
    rw [Variation.correctAnswer?, ← List.head?_filter, hone, List.head?_cons]

theorem serves_static (answers : List AnswerOption) (source : σ) :
    (Source.static answers).Serves ((Source.static answers).served.outcome source).1 := by
  rcases outcome_served_static answers source with
    ⟨hright, moved, hperm, hserved⟩ | ⟨hwrong, fault, hserved⟩
  · rw [hserved]
    refine ⟨?_, ?_, ?_, nofun⟩
    · rintro _ ⟨⟩
      exact ⟨fun _ ↦ hright, fun _ ↦ ⟨_, rfl⟩⟩
    · rintro _ _ ⟨⟩ ⟨⟩
      exact ⟨rfl, hperm⟩
    · rintro _ ⟨⟩
      obtain ⟨-, a, ha, hcorrect⟩ := hright
      exact exists_correctAnswer ⟨a, hperm.mem_iff.mpr ha, hcorrect⟩
  · rw [hserved]
    refine ⟨?_, nofun, nofun, nofun⟩
    rintro _ ⟨⟩
    exact ⟨fun ⟨_, hserved⟩ ↦ (nomatch hserved), fun hright ↦ absurd hright hwrong⟩

end Served

/-- Whatever is drawn, answers that are the same for all learners are served if one of them is
correct, and variations of a draft have one correct option. -/
theorem serves_instantiate (s : Source) : (∀ seed, s.Serves (s.instantiate seed)) ∧
    ∀ (σ : Type) [Random.WordSource σ] (source : σ), s.Serves (s.served.outcome source).1 := by
  have hserves : ∀ (σ : Type) [Random.WordSource σ] (source : σ),
      s.Serves (s.served.outcome source).1 := by
    intro σ _ source
    cases s with
    | dynamic draft => exact serves_dynamic draft source
    | static answers => exact serves_static answers source
  refine ⟨fun seed ↦ ?_, hserves⟩
  rw [instantiate_eq]
  exact hserves _ _

end Source

end FormulaQuiz
