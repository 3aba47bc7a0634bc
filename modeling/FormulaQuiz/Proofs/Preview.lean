import FormulaQuiz.Proofs.Layout
import FormulaQuiz.Proofs.Substitution
import FormulaQuiz.Random.ChaCha

/-!
# What a preview shows

A preview lists the final answers and the inputs of its question in order of declaration, and its
options are the right answers and one row of wrong values each.
-/

namespace FormulaQuiz

/-- The text of an option that gives every final answer of a question a value, which is read off its
report. -/
def Question.answerText (q : Question) (reports : List FinalAnswerPreview)
    (value : FinalAnswerPreview → Float) : String :=
  ",".intercalate (q.finalAnswers.zipWith (fun v report ↦
    answerPart v.name v.unit (value report) (v.decimalPlaces.getD defaultPlaces)) reports)

/-- What a preview of a question shows if it has a number of wrong options. -/
structure Preview.Shows (p : Preview) (q : Question) (count : Nat) : Prop where
  /-- The reports are on the final answers in order of declaration. -/
  finalAnswers : p.finalAnswers.map (fun f ↦ (f.name, f.unit)) =
    q.finalAnswers.map fun v ↦ (v.name, v.unit)
  /-- Every report has one wrong value for each wrong option. -/
  incorrectValues : ∀ f ∈ p.finalAnswers, f.incorrectValues.length = count
  /-- One option has the right values, and each other one a row of wrong values. -/
  answers : p.variation.answers.Perm
    (⟨q.answerText p.finalAnswers (·.value), true, true⟩ ::
      (List.range count).map fun r ↦
        ⟨q.answerText p.finalAnswers (·.incorrectValues.getD r 0), false, true⟩)
  /-- The inputs are shown in order of declaration. -/
  inputs : p.variation.shown.map (fun v ↦ (v.name, v.unit)) =
    q.inputs.map fun v ↦ (v.name, v.unit)
  /-- No input is shown twice. -/
  nodup : (p.variation.shown.map (·.name)).Nodup

section Columns

variable {count : Nat} {cs : List AnswerColumn}

/-- The precision of a column is the one that the author gives. -/
theorem Question.decimalPlaces_asked {d : Draft} {q : Question} (hq : ofDraft d = .ok q)
    (hcs : cs.map (·.asked) = q.finalAnswers) (hfits : ∀ c ∈ cs, c.Fits count) {c : AnswerColumn}
    (hc : c ∈ cs) : c.asked.decimalPlaces.getD defaultPlaces = c.answer.places := by
  have hasked : c.asked ∈ q.variables := by
    have hmem : c.asked ∈ q.finalAnswers := hcs ▸ List.mem_map_of_mem hc
    exact (List.mem_filter.mp hmem).1
  rw [decimalPlaces_eq hq hasked (hfits c hc).answers.role, Option.getD_some]

/-- The text of an option is made of the reports as it is made of the columns. -/
theorem Question.answerText_columns {d : Draft} {q : Question} (hq : ofDraft d = .ok q)
    (hcs : cs.map (·.asked) = q.finalAnswers) (hfits : ∀ c ∈ cs, c.Fits count)
    (value : FinalAnswerPreview → Float) :
    q.answerText (cs.map AnswerColumn.report) value =
      answerRow (cs.map (·.answer)) (cs.map fun c ↦ value c.report) := by
  rw [answerText, ← hcs, List.zipWith_map, List.zipWith_self, answerRow_map]
  refine congrArg _ (List.map_congr_left fun c hc ↦ ?_)
  have hanswers := (hfits c hc).answers
  rw [decimalPlaces_asked hq hcs hfits hc, hanswers.name, hanswers.unit]

end Columns

/-- Among options in any order there is one that is correct, if there was one before. -/
theorem filter_isCorrect_of_perm {options wrong : List AnswerOption} {right : AnswerOption}
    (hperm : options.Perm (right :: wrong)) (hright : right.isCorrect = true)
    (hwrong : ∀ option ∈ wrong, option.isCorrect = false) :
    options.filter (·.isCorrect) = [right] := by
  refine List.perm_singleton.mp ((hperm.filter _).trans ?_)
  rw [List.filter_cons_of_pos hright]
  have hnone : wrong.filter (·.isCorrect) = [] :=
    List.filter_eq_nil_iff.mpr fun option hmem ↦ by simp [hwrong option hmem]
  rw [hnone]

/-- The inputs that have values are shown, and nothing else. -/
theorem Question.map_shownInputs {q : Question} {progress : Progress}
    (h : ∀ v ∈ q.inputs, (v.boundValue progress).isSome) :
    (q.shownInputs progress).map (fun v ↦ (v.name, v.unit)) =
      q.inputs.map fun v ↦ (v.name, v.unit) := by
  rw [shownInputs, List.map_filterMap, ← List.filterMap_eq_map]
  refine List.filterMap_congr fun v hv ↦ ?_
  obtain ⟨raw, hraw⟩ := Option.isSome_iff_exists.mp (h v hv)
  rw [Variable.shown?, hraw]
  cases v.decimalPlaces with
  | none => rfl
  | some places => rfl

/-- A variation is the one of a preview. -/
theorem Settings.exists_preview_of_generate {σ : Type} [Random.WordSource σ] {q : Question}
    {s : Settings} {randomize : Bool} {source rest : σ} {v : Variation}
    (h : (s.generate q randomize).Gives source v rest) :
    ∃ p, (s.preview q randomize).Gives source p rest ∧ v = p.variation := by
  simp only [generate, Trial.gives_bind_iff, Trial.gives_pure_iff] at h
  obtain ⟨p, _, hpreview, rfl, rfl⟩ := h
  exact ⟨p, hpreview, rfl⟩

/-- Everything that a preview shows comes from one list of columns, one for each final answer, and
from values of all inputs. -/
theorem Settings.columns_of_preview {σ : Type} [Random.WordSource σ] {q : Question} {s : Settings}
    {randomize : Bool} {source rest : σ} {p : Preview}
    (h : (s.preview q randomize).Gives source p rest) :
    ∃ cs : List AnswerColumn, (∀ c ∈ cs, c.Fits s.decoyCount) ∧
      cs.map (·.asked) = q.finalAnswers ∧ p.finalAnswers = cs.map AnswerColumn.report ∧
      p.variation.answers.Perm
        (⟨answerRow (cs.map (·.answer)) (cs.map (·.answer.value)), true, true⟩ ::
          (List.range s.decoyCount).map fun r ↦
            ⟨answerRow (cs.map (·.answer)) (cs.map (·.values.getD r 0)), false, true⟩) ∧
      ∃ progress, p.variation.shown = q.shownInputs progress ∧
        ∀ v ∈ q.inputs, (v.boundValue progress).isSome := by
  simp only [preview, drawRows, Trial.gives_bind_iff, Trial.gives_lift_iff,
    Trial.gives_ofExcept_iff, Trial.gives_pure_iff] at h
  obtain ⟨progress, _, hsolve, finals, _, ⟨hfinals, rfl⟩, pools, _, ⟨hpools, rfl⟩, rows, _,
    ⟨columns, _, hcolumns, rfl, rfl⟩, options, _, hoptions, rfl, rfl⟩ := h
  obtain ⟨cs, hfits, hasked, rfl, rfl, rfl⟩ := exists_columns (finalValues_answers hfinals)
    (decoyPools_eq_ok hpools) (drawColumns_gives hcolumns)
  refine ⟨cs, hfits, hasked, ?_, ?_, progress, rfl, solve_gives hsolve⟩
  · have hlength : ∀ column ∈ cs.map (·.decoys), column.length = s.decoyCount :=
      List.forall_mem_map.mpr fun c hc ↦ (hfits c hc).length
    refine previewsFrom_columns 0 fun i c hc ↦ ?_
    rw [Nat.zero_add]
    exact column_rowsOf hlength (by rw [List.getElem?_map, hc, Option.map_some])
  · rw [← answerOptions_columns hfits]
    exact Random.shuffle_perm hoptions

/-- A preview of an accepted question has the right option and the rows of wrong values as its
options, and shows all inputs. -/
theorem Settings.shows_of_preview {σ : Type} [Random.WordSource σ] {d : Draft} {q : Question}
    {s : Settings} {randomize : Bool} {source rest : σ} {p : Preview}
    (hq : Question.ofDraft d = .ok q) (h : (s.preview q randomize).Gives source p rest) :
    p.Shows q s.decoyCount := by
  obtain ⟨cs, hfits, hasked, hreports, hperm, progress, hshown, hbound⟩ := columns_of_preview h
  have hinputs := Question.map_shownInputs hbound
  refine ⟨?_, ?_, ?_, hshown ▸ hinputs, ?_⟩
  · rw [hreports, ← hasked, List.map_map, List.map_map]
    refine List.map_congr_left fun c hc ↦ Prod.ext ?_ ?_
    · exact (hfits c hc).answers.name
    · exact (hfits c hc).answers.unit
  · rw [hreports]
    refine List.forall_mem_map.mpr fun c hc ↦ ?_
    rw [AnswerColumn.report, AnswerColumn.values, List.length_map]
    exact (hfits c hc).length
  · simp only [hreports, Question.answerText_columns hq hasked hfits]
    exact hperm
  · have hnames := congrArg (List.map Prod.fst) hinputs
    rw [List.map_map, List.map_map] at hnames
    rw [hshown]
    refine hnames ▸ ?_
    exact ((List.filter_sublist).map _).nodup (Question.nodup_names hq)

/-- A draft that asks for three times an input. -/
def Draft.triple : Draft :=
  ⟨[{ name := "a", default := some (.number 2) },
    { name := "F", isFinalAnswer := true, decimalPlaces := some 1 }], [{ expr := "F = a * 3" }]⟩

/-- The question that the draft is. -/
def Question.triple : Question :=
  ⟨[⟨"a", none, none, .input (some (.number 2)) none⟩,
    ⟨"F", none, some 1, .finalAnswer 1 defaultDecoys⟩], [⟨1, "F = a * 3", "F", "a * 3", none⟩]⟩

theorem Question.ofDraft_triple : ofDraft .triple = .ok .triple := by with_unfolding_all rfl

/-- Whether all values of the final answers of a preview are finite and below a bound. -/
def Preview.isBelow (bound : ℕ) (p : Preview) : Bool :=
  p.finalAnswers.all fun f ↦ (f.value :: f.incorrectValues).all fun x ↦
    (Dyadic.ofFloat? x).any fun d ↦ decide (d.numerator < bound * d.denominator)

theorem Preview.exists_of_isBelow {bound : ℕ} {p : Preview} {f : FinalAnswerPreview}
    (hp : p.isBelow bound = true) (hf : f ∈ p.finalAnswers) {x : Float}
    (hx : x ∈ f.value :: f.incorrectValues) :
    ∃ d, Dyadic.ofFloat? x = some d ∧ d.numerator < bound * d.denominator := by
  have hbelow := List.all_eq_true.mp (List.all_eq_true.mp hp f hf) x hx
  rw [Option.any_eq_true] at hbelow
  obtain ⟨d, hd, hlt⟩ := hbelow
  exact ⟨d, hd, of_decide_eq_true hlt⟩

set_option maxRecDepth 4000 in
theorem Settings.exists_preview_triple :
    ∃ p rest, (preview {} .triple false).Gives (Random.ChaCha.ofSeed 0) p rest ∧
      p.isBelow 1000 = true := by
  refine Trial.exists_gives_of_any ?_
  simp only [preview, solve, Question.triple, Step.runAll, Step.run, Step.value, Step.formula,
    Step.fail, Step.report, AliasTable.substitute_eq_foldl]
  decide +kernel

theorem Settings.shows_triple : ∃ p rest,
    (preview {} .triple false).Gives (Random.ChaCha.ofSeed 0) p rest ∧ p.Shows .triple 3 := by
  obtain ⟨p, rest, h, -⟩ := exists_preview_triple
  exact ⟨p, rest, h, shows_of_preview Question.ofDraft_triple h⟩

end FormulaQuiz
