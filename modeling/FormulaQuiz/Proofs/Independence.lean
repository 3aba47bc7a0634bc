import FormulaQuiz.Proofs.Lockstep
import FormulaQuiz.Proofs.Preview

/-!
# What does not depend on the aliases

A question whose inputs are not drawn is varied on two sources.  If the aliases are hidden in both
runs, the variations have the same inputs, right values and right option, or fail with the same
code; only the wrong values that are drawn and the order of the options may differ.
-/

namespace FormulaQuiz

open Formula (Bindings)

variable {σ σ' : Type} [Random.WordSource σ] [Random.WordSource σ'] {source : σ} {source' : σ'}

/-! ## Inputs -/

/-- The value of an input that is not drawn. -/
def Variable.given (v : Variable) : Except Fault Float :=
  match v.role with
  | .finalAnswer _ _ => .error (.finalAnswerAsInput v.name)
  | .input none _ => .error (.defaultMissing v.name)
  | .input (some quantity) _ => quantity.value v.name

theorem Variable.outcome_resolve_false (v : Variable) (source : σ) :
    (v.resolve false).outcome source = (v.given, source) := by
  rw [resolve, given]
  cases v.role with
  | finalAnswer places decoys => rfl
  | input default random => cases default <;> rfl

/-- Inputs that are not drawn are bound to the same values. -/
theorem resolveAll_agree {t t' : AliasTable} {b b' : Bindings} {vs : List Variable}
    (hnames : t.names = t'.names) (ht : t.Sound) (ht' : t'.Sound)
    (hb : b.Alike (t.Pairs t') b') :
    Agree Fault.code (fun c c' ↦ c.Alike (t.Pairs t') c')
      ((resolveAll t false b vs).outcome source).1
      ((resolveAll t' false b' vs).outcome source').1 := by
  induction vs generalizing b b' with
  | nil => exact .ok hb
  | cons v vs ih =>
    rw [resolveAll, resolveAll, Trial.outcome_bind, Trial.outcome_bind,
      Variable.outcome_resolve_false, Variable.outcome_resolve_false]
    cases v.given with
    | error fault => exact .error rfl
    | ok x =>
      dsimp only
      rcases AliasTable.alias?_cases hnames v.name with ⟨hu, hv⟩ | ⟨u, w, hu, hw⟩
      · rw [hu, hv]
        exact .error rfl
      · rw [hu, hw]
        dsimp only
        rcases hb.bind ht ht' ⟨v.name, hu, hw⟩ x with
          ⟨⟨_, hbind⟩, _, hbind'⟩ | ⟨grown, grown', hbind, hbind', hgrown⟩
        · rw [hbind, hbind']
          exact .error rfl
        · rw [hbind, hbind']
          exact ih hgrown

/-! ## All values -/

/-- The marks of all formulas of a question. -/
def Question.formulas (q : Question) : List (List Mark) :=
  Step.allMarks (q.variables.map (·.name)) q.steps

namespace Settings

variable {s : Settings} {q : Question}

/-- The aliases when the equations of a run have ended, also with a fault; none, if the run does not
come to its equations. -/
def lastTable? (s : Settings) (q : Question) (source : σ) : Option AliasTable :=
  match (AliasTable.ofNames s.aliasPolicy (q.variables.map (·.name))).outcome source with
  | (.error _, _) => none
  | (.ok aliases, between) =>
    match (q.resolveInputs aliases false).outcome between with
    | (.error _, _) => none
    | (.ok bindings, start) =>
      some ((Step.runAll q q.steps).outcome ⟨aliases, bindings⟩ start).1.2.aliases

/-- A run gives aliases, binds the inputs and runs the equations. -/
theorem outcome_solve (s : Settings) (q : Question) (source : σ) :
    ((s.solve q false).outcome source).1 =
      match (AliasTable.ofNames s.aliasPolicy (q.variables.map (·.name))).outcome source with
      | (.error fault, _) => .error fault
      | (.ok aliases, between) =>
        match (q.resolveInputs aliases false).outcome between with
        | (.error fault, _) => .error fault
        | (.ok bindings, start) =>
          match (Step.runAll q q.steps).outcome ⟨aliases, bindings⟩ start with
          | ((.error fault, _), _) => .error fault
          | ((.ok _, last), _) => .ok last := by
  rw [solve, Trial.outcome_bind]
  generalize (AliasTable.ofNames s.aliasPolicy (q.variables.map (·.name))).outcome source = o
  obtain ⟨aliases, between⟩ := o
  cases aliases with
  | error fault => rfl
  | ok aliases =>
    dsimp only
    rw [Trial.outcome_bind]
    rcases (q.resolveInputs aliases false).outcome between with ⟨bindings, start⟩
    cases bindings with
    | error fault => rfl
    | ok bindings =>
      dsimp only
      rw [Trial.outcome_bind, Trial.outcome_lift]
      rcases hrun : (Step.runAll q q.steps).outcome ⟨aliases, bindings⟩ start with
        ⟨⟨result, last⟩, rest⟩
      rw [show ((Step.runAll q q.steps).run.run ⟨aliases, bindings⟩).run start = _ from hrun]
      cases result <;> rfl

/-- Two runs in which the aliases are hidden come to the same values. -/
theorem solve_alongside (hnodup : (q.variables.map (·.name)).Nodup)
    (hforms : ∀ ms ∈ q.formulas, Mark.IsFormula ms)
    (hhides : ∀ t ∈ s.lastTable? q source, t.Hides q.formulas)
    (hhides' : ∀ t ∈ s.lastTable? q source', t.Hides q.formulas) :
    Alongside Progress.Alike ((s.solve q false).outcome source).1
      ((s.solve q false).outcome source').1 := by
  rw [lastTable?] at hhides hhides'
  rw [outcome_solve, outcome_solve]
  rcases hgives : (AliasTable.ofNames s.aliasPolicy (q.variables.map (·.name))).outcome source with
    ⟨aliases, between⟩
  rcases hgives' : (AliasTable.ofNames s.aliasPolicy (q.variables.map (·.name))).outcome source' with
    ⟨aliases', between'⟩
  rw [hgives] at hhides ⊢
  rw [hgives'] at hhides' ⊢
  cases aliases with
  | error fault =>
    obtain ⟨name, attempts, rfl⟩ := AliasTable.exists_of_extendAll_eq_error hgives
    exact .left _ _ _
  | ok t =>
    cases aliases' with
    | error fault =>
      obtain ⟨name, attempts, rfl⟩ := AliasTable.exists_of_extendAll_eq_error hgives'
      exact .right _ _ _
    | ok t' =>
      dsimp only at hhides hhides' ⊢
      have hnames : t.names = q.variables.map (·.name) := AliasTable.names_extendAll hnodup hgives
      have hnames' : t'.names = q.variables.map (·.name) := AliasTable.names_extendAll hnodup hgives'
      have hsound := (AliasTable.sound_ofNames hgives).1
      have hsound' := (AliasTable.sound_ofNames hgives').1
      have hinputs : Agree Fault.code (fun c c' ↦ c.Alike (t.Pairs t') c')
          ((q.resolveInputs t false).outcome between).1
          ((q.resolveInputs t' false).outcome between').1 :=
        resolveAll_agree (hnames.trans hnames'.symm) hsound hsound' .nil
      generalize (q.resolveInputs t false).outcome between = o at hinputs hhides ⊢
      generalize (q.resolveInputs t' false).outcome between' = o' at hinputs hhides' ⊢
      obtain ⟨bindings, start⟩ := o
      obtain ⟨bindings', start'⟩ := o'
      cases hinputs with
      | error hcode => exact .both (.error hcode)
      | @ok b b' hb =>
        dsimp only at hhides hhides' ⊢
        rcases hrun : (Step.runAll q q.steps).outcome ⟨t, b⟩ start with ⟨⟨result, last⟩, rest⟩
        rcases hrun' : (Step.runAll q q.steps).outcome ⟨t', b'⟩ start' with ⟨⟨result', last'⟩, rest'⟩
        rw [hrun] at hhides
        rw [hrun'] at hhides'
        have halike : Progress.Alike ⟨t, b⟩ ⟨t', b'⟩ :=
          ⟨hnames.trans hnames'.symm, hsound, hsound', hb⟩
        have hmarks : q.formulas = Step.allMarks t.names q.steps := by rw [Question.formulas, hnames]
        rw [hmarks] at hforms hhides hhides'
        have hagree := Step.runAll_alongside halike hrun hrun' hforms (hhides _ rfl) (hhides' _ rfl)
        cases hagree with
        | left name attempts => exact .left _ _ _
        | right name attempts => exact .right _ _ _
        | both hagree =>
          cases hagree with
          | error hcode => exact .both (.error hcode)
          | ok hlast => exact .both (.ok hlast)

end Settings

/-! ## Variations -/

section Values

variable {p p' : Progress} (h : p.Alike p')
include h

/-- Every variable has the same value. -/
theorem Progress.Alike.boundValue_eq (v : Variable) : v.boundValue p = v.boundValue p' := by
  rw [Variable.boundValue, Variable.boundValue]
  rcases AliasTable.alias?_cases h.names v.name with ⟨hu, hw⟩ | ⟨u, w, hu, hw⟩
  · rw [hu, hw]
    rfl
  · rw [hu, hw]
    exact h.bindings.get?_eq h.sound h.sound' ⟨v.name, hu, hw⟩

theorem Progress.Alike.finalValues_eq (vs : List Variable) :
    finalValues p vs = finalValues p' vs := by
  induction vs with
  | nil => rfl
  | cons v vs ih => simp only [finalValues, Variable.finalValue, h.boundValue_eq, ih]

theorem Progress.Alike.shownInputs_eq (q : Question) : q.shownInputs p = q.shownInputs p' := by
  simp only [Question.shownInputs, Variable.shown?, h.boundValue_eq]

end Values

/-- A report without the wrong values, which are drawn. -/
def FinalAnswerPreview.withoutWrong (f : FinalAnswerPreview) : FinalAnswerPreview :=
  { f with incorrectValues := [] }

/-- Two previews show the same inputs, right values, percentages and right option. -/
structure Preview.Alike (p p' : Preview) : Prop where
  shown : p.variation.shown = p'.variation.shown
  finalAnswers : p.finalAnswers.map (·.withoutWrong) = p'.finalAnswers.map (·.withoutWrong)
  correctAnswer? : p.variation.correctAnswer? = p'.variation.correctAnswer?

/-- Only the wrong values in a report depend on the rows. -/
theorem map_withoutWrong_previewsFrom (rows rows' : List (List Decoy)) (column : Nat)
    (finals : List FinalValue) (pools : List DecoyPool) :
    (previewsFrom rows column finals pools).map (·.withoutWrong) =
      (previewsFrom rows' column finals pools).map (·.withoutWrong) := by
  induction finals generalizing pools column with
  | nil => rfl
  | cons answer finals ih =>
    cases pools with
    | nil => rfl
    | cons pool pools => exact congrArg₂ List.cons rfl (ih (column + 1) pools)

/-- The right option is found wherever it stands. -/
theorem find?_isCorrect_of_perm {options wrong : List AnswerOption} {right : AnswerOption}
    (hperm : options.Perm (right :: wrong)) (hright : right.isCorrect = true)
    (hwrong : ∀ option ∈ wrong, option.isCorrect = false) :
    options.find? (·.isCorrect) = some right := by
  rw [← List.head?_filter, filter_isCorrect_of_perm hperm hright hwrong, List.head?_cons]

theorem find?_isCorrect_shuffled {finals : List FinalValue} {rows : List (List Decoy)}
    {options : List AnswerOption} {rest : σ}
    (h : (shuffledOptions finals rows).run source = (options, rest)) :
    options.find? (·.isCorrect) = some ⟨answerRow finals (finals.map (·.value)), true, true⟩ :=
  find?_isCorrect_of_perm (Random.shuffle_perm h) rfl
    (List.forall_mem_map.mpr fun _ _ ↦ rfl)

/-- Pools that are large enough give columns. -/
theorem exists_drawColumns {count : Nat} {pools : List DecoyPool}
    (h : ∀ pool ∈ pools, count ≤ pool.candidates.length) (source : σ) :
    ∃ columns rest, (drawColumns count pools).Gives source columns rest := by
  induction pools generalizing source with
  | nil => exact ⟨[], source, rfl⟩
  | cons pool pools ih =>
    obtain ⟨hpool, hpools⟩ := List.forall_mem_cons.mp h
    rcases hshuffle : (Random.shuffle pool.candidates).run source with ⟨shuffled, between⟩
    obtain ⟨columns, rest, hcolumns⟩ := ih hpools between
    refine ⟨shuffled.take count :: columns, rest, ?_⟩
    rw [drawColumns, if_neg (Nat.not_lt.mpr hpool)]
    simp only [Trial.gives_bind_iff, Trial.gives_lift_iff, Trial.gives_pure_iff]
    exact ⟨shuffled, between, hshuffle, columns, rest, hcolumns, rfl, rfl⟩

/-- A pool has as many wrong values as are required. -/
theorem FinalValue.le_length_of_pool {answer : FinalValue} {required : Nat} {pool : DecoyPool}
    (h : answer.pool required = .ok pool) : required ≤ pool.candidates.length := by
  obtain ⟨ds, -, -, hcount⟩ := DecoyPool.candidates_eq h
  exact hcount

theorem le_length_of_decoyPools {finals : List FinalValue} {required : Nat} {pools : List DecoyPool}
    (h : decoyPools required finals = .ok pools) :
    ∀ pool ∈ pools, required ≤ pool.candidates.length := by
  have hall := decoyPools_eq_ok h
  clear h
  induction hall with
  | nil => exact nofun
  | cons hpool _ ih => exact List.forall_mem_cons.mpr ⟨FinalValue.le_length_of_pool hpool, ih⟩

namespace Settings

variable {s : Settings} {q : Question} {p p' : Progress}

/-- A preview when the values of all names are known. -/
def present (s : Settings) (q : Question) (progress : Progress) : Trial σ Preview := do
  let finals ← Trial.ofExcept (finalValues progress q.variables)
  let pools ← Trial.ofExcept (decoyPools s.decoyCount finals)
  let rows ← drawRows s.decoyCount pools
  let options : Random.Draw σ (List AnswerOption) := shuffledOptions finals rows
  return {
    finalAnswers := previewsFrom rows 0 finals pools
    variation := { shown := q.shownInputs progress, answers := ← options } }

theorem preview_eq (s : Settings) (q : Question) (randomize : Bool) :
    (s.preview q randomize : Trial σ Preview) = s.solve q randomize >>= s.present q := rfl

/-- When there are enough wrong values, nothing more goes wrong. -/
theorem exists_present {finals : List FinalValue} {pools : List DecoyPool}
    (hfinals : finalValues p q.variables = .ok finals)
    (hpools : decoyPools s.decoyCount finals = .ok pools) (source : σ) :
    ∃ rows options rest, (s.present q p).Gives source
        ⟨previewsFrom rows 0 finals pools, q.shownInputs p, options⟩ rest ∧
      options.find? (·.isCorrect) = some ⟨answerRow finals (finals.map (·.value)), true, true⟩ := by
  obtain ⟨columns, between, hcolumns⟩ := exists_drawColumns (le_length_of_decoyPools hpools) source
  rcases hoptions : (shuffledOptions finals (rowsOf s.decoyCount columns)).run between with
    ⟨options, rest⟩
  refine ⟨rowsOf s.decoyCount columns, options, rest, ?_, find?_isCorrect_shuffled hoptions⟩
  simp only [present, drawRows, Trial.gives_bind_iff, Trial.gives_lift_iff,
    Trial.gives_ofExcept_iff, Trial.gives_pure_iff]
  exact ⟨finals, source, ⟨hfinals, rfl⟩, pools, source, ⟨hpools, rfl⟩, _, between,
    ⟨columns, between, hcolumns, rfl, rfl⟩, options, rest, hoptions, rfl, rfl⟩

/-- A preview with known values fails only for a final answer or for its wrong values. -/
theorem fails_present {fault : Fault} {rest : σ} (h : (s.present q p).Fails source fault rest) :
    (finalValues p q.variables = .error fault ∨ ∃ finals, finalValues p q.variables = .ok finals ∧
      decoyPools s.decoyCount finals = .error fault) ∧ rest = source := by
  cases hfinals : finalValues p q.variables with
  | error fault' =>
    rw [present, hfinals] at h
    obtain ⟨rfl, rfl⟩ : fault' = fault ∧ source = rest := by
      simpa [Trial.Fails, Trial.outcome_bind] using h
    exact ⟨.inl rfl, rfl⟩
  | ok finals =>
    cases hpools : decoyPools s.decoyCount finals with
    | error fault' =>
      rw [present, hfinals] at h
      obtain ⟨rfl, rfl⟩ : fault' = fault ∧ source = rest := by
        simpa [Trial.Fails, Trial.outcome_bind, hpools] using h
      exact ⟨.inr ⟨finals, rfl, hpools⟩, rfl⟩
    | ok pools =>
      obtain ⟨rows, options, rest', hgives, -⟩ := exists_present hfinals hpools source
      exact absurd h hgives.not_fails

/-- Where the values are the same, previews differ in what is drawn only. -/
theorem present_agree (h : p.Alike p') :
    Agree Fault.code Preview.Alike ((s.present q p).outcome source).1
      ((s.present q p').outcome source').1 := by
  have hfinals := h.finalValues_eq q.variables
  cases hfinal : finalValues p' q.variables with
  | error fault =>
    rw [present, present, Trial.outcome_bind, Trial.outcome_bind, hfinals, hfinal]
    exact .error rfl
  | ok finals =>
    cases hpools : decoyPools s.decoyCount finals with
    | error fault =>
      rw [present, present, Trial.outcome_bind, Trial.outcome_bind, hfinals, hfinal]
      simp only [Trial.outcome_ofExcept, Trial.outcome_bind, hpools]
      exact .error rfl
    | ok pools =>
      obtain ⟨rows, options, rest, hgives, hright⟩ :=
        exists_present (hfinals.trans hfinal) hpools source
      obtain ⟨rows', options', rest', hgives', hright'⟩ := exists_present hfinal hpools source'
      rw [show (s.present q p).outcome source = _ from hgives,
        show (s.present q p').outcome source' = _ from hgives']
      exact .ok ⟨h.shownInputs_eq q, map_withoutWrong_previewsFrom _ _ _ _ _,
        hright.trans hright'.symm⟩

/-- Two previews of an accepted question, in which no input is drawn, on two sources.  If each name
finds an alias and the aliases are hidden, both previews show the same, or both fail with the same
code. -/
theorem preview_agree {d : Draft} (hq : Question.ofDraft d = .ok q)
    (hforms : ∀ ms ∈ q.formulas, Mark.IsFormula ms)
    (hhides : ∀ t ∈ s.lastTable? q source, t.Hides q.formulas)
    (hhides' : ∀ t ∈ s.lastTable? q source', t.Hides q.formulas)
    (hfound : ∀ name attempts,
      ((s.preview q false).outcome source).1 ≠ .error (.aliasesExhausted name attempts))
    (hfound' : ∀ name attempts,
      ((s.preview q false).outcome source').1 ≠ .error (.aliasesExhausted name attempts)) :
    Agree Fault.code Preview.Alike ((s.preview q false).outcome source).1
      ((s.preview q false).outcome source').1 := by
  have hsolve := solve_alongside (Question.nodup_names hq) hforms hhides hhides'
  rw [preview_eq, Trial.outcome_bind] at hfound hfound' ⊢
  rw [preview_eq, Trial.outcome_bind]
  generalize (s.solve q false).outcome source = o at hsolve hfound ⊢
  generalize (s.solve q false).outcome source' = o' at hsolve hfound' ⊢
  obtain ⟨result, rest⟩ := o
  obtain ⟨result', rest'⟩ := o'
  cases hsolve with
  | left name attempts => exact absurd rfl (hfound name attempts)
  | right name attempts => exact absurd rfl (hfound' name attempts)
  | both hagree =>
    cases hagree with
    | error hcode => exact .error hcode
    | ok halike => exact present_agree halike

/-- The formula of the question `triple`. -/
theorem formulas_triple : Question.triple.formulas =
    [[.name "a", .char ' ', .char '*', .char ' ', .char '3']] := by
  simp only [Question.formulas, Question.triple, Step.allMarks, Step.marks, Mark.ofText_eq_foldl]
  decide

theorem isFormula_triple : ∀ ms ∈ Question.triple.formulas, Mark.IsFormula ms := by
  rw [formulas_triple, List.forall_mem_singleton]
  refine ⟨by decide, fun _ ↦ ?_⟩
  have hown : Mark.ownLexemes [.name "a", .char ' ', .char '*', .char ' ', .char '3'] =
      [.operator '*', .numeral "3"] := by decide
  rw [hown]
  refine List.forall_mem_cons.mpr ⟨⟨rfl, nofun⟩, List.forall_mem_singleton.mpr ⟨?_, nofun⟩⟩
  change (Decimal.numeralValue "3".toList).isFinite = true
  rfl

set_option maxRecDepth 4000 in
/-- Two sources give aliases of one character to the names of `triple`, and the previews succeed. -/
theorem runs_triple :
    (lastTable? { aliasLength := 1 } .triple (Random.ChaCha.ofSeed 0) =
        some ⟨⟨1, 1000⟩, [("a", "t"), ("F", "u")]⟩ ∧
      ((preview { aliasLength := 1 } .triple false).outcome
        (Random.ChaCha.ofSeed 0)).1.toOption.isSome = true) ∧
    lastTable? { aliasLength := 1 } .triple (Random.ChaCha.ofSeed 1) =
        some ⟨⟨1, 1000⟩, [("a", "z"), ("F", "l")]⟩ ∧
      ((preview { aliasLength := 1 } .triple false).outcome
        (Random.ChaCha.ofSeed 1)).1.toOption.isSome = true := by
  simp only [lastTable?, preview, solve, Question.triple, Step.runAll, Step.run, Step.value,
    Step.formula, Step.fail, Step.report, AliasTable.substitute_eq_foldl]
  decide +kernel

theorem preview_agree_triple : Question.ofDraft .triple = .ok .triple ∧
    Agree Fault.code Preview.Alike
      ((preview { aliasLength := 1 } .triple false).outcome (Random.ChaCha.ofSeed 0)).1
      ((preview { aliasLength := 1 } .triple false).outcome (Random.ChaCha.ofSeed 1)).1 := by
  obtain ⟨⟨htable, hsome⟩, htable', hsome'⟩ := runs_triple
  refine ⟨Question.ofDraft_triple, preview_agree Question.ofDraft_triple isFormula_triple ?_ ?_ ?_ ?_⟩
  · rw [htable, formulas_triple]
    rintro _ ⟨⟩
    decide
  · rw [htable', formulas_triple]
    rintro _ ⟨⟩
    decide
  · intro name attempts hexhausted
    rw [hexhausted] at hsome
    exact nomatch hsome
  · intro name attempts hexhausted
    rw [hexhausted] at hsome'
    exact nomatch hsome'

end Settings

/-- A draft with a name that may be the alias of another one. -/
def Draft.taken : Draft :=
  ⟨[{ name := "a", default := some (.number 2) },
    { name := "F", isFinalAnswer := true, decimalPlaces := some 1 }],
    [{ expr := "z = 7" }, { expr := "F = a" }]⟩

/-- The question that the draft is. -/
def Question.taken : Question :=
  ⟨[⟨"a", none, none, .input (some (.number 2)) none⟩,
    ⟨"F", none, some 1, .finalAnswer 1 defaultDecoys⟩],
    [⟨1, "z = 7", "z", "7", none⟩, ⟨2, "F = a", "F", "a", none⟩]⟩

set_option maxRecDepth 4000 in
/-- Where the new name is the alias of the input, the answer is the value of the new name. -/
theorem Settings.preview_taken : Question.ofDraft .taken = .ok .taken ∧ ∃ p rest p' rest',
    (preview { aliasLength := 1 } .taken false).Gives (Random.ChaCha.ofSeed 0) p rest ∧
      (preview { aliasLength := 1 } .taken false).Gives (Random.ChaCha.ofSeed 1) p' rest' ∧
      p.finalAnswers.map (·.display) = ["2.0"] ∧ p'.finalAnswers.map (·.display) = ["7.0"] ∧
      ¬ p.Alike p' := by
  obtain ⟨p, rest, hgives, hdisplay⟩ : ∃ p rest,
      (preview { aliasLength := 1 } .taken false).Gives (Random.ChaCha.ofSeed 0) p rest ∧
        (p.finalAnswers.map (·.display) == ["2.0"]) = true := by
    refine Trial.exists_gives_of_any ?_
    simp only [preview, solve, Question.taken, Step.runAll, Step.run, Step.value, Step.formula,
      Step.fail, Step.report, AliasTable.substitute_eq_foldl]
    decide +kernel
  obtain ⟨p', rest', hgives', hdisplay'⟩ : ∃ p' rest',
      (preview { aliasLength := 1 } .taken false).Gives (Random.ChaCha.ofSeed 1) p' rest' ∧
        (p'.finalAnswers.map (·.display) == ["7.0"]) = true := by
    refine Trial.exists_gives_of_any ?_
    simp only [preview, solve, Question.taken, Step.runAll, Step.run, Step.value, Step.formula,
      Step.fail, Step.report, AliasTable.substitute_eq_foldl]
    decide +kernel
  rw [beq_iff_eq] at hdisplay hdisplay'
  refine ⟨by with_unfolding_all rfl, p, rest, p', rest', hgives, hgives', hdisplay, hdisplay',
    fun halike ↦ ?_⟩
  have hmap := congrArg (List.map (·.display)) halike.finalAnswers
  rw [List.map_map, List.map_map] at hmap
  have hsame : p.finalAnswers.map (·.display) = p'.finalAnswers.map (·.display) := hmap
  rw [hdisplay, hdisplay'] at hsame
  exact absurd hsame (by decide)

end FormulaQuiz
