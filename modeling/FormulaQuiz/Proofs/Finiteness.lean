import FormulaQuiz.Proofs.Acceptance
import FormulaQuiz.Proofs.Independence
import FormulaQuiz.Proofs.Strays

/-!
# Finite values

Whatever gives a name its value gives a finite one: a default is checked, a draw goes to a number of
its range, and an equation whose value is not finite is not solved.  So a final answer is no number
only if no equation has it on its left side.
-/

namespace FormulaQuiz

open Formula (Bindings)

/-! ## Ways to a value -/

namespace Formula

theorem Value.isFinite_of_toFinite {v : Value} {x : Float} (h : v.toFinite = .ok x) :
    x.isFinite = true := by
  rw [toFinite] at h
  split at h
  · split at h
    next hfinite =>
      cases h
      exact hfinite
    next => exact nomatch h
  · exact nomatch h

/-- A formula has a finite value or none. -/
theorem isFinite_of_evaluate {b : Bindings} {source : String} {x : Float}
    (h : evaluate b source = .ok x) : x.isFinite = true := by
  rw [evaluate] at h
  split at h
  · cases h
  · split at h
    · exact Value.isFinite_of_toFinite h
    · cases h

/-- All bound values are finite. -/
def Bindings.AllFinite (b : Bindings) : Prop := ∀ e ∈ b.entries, e.2.isFinite = true

theorem Bindings.AllFinite.push {b : Bindings} (h : b.AllFinite) {word : String} {x : Float}
    (hx : x.isFinite = true) : Bindings.AllFinite ⟨b.entries ++ [(word, x)]⟩ :=
  List.forall_mem_append.mpr ⟨h, List.forall_mem_singleton.mpr hx⟩

theorem Bindings.AllFinite.get? {b : Bindings} (h : b.AllFinite) {word : String} {x : Float}
    (hx : b.get? word = some x) : x.isFinite = true := by
  obtain ⟨older, newer, hentries, -⟩ := List.lookup_eq_some_iff.mp hx
  exact h (word, x) (hentries ▸ List.mem_append_right _ List.mem_cons_self)

end Formula

theorem Quantity.isFinite_of_value {name : String} {quantity : Quantity} {x : Float}
    (h : quantity.value name = .ok x) : x.isFinite = true := by
  cases quantity with
  | number y =>
    rw [value] at h
    split at h
    next hfinite =>
      cases h
      exact hfinite
    next => exact nomatch h
  | formula text =>
    rw [value] at h
    split at h
    next hvalue =>
      cases h
      exact Formula.isFinite_of_evaluate hvalue
    next => exact nomatch h

/-- The range of an input, if it has one, has been checked. -/
def Variable.IsChecked (v : Variable) : Prop :=
  ∀ default range, v.role = .input default (some range) → range.IsChecked

variable {σ : Type} [Random.WordSource σ] {q : Question} {randomize : Bool} {source rest : σ}

/-- The value of an input is finite. -/
theorem Variable.IsChecked.isFinite {v : Variable} (hv : v.IsChecked) {x : Float}
    (h : (v.resolve randomize).Gives source x rest) : x.isFinite = true := by
  rw [resolve] at h
  cases hrole : v.role with
  | finalAnswer places decoys => simp [hrole] at h
  | input default random =>
    simp only [hrole] at h
    split at h
    next range hrandom =>
      obtain rfl := (Option.ite_none_right_eq_some.mp hrandom).2
      rcases (hv _ range hrole).outcome_draw v.name source with
        ⟨-, hfault⟩ | ⟨low, high, y, rest', -, hy, -, -, hfinite⟩
      · exact absurd hfault h.not_fails
      · obtain ⟨hsame, -⟩ := Prod.mk.inj (h.symm.trans hy)
        exact Except.ok.inj hsame ▸ hfinite
    next => simp at h
    next => exact Quantity.isFinite_of_value (Trial.gives_ofExcept_iff.mp h).1

/-! ## All values -/

/-- The inputs get finite values. -/
theorem allFinite_resolveAll {aliases : AliasTable} {b b' : Bindings} {vs : List Variable}
    (hvs : ∀ v ∈ vs, v.IsChecked) (hb : b.AllFinite)
    (h : (resolveAll aliases randomize b vs).Gives source b' rest) : b'.AllFinite := by
  induction vs generalizing b source with
  | nil =>
    rw [resolveAll, Trial.gives_pure_iff] at h
    exact h.1 ▸ hb
  | cons v vs ih =>
    obtain ⟨hv, hvs⟩ := List.forall_mem_cons.mp hvs
    obtain ⟨x, word, between, hx, -, -, h⟩ := exists_of_resolveAll_cons h
    exact ih hvs (hb.push (hv.isFinite hx)) h

namespace Step

variable {s : Step} {before later last : Progress}

/-- An equation that is solved binds a finite value. -/
theorem allFinite_run {x : Float} (hbefore : before.bindings.AllFinite)
    (h : (s.run q).outcome before source = ((.ok x, later), rest)) : later.bindings.AllFinite := by
  obtain ⟨table, word, -, -, -, hvalue, rfl⟩ := exists_target_of_run_eq_ok h
  exact hbefore.push (Formula.isFinite_of_evaluate (evaluate_of_value hvalue))

/-- Equations that are solved bind finite values. -/
theorem allFinite_runAll {ss : List Step} (hbefore : before.bindings.AllFinite)
    (h : (runAll q ss).outcome before source = ((.ok (), last), rest)) :
    last.bindings.AllFinite := by
  induction ss generalizing before source with
  | nil =>
    obtain ⟨⟨-, rfl⟩, -⟩ := by simpa [runAll] using h
    exact hbefore
  | cons s ss ih =>
    obtain ⟨x, between, middle, hrun, h⟩ := exists_of_runAll_cons h
    exact ih (allFinite_run hbefore hrun) h

end Step

theorem Question.isChecked_input {d : Draft} (hq : ofDraft d = .ok q) {v : Variable}
    (hv : v ∈ q.inputs) : v.IsChecked :=
  fun _ _ hrole ↦ isChecked_drawRange hq (List.mem_filter.mp hv).1 hrole

/-- After the equations of an accepted question all values are finite. -/
theorem Settings.allFinite_solve {d : Draft} {s : Settings} {progress : Progress}
    (hq : Question.ofDraft d = .ok q) (h : (s.solve q randomize).Gives source progress rest) :
    progress.bindings.AllFinite := by
  obtain ⟨aliases, after, bindings, between, -, hinputs, hrun⟩ := solve_gives_iff.mp h
  rw [Question.resolveInputs] at hinputs
  have hempty : Bindings.AllFinite .empty := fun e he ↦ absurd he List.not_mem_nil
  have hbindings : bindings.AllFinite :=
    allFinite_resolveAll (fun v hv ↦ Question.isChecked_input hq (List.mem_mergeSort.mp hv)) hempty
      hinputs
  exact Step.allFinite_runAll hbindings hrun

/-! ## Final answers without value -/

/-- The final answers that no equation has on its left side. -/
def Question.unanswered (q : Question) : List Variable :=
  q.finalAnswers.filter fun v ↦ q.steps.all fun s ↦ s.lhs != v.name

/-- If all values are finite, the first final answer without value is the only reason to fail. -/
theorem finalValues_of_allFinite {progress : Progress} (h : progress.bindings.AllFinite)
    (vs : List Variable) :
    match (vs.filter Variable.isFinalAnswer).find? fun v ↦ (v.boundValue progress).isNone with
    | none => ∃ finals, finalValues progress vs = .ok finals
    | some v => finalValues progress vs = .error (.notANumber v.name) := by
  induction vs with
  | nil => exact ⟨[], rfl⟩
  | cons v vs ih =>
    rw [finalValues]
    cases hrole : v.role with
    | input default random =>
      rw [List.filter_cons_of_neg (by simp [Variable.isFinalAnswer, hrole])]
      exact ih
    | finalAnswer places decoys =>
      rw [List.filter_cons_of_pos (by simp [Variable.isFinalAnswer, hrole])]
      cases hvalue : v.boundValue progress with
      | none =>
        rw [List.find?_cons_of_pos (by rw [hvalue]; rfl)]
        simp only [Variable.finalValue, hvalue]
        rfl
      | some raw =>
        rw [List.find?_cons_of_neg (by simp [hvalue])]
        obtain ⟨word, -, hget⟩ := Option.bind_eq_some_iff.mp hvalue
        have hfinite := isFinite_roundTo (h.get? hget) places
        simp only [Variable.finalValue, hvalue, hfinite]
        split at ih
        · obtain ⟨finals, hfinals⟩ := ih
          simp only [hfinals]
          exact ⟨_, rfl⟩
        · simp only [ih]
          rfl

namespace Settings

variable {d : Draft} {s : Settings} {progress : Progress}

/-- A final answer of an accepted question has a value if an equation has it on its left side. -/
theorem isNone_boundValue_eq (hq : Question.ofDraft d = .ok q)
    (h : (s.solve q randomize).Gives source progress rest) {v : Variable}
    (hv : v ∈ q.finalAnswers) :
    (v.boundValue progress).isNone = q.steps.all fun t ↦ t.lhs != v.name := by
  obtain ⟨aliases, after, bindings, between, hnames, hinputs, hrun⟩ := solve_gives_iff.mp h
  rw [Bool.eq_iff_iff, Option.isNone_iff_eq_none, List.all_eq_true]
  constructor
  · intro hnone t ht
    refine bne_iff_ne.mpr fun hname ↦ ?_
    obtain ⟨k, hk⟩ := List.getElem?_of_mem ht
    obtain ⟨-, -, -, -, word, x, -, -, -, halias, -, hget⟩ :=
      Step.exists_solves (words_resolveInputs hinputs).1 hrun hk
    rw [Variable.boundValue, ← hname, halias] at hnone
    exact absurd (hget.symm.trans hnone) (Option.some_ne_none x)
  · intro hall
    refine Option.eq_none_iff_forall_ne_some.mpr fun x hx ↦ ?_
    have hholds := Step.holds_runAll (Question.holds_resolveInputs hnames hinputs) hrun
    obtain ⟨word, halias, hget⟩ := Option.bind_eq_some_iff.mp hx
    obtain ⟨n, hn, halias'⟩ := hholds.bound word (Bindings.mem_words_of_get? hget)
    obtain rfl := hholds.sound.name_unique halias halias'
    rcases List.mem_append.mp hn with hinput | hlhs
    · -- an input and a final answer have different names
      obtain ⟨w, hw, hname⟩ := List.mem_map.mp hinput
      obtain ⟨hw, hrole⟩ := List.mem_filter.mp hw
      obtain ⟨hv, hfinal⟩ := List.mem_filter.mp hv
      obtain rfl := List.inj_on_of_nodup_map (Question.nodup_names hq) hw hv hname
      rw [hfinal] at hrole
      cases hrole
    · obtain ⟨t, ht, hname⟩ := List.mem_map.mp hlhs
      exact bne_iff_ne.mp (hall t ht) hname

/-- The first final answer without value is the first that no equation has on its left side. -/
theorem find?_isNone_eq (hq : Question.ofDraft d = .ok q)
    (h : (s.solve q randomize).Gives source progress rest) :
    q.finalAnswers.find? (fun v ↦ (v.boundValue progress).isNone) = q.unanswered.head? := by
  rw [← List.head?_filter, Question.unanswered]
  exact congrArg List.head? (List.filter_congr fun v hv ↦ isNone_boundValue_eq hq h hv)

/-- When the equations of an accepted question are solved, all values are finite, and a preview
finds a final answer that is no number just if no equation has it on its left side; it names the
first such one. -/
theorem fails_iff_unanswered (hq : Question.ofDraft d = .ok q)
    (h : (s.solve q randomize).Gives source progress rest) :
    (∀ e ∈ progress.bindings.entries, e.2.isFinite = true) ∧
      ((∃ fault rest', (s.preview q randomize).Fails source fault rest' ∧
          fault.code = "RESULT_NOT_A_NUMBER") ↔
        ∃ v ∈ q.finalAnswers, ∀ t ∈ q.steps, t.lhs ≠ v.name) ∧
      ∀ v, q.unanswered.head? = some v →
        (s.preview q randomize).Fails source (.notANumber v.name) rest := by
  have hfinite := allFinite_solve hq h
  have hfinals := finalValues_of_allFinite hfinite q.variables
  have hfirst := find?_isNone_eq hq h
  rw [Question.finalAnswers] at hfirst
  rw [hfirst] at hfinals
  have hfails : ∀ v, q.unanswered.head? = some v →
      (s.preview q randomize).Fails source (.notANumber v.name) rest := by
    intro v hv
    rw [hv] at hfinals
    rw [preview_eq, Trial.fails_bind_iff]
    refine .inr ⟨progress, rest, h, ?_⟩
    rw [present, Trial.fails_bind_iff, Trial.fails_ofExcept_iff]
    exact .inl ⟨hfinals, rfl⟩
  refine ⟨hfinite, ⟨?_, ?_⟩, hfails⟩
  · rintro ⟨fault, rest', hpreview, hcode⟩
    cases hhead : q.unanswered.head? with
    | some v =>
      obtain ⟨hv, hall⟩ := List.mem_filter.mp (List.mem_of_mem_head? hhead)
      exact ⟨v, hv, fun t ht ↦ bne_iff_ne.mp (List.all_eq_true.mp hall t ht)⟩
    | none =>
      rw [hhead] at hfinals
      obtain ⟨finals, hfinals⟩ := hfinals
      rw [preview_eq, Trial.fails_bind_iff] at hpreview
      rcases hpreview with hsolve | ⟨progress', between, hsolve, hpresent⟩
      · exact absurd hsolve h.not_fails
      · obtain ⟨hsame, -⟩ := Prod.mk.inj (hsolve.symm.trans h)
        obtain rfl := Except.ok.inj hsame
        rcases (fails_present hpresent).1 with hfault | ⟨finals, hfinals, hpools⟩
        · rw [hfinals] at hfault
          cases hfault
        · rcases Question.of_decoyPools_eq_error hq hfinals hpools with
            ⟨min, max, step, rfl⟩ | ⟨name, percentages, rfl⟩
          · rw [Fault.code] at hcode
            exact absurd hcode (by decide)
          · rw [Fault.code] at hcode
            exact absurd hcode (by decide)
  · rintro ⟨v, hv, hall⟩
    have hmem : v ∈ q.unanswered :=
      List.mem_filter.mpr ⟨hv, List.all_eq_true.mpr fun t ht ↦ bne_iff_ne.mpr (hall t ht)⟩
    obtain ⟨w, hw⟩ := Option.isSome_iff_exists.mp
      (List.isSome_head?.mpr (List.ne_nil_of_mem hmem))
    exact ⟨_, rest, hfails w hw, rfl⟩

end Settings

/-- A draft that asks for two values and computes one. -/
def Draft.halfAnswered : Draft :=
  ⟨[{ name := "a", default := some (.number 2) },
    { name := "F", isFinalAnswer := true, decimalPlaces := some 1 },
    { name := "G", isFinalAnswer := true, decimalPlaces := some 1 }], [{ expr := "F = a * 3" }]⟩

/-- The question that the draft is. -/
def Question.halfAnswered : Question :=
  ⟨[⟨"a", none, none, .input (some (.number 2)) none⟩,
    ⟨"F", none, some 1, .finalAnswer 1 defaultDecoys⟩,
    ⟨"G", none, some 1, .finalAnswer 1 defaultDecoys⟩], [⟨1, "F = a * 3", "F", "a * 3", none⟩]⟩

set_option maxRecDepth 4000 in
theorem Settings.fails_halfAnswered : ∃ progress rest,
    Question.ofDraft .halfAnswered = .ok .halfAnswered ∧
      (solve {} .halfAnswered false).Gives (Random.ChaCha.ofSeed 0) progress rest ∧
      (∀ e ∈ progress.bindings.entries, e.2.isFinite = true) ∧
      (preview {} .halfAnswered false).Fails (Random.ChaCha.ofSeed 0) (.notANumber "G") rest := by
  have hq : Question.ofDraft .halfAnswered = .ok .halfAnswered := by with_unfolding_all rfl
  obtain ⟨progress, rest, hsolve, -⟩ : ∃ progress rest,
      (solve {} .halfAnswered false).Gives (Random.ChaCha.ofSeed 0) progress rest ∧
        (fun _ ↦ true) progress = true := by
    refine Trial.exists_gives_of_any ?_
    simp only [solve, Question.halfAnswered, Step.runAll, Step.run, Step.value, Step.formula,
      Step.fail, Step.report, AliasTable.substitute_eq_foldl]
    decide +kernel
  obtain ⟨hfinite, -, hfails⟩ := fails_iff_unanswered hq hsolve
  exact ⟨progress, rest, hq, hsolve, hfinite,
    hfails ⟨"G", none, some 1, .finalAnswer 1 defaultDecoys⟩ rfl⟩

end FormulaQuiz
