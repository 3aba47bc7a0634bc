import FormulaQuiz.Proofs.Failures
import FormulaQuiz.Proofs.Finiteness

/-!
# Checks that are made twice

Some checks of a draft are made again when the question is varied, against other data: names against
aliases, ranges against values.  None of them fails the second time.  Each stage of a preview has its
own faults, and those are the faults that no check of a draft could have found.
-/

namespace FormulaQuiz

open Formula (Bindings)

/-! ## Faults that remain -/

namespace Fault

/-- Whether a fault may be found when a question that was accepted is varied. -/
def remains : Fault → Bool
  | aliasesExhausted _ _ | defaultMissing _ | defaultNotNumeric _
  | randomBoundsUnrepresentable _ _ _ _ | step _ _ | notANumber _ | decoyRangeTooLarge _ _ _
  | insufficientDecoys _ _ => true
  | _ => false

/-- The codes of the faults that are looked for again. -/
def guardedCodes : List String :=
  ["CONFIG_NAME_ALREADY_ENCODED", "CONFIG_NAME_NOT_ENCODED", "CONFIG_DUPLICATE_NAME",
    "CONFIG_FINAL_ANSWER_AS_INPUT", "CONFIG_RANDOM_BOUNDS_TOO_WIDE", "CONFIG_DECOY_STEP_INVALID",
    "CONFIG_DECOY_BOUNDS_INVERTED"]

/-- The faults that remain have codes of their own. -/
theorem code_notMem_guardedCodes {fault : Fault} (h : fault.remains = true) :
    fault.code ∉ guardedCodes := by
  cases fault with
  | step fault _ =>
    cases fault with
    | formula fault => cases fault <;> simp [code, StepFault.code, Formula.Fault.code, guardedCodes]
    | _ => simp [code, StepFault.code, guardedCodes]
  | aliasesExhausted | defaultMissing | defaultNotNumeric | randomBoundsUnrepresentable | notANumber
  | decoyRangeTooLarge | insufficientDecoys => simp [code, guardedCodes]
  | _ => exact absurd h Bool.false_ne_true

end Fault

/-! ## Inputs -/

section Inputs

variable {σ : Type} [Random.WordSource σ] {q : Question} {randomize : Bool} {source rest : σ}
  {fault : Fault}

theorem Quantity.remains_of_value {name : String} {quantity : Quantity}
    (h : quantity.value name = .error fault) : fault.remains = true := by
  cases quantity with
  | number y =>
    rw [value] at h
    split at h
    · cases h
    · exact Except.error.inj h ▸ rfl
  | formula text =>
    rw [value] at h
    split at h
    · cases h
    · exact Except.error.inj h ▸ rfl

/-- An input may lack a value, but its range is as it was checked. -/
theorem Variable.remains_of_resolve {v : Variable} (hinput : v.isFinalAnswer = false)
    (hv : v.IsChecked) (h : (v.resolve randomize).Fails source fault rest) :
    fault.remains = true := by
  rw [resolve] at h
  cases hrole : v.role with
  | finalAnswer places decoys =>
    rw [isFinalAnswer, hrole] at hinput
    cases hinput
  | input default random =>
    simp only [hrole] at h
    split at h
    next range hrandom =>
      obtain rfl := (Option.ite_none_right_eq_some.mp hrandom).2
      rcases (hv _ range hrole).outcome_draw v.name source with
        ⟨-, hfault⟩ | ⟨low, high, y, rest', -, hy, -⟩
      · obtain ⟨hsame, -⟩ := Prod.mk.inj (hfault.symm.trans h)
        exact Except.error.inj hsame ▸ rfl
      · exact absurd h hy.not_fails
    next => exact (Trial.fails_throw_iff.mp h).1 ▸ rfl
    next => exact Quantity.remains_of_value (Trial.fails_ofExcept_iff.mp h).1

/-- Inputs with different names have aliases that are not bound yet. -/
theorem remains_of_resolveAll {aliases : AliasTable} (sound : aliases.Sound) {b : Bindings}
    {vs : List Variable} (hnodup : (vs.map (·.name)).Nodup)
    (hvs : ∀ v ∈ vs, v.isFinalAnswer = false ∧ v.IsChecked)
    (hfree : ∀ v ∈ vs, ∃ word, aliases.alias? v.name = some word ∧ word ∉ b.words)
    (h : (resolveAll aliases randomize b vs).Fails source fault rest) : fault.remains = true := by
  induction vs generalizing b source with
  | nil => exact absurd h Trial.not_fails_pure
  | cons v vs ih =>
    obtain ⟨⟨hinput, hv⟩, hvs⟩ := List.forall_mem_cons.mp hvs
    obtain ⟨⟨word, halias, hnew⟩, hfree⟩ := List.forall_mem_cons.mp hfree
    obtain ⟨hname, hnodup⟩ := List.nodup_cons.mp hnodup
    rw [resolveAll, Trial.fails_bind_iff] at h
    rcases h with h | ⟨x, between, -, h⟩
    · exact v.remains_of_resolve hinput hv h
    · have hbind : b.bind word x = .ok ⟨b.entries ++ [(word, x)]⟩ :=
        Bindings.bind_eq_ok_iff.mpr ⟨Bindings.get?_eq_none_iff.mpr hnew, rfl⟩
      simp only [halias, hbind] at h
      refine ih hnodup hvs (fun w hw ↦ ?_) h
      obtain ⟨other, hother, hnew'⟩ := hfree w hw
      refine ⟨other, hother, ?_⟩
      rw [(Bindings.words_of_bind hbind).1, List.mem_append, List.mem_singleton, not_or]
      -- two inputs with one alias would have one name
      exact ⟨hnew', fun heq ↦ hname (List.mem_map.mpr
        ⟨w, hw, sound.name_unique (heq ▸ hother) halias⟩)⟩

/-- The inputs of an accepted question are no final answers, are named once, and have aliases. -/
theorem Question.remains_of_resolveInputs {d : Draft} (hq : ofDraft d = .ok q)
    {policy : AliasPolicy} {aliases : AliasTable} {start between : σ}
    (hnames : (AliasTable.ofNames policy (q.variables.map (·.name))).Gives start aliases between)
    (h : (q.resolveInputs aliases randomize).Fails source fault rest) : fault.remains = true := by
  obtain ⟨sound, -, -, names⟩ := AliasTable.sound_ofNames hnames
  have hperm := List.mergeSort_perm q.inputs fun v w ↦ decide (v.name ≤ w.name)
  refine remains_of_resolveAll sound ?_ (fun v hv ↦ ?_) (fun v hv ↦ ?_) h
  · refine (hperm.map _).nodup_iff.mpr ?_
    exact (List.filter_sublist.map _).nodup (nodup_names hq)
  · have hv := hperm.mem_iff.mp hv
    exact ⟨by simpa using (List.mem_filter.mp hv).2, isChecked_input hq hv⟩
  · have hv := (List.mem_filter.mp (hperm.mem_iff.mp hv)).1
    obtain ⟨word, hword⟩ := Option.isSome_iff_exists.mp
      (AliasTable.isSome_alias?_iff.mpr ((names v.name).mpr (List.mem_map_of_mem hv)))
    exact ⟨word, hword, List.not_mem_nil⟩

end Inputs

/-! ## Equations -/

namespace Step

variable {σ : Type} [Random.WordSource σ] {q : Question} {s : Step} {before later : Progress}
  {source rest : σ} {fault : Fault}

/-- An equation has faults of its own. -/
theorem Finds.remains {aliases : AliasTable} (h : s.Finds aliases fault) :
    fault.remains = true := by
  cases h with
  | exhausted | reported => rfl

theorem remains_of_runAll {ss : List Step}
    (h : (runAll q ss : Run σ Unit).outcome before source = ((.error fault, later), rest)) :
    fault.remains = true := by
  obtain ⟨_, _, _, _, _, _, hfails⟩ := exists_of_runAll_eq_error h
  exact (finds_run hfails).2.2.remains

end Step

/-! ## Previews -/

theorem remains_of_finalValues {progress : Progress} {vs : List Variable} {fault : Fault}
    (h : finalValues progress vs = .error fault) : fault.remains = true := by
  induction vs with
  | nil => exact nomatch h
  | cons v vs ih =>
    rw [finalValues] at h
    split at h
    · exact ih h
    · rcases Except.bind_eq_error_iff.mp h with hvalue | ⟨value, -, h⟩
      · rw [Variable.finalValue] at hvalue
        split at hvalue
        · exact Except.error.inj hvalue ▸ rfl
        · dsimp only at hvalue
          split at hvalue
          · cases hvalue
          · exact Except.error.inj hvalue ▸ rfl
      · rcases Except.bind_eq_error_iff.mp h with hrest | ⟨values, -, h⟩
        · exact ih hrest
        · cases h

namespace Settings

variable {σ : Type} [Random.WordSource σ] {d : Draft} {q : Question} {s : Settings}
  {randomize : Bool} {source rest : σ} {fault : Fault}

theorem remains_of_solve (hq : Question.ofDraft d = .ok q)
    (h : (s.solve q randomize).Fails source fault rest) : fault.remains = true := by
  rw [solve, Trial.fails_bind_iff] at h
  rcases h with hnames | ⟨aliases, between, hnames, h⟩
  · obtain ⟨name, attempts, rfl⟩ := AliasTable.exists_of_extendAll_eq_error hnames
    rfl
  · rw [Trial.fails_bind_iff] at h
    rcases h with hinputs | ⟨bindings, start, hinputs, h⟩
    · exact Question.remains_of_resolveInputs hq hnames hinputs
    · simp only [Trial.fails_bind_iff, Trial.gives_lift_iff] at h
      rcases h with hlift | ⟨⟨result, last⟩, final, hrun, h⟩
      · exact absurd hlift Trial.not_fails_lift
      · cases result with
        | ok _ => exact absurd h Trial.not_fails_pure
        | error found =>
          obtain ⟨rfl, -⟩ := Trial.fails_throw_iff.mp h
          exact Step.remains_of_runAll hrun

/-- A preview of an accepted question finds only faults that remain. -/
theorem remains_of_preview (hq : Question.ofDraft d = .ok q)
    (h : (s.preview q randomize).Fails source fault rest) : fault.remains = true := by
  rw [preview_eq, Trial.fails_bind_iff] at h
  rcases h with hsolve | ⟨progress, between, -, hpresent⟩
  · exact remains_of_solve hq hsolve
  · rcases (fails_present hpresent).1 with hfinals | ⟨finals, hfinals, hpools⟩
    · exact remains_of_finalValues hfinals
    · rcases Question.of_decoyPools_eq_error hq hfinals hpools with
        ⟨min, max, step, rfl⟩ | ⟨name, percentages, rfl⟩ <;> rfl

end Settings

/-! ## Previews -/

namespace Settings

variable {σ : Type} [Random.WordSource σ] {d : Draft} {q : Question} {s : Settings}
  {randomize : Bool} {source rest : σ}

/-- A preview comes to a pool of wrong values for each final answer. -/
def BuildsPools (s : Settings) (q : Question) (randomize : Bool) (source : σ)
    (finals : List FinalValue) (pools : List DecoyPool) (rest : σ) : Prop :=
  ∃ progress, (s.solve q randomize).Gives source progress rest ∧
    finalValues progress q.variables = .ok finals ∧ decoyPools s.decoyCount finals = .ok pools

/-- What a preview need not check again. -/
structure Upholds (s : Settings) (q : Question) (randomize : Bool) (source : σ) : Prop where
  /-- No check that is made twice fails the second time. -/
  code : ∀ fault rest, (s.preview q randomize).Fails source fault rest →
    fault.code ∉ Fault.guardedCodes
  /-- With the pools of wrong values there is a preview. -/
  gives : ∀ finals pools between, s.BuildsPools q randomize source finals pools between →
    ∃ p rest, (s.preview q randomize).Gives source p rest
  /-- The columns that are drawn have all rows, and the rows have a column for each final answer. -/
  index : ∀ finals pools between columns rest,
    s.BuildsPools q randomize source finals pools between →
    (drawColumns s.decoyCount pools).Gives between columns rest →
    (∀ r < s.decoyCount, ∀ column ∈ columns, r < column.length) ∧
      ∀ i < finals.length, ∀ row ∈ rowsOf s.decoyCount columns, i < row.length
  /-- The range of an input can be drawn from. -/
  canDraw : ∀ v ∈ q.inputs, ∀ default range, v.role = .input default (some range) →
    Random.CanDraw range.min range.max
  /-- The ends that drawn values are moved between are numbers in order. -/
  bounds : ∀ v ∈ q.inputs, ∀ default range, v.role = .input default (some range) →
    ∀ low high, range.bounds? = some (low, high) →
      low.isFinite = true ∧ high.isFinite = true ∧ low ≤ high

/-- Every preview of an accepted question upholds what was checked. -/
theorem upholds_of_ofDraft (hq : Question.ofDraft d = .ok q) (s : Settings) (randomize : Bool)
    (source : σ) : s.Upholds q randomize source := by
  refine ⟨fun fault rest h ↦ Fault.code_notMem_guardedCodes (remains_of_preview hq h), ?_, ?_, ?_, ?_⟩
  · rintro finals pools between ⟨progress, hsolve, hfinals, hpools⟩
    obtain ⟨rows, options, rest, hpresent, -⟩ := exists_present hfinals hpools between
    exact ⟨_, rest, Trial.gives_bind_iff.mpr ⟨progress, between, hsolve, hpresent⟩⟩
  · rintro finals pools between columns rest ⟨progress, -, -, hpools⟩ hcolumns
    have hlength := length_of_mem_drawColumns hcolumns
    refine ⟨fun r hr column hcolumn ↦ (hlength column hcolumn).symm ▸ hr, fun i hi row hrow ↦ ?_⟩
    rw [length_of_mem_rowsOf hlength hrow, ← (drawColumns_gives hcolumns).length_eq,
      ← (decoyPools_eq_ok hpools).length_eq]
    exact hi
  · exact fun v hv _ range hrole ↦ (Question.isChecked_input hq hv _ range hrole).canDraw
  · exact fun v hv _ range hrole low high hbounds ↦
      DrawRange.isFinite_bounds (Question.isChecked_input hq hv _ range hrole).canDraw hbounds

end Settings

/-- A draft with an input that is drawn. -/
def Draft.drawn : Draft :=
  ⟨[{ name := "a", randomize := true, min := some 1, max := some 5, decimalPlaces := some 1 },
    { name := "F", isFinalAnswer := true, decimalPlaces := some 1 }], [{ expr := "F = a * 3" }]⟩

/-- The question that the draft is. -/
def Question.drawn : Question :=
  ⟨[⟨"a", none, some 1, .input none (some ⟨1, 5, 1⟩)⟩,
    ⟨"F", none, some 1, .finalAnswer 1 defaultDecoys⟩], [⟨1, "F = a * 3", "F", "a * 3", none⟩]⟩

theorem Question.ofDraft_drawn : ofDraft .drawn = .ok .drawn := by with_unfolding_all rfl

theorem Settings.upholds_drawn : Question.ofDraft .drawn = .ok .drawn ∧
    Upholds {} .drawn true (Random.ChaCha.ofSeed 0) :=
  ⟨Question.ofDraft_drawn, upholds_of_ofDraft Question.ofDraft_drawn {} true _⟩

end FormulaQuiz
