import FormulaQuiz.Proofs.Progress
import FormulaQuiz.Proofs.Questions
import FormulaQuiz.Proofs.Rows
import FormulaQuiz.Variation.Request

/-!
# What a variation shows

The stages of a variation hand lists to each other: final answers, pools, columns, rows, reports.
`AnswerColumn` has what they know of one final answer, so that all these lists are images of one
list of columns and none of them loses or moves an item.
-/

namespace FormulaQuiz

open Formula (Bindings)

/-! ## Inputs -/

section Inputs

variable {σ : Type} [Random.WordSource σ]

/-- The first input gets a value, and its alias, which was not bound, is bound to it. -/
theorem exists_of_resolveAll_cons {aliases : AliasTable} {randomize : Bool} {b b' : Bindings}
    {v : Variable} {vs : List Variable} {source rest : σ}
    (h : (resolveAll aliases randomize b (v :: vs)).Gives source b' rest) :
    ∃ x word between, (v.resolve randomize).Gives source x between ∧
      aliases.alias? v.name = some word ∧ word ∉ b.words ∧
      (resolveAll aliases randomize ⟨b.entries ++ [(word, x)]⟩ vs).Gives between b' rest := by
  rw [resolveAll, Trial.gives_bind_iff] at h
  obtain ⟨x, between, hx, h⟩ := h
  cases hword : aliases.alias? v.name with
  | none => simp [hword] at h
  | some word =>
    simp only [hword] at h
    cases hbind : b.bind word x with
    | error _ => simp [hbind] at h
    | ok grown =>
      simp only [hbind] at h
      obtain ⟨hnone, rfl⟩ := Bindings.bind_eq_ok_iff.mp hbind
      exact ⟨x, word, between, hx, rfl, Bindings.get?_eq_none_iff.mp hnone, h⟩

/-- Every input that is gone through has a value afterwards, and earlier values stay. -/
theorem resolveAll_gives {aliases : AliasTable} {randomize : Bool} {b b' : Bindings}
    {vs : List Variable} {source rest : σ}
    (h : (resolveAll aliases randomize b vs).Gives source b' rest) :
    b.entries <+: b'.entries ∧ ∀ v ∈ vs, (v.boundValue ⟨aliases, b'⟩).isSome := by
  induction vs generalizing b source with
  | nil =>
    rw [resolveAll, Trial.gives_pure_iff] at h
    rw [h.1]
    exact ⟨List.prefix_refl _, fun _ hv ↦ absurd hv List.not_mem_nil⟩
  | cons v vs ih =>
    obtain ⟨x, word, between, -, hword, hnew, h⟩ := exists_of_resolveAll_cons h
    have hbind : b.bind word x = .ok ⟨b.entries ++ [(word, x)]⟩ :=
      Bindings.bind_eq_ok_iff.mpr ⟨Bindings.get?_eq_none_iff.mpr hnew, rfl⟩
    obtain ⟨hwithin, hall⟩ := ih h
    refine ⟨(Bindings.prefix_of_bind hbind).trans hwithin, List.forall_mem_cons.mpr ⟨?_, hall⟩⟩
    have hget := Bindings.get?_of_prefix hwithin (Bindings.get?_of_bind hbind)
    rw [Variable.boundValue, hword]
    exact Option.isSome_of_eq_some hget

/-- A run gives aliases, binds the inputs and runs the equations. -/
theorem Settings.solve_gives_iff {s : Settings} {q : Question} {randomize : Bool}
    {progress : Progress} {source rest : σ} :
    (s.solve q randomize).Gives source progress rest ↔
      ∃ aliases after bindings between,
        (AliasTable.ofNames s.aliasPolicy (q.variables.map (·.name))).Gives source aliases after ∧
        (q.resolveInputs aliases randomize).Gives after bindings between ∧
        (Step.runAll q q.steps).outcome ⟨aliases, bindings⟩ between = ((.ok (), progress), rest) := by
  rw [solve]
  simp only [Trial.gives_bind_iff, Trial.gives_lift_iff]
  constructor
  · rintro ⟨aliases, after, hnames, bindings, between, hinputs, ⟨result, last⟩, _, hrun, h⟩
    cases result with
    | error fault => simp at h
    | ok _ =>
      obtain ⟨rfl, rfl⟩ := Trial.gives_pure_iff.mp h
      exact ⟨aliases, after, bindings, between, hnames, hinputs, hrun⟩
  · rintro ⟨aliases, after, bindings, between, hnames, hinputs, hrun⟩
    exact ⟨aliases, after, hnames, bindings, between, hinputs, _, rest, hrun,
      Trial.gives_pure_iff.mpr ⟨rfl, rfl⟩⟩

/-- After the equations every input has a value. -/
theorem Settings.solve_gives {s : Settings} {q : Question} {randomize : Bool} {progress : Progress}
    {source rest : σ} (h : (s.solve q randomize).Gives source progress rest) :
    ∀ v ∈ q.inputs, (v.boundValue progress).isSome := by
  obtain ⟨aliases, _, bindings, between, -, hinputs, hrun⟩ := solve_gives_iff.mp h
  have hwithin := Step.within_runAll q q.steps ⟨aliases, bindings⟩ between
  rw [hrun] at hwithin
  intro v hv
  have hsorted := (resolveAll_gives hinputs).2 v (List.mem_mergeSort.mpr hv)
  obtain ⟨x, hx⟩ := Option.isSome_iff_exists.mp hsorted
  exact Option.isSome_of_eq_some (Variable.boundValue_of_within hwithin hx)

end Inputs

/-! ## Pools -/

section Pools

variable {name : String} {value : Float} {places : UInt8} {range : DecoyRange} {required : ℕ}

/-- There is a pool just if there are enough wrong values, and a pool as well as its fault has a
label for every deviation. -/
theorem decoyPool_eq {ds : List Float} (accepted : range.deviations = .ok ds) :
    decoyPool name value places range required =
      if required ≤ (decoysFrom value places [] ds).length then
        .ok ⟨name, value, ds.map percentLabel, decoysFrom value places [] ds⟩
      else .error (.insufficientDecoys name (ds.map percentLabel)) := by
  rw [decoyPool, accepted, ← ite_not]
  simp only [not_le]
  change (if _ then _ else _) = _
  split <;> rfl

theorem DecoyPool.candidates_eq {pool : DecoyPool}
    (h : decoyPool name value places range required = .ok pool) :
    ∃ ds, range.deviations = .ok ds ∧ pool.candidates = decoysFrom value places [] ds ∧
      required ≤ pool.candidates.length := by
  obtain ⟨ds, accepted, -⟩ := Except.bind_eq_ok_iff.mp h
  rw [decoyPool_eq accepted] at h
  split at h
  next hcount =>
    cases h
    exact ⟨ds, accepted, rfl, hcount⟩
  next => cases h

end Pools

/-! ## Columns -/

/-- A final answer with its value, the pool of its wrong values, and those that were drawn. -/
structure AnswerColumn where
  asked : Variable
  answer : FinalValue
  pool : DecoyPool
  decoys : List Decoy

/-- A final answer with its value is what a variable asks for. -/
structure FinalValue.Answers (answer : FinalValue) (v : Variable) : Prop where
  name : answer.name = v.name
  unit : answer.unit = v.unit
  role : v.role = .finalAnswer answer.places answer.decoys
  value : ∃ raw, answer.value = roundTo raw answer.places
  finite : answer.value.isFinite = true

namespace AnswerColumn

/-- The parts of a column belong together, and as many wrong values were drawn as are asked for. -/
structure Fits (c : AnswerColumn) (count : Nat) : Prop where
  answers : c.answer.Answers c.asked
  pool : c.answer.pool count = .ok c.pool
  length : c.decoys.length = count
  drawn : c.decoys.Subperm c.pool.candidates

/-- The wrong values that were drawn. -/
def values (c : AnswerColumn) : List Float := c.decoys.map (·.value)

/-- The report on a column. -/
def report (c : AnswerColumn) : FinalAnswerPreview where
  name := c.answer.name
  unit := c.answer.unit
  value := c.answer.value
  display := formatFixed c.answer.value c.answer.places
  percentages := c.pool.percentages
  incorrectValues := c.values

end AnswerColumn

theorem Variable.finalValue_answers {v : Variable} {progress : Progress} {places : UInt8}
    {decoys : DecoyRange} {answer : FinalValue} (hrole : v.role = .finalAnswer places decoys)
    (h : v.finalValue progress places decoys = .ok answer) : answer.Answers v := by
  rw [finalValue] at h
  cases hraw : v.boundValue progress with
  | none => simp [hraw] at h
  | some raw =>
    simp only [hraw] at h
    split at h
    next hfinite =>
      cases h
      exact ⟨rfl, rfl, hrole, ⟨raw, rfl⟩, hfinite⟩
    next => exact nomatch h

/-- The final answers have their values in order of declaration. -/
theorem finalValues_answers {progress : Progress} {vs : List Variable} {finals : List FinalValue}
    (h : finalValues progress vs = .ok finals) :
    List.Forall₂ (fun v answer ↦ answer.Answers v) (vs.filter Variable.isFinalAnswer) finals := by
  induction vs generalizing finals with
  | nil =>
    cases h
    exact .nil
  | cons v vs ih =>
    rw [finalValues] at h
    cases hrole : v.role with
    | input default random =>
      simp only [hrole] at h
      rw [List.filter_cons_of_neg (by simp [Variable.isFinalAnswer, hrole])]
      exact ih h
    | finalAnswer places decoys =>
      simp only [hrole] at h
      obtain ⟨answer, hanswer, h⟩ := Except.bind_eq_ok_iff.mp h
      obtain ⟨finals, hfinals, h⟩ := Except.bind_eq_ok_iff.mp h
      cases h
      rw [List.filter_cons_of_pos (by simp [Variable.isFinalAnswer, hrole])]
      exact .cons (v.finalValue_answers hrole hanswer) (ih hfinals)

theorem decoyPools_eq_ok {required : Nat} {finals : List FinalValue} {pools : List DecoyPool}
    (h : decoyPools required finals = .ok pools) :
    List.Forall₂ (fun answer pool ↦ answer.pool required = .ok pool) finals pools := by
  induction finals generalizing pools with
  | nil =>
    cases h
    exact .nil
  | cons answer finals ih =>
    rw [decoyPools] at h
    obtain ⟨pool, hpool, h⟩ := Except.bind_eq_ok_iff.mp h
    obtain ⟨pools, hpools, h⟩ := Except.bind_eq_ok_iff.mp h
    cases h
    exact .cons hpool (ih hpools)

/-- Final answers, pools and drawn values are images of one list of columns. -/
theorem exists_columns {count : Nat} {vs : List Variable} {finals : List FinalValue}
    {pools : List DecoyPool} {columns : List (List Decoy)}
    (hfinals : List.Forall₂ (fun v answer ↦ FinalValue.Answers answer v) vs finals)
    (hpools : List.Forall₂ (fun answer pool ↦ FinalValue.pool answer count = .ok pool) finals pools)
    (hcolumns : List.Forall₂
      (fun pool column ↦ column.length = count ∧ column.Subperm pool.candidates) pools columns) :
    ∃ cs : List AnswerColumn, (∀ c ∈ cs, c.Fits count) ∧ cs.map (·.asked) = vs ∧
      cs.map (·.answer) = finals ∧ cs.map (·.pool) = pools ∧ cs.map (·.decoys) = columns := by
  induction hfinals generalizing pools columns with
  | nil =>
    cases hpools
    cases hcolumns
    exact ⟨[], fun _ hc ↦ absurd hc List.not_mem_nil, rfl, rfl, rfl, rfl⟩
  | cons hanswer _ ih =>
    cases hpools with
    | cons hpool hpools =>
    cases hcolumns with
    | cons hcolumn hcolumns =>
    obtain ⟨cs, hfits, rfl, rfl, rfl, rfl⟩ := ih hpools hcolumns
    exact ⟨⟨_, _, _, _⟩ :: cs,
      List.forall_mem_cons.mpr ⟨⟨hanswer, hpool, hcolumn.1, hcolumn.2⟩, hfits⟩,
      rfl, rfl, rfl, rfl⟩

section Columns

variable {count : Nat} {cs : List AnswerColumn}

/-- The values of a row are those at its place in the columns. -/
theorem values_row (h : ∀ c ∈ cs, c.Fits count) {r : Nat} (hr : r < count) :
    ((cs.map (·.decoys)).filterMap (·[r]?)).map (·.value) = cs.map (·.values.getD r 0) := by
  induction cs with
  | nil => rfl
  | cons c cs ih =>
    obtain ⟨hc, hcs⟩ := List.forall_mem_cons.mp h
    have hlt : r < c.decoys.length := hc.length.symm ▸ hr
    rw [List.map_cons, List.filterMap_cons, List.getElem?_eq_getElem hlt]
    refine congrArg₂ List.cons ?_ (ih hcs)
    change c.decoys[r].value = (c.decoys.map (·.value)).getD r 0
    rw [List.getD_eq_getElem?_getD, List.getElem?_map, List.getElem?_eq_getElem hlt,
      Option.map_some, Option.getD_some]

/-- The reports are on the columns, in order. -/
theorem previewsFrom_columns {rows : List (List Decoy)} (column : Nat)
    (h : ∀ i c, cs[i]? = some c → rows.filterMap (·[column + i]?) = c.decoys) :
    previewsFrom rows column (cs.map (·.answer)) (cs.map (·.pool)) =
      cs.map AnswerColumn.report := by
  induction cs generalizing column with
  | nil => rfl
  | cons c cs ih =>
    have hvalues : (rows.filterMap fun row ↦ row[column]?.map (·.value)) = c.values := by
      rw [AnswerColumn.values, ← h 0 c rfl, List.map_filterMap, Nat.add_zero]
    refine congrArg₂ List.cons ?_ (ih (column + 1) fun i d hd ↦ ?_)
    · rw [FinalValue.preview, hvalues]
      rfl
    · rw [Nat.add_right_comm]
      exact h (i + 1) d hd

/-- A row of answers gives each final answer its own value. -/
theorem answerRow_map {α : Type} (items : List α) (answer : α → FinalValue) (f : α → Float) :
    answerRow (items.map answer) (items.map f) = ",".intercalate (items.map fun a ↦
      answerPart (answer a).name (answer a).unit (f a) (answer a).places) := by
  rw [answerRow, List.zipWith_map, List.zipWith_self]

/-- The options are the right one and one for each row. -/
theorem answerOptions_columns (h : ∀ c ∈ cs, c.Fits count) :
    answerOptions (cs.map (·.answer)) (rowsOf count (cs.map (·.decoys))) =
      ⟨answerRow (cs.map (·.answer)) (cs.map (·.answer.value)), true, true⟩ ::
        (List.range count).map fun r ↦
          ⟨answerRow (cs.map (·.answer)) (cs.map (·.values.getD r 0)), false, true⟩ := by
  rw [answerOptions, rowsOf, List.map_map, List.map_map]
  refine congrArg₂ List.cons rfl (List.map_congr_left fun r hr ↦ ?_)
  rw [Function.comp_apply, values_row h (List.mem_range.mp hr)]

end Columns

end FormulaQuiz
