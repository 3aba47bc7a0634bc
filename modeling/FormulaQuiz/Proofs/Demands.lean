import FormulaQuiz.Question.Check
import FormulaQuiz.Proofs.Sums

/-!
# What is asked of a draft

A draft has to meet demands, each with the fault of a draft that does not meet it.  The demands are
written down in order, apart from the checks that make a question; the checks then find the fault of
the first demand that is not met, and succeed if there is none.  A draft that meets all demands is
one that is acceptable in the words of an author.
-/

namespace FormulaQuiz

open Rounding Text

/-! ## Checks that ask for demands -/

/-- Something that has to hold, and the fault that is found if it does not. -/
structure Demand where
  holds : Prop
  fault : Fault

/-- A check asks for demands in order: it succeeds if they all hold, and what it makes is as
described; else it finds the fault of the first that does not hold. -/
inductive Asks {α : Type} (made : α → Prop) : List Demand → Except Fault α → Prop
  | accepts {demands : List Demand} {a : α} (all : ∀ demand ∈ demands, demand.holds)
      (ha : made a) : Asks made demands (.ok a)
  | rejects {before : List Demand} {demand : Demand} {after : List Demand}
      (earlier : ∀ demand ∈ before, demand.holds) (fails : ¬ demand.holds) :
      Asks made (before ++ demand :: after) (.error demand.fault)

namespace Asks

variable {α β : Type} {made : α → Prop} {made' : β → Prop} {demands demands' : List Demand}
  {demand : Demand} {x : Except Fault α} {a : α}

theorem value (ha : made a) : Asks made [] (.ok a) := accepts nofun ha

theorem fail (h : ¬ demand.holds) : Asks made (demand :: demands) (.error demand.fault) :=
  @rejects _ _ [] _ _ nofun h

/-- Demands that hold may be asked for first. -/
theorem prepend (all : ∀ demand ∈ demands, demand.holds) (h : Asks made demands' x) :
    Asks made (demands ++ demands') x := by
  cases h with
  | accepts all' ha => exact accepts (List.forall_mem_append.mpr ⟨all, all'⟩) ha
  | rejects earlier fails =>
    rw [← List.append_assoc]
    exact rejects (List.forall_mem_append.mpr ⟨all, earlier⟩) fails

theorem pass (hd : demand.holds) (h : Asks made demands x) : Asks made (demand :: demands) x :=
  prepend (List.forall_mem_singleton.mpr hd) h

/-- A test asks for its demand, and then for what is asked for under it. -/
theorem guard {c : Prop} [Decidable c] (hc : c ↔ ¬ demand.holds)
    (h : demand.holds → Asks made demands x) :
    Asks made (demand :: demands) (if c then throw demand.fault else x) := by
  split
  next hfails => exact fail (hc.mp hfails)
  next hholds =>
    have hd : demand.holds := not_not.mp (mt hc.mpr hholds)
    exact pass hd (h hd)

/-- Checks one after the other ask for the demands of the first, then for those of the second. -/
theorem bind {f : α → Except Fault β} (h : Asks made demands x)
    (hf : ∀ a, made a → Asks made' demands' (f a)) :
    Asks made' (demands ++ demands') (x >>= f) := by
  cases h with
  | accepts all ha => exact prepend all (hf _ ha)
  | rejects earlier fails =>
    rw [List.append_assoc, List.cons_append]
    exact rejects earlier fails

/-- A check that only passes on what another makes asks for nothing more. -/
theorem map {f : α → Except Fault β} (h : Asks made demands x)
    (hf : ∀ a, made a → Asks made' [] (f a)) : Asks made' demands (x >>= f) :=
  demands.append_nil ▸ h.bind hf

theorem exists_eq_ok_iff (h : Asks made demands x) :
    (∃ a, x = .ok a) ↔ ∀ demand ∈ demands, demand.holds := by
  cases h with
  | accepts all _ => exact ⟨fun _ ↦ all, fun _ ↦ ⟨_, rfl⟩⟩
  | rejects _ fails =>
    refine ⟨fun ⟨_, h⟩ ↦ (nomatch h), fun all ↦ ?_⟩
    exact absurd (all _ (List.mem_append_right _ List.mem_cons_self)) fails

theorem made_of_eq_ok (h : Asks made demands x) (hx : x = .ok a) : made a := by
  subst hx
  cases h with
  | accepts _ ha => exact ha

theorem exists_of_eq_error {fault : Fault} (h : Asks made demands x) (hx : x = .error fault) :
    ∃ before demand after, demands = before ++ demand :: after ∧
      (∀ earlier ∈ before, earlier.holds) ∧ ¬ demand.holds ∧ fault = demand.fault := by
  subst hx
  cases h with
  | rejects earlier fails => exact ⟨_, _, _, rfl, earlier, fails, rfl⟩

end Asks

/-! ## Equations -/

/-- The two sides of a text around its only equals sign. -/
structure IsSplit (cs left right : List Char) : Prop where
  eq : cs = left ++ '=' :: right
  left : '=' ∉ left
  right : '=' ∉ right

/-- A text with one equals sign and something on both sides of it. -/
def IsEquation (text : String) : Prop :=
  ∃ left right, IsSplit text.toList left right ∧
    (∃ c ∈ left, isBlank c = false) ∧ ∃ c ∈ right, isBlank c = false

section Splitting

variable {cs left right : List Char}

theorem isSplit_of_splitEquation? (h : splitEquation? cs = some (left, right)) :
    IsSplit cs left right := by
  rw [splitEquation?] at h
  split at h
  next c rest hrest =>
    split at h
    · exact nomatch h
    next hmore =>
      cases h
      have hc : c = '=' := by
        have hne : cs.dropWhile (· != '=') ≠ [] := hrest ▸ List.cons_ne_nil c right
        simpa [hrest] using List.head_dropWhile_not (· != '=') hne
      subst hc
      refine ⟨?_, fun hmem ↦ ?_, mt List.contains_iff_mem.mpr hmore⟩
      · rw [← hrest, List.takeWhile_append_dropWhile]
      · simpa using List.mem_takeWhile_imp hmem
  next => exact nomatch h

theorem IsSplit.splitEquation? (h : IsSplit cs left right) :
    splitEquation? cs = some (left, right) := by
  have hleft : ∀ c ∈ left, (c != '=') = true :=
    fun c hc ↦ bne_iff_ne.mpr fun heq ↦ h.left (heq ▸ hc)
  rw [FormulaQuiz.splitEquation?, h.eq, List.dropWhile_append_of_pos hleft,
    List.takeWhile_append_of_pos hleft]
  simp [h.right]

theorem trimLeft_eq_nil_iff : trimLeft cs = [] ↔ ∀ c ∈ cs, isBlank c = true :=
  List.dropWhile_eq_nil_iff

/-- Nothing is left of a text without its blanks if it is all blanks. -/
theorem trimChars_eq_nil_iff : trimChars cs = [] ↔ ∀ c ∈ cs, isBlank c = true := by
  rw [trimChars, List.reverse_eq_nil_iff, trimLeft_eq_nil_iff]
  refine ⟨fun h ↦ ?_, fun h ↦ ?_⟩
  · have hall : trimLeft (trimLeft cs) = [] :=
      trimLeft_eq_nil_iff.mpr fun c hc ↦ h c (List.mem_reverse.mpr hc)
    rw [trimLeft, trimLeft, List.dropWhile_idempotent] at hall
    exact trimLeft_eq_nil_iff.mp hall
  · rw [trimLeft_eq_nil_iff.mpr h]
    exact nofun

theorem trim_ofList (cs : List Char) : trim (String.ofList cs) = String.ofList (trimChars cs) := by
  rw [trim, String.toList_ofList]

theorem isEmpty_trimChars_eq_false_iff :
    (String.ofList (trimChars cs)).isEmpty = false ↔ ∃ c ∈ cs, isBlank c = false := by
  rw [← Bool.not_eq_true, String.isEmpty_iff, String.ofList_eq_empty_iff, trimChars_eq_nil_iff]
  simp

/-- An equation has no blank side, however it is split. -/
theorem isEquation_iff_of_isSplit {text : String} (h : IsSplit text.toList left right) :
    IsEquation text ↔ (∃ c ∈ left, isBlank c = false) ∧ ∃ c ∈ right, isBlank c = false := by
  refine ⟨fun ⟨left', right', hsplit, hsides⟩ ↦ ?_, fun hsides ↦ ⟨left, right, h, hsides⟩⟩
  have heq := hsplit.splitEquation?.symm.trans h.splitEquation?
  cases heq
  exact hsides

end Splitting

namespace Draft.Method

/-- What is asked of a method with a number. -/
def demands (index : Nat) (m : Draft.Method) : List Demand :=
  let raw := trim m.expr
  [⟨raw ≠ "", .emptyMethod index⟩,
    ⟨IsEquation raw, .step .notEquation ⟨index, raw, Formula.plainText raw, none⟩⟩]

/-- What a method with a number becomes. -/
structure Makes (index : Nat) (m : Draft.Method) (s : Step) : Prop where
  index : s.index = index
  raw : s.raw = trim m.expr
  sides : ∃ left right, IsSplit s.raw.toList left right ∧
    s.lhs = trim (String.ofList left) ∧ s.rhs = trim (String.ofList right)
  explanation : s.explanation = m.explanation

theorem asks_check (index : Nat) (m : Draft.Method) :
    Asks (m.Makes index) (m.demands index) (m.check index) := by
  rw [check]
  refine .guard (by simp) fun _ ↦ ?_
  dsimp only
  split
  next left right hsplit =>
    have hsides := isSplit_of_splitEquation? hsplit
    have hlhs := (trim_ofList left).symm
    have hrhs := (trim_ofList right).symm
    refine .guard ?_ fun _ ↦ .value ⟨rfl, rfl, ⟨left, right, hsides, hlhs, hrhs⟩, rfl⟩
    rw [isEquation_iff_of_isSplit hsides, ← isEmpty_trimChars_eq_false_iff,
      ← isEmpty_trimChars_eq_false_iff]
    simp [or_iff_not_imp_left]
  next hnone =>
    refine .fail fun ⟨left, right, hsides, _⟩ ↦ ?_
    exact hnone left right hsides.splitEquation?

/-- Methods are asked in order, and become steps in order. -/
theorem asks_checkAll (index : Nat) (ms : List Draft.Method) :
    Asks (List.Forall₂ (fun m s ↦ m.1.Makes m.2 s) (ms.zipIdx index))
      ((ms.zipIdx index).flatMap fun m ↦ m.1.demands m.2) (checkAll index ms) := by
  induction ms generalizing index with
  | nil => exact .value .nil
  | cons m ms ih =>
    rw [checkAll, List.zipIdx_cons, List.flatMap_cons]
    refine (m.asks_check index).bind fun s hs ↦ ?_
    exact (ih (index + 1)).map fun rest hrest ↦ .value (.cons hs hrest)

end Draft.Method

/-! ## Variables -/

namespace Draft.Variable

/-- What is asked of a final answer with a name. -/
def finalAnswerDemands (name : String) (v : Draft.Variable) : List Demand :=
  let range := v.decoys
  [⟨v.randomize = false, .randomizedFinalAnswer name⟩,
    ⟨v.decimalPlaces ≠ none, .decimalPlacesMissing name⟩,
    ⟨(range.min.isFinite ∧ range.max.isFinite ∧ range.step.isFinite) ∧ 0 < range.step,
      .stepSizeInvalid name⟩,
    ⟨¬ range.min > range.max, .wrongAnswersInverted name range.min range.max⟩]

/-- What is asked of an input that is drawn. -/
def drawDemands (name : String) (v : Draft.Variable) : List Demand :=
  match v.min, v.max with
  | some min, some max =>
    [⟨min.isFinite ∧ max.isFinite ∧ ¬ min > max, .randomBoundsInvalid name min max⟩,
      ⟨(max - min).isFinite ∧ max - min < greatestFloat / 2, .randomBoundsTooWide name min max⟩]
  | _, _ => [⟨False, .randomBoundsMissing name⟩]

/-- What is asked of a variable on its own. -/
def demands (v : Draft.Variable) : List Demand :=
  let name := trim v.name
  ⟨name ≠ "", .emptyName⟩ ::
    if v.isFinalAnswer then v.finalAnswerDemands name
    else if v.randomize then v.drawDemands name
    else []

/-- What is asked of variables in order; `seen` are the names of the variables before them. -/
def allDemands (seen : List String) : List Draft.Variable → List Demand
  | [] => []
  | v :: vs =>
    let name := trim v.name
    v.demands ++ ⟨name ∉ seen, .duplicateName name⟩ :: allDemands (name :: seen) vs

/-- What a variable is for, once it is checked. -/
inductive Plays (v : Draft.Variable) : Role → Prop
  | finalAnswer {places : UInt8} (asked : v.isFinalAnswer = true)
      (hplaces : v.decimalPlaces = some places) : v.Plays (.finalAnswer places v.decoys)
  | given (input : v.isFinalAnswer = false) (fixed : v.randomize = false) :
      v.Plays (.input (v.default.filter fun d ↦ !d.isBlank) none)
  | drawn {min max : Float} (input : v.isFinalAnswer = false) (random : v.randomize = true)
      (hmin : v.min = some min) (hmax : v.max = some max) :
      v.Plays (.input (v.default.filter fun d ↦ !d.isBlank)
        (some ⟨min, max, v.decimalPlaces.getD defaultPlaces⟩))

/-- What a variable becomes. -/
structure Makes (v : Draft.Variable) (made : FormulaQuiz.Variable) : Prop where
  name : made.name = trim v.name
  unit : made.unit = (v.unit.map trim).filter fun unit ↦ !unit.isEmpty
  decimalPlaces : made.decimalPlaces = v.decimalPlaces
  role : v.Plays made.role

theorem Makes.isFinalAnswer {v : Draft.Variable} {made : FormulaQuiz.Variable} (h : v.Makes made) :
    made.isFinalAnswer = v.isFinalAnswer := by
  have hrole := h.role
  rw [FormulaQuiz.Variable.isFinalAnswer]
  cases hmade : made.role with
  | finalAnswer places decoys =>
    rw [hmade] at hrole
    cases hrole with
    | finalAnswer asked => exact asked.symm
  | input default random =>
    rw [hmade] at hrole
    cases hrole with
    | given input => exact input.symm
    | drawn input => exact input.symm

theorem zero_lt_iff {x : Float} (hx : x.isFinite = true) : 0 < x ↔ ¬ x ≤ 0 := by
  obtain ⟨v, hv⟩ := exists_is hx
  rw [is_zero.lt_iff hv, hv.le_iff is_zero, not_le]

theorem asks_finalAnswer (name : String) {v : Draft.Variable} (h : v.isFinalAnswer = true) :
    Asks v.Plays (v.finalAnswerDemands name) (v.finalAnswer name) := by
  rw [finalAnswer]
  refine .guard (by simp) fun _ ↦ ?_
  cases hplaces : v.decimalPlaces with
  | none => exact .fail (by simp)
  | some places =>
    refine .pass (by simp) ?_
    refine .guard ?_ fun _ ↦ .guard (by simp) fun _ ↦ .value (.finalAnswer h hplaces)
    rw [Bool.or_eq_true, Bool.not_eq_true', ← Bool.not_eq_true, Bool.and_eq_true, Bool.and_eq_true,
      and_assoc, decide_eq_true_eq, ← imp_iff_not_or]
    dsimp only
    rw [not_and]
    exact forall_congr' fun hfinite ↦ by rw [zero_lt_iff hfinite.2.2, not_not]

theorem asks_drawRange (name : String) (v : Draft.Variable) :
    Asks (fun range ↦ ∃ min max, v.min = some min ∧ v.max = some max ∧
        range = ⟨min, max, v.decimalPlaces.getD defaultPlaces⟩)
      (v.drawDemands name) (v.drawRange name) := by
  rw [drawRange, drawDemands]
  cases v.min with
  | none => exact .fail not_false
  | some min =>
    cases v.max with
    | none => exact .fail not_false
    | some max =>
      refine .guard (by simp [or_iff_not_imp_left]) fun _ ↦ ?_
      refine .guard ?_ fun _ ↦ .value ⟨min, max, rfl, rfl, rfl⟩
      simp [DrawRange.isDrawable, or_iff_not_imp_left]

theorem asks_input (name : String) {v : Draft.Variable} (h : v.isFinalAnswer = false) :
    Asks v.Plays (if v.randomize then v.drawDemands name else []) (v.input name) := by
  rw [input]
  split
  next hrandom =>
    refine (v.asks_drawRange name).map ?_
    rintro _ ⟨min, max, hmin, hmax, rfl⟩
    exact .value (.drawn h hrandom hmin hmax)
  next hfixed => exact .value (.given h (Bool.not_eq_true _ ▸ hfixed))

theorem asks_check (v : Draft.Variable) : Asks v.Makes v.demands v.check := by
  rw [check]
  refine .guard (by simp) fun _ ↦ ?_
  dsimp only
  split
  next hasked =>
    refine (asks_finalAnswer _ hasked).map fun role hrole ↦ ?_
    exact .value ⟨rfl, rfl, rfl, hrole⟩
  next hinput =>
    refine (asks_input _ (Bool.not_eq_true _ ▸ hinput)).map fun role hrole ↦ ?_
    exact .value ⟨rfl, rfl, rfl, hrole⟩

/-- Variables are asked in order, each on its own before its name is compared with earlier ones. -/
theorem asks_checkAll (seen : List String) (vs : List Draft.Variable) :
    Asks (List.Forall₂ Makes vs) (allDemands seen vs) (checkAll seen vs) := by
  induction vs generalizing seen with
  | nil => exact .value .nil
  | cons v vs ih =>
    rw [checkAll, allDemands]
    refine v.asks_check.bind fun made hmade ↦ ?_
    rw [hmade.name]
    refine .guard (by simp) fun _ ↦ ?_
    exact (ih _).map fun rest hrest ↦ .value (.cons hmade hrest)

end Draft.Variable

/-! ## Drafts -/

namespace Draft

/-- All that is asked of a draft, in order. -/
def demands (d : Draft) : List Demand :=
  ⟨d.variables ≠ [] ∧ d.methods ≠ [], .emptyDraft⟩ ::
    (Draft.Variable.allDemands [] d.variables ++
      ⟨∃ v ∈ d.variables, v.isFinalAnswer = true, .noFinalAnswer⟩ ::
      (d.methods.zipIdx 1).flatMap fun m ↦ m.1.demands m.2)

/-- The question that a draft becomes: its variables and methods are those of the draft, in order,
and the methods are numbered from one. -/
structure Makes (d : Draft) (q : Question) : Prop where
  «variables» : List.Forall₂ Variable.Makes d.variables q.variables
  steps : List.Forall₂ (fun m s ↦ m.1.Makes m.2 s) (d.methods.zipIdx 1) q.steps

theorem any_isFinalAnswer_iff {vs : List Draft.Variable} {made : List FormulaQuiz.Variable}
    (h : List.Forall₂ Variable.Makes vs made) :
    made.any FormulaQuiz.Variable.isFinalAnswer = true ↔ ∃ v ∈ vs, v.isFinalAnswer = true := by
  induction h with
  | nil => simp
  | cons hmade _ ih =>
    rw [List.any_cons, Bool.or_eq_true, ih, hmade.isFinalAnswer, List.exists_mem_cons_iff]

/-- A draft becomes a question demand by demand. -/
theorem asks_ofDraft (d : Draft) : Asks d.Makes d.demands (Question.ofDraft d) := by
  rw [Question.ofDraft, demands]
  refine .guard ?_ fun _ ↦ ?_
  · simp [or_iff_not_imp_left]
  refine (Variable.asks_checkAll [] d.variables).bind fun made hmade ↦ ?_
  refine .guard ?_ fun _ ↦ ?_
  · rw [← any_isFinalAnswer_iff hmade, Bool.not_eq_true', Bool.not_eq_true]
  exact (Method.asks_checkAll 1 d.methods).map fun steps hsteps ↦ .value ⟨hmade, hsteps⟩

/-! ## Acceptable drafts -/

/-- A final answer can be asked for: its value is computed, at a precision, and the deviations of
wrong answers are finite and in order. -/
structure Variable.CanBeAsked (v : Draft.Variable) : Prop where
  randomize : v.randomize = false
  decimalPlaces : v.decimalPlaces ≠ none
  isFinite_min : ((v.decoyMin <|> v.min).getD (-90)).isFinite = true
  isFinite_max : ((v.decoyMax <|> v.max).getD 90).isFinite = true
  isFinite_step : (v.decoyStep.getD 20).isFinite = true
  step_pos : 0 < v.decoyStep.getD 20
  le : ¬ (v.decoyMin <|> v.min).getD (-90) > (v.decoyMax <|> v.max).getD 90

/-- An input can be drawn: it has finite bounds in order, and their distance is not too great. -/
def Variable.CanBeDrawn (v : Draft.Variable) : Prop :=
  ∃ min max, v.min = some min ∧ v.max = some max ∧ (min.isFinite = true ∧ max.isFinite = true ∧
    ¬ min > max) ∧ (max - min).isFinite = true ∧ max - min < greatestFloat / 2

/-- What an author is told that a draft has to be. -/
structure IsAcceptable (d : Draft) : Prop where
  variables_ne_nil : d.variables ≠ []
  methods_ne_nil : d.methods ≠ []
  name_ne : ∀ v ∈ d.variables, trim v.name ≠ ""
  nodup_names : (d.variables.map fun v ↦ trim v.name).Nodup
  finalAnswers : ∀ v ∈ d.variables, v.isFinalAnswer = true → v.CanBeAsked
  inputs : ∀ v ∈ d.variables, v.isFinalAnswer = false → v.randomize = true → v.CanBeDrawn
  exists_finalAnswer : ∃ v ∈ d.variables, v.isFinalAnswer = true
  equations : ∀ m ∈ d.methods, IsEquation (trim m.expr)

theorem Variable.canBeAsked_iff {v : Draft.Variable} (name : String) :
    v.CanBeAsked ↔ ∀ demand ∈ v.finalAnswerDemands name, demand.holds := by
  rw [finalAnswerDemands]
  simp only [List.forall_mem_cons]
  refine ⟨fun h ↦ ⟨h.randomize, h.decimalPlaces, ?_, h.le, nofun⟩, ?_⟩
  · exact ⟨⟨h.isFinite_min, h.isFinite_max, h.isFinite_step⟩, h.step_pos⟩
  · rintro ⟨hrandomize, hplaces, ⟨⟨hmin, hmax, hstep⟩, hpos⟩, hle, -⟩
    exact ⟨hrandomize, hplaces, hmin, hmax, hstep, hpos, hle⟩

theorem Variable.canBeDrawn_iff {v : Draft.Variable} (name : String) :
    v.CanBeDrawn ↔ ∀ demand ∈ v.drawDemands name, demand.holds := by
  rw [CanBeDrawn, drawDemands]
  cases v.min with
  | none => simp
  | some min =>
    cases v.max with
    | none => simp
    | some max => simp

/-- What is asked of a variable on its own is what an author is told of it. -/
theorem Variable.demands_iff {v : Draft.Variable} :
    (∀ demand ∈ v.demands, demand.holds) ↔ trim v.name ≠ "" ∧
      (v.isFinalAnswer = true → v.CanBeAsked) ∧
      (v.isFinalAnswer = false → v.randomize = true → v.CanBeDrawn) := by
  rw [demands, canBeAsked_iff (trim v.name), canBeDrawn_iff (trim v.name)]
  cases v.isFinalAnswer <;> cases v.randomize <;> simp

/-- Each name differs from all that are before it if no two names are equal. -/
theorem Variable.allDemands_iff {seen : List String} {vs : List Draft.Variable} :
    (∀ demand ∈ allDemands seen vs, demand.holds) ↔
      (∀ v ∈ vs, ∀ demand ∈ v.demands, demand.holds) ∧
        (vs.map fun v ↦ trim v.name).Nodup ∧ ∀ v ∈ vs, trim v.name ∉ seen := by
  induction vs generalizing seen with
  | nil => simp [allDemands]
  | cons v vs ih =>
    have hnew : (∀ w ∈ vs, trim w.name ∉ trim v.name :: seen) ↔
        trim v.name ∉ vs.map (fun w ↦ trim w.name) ∧ ∀ w ∈ vs, trim w.name ∉ seen := by
      simp [forall_and]
    rw [allDemands, List.forall_mem_append, List.forall_mem_cons, ih, hnew, List.map_cons,
      List.nodup_cons, List.forall_mem_cons, List.forall_mem_cons]
    constructor
    · rintro ⟨hown, hseen, howns, hnodup, hapart, hseens⟩
      exact ⟨⟨hown, howns⟩, ⟨hapart, hnodup⟩, hseen, hseens⟩
    · rintro ⟨⟨hown, howns⟩, ⟨hapart, hnodup⟩, hseen, hseens⟩
      exact ⟨hown, hseen, howns, hnodup, hapart, hseens⟩

/-- An equation is not empty, so one demand on a method says it all. -/
theorem Method.demands_iff {index : Nat} {m : Draft.Method} :
    (∀ demand ∈ m.demands index, demand.holds) ↔ IsEquation (trim m.expr) := by
  rw [demands]
  simp only [List.forall_mem_cons]
  refine ⟨fun h ↦ h.2.1, fun h ↦ ⟨fun hempty ↦ ?_, h, nofun⟩⟩
  obtain ⟨left, right, hsplit, -⟩ := h
  have hnil := hsplit.eq
  rw [hempty, String.toList_empty] at hnil
  exact List.append_ne_nil_of_right_ne_nil left (List.cons_ne_nil _ _) hnil.symm

theorem Method.forall_demands_iff {index : Nat} {ms : List Draft.Method} :
    (∀ m ∈ ms.zipIdx index, ∀ demand ∈ m.1.demands m.2, demand.holds) ↔
      ∀ m ∈ ms, IsEquation (trim m.expr) := by
  induction ms generalizing index with
  | nil => simp
  | cons m ms ih =>
    rw [List.zipIdx_cons, List.forall_mem_cons, List.forall_mem_cons, demands_iff, ih]

/-- A draft is acceptable if it meets all demands. -/
theorem isAcceptable_iff {d : Draft} :
    d.IsAcceptable ↔ ∀ demand ∈ d.demands, demand.holds := by
  rw [demands, List.forall_mem_cons, List.forall_mem_append, List.forall_mem_cons,
    List.forall_mem_flatMap, Variable.allDemands_iff, Method.forall_demands_iff]
  simp only [Variable.demands_iff]
  constructor
  · intro h
    refine ⟨⟨h.variables_ne_nil, h.methods_ne_nil⟩, ⟨fun v hv ↦ ?_, h.nodup_names, fun _ _ ↦ ?_⟩,
      h.exists_finalAnswer, h.equations⟩
    · exact ⟨h.name_ne v hv, h.finalAnswers v hv, h.inputs v hv⟩
    · exact List.not_mem_nil
  · rintro ⟨⟨hvariables, hmethods⟩, ⟨hown, hnodup, -⟩, hfinal, hequations⟩
    exact ⟨hvariables, hmethods, fun v hv ↦ (hown v hv).1, hnodup, fun v hv ↦ (hown v hv).2.1,
      fun v hv ↦ (hown v hv).2.2, hfinal, hequations⟩

/-- What becomes of a draft: an acceptable one becomes a question with its variables and methods,
and any other has the fault of the first demand that it does not meet. -/
structure IsJudged (d : Draft) : Prop where
  accepted_iff : (∃ q, Question.ofDraft d = .ok q) ↔ d.IsAcceptable
  made : ∀ q, Question.ofDraft d = .ok q → d.Makes q
  fault : ∀ fault, Question.ofDraft d = .error fault → ∃ before demand after,
    d.demands = before ++ demand :: after ∧ (∀ earlier ∈ before, earlier.holds) ∧
      ¬ demand.holds ∧ fault = demand.fault

/-- Every draft is judged. -/
theorem isJudged (d : Draft) : d.IsJudged where
  accepted_iff := d.asks_ofDraft.exists_eq_ok_iff.trans isAcceptable_iff.symm
  made := fun _ ↦ d.asks_ofDraft.made_of_eq_ok
  fault := fun _ ↦ d.asks_ofDraft.exists_of_eq_error

end Draft

end FormulaQuiz
