import FormulaQuiz.Proofs.Aliases
import FormulaQuiz.Variation.Answers

/-!
# What an equation does

An equation may give an alias to its left side, and then either finds a fault or binds the alias.
`Step.outcome_run` says so once; whatever a whole run of equations keeps is shown for `Step.target`
and `Step.conclude` alone.
-/

namespace FormulaQuiz

open Formula (Bindings)

variable {σ α β : Type}

namespace Run

/-- What an action of the equations comes to, what is known after it, and the source after it. -/
def outcome (m : Run σ α) (progress : Progress) (source : σ) : (Except Fault α × Progress) × σ :=
  (m.run.run progress).run source

variable {progress : Progress} {source : σ}

@[simp] theorem outcome_pure (a : α) :
    (pure a : Run σ α).outcome progress source = ((.ok a, progress), source) := rfl

@[simp] theorem outcome_throw (fault : Fault) :
    (throw fault : Run σ α).outcome progress source = ((.error fault, progress), source) := rfl

@[simp] theorem outcome_get :
    (get : Run σ Progress).outcome progress source = ((.ok progress, progress), source) := rfl

@[simp] theorem outcome_lift (t : Trial σ α) :
    outcome (ExceptT.mk (StateT.lift t.run)) progress source =
      (((t.outcome source).1, progress), (t.outcome source).2) := rfl

/-- Running an action, and on its value another. -/
theorem outcome_bind (m : Run σ α) (f : α → Run σ β) :
    (m >>= f).outcome progress source =
      match m.outcome progress source with
      | ((.ok a, between), rest) => (f a).outcome between rest
      | ((.error fault, between), rest) => ((.error fault, between), rest) := by
  change ExceptT.bindCont f (m.outcome progress source).1.1 (m.outcome progress source).1.2
    (m.outcome progress source).2 = _
  obtain ⟨⟨result, between⟩, rest⟩ := m.outcome progress source
  cases result with
  | ok a => rfl
  | error fault => rfl

end Run

namespace Step

/-- The fault of an equation with its report. -/
def faultOf (s : Step) (fault : StepFault) (progress : Progress) : Fault :=
  .step fault (s.report progress.aliases)

/-- What an equation does when the alias of its left side is known. -/
def conclude (s : Step) (word : String) (progress : Progress) : Except Fault Float × Progress :=
  if progress.bindings.contains word then (.error (s.faultOf (.rebound s.lhs) progress), progress)
  else
    match s.value progress with
    | .error fault => (.error (s.faultOf (.formula fault) progress), progress)
    | .ok x =>
      match progress.bindings.bind word x with
      | .error _ => (.error (s.faultOf (.bound s.lhs) progress), progress)
      | .ok bindings => (.ok x, { progress with bindings })

variable {progress : Progress} {source : σ}

variable [Random.WordSource σ]

/-- An equation finds the alias of its left side, and draws nothing after that. -/
theorem outcome_run (q : Question) (s : Step) :
    (s.run q : Run σ Float).outcome progress source =
      match (s.target q : Run σ String).outcome progress source with
      | ((.ok word, between), rest) => (s.conclude word between, rest)
      | ((.error fault, between), rest) => ((.error fault, between), rest) := by
  rw [run, Run.outcome_bind]
  rcases (s.target q : Run σ String).outcome progress source with ⟨⟨result, between⟩, rest⟩
  cases result with
  | error fault => rfl
  | ok word =>
    simp only [Run.outcome_bind, Run.outcome_get, conclude]
    split
    · rfl
    · simp only [Run.outcome_bind, Run.outcome_get]
      cases s.value between with
      | error fault => rfl
      | ok x =>
        dsimp only
        cases between.bindings.bind word x with
        | error _ => rfl
        | ok bindings => rfl

/-- A new name gets an alias only if it has none. -/
theorem outcome_newAlias (name : String) :
    (newAlias name : Run σ String).outcome progress source =
      match progress.aliases.alias? name with
      | some word => ((.ok word, progress), source)
      | none =>
        match (progress.aliases.assign name : Trial σ _).outcome source with
        | (.ok (word, aliases), rest) => ((.ok word, { progress with aliases }), rest)
        | (.error fault, rest) => ((.error fault, progress), rest) := by
  rw [newAlias, Run.outcome_bind, Run.outcome_get]
  dsimp only
  cases progress.aliases.alias? name with
  | some word => rfl
  | none =>
    dsimp only
    rw [Run.outcome_bind, Run.outcome_lift]
    rcases (progress.aliases.assign name : Trial σ _).outcome source with ⟨result, rest⟩
    cases result with
    | error fault => rfl
    | ok given => rfl

/-- The alias of a left side is known already, or it is new and the name had none. -/
inductive Target (s : Step) (progress : Progress) : Except Fault String → Progress → Prop where
  | fault (fault : Fault) : Target s progress (.error fault) progress
  | known {word : String} (h : progress.aliases.alias? s.lhs = some word) :
      Target s progress (.ok word) progress
  | new {word : String} (h : progress.aliases.alias? s.lhs = none)
      (hfresh : IsFresh progress.aliases.policy.length (s.lhs :: progress.aliases.names)
        progress.aliases.aliases word) :
      Target s progress (.ok word) { progress with aliases := progress.aliases.push s.lhs word }

theorem target_newAlias (s : Step) (progress : Progress) (source : σ) :
    s.Target progress ((newAlias s.lhs : Run σ String).outcome progress source).1.1
      ((newAlias s.lhs : Run σ String).outcome progress source).1.2 := by
  rw [outcome_newAlias]
  cases hname : progress.aliases.alias? s.lhs with
  | some word => exact .known hname
  | none =>
    rcases hassign : (progress.aliases.assign s.lhs : Trial σ _).outcome source with ⟨result, rest⟩
    cases result with
    | error fault => exact .fault fault
    | ok given =>
      obtain ⟨word, aliases⟩ := given
      obtain ⟨-, rfl, hfresh⟩ := AliasTable.assign_gives hassign
      exact .new hname hfresh

theorem declared?_name {q : Question} {name : String} {v : Variable}
    (h : q.declared? name = some v) : v.name = name := by
  simpa using List.find?_some h

/-- All that looking for the alias of a left side may do. -/
theorem target_outcome (q : Question) (s : Step) (progress : Progress) (source : σ) :
    s.Target progress ((s.target q : Run σ String).outcome progress source).1.1
      ((s.target q : Run σ String).outcome progress source).1.2 := by
  rw [target]
  cases hv : q.declared? s.lhs with
  | none => exact target_newAlias s progress source
  | some v =>
    dsimp only
    split
    · rw [Run.outcome_bind, Run.outcome_get]
      dsimp only
      cases hname : progress.aliases.alias? v.name with
      | none => exact .fault _
      | some word => exact .known (declared?_name hv ▸ hname)
    · exact .fault _

end Step

/-! ## What is known stays known -/

namespace Formula.Bindings

/-- The words that are bound. -/
def words (b : Bindings) : List String := b.entries.map (·.1)

theorem get?_eq_none_iff {b : Bindings} {word : String} : b.get? word = none ↔ word ∉ b.words := by
  rw [get?, List.lookup_eq_none_iff, words, List.mem_map]
  constructor
  · rintro h ⟨e, he, rfl⟩
    exact absurd (h e he) (by simp)
  · exact fun h e he ↦ bne_iff_ne.mpr fun heq ↦ h ⟨e, he, heq.symm⟩

theorem mem_words_of_get? {b : Bindings} {word : String} {x : Float} (h : b.get? word = some x) :
    word ∈ b.words := by
  refine Classical.byContradiction fun hnot ↦ ?_
  rw [get?_eq_none_iff.mpr hnot] at h
  exact nomatch h

theorem get?_of_prefix {b b' : Bindings} {name : String} {x : Float}
    (h : b.entries <+: b'.entries) (hx : b.get? name = some x) : b'.get? name = some x := by
  obtain ⟨more, hmore⟩ := h
  rw [get?] at hx ⊢
  rw [← hmore, List.lookup_append, hx, Option.some_or]

theorem bind_eq_ok_iff {b b' : Bindings} {name : String} {x : Float} :
    b.bind name x = .ok b' ↔ b.get? name = none ∧ b' = ⟨b.entries ++ [(name, x)]⟩ := by
  rw [bind]
  cases b.get? name with
  | some y => simp
  | none => simp [eq_comm]

theorem prefix_of_bind {b b' : Bindings} {name : String} {x : Float} (h : b.bind name x = .ok b') :
    b.entries <+: b'.entries := by
  rw [(bind_eq_ok_iff.mp h).2]
  exact List.prefix_append _ _

theorem get?_of_bind {b b' : Bindings} {name : String} {x : Float} (h : b.bind name x = .ok b') :
    b'.get? name = some x := by
  obtain ⟨hnone, rfl⟩ := bind_eq_ok_iff.mp h
  rw [get?] at hnone ⊢
  rw [List.lookup_append, hnone, Option.none_or]
  simp

end Formula.Bindings

namespace Progress

/-- All that is known at one time is known at another. -/
structure Within (progress later : Progress) : Prop where
  aliases : progress.aliases.Within later.aliases
  bindings : progress.bindings.entries <+: later.bindings.entries

theorem Within.refl (progress : Progress) : progress.Within progress :=
  ⟨.refl _, List.prefix_refl _⟩

theorem Within.trans {p p' p'' : Progress} (h : p.Within p') (h' : p'.Within p'') : p.Within p'' :=
  ⟨h.aliases.trans h'.aliases, h.bindings.trans h'.bindings⟩

end Progress

/-- The value of a variable stays what it is. -/
theorem Variable.boundValue_of_within {v : Variable} {progress later : Progress}
    (h : progress.Within later) {x : Float} (hx : v.boundValue progress = some x) :
    v.boundValue later = some x := by
  obtain ⟨word, hword, hget⟩ := Option.bind_eq_some_iff.mp hx
  exact Option.bind_eq_some_iff.mpr
    ⟨word, h.aliases.alias?_eq hword, Bindings.get?_of_prefix h.bindings hget⟩

namespace Step

theorem Target.within {s : Step} {progress between : Progress} {result : Except Fault String}
    (h : s.Target progress result between) : progress.Within between := by
  cases h with
  | fault | known => exact .refl progress
  | new => exact ⟨progress.aliases.within_push _ _, List.prefix_refl _⟩

theorem within_conclude (s : Step) (word : String) (progress : Progress) :
    progress.Within (s.conclude word progress).2 := by
  rw [conclude]
  split
  · exact .refl progress
  · cases s.value progress with
    | error fault => exact .refl progress
    | ok x =>
      dsimp only
      cases hbind : progress.bindings.bind word x with
      | error _ => exact .refl progress
      | ok bindings => exact ⟨.refl _, Bindings.prefix_of_bind hbind⟩

variable [Random.WordSource σ]

/-- One equation keeps what is known, also if it finds a fault. -/
theorem within_run (q : Question) (s : Step) (progress : Progress) (source : σ) :
    progress.Within ((s.run q : Run σ Float).outcome progress source).1.2 := by
  have htarget := (target_outcome q s progress source).within
  rw [outcome_run]
  rcases ho : (s.target q : Run σ String).outcome progress source with ⟨⟨result, between⟩, rest⟩
  rw [ho] at htarget
  cases result with
  | error fault => exact htarget
  | ok word => exact htarget.trans (within_conclude s word between)

/-- A run of equations keeps what is known, also if it finds a fault. -/
theorem within_runAll (q : Question) (ss : List Step) (progress : Progress) (source : σ) :
    progress.Within ((runAll q ss : Run σ Unit).outcome progress source).1.2 := by
  induction ss generalizing progress source with
  | nil => exact .refl progress
  | cons s ss ih =>
    have hrun := within_run q s progress source
    rw [runAll, Run.outcome_bind]
    rcases ho : (s.run q : Run σ Float).outcome progress source with ⟨⟨result, between⟩, rest⟩
    rw [ho] at hrun
    cases result with
    | error fault => exact hrun
    | ok x => exact hrun.trans (ih between rest)

end Step

end FormulaQuiz
