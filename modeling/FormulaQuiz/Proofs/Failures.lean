import FormulaQuiz.Cli.Report
import FormulaQuiz.Proofs.Naming
import FormulaQuiz.Proofs.Solutions

/-!
# Where equations stop

Equations stop at the first one that is at fault.  What the equations before it have bound stays
bound, and nothing else is.  The left side of the equation at fault may have got an alias, since that
is looked for first; so the equation is reported as it reads with that alias.
-/

namespace FormulaQuiz

variable {σ : Type} [Random.WordSource σ] {q : Question}

namespace Step

variable {s : Step} {before later start last : Progress} {source rest : σ} {fault : Fault}

/-! ## One equation -/

/-- What may be found at fault in an equation, with the aliases that there are then: no alias can be
found for its left side, or there is a cause, which is told with a report on the equation. -/
inductive Finds (s : Step) (aliases : AliasTable) : Fault → Prop where
  | exhausted (attempts : ℕ) : s.Finds aliases (.aliasesExhausted s.lhs attempts)
  | reported (cause : StepFault) : s.Finds aliases (.step cause (s.report aliases))

/-- Looking for the alias of a left side in vain changes nothing. -/
theorem finds_target
    (h : (s.target q : Run σ String).outcome before source = ((.error fault, later), rest)) :
    later = before ∧ s.Finds before.aliases fault := by
  rw [target] at h
  split at h
  · rw [outcome_newAlias] at h
    cases hname : before.aliases.alias? s.lhs with
    | some word => simp [hname] at h
    | none =>
      simp only [hname] at h
      rcases hassign : (before.aliases.assign s.lhs : Trial σ _).outcome source with
        ⟨result, between⟩
      rw [hassign] at h
      cases result with
      | ok given => simp at h
      | error found =>
        obtain ⟨attempts, rfl⟩ := AliasTable.exists_of_assign_eq_error hname hassign
        cases h
        exact ⟨rfl, .exhausted attempts⟩
  · split at h
    · rw [Run.outcome_bind, Run.outcome_get] at h
      dsimp only at h
      split at h
      · simp at h
      · cases h
        exact ⟨rfl, .reported _⟩
    · cases h
      exact ⟨rfl, .reported _⟩

/-- With the alias of its left side, an equation at fault changes nothing either. -/
theorem finds_conclude {word : String} (h : s.conclude word before = (.error fault, later)) :
    later = before ∧ s.Finds before.aliases fault := by
  rw [conclude] at h
  split at h
  · cases h
    exact ⟨rfl, .reported _⟩
  · split at h
    · cases h
      exact ⟨rfl, .reported _⟩
    · split at h
      · cases h
        exact ⟨rfl, .reported _⟩
      · simp at h

/-- An equation at fault leaves all as it is, but for an alias of its left side. -/
theorem finds_run
    (h : (s.run q : Run σ Float).outcome before source = ((.error fault, later), rest)) :
    later.bindings = before.bindings ∧
      (later.aliases = before.aliases ∨ before.aliases.alias? s.lhs = none ∧
        ∃ word, later.aliases = before.aliases.push s.lhs word) ∧
      s.Finds later.aliases fault := by
  have htarget := target_outcome q s before source
  rw [outcome_run] at h
  rcases ho : (s.target q : Run σ String).outcome before source with ⟨⟨result, between⟩, middle⟩
  rw [ho] at h htarget
  cases result with
  | error found =>
    cases h
    obtain ⟨rfl, hfinds⟩ := finds_target ho
    exact ⟨rfl, .inl rfl, hfinds⟩
  | ok word =>
    obtain ⟨rfl, hfinds⟩ := finds_conclude (Prod.mk.inj h).1
    cases htarget with
    | known _ => exact ⟨rfl, .inl rfl, hfinds⟩
    | new hname _ => exact ⟨rfl, .inr ⟨hname, word, rfl⟩, hfinds⟩

/-! ## All equations -/

/-- Equations that stop do so at one of them, after those before it have been solved. -/
theorem exists_of_runAll_eq_error {ss : List Step}
    (h : (runAll q ss : Run σ Unit).outcome start source = ((.error fault, last), rest)) :
    ∃ k s before reached, ss[k]? = some s ∧
      (runAll q (ss.take k)).outcome start source = ((.ok (), before), reached) ∧
      (s.run q).outcome before reached = ((.error fault, last), rest) := by
  induction ss generalizing start source with
  | nil => simp [runAll] at h
  | cons s ss ih =>
    rw [runAll, Run.outcome_bind] at h
    rcases hrun : (s.run q : Run σ Float).outcome start source with ⟨⟨result, between⟩, middle⟩
    rw [hrun] at h
    cases result with
    | error found =>
      cases h
      exact ⟨0, s, start, source, rfl, rfl, hrun⟩
    | ok x =>
      obtain ⟨k, t, before, reached, hk, hbefore, hfails⟩ := ih h
      refine ⟨k + 1, t, before, reached, hk, ?_, hfails⟩
      rw [List.take_succ_cons, runAll, Run.outcome_bind, hrun]
      exact hbefore

/-- Equations have stopped at `s`, the one with the number `k` among `ss`; `before` is what was known
after the equations before it. -/
structure Stops (q : Question) (ss : List Step) (start last : Progress) (source rest : σ)
    (fault : Fault) (k : ℕ) (s : Step) (before : Progress) (reached : σ) : Prop where
  step : ss[k]? = some s
  /-- The equations before it are solved. -/
  solved : (runAll q (ss.take k)).outcome start source = ((.ok (), before), reached)
  /-- It is the first one at fault. -/
  fails : (s.run q).outcome before reached = ((.error fault, last), rest)
  /-- Nothing is bound but what was bound before it. -/
  bindings : last.bindings = before.bindings
  /-- The names of the beginning have their aliases, -/
  keeps : ∀ name word, start.aliases.alias? name = some word → last.aliases.alias? name = some word
  /-- and so have those of the equations before it. -/
  keeps_before : ∀ name word, before.aliases.alias? name = some word →
    last.aliases.alias? name = some word
  /-- No other name has an alias than its left side. -/
  names : last.aliases.names = before.aliases.names ∨
    last.aliases.names = before.aliases.names ++ [s.lhs]
  /-- The fault is that there are no aliases left, and nothing more is told of it, or it comes with a
  report on the equation. -/
  fault : fault.code = "CONFIG_TOKEN_SPACE_EXHAUSTED" ∧ (Cli.Failure.question fault).detail? = none ∨
    fault.kind = .expression ∧ ∃ cause, fault = .step cause {
      index := s.index
      expr := s.raw
      plain := Formula.plainText s.raw
      encoded := some (Formula.plainText (last.aliases.substitute s.raw)) }

/-- Equations that do not run to their end have stopped at one of them. -/
theorem exists_stops_of_runAll {ss : List Step}
    (h : (runAll q ss : Run σ Unit).outcome start source = ((.error fault, last), rest)) :
    ∃ k s before reached, Stops q ss start last source rest fault k s before reached := by
  obtain ⟨k, s, before, reached, hk, hsolved, hfails⟩ := exists_of_runAll_eq_error h
  obtain ⟨hbindings, haliases, hfinds⟩ := finds_run hfails
  have hwithin := within_runAll q ss start source
  have hwithin' := within_run q s before reached
  rw [h] at hwithin
  rw [hfails] at hwithin'
  refine ⟨k, s, before, reached, hk, hsolved, hfails, hbindings,
    fun _ _ ↦ hwithin.aliases.alias?_eq, fun _ _ ↦ hwithin'.aliases.alias?_eq, ?_, ?_⟩
  · rcases haliases with heq | ⟨-, word, heq⟩
    · exact .inl (congrArg AliasTable.names heq)
    · exact .inr ((congrArg AliasTable.names heq).trans AliasTable.names_push)
  · cases hfinds with
    | exhausted attempts => exact .inl ⟨rfl, rfl⟩
    | reported cause => exact .inr ⟨rfl, cause, rfl⟩

end Step

/-- A question, the second equation of which has a name that is not known. -/
def Question.halted : Question :=
  ⟨[⟨"x", none, none, .input (some (.number 3)) none⟩,
    ⟨"F", none, some 2, .finalAnswer 2 defaultDecoys⟩],
    [⟨1, "t = x * 2", "t", "x * 2", none⟩, ⟨2, "u = t + y", "u", "t + y", none⟩,
      ⟨3, "F = u", "F", "u", none⟩]⟩

/-- The input is bound before the equations. -/
def Progress.halted : Progress :=
  ⟨⟨⟨8, 1000⟩, [("x", "kqzwvbnm"), ("F", "hjgfdsap")]⟩, ⟨[("kqzwvbnm", 3)]⟩⟩

set_option maxRecDepth 4000 in
theorem Question.stops_halted : ∃ fault last rest,
    (Step.runAll halted halted.steps).outcome .halted (Random.ChaCha.ofSeed 0) =
        ((.error fault, last), rest) ∧
      ∃ k s before reached, Step.Stops halted halted.steps .halted last (Random.ChaCha.ofSeed 0)
        rest fault k s before reached := by
  have hfails : ((Step.runAll halted halted.steps).outcome .halted
      (Random.ChaCha.ofSeed 0)).1.1.isOk = false := by
    simp only [halted, Step.runAll, Step.run, Step.value, Step.formula, Step.fail, Step.report,
      AliasTable.substitute_eq_foldl]
    decide +kernel
  rcases hrun : (Step.runAll halted halted.steps).outcome .halted (Random.ChaCha.ofSeed 0) with
    ⟨⟨result, last⟩, rest⟩
  rw [hrun] at hfails
  cases result with
  | ok _ => cases hfails
  | error fault => exact ⟨fault, last, rest, rfl, Step.exists_stops_of_runAll hrun⟩

end FormulaQuiz
