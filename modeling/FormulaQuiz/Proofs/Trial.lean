import FormulaQuiz.Variation.Alias

/-!
# Runs of random actions

A random action that may find a fault is run on a source of words.  `Trial.Gives` says that it comes
to a value and leaves the source in some state.  An action that is composed of others is taken apart
by one lemma for each way of composing them, so no later proof looks into the monad.
-/

namespace FormulaQuiz.Trial

variable {σ α β : Type} {source rest : σ}

/-- What an action comes to on a source, and the source after it. -/
def outcome (t : Trial σ α) (source : σ) : Except Fault α × σ := t.run source

/-- An action comes to a value on a source and leaves the source in a state. -/
def Gives (t : Trial σ α) (source : σ) (a : α) (rest : σ) : Prop :=
  t.outcome source = (.ok a, rest)

/-- An action finds a fault on a source and leaves the source in a state. -/
def Fails (t : Trial σ α) (source : σ) (fault : Fault) (rest : σ) : Prop :=
  t.outcome source = (.error fault, rest)

@[simp] theorem outcome_pure (a : α) : (pure a : Trial σ α).outcome source = (.ok a, source) := rfl

@[simp] theorem outcome_throw (fault : Fault) :
    (throw fault : Trial σ α).outcome source = (.error fault, source) := rfl

@[simp] theorem outcome_ofExcept (result : Except Fault α) :
    (ofExcept result : Trial σ α).outcome source = (result, source) := rfl

@[simp] theorem outcome_lift (d : Random.Draw σ α) :
    (liftM d : Trial σ α).outcome source = (.ok (d.run source).1, (d.run source).2) := rfl

/-- Running an action, and on its value another. -/
theorem outcome_bind (t : Trial σ α) (f : α → Trial σ β) (source : σ) :
    (t >>= f).outcome source =
      match t.outcome source with
      | (.ok a, between) => (f a).outcome between
      | (.error fault, between) => (.error fault, between) := by
  change ExceptT.bindCont f (t.outcome source).1 (t.outcome source).2 = _
  obtain ⟨result, between⟩ := t.outcome source
  cases result with
  | ok a => rfl
  | error fault => rfl

@[simp] theorem gives_pure_iff {a b : α} :
    (pure a : Trial σ α).Gives source b rest ↔ b = a ∧ rest = source := by
  rw [Gives, outcome_pure, Prod.mk.injEq, Except.ok.injEq, eq_comm (a := a), eq_comm (a := source)]

@[simp] theorem not_gives_throw {fault : Fault} {a : α} :
    ¬ (throw fault : Trial σ α).Gives source a rest := by
  simp [Gives]

/-- Actions one after the other come to a value if the first one does, and on its value the
second. -/
theorem gives_bind_iff {t : Trial σ α} {f : α → Trial σ β} {b : β} :
    (t >>= f).Gives source b rest ↔
      ∃ a between, t.Gives source a between ∧ (f a).Gives between b rest := by
  unfold Gives
  rw [outcome_bind]
  rcases t.outcome source with ⟨result, between⟩
  cases result with
  | ok a =>
    constructor
    · exact fun h ↦ ⟨a, between, rfl, h⟩
    · rintro ⟨_, _, ⟨rfl, rfl⟩, h⟩
      exact h
  | error fault => simp

@[simp] theorem gives_lift_iff {d : Random.Draw σ α} {a : α} :
    (liftM d : Trial σ α).Gives source a rest ↔ d.run source = (a, rest) := by
  rw [Gives, outcome_lift, Prod.mk.injEq, Except.ok.injEq, Prod.ext_iff]

/-- A result that draws nothing is the value of its action. -/
@[simp] theorem gives_ofExcept_iff {result : Except Fault α} {a : α} :
    (ofExcept result : Trial σ α).Gives source a rest ↔ result = .ok a ∧ rest = source := by
  rw [Gives, outcome_ofExcept, Prod.mk.injEq, eq_comm (a := source)]

/-- An action that comes to a value finds no fault. -/
theorem Gives.not_fails {t : Trial σ α} {a : α} {fault : Fault} {rest' : σ}
    (h : t.Gives source a rest) : ¬ t.Fails source fault rest' := by
  rw [Fails, show t.outcome source = _ from h]
  exact nofun

@[simp] theorem not_fails_pure {a : α} {fault : Fault} :
    ¬ (pure a : Trial σ α).Fails source fault rest := nofun

@[simp] theorem fails_throw_iff {fault fault' : Fault} :
    (throw fault : Trial σ α).Fails source fault' rest ↔ fault' = fault ∧ rest = source := by
  rw [Fails, outcome_throw, Prod.mk.injEq, Except.error.injEq, eq_comm (a := fault),
    eq_comm (a := source)]

@[simp] theorem not_fails_lift {d : Random.Draw σ α} {fault : Fault} :
    ¬ (liftM d : Trial σ α).Fails source fault rest := nofun

@[simp] theorem fails_ofExcept_iff {result : Except Fault α} {fault : Fault} :
    (ofExcept result : Trial σ α).Fails source fault rest ↔
      result = .error fault ∧ rest = source := by
  rw [Fails, outcome_ofExcept, Prod.mk.injEq, eq_comm (a := source)]

/-- Actions one after the other find a fault if the first one does, or on its value the second. -/
theorem fails_bind_iff {t : Trial σ α} {f : α → Trial σ β} {fault : Fault} :
    (t >>= f).Fails source fault rest ↔ t.Fails source fault rest ∨
      ∃ a between, t.Gives source a between ∧ (f a).Fails between fault rest := by
  unfold Fails Gives
  rw [outcome_bind]
  rcases t.outcome source with ⟨result, between⟩
  cases result with
  | error fault' => simp
  | ok a =>
    constructor
    · exact fun h ↦ .inr ⟨a, between, rfl, h⟩
    · rintro (h | ⟨_, _, ⟨rfl, rfl⟩, h⟩)
      · exact nomatch h
      · exact h

/-- An action whose outcome is no fault and passes a test comes to a value that passes it. -/
theorem exists_gives_of_any {t : Trial σ α} {test : α → Bool}
    (h : (t.outcome source).1.toOption.any test = true) :
    ∃ a rest, t.Gives source a rest ∧ test a = true := by
  rcases ho : t.outcome source with ⟨result, rest⟩
  rw [ho] at h
  cases result with
  | error fault => exact nomatch h
  | ok a => exact ⟨a, rest, ho, h⟩

end FormulaQuiz.Trial
