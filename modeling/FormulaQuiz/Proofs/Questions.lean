import FormulaQuiz.Proofs.Demands

/-!
# Accepted drafts

What holds of a question because its draft was accepted: the draft meets all that is asked of it, and
the question is made of it.  Other checks are taken apart by `Except.bind_eq_ok_iff`, which says when
checks one after the other succeed.
-/

/-- Two checks one after the other succeed if the first one does, and on its value the second. -/
theorem Except.bind_eq_ok_iff {ε α β : Type} {x : Except ε α} {f : α → Except ε β} {b : β} :
    x >>= f = .ok b ↔ ∃ a, x = .ok a ∧ f a = .ok b := by
  cases x with
  | error e =>
    constructor
    · exact fun h ↦ nomatch h
    · exact fun ⟨_, h, _⟩ ↦ nomatch h
  | ok a =>
    constructor
    · exact fun h ↦ ⟨a, rfl, h⟩
    · rintro ⟨_, ⟨⟩, h⟩
      exact h

/-- Two checks one after the other find a fault if the first one does, or on its value the second. -/
theorem Except.bind_eq_error_iff {ε α β : Type} {x : Except ε α} {f : α → Except ε β} {e : ε} :
    x >>= f = .error e ↔ x = .error e ∨ ∃ a, x = .ok a ∧ f a = .error e := by
  cases x with
  | error e' =>
    constructor
    · exact fun h ↦ .inl (congrArg error (error.inj h))
    · rintro (h | ⟨_, h, _⟩)
      · exact congrArg error (error.inj h)
      · exact nomatch h
  | ok a =>
    constructor
    · exact fun h ↦ .inr ⟨a, rfl, h⟩
    · rintro (h | ⟨_, ⟨⟩, h⟩)
      · exact nomatch h
      · exact h

/-- A check whose result passes a test has succeeded. -/
theorem Except.exists_eq_ok_of_any {ε α : Type} {x : Except ε α} {test : α → Bool}
    (h : x.toOption.any test = true) : ∃ a, x = .ok a ∧ test a = true := by
  cases x with
  | error e => exact nomatch h
  | ok a => exact ⟨a, rfl, h⟩

namespace FormulaQuiz.Question

open Text (trim)

variable {d : Draft} {q : Question}

theorem makes_of_ofDraft (h : ofDraft d = .ok q) : d.Makes q := d.asks_ofDraft.made_of_eq_ok h

/-- A draft that was accepted meets all that is asked of it. -/
theorem isAcceptable_of_ofDraft (h : ofDraft d = .ok q) : d.IsAcceptable :=
  Draft.isAcceptable_iff.mpr (d.asks_ofDraft.exists_eq_ok_iff.mp ⟨q, h⟩)

/-- Every variable of a question is made of one of its draft. -/
theorem exists_makes (h : ofDraft d = .ok q) {v : Variable} (hv : v ∈ q.variables) :
    ∃ given ∈ d.variables, given.Makes v := by
  have hmakes := (makes_of_ofDraft h).variables
  generalize d.variables = givens, q.variables = made at hmakes hv
  induction hmakes with
  | nil => exact absurd hv List.not_mem_nil
  | cons hmade _ ih =>
    rcases List.mem_cons.mp hv with rfl | hv
    · exact ⟨_, List.mem_cons_self, hmade⟩
    · obtain ⟨given, hgiven, hmade⟩ := ih hv
      exact ⟨given, List.mem_cons_of_mem _ hgiven, hmade⟩

/-- No two variables of a question have the same name. -/
theorem nodup_names (h : ofDraft d = .ok q) : (q.variables.map (·.name)).Nodup := by
  have hnames : List.Forall₂ Eq (d.variables.map fun v ↦ trim v.name) (q.variables.map (·.name)) := by
    rw [List.forall₂_map_left_iff, List.forall₂_map_right_iff]
    exact (makes_of_ofDraft h).variables.imp fun _ _ hmade ↦ hmade.name.symm
  rw [List.forall₂_eq_eq_eq] at hnames
  exact hnames ▸ (isAcceptable_of_ofDraft h).nodup_names

theorem decimalPlaces_eq (h : ofDraft d = .ok q) {v : Variable} (hv : v ∈ q.variables)
    {places : UInt8} {decoys : DecoyRange} (hrole : v.role = .finalAnswer places decoys) :
    v.decimalPlaces = some places := by
  obtain ⟨given, -, hmade⟩ := exists_makes h hv
  have hplays := hrole ▸ hmade.role
  cases hplays with
  | finalAnswer _ hplaces => exact hmade.decimalPlaces.trans hplaces

end FormulaQuiz.Question
