import FormulaQuiz.Proofs.Hiding

/-!
# Runs with different aliases

Two runs of the same equations, on different sources, do the same in each equation as long as their
aliases are hidden: both bind a value to the alias of the left side, or both end with a fault.  Only
a name that finds no alias may end one of them alone.
-/

namespace FormulaQuiz

open Formula (Bindings)

/-- Two results agree, unless one of them is that a name found no alias. -/
inductive Alongside {α α' : Type} (S : α → α' → Prop) : Except Fault α → Except Fault α' → Prop where
  | left (name : String) (attempts : Nat) (r' : Except Fault α') :
      Alongside S (.error (.aliasesExhausted name attempts)) r'
  | right (name : String) (attempts : Nat) (r : Except Fault α) :
      Alongside S r (.error (.aliasesExhausted name attempts))
  | both {r : Except Fault α} {r' : Except Fault α'} (h : Agree Fault.code S r r') : Alongside S r r'

/-! ## Tables and bindings that grow -/

namespace AliasTable

variable {t t' grown grown' : AliasTable} {u v : String}

theorem Pairs.of_within (h : t.Pairs t' u v) (ht : t.Within grown) (ht' : t'.Within grown') :
    grown.Pairs grown' u v := by
  obtain ⟨name, hu, hv⟩ := h
  exact ⟨name, ht.alias?_eq hu, ht'.alias?_eq hv⟩

/-- A name has an alias in both of two tables with the same names, or in none. -/
theorem alias?_cases (hnames : t.names = t'.names) (name : String) :
    (t.alias? name = none ∧ t'.alias? name = none) ∨
      ∃ u v, t.alias? name = some u ∧ t'.alias? name = some v := by
  by_cases hname : name ∈ t.names
  · obtain ⟨u, hu⟩ := Option.isSome_iff_exists.mp (isSome_alias?_iff.mpr hname)
    obtain ⟨v, hv⟩ := Option.isSome_iff_exists.mp (isSome_alias?_iff.mpr (hnames ▸ hname))
    exact .inr ⟨u, v, hu, hv⟩
  · exact .inl ⟨alias?_eq_none_iff.mpr hname, alias?_eq_none_iff.mpr (hnames ▸ hname)⟩

end AliasTable

/-- Two corresponding words are bound to a value, if they are not bound yet. -/
theorem Formula.Bindings.Alike.bind {t t' : AliasTable} {b b' : Bindings} {u v : String}
    (h : b.Alike (t.Pairs t') b') (ht : t.Sound) (ht' : t'.Sound) (huv : t.Pairs t' u v)
    (x : Float) :
    ((∃ y, b.bind u x = .error y) ∧ ∃ y, b'.bind v x = .error y) ∨
      ∃ grown grown', b.bind u x = .ok grown ∧ b'.bind v x = .ok grown' ∧
        grown.Alike (t.Pairs t') grown' := by
  have hget := h.get?_eq ht ht' huv
  rw [Bindings.bind, Bindings.bind, ← hget]
  cases b.get? u with
  | some y => exact .inl ⟨⟨y, rfl⟩, y, rfl⟩
  | none => exact .inr ⟨_, _, rfl, rfl, List.rel_append h (.cons ⟨huv, rfl⟩ .nil)⟩

namespace Step

variable {s : Step} {p p' b b' : Progress}

/-- The names that have aliases when an equation has found that of its left side. -/
def namesAfter (s : Step) (names : List String) : List String :=
  if s.lhs ∈ names then names else names ++ [s.lhs]

section Runs

variable {σ σ' : Type} [Random.WordSource σ] [Random.WordSource σ'] {q : Question} {source rest : σ}
  {source' rest' : σ'}

/-! ## One equation -/

/-- What is known in two runs after the left side has found its alias, which the two words are. -/
structure TargetsAlike (s : Step) (p b b' : Progress) (u v : String) : Prop where
  alike : b.Alike b'
  names : b.aliases.names = s.namesAfter p.aliases.names
  pairs : b.aliases.Pairs b'.aliases u v

/-- A left side that is known already is known in both runs. -/
theorem targetsAlike_known (h : p.Alike p') {u v : String} (hu : p.aliases.alias? s.lhs = some u)
    (hv : p'.aliases.alias? s.lhs = some v) : s.TargetsAlike p p p' u v := by
  have hmem := AliasTable.isSome_alias?_iff.mp (Option.isSome_of_eq_some hu)
  exact ⟨h, by rw [namesAfter, if_pos hmem], s.lhs, hu, hv⟩

/-- A left side that is new gets an alias in both runs. -/
theorem targetsAlike_new (h : p.Alike p') {u v : String}
    (hu : p.aliases.alias? s.lhs = none) (hv : p'.aliases.alias? s.lhs = none)
    (hfresh : IsFresh p.aliases.policy.length (s.lhs :: p.aliases.names) p.aliases.aliases u)
    (hfresh' : IsFresh p'.aliases.policy.length (s.lhs :: p'.aliases.names) p'.aliases.aliases v) :
    s.TargetsAlike p { p with aliases := p.aliases.push s.lhs u }
      { p' with aliases := p'.aliases.push s.lhs v } u v := by
  have hgrows := p.aliases.within_push s.lhs u
  have hgrows' := p'.aliases.within_push s.lhs v
  refine ⟨⟨?_, h.sound.push hu hfresh fun _ hn ↦ hn, h.sound'.push hv hfresh' fun _ hn ↦ hn, ?_⟩,
    ?_, s.lhs, AliasTable.alias?_push hu, AliasTable.alias?_push hv⟩
  · rw [AliasTable.names_push, AliasTable.names_push, h.names]
  · exact h.bindings.imp fun _ _ he ↦ ⟨he.1.of_within hgrows hgrows', he.2⟩
  · rw [namesAfter, if_neg (AliasTable.alias?_eq_none_iff.mp hu), AliasTable.names_push]

/-- The two runs find aliases of the left side, or the same is wrong with it. -/
theorem newAlias_alongside (h : p.Alike p') {r r' : Except Fault String}
    (ho : (newAlias s.lhs : Run σ String).outcome p source = ((r, b), rest))
    (ho' : (newAlias s.lhs : Run σ' String).outcome p' source' = ((r', b'), rest')) :
    Alongside (s.TargetsAlike p b b') r r' := by
  rw [outcome_newAlias] at ho ho'
  rcases AliasTable.alias?_cases h.names s.lhs with ⟨hu, hv⟩ | ⟨u, v, hu, hv⟩
  · rw [hu] at ho
    rw [hv] at ho'
    rcases hassign : (p.aliases.assign s.lhs : Trial σ _).outcome source with ⟨given, after⟩
    rcases hassign' : (p'.aliases.assign s.lhs : Trial σ' _).outcome source' with ⟨given', after'⟩
    rw [hassign] at ho
    rw [hassign'] at ho'
    cases given with
    | error fault =>
      obtain ⟨attempts, rfl⟩ := AliasTable.exists_of_assign_eq_error hu hassign
      cases ho
      exact .left _ _ r'
    | ok given =>
      cases given' with
      | error fault =>
        obtain ⟨attempts, rfl⟩ := AliasTable.exists_of_assign_eq_error hv hassign'
        cases ho'
        exact .right _ _ r
      | ok given' =>
        obtain ⟨u, t⟩ := given
        obtain ⟨v, t'⟩ := given'
        obtain ⟨-, rfl, hfresh⟩ := AliasTable.assign_gives hassign
        obtain ⟨-, rfl, hfresh'⟩ := AliasTable.assign_gives hassign'
        cases ho
        cases ho'
        exact .both (.ok (targetsAlike_new h hu hv hfresh hfresh'))
  · rw [hu] at ho
    rw [hv] at ho'
    cases ho
    cases ho'
    exact .both (.ok (targetsAlike_known h hu hv))

theorem target_alongside (h : p.Alike p') {r r' : Except Fault String}
    (ho : (s.target q : Run σ String).outcome p source = ((r, b), rest))
    (ho' : (s.target q : Run σ' String).outcome p' source' = ((r', b'), rest')) :
    Alongside (s.TargetsAlike p b b') r r' := by
  rw [target] at ho ho'
  cases hdeclared : q.declared? s.lhs with
  | none =>
    rw [hdeclared] at ho ho'
    exact newAlias_alongside h ho ho'
  | some v =>
    rw [hdeclared] at ho ho'
    dsimp only at ho ho'
    split at ho
    next hfinal =>
      rw [if_pos hfinal, Run.outcome_bind, Run.outcome_get] at ho'
      rw [Run.outcome_bind, Run.outcome_get] at ho
      dsimp only at ho ho'
      rcases AliasTable.alias?_cases h.names v.name with ⟨hu, hw⟩ | ⟨u, w, hu, hw⟩
      · rw [hu] at ho
        rw [hw] at ho'
        cases ho
        cases ho'
        exact .both (.error rfl)
      · rw [hu] at ho
        rw [hw] at ho'
        cases ho
        cases ho'
        rw [declared?_name hdeclared] at hu hw
        exact .both (.ok (targetsAlike_known h hu hw))
    next hfinal =>
      rw [if_neg hfinal] at ho'
      cases ho
      cases ho'
      exact .both (.error rfl)

omit [Random.WordSource σ] [Random.WordSource σ'] in
/-- Binding the left side adds no alias. -/
theorem aliases_conclude (s : Step) (word : String) (p : Progress) :
    (s.conclude word p).2.aliases = p.aliases := by
  rw [conclude]
  split
  · rfl
  · split
    · rfl
    · split <;> rfl

omit [Random.WordSource σ] [Random.WordSource σ'] in
/-- Where the values agree, the aliases of the left side are bound to them or not. -/
theorem conclude_agree (h : b.Alike b') {u v : String} (huv : b.aliases.Pairs b'.aliases u v)
    (hvalue : Agree Formula.Fault.code Eq (s.value b) (s.value b')) :
    Agree Fault.code (fun _ _ ↦ (s.conclude u b).2.Alike (s.conclude v b').2)
      (s.conclude u b).1 (s.conclude v b').1 := by
  have hcontains : b.bindings.contains u = b'.bindings.contains v :=
    congrArg Option.isSome (h.bindings.get?_eq h.sound h.sound' huv)
  rw [conclude, conclude, hcontains]
  split
  · exact .error rfl
  · generalize s.value b = r, s.value b' = r' at hvalue ⊢
    cases hvalue with
    | error hcode => exact .error hcode
    | @ok x y hxy =>
      subst hxy
      dsimp only
      rcases h.bindings.bind h.sound h.sound' huv x with
        ⟨⟨_, hbind⟩, _, hbind'⟩ | ⟨grown, grown', hbind, hbind', hgrown⟩
      · rw [hbind, hbind']
        exact .error rfl
      · rw [hbind, hbind']
        exact .ok ⟨h.names, h.sound, h.sound', hgrown⟩

/-- What is known in two runs after an equation. -/
structure RunsAlike (s : Step) (p b b' : Progress) : Prop where
  alike : b.Alike b'
  names : b.aliases.names = s.namesAfter p.aliases.names

/-- Two runs of an equation in which the aliases are hidden agree. -/
theorem run_alongside (h : p.Alike p') {r r' : Except Fault Float}
    (ho : (s.run q : Run σ Float).outcome p source = ((r, b), rest))
    (ho' : (s.run q : Run σ' Float).outcome p' source' = ((r', b'), rest'))
    (hform : Mark.IsFormula (s.marks (s.namesAfter p.aliases.names)))
    (hhides : b.aliases.Hides [s.marks (s.namesAfter p.aliases.names)])
    (hhides' : b'.aliases.Hides [s.marks (s.namesAfter p.aliases.names)]) :
    Alongside (fun _ _ ↦ s.RunsAlike p b b') r r' := by
  rw [outcome_run] at ho ho'
  rcases htarget : (s.target q : Run σ String).outcome p source with ⟨⟨result, named⟩, after⟩
  rcases htarget' : (s.target q : Run σ' String).outcome p' source' with ⟨⟨result', named'⟩, after'⟩
  have hagree := target_alongside h htarget htarget'
  rw [htarget] at ho
  rw [htarget'] at ho'
  cases hagree with
  | left name attempts =>
    cases ho
    exact .left _ _ r'
  | right name attempts =>
    cases ho'
    exact .right _ _ r
  | both hagree =>
    cases hagree with
    | error hcode =>
      cases ho
      cases ho'
      exact .both (.error hcode)
    | @ok u v hnamed =>
      dsimp only at ho ho'
      obtain ⟨hconclude, -⟩ := Prod.mk.inj ho
      obtain ⟨hconclude', -⟩ := Prod.mk.inj ho'
      have hgrown := aliases_conclude s u named
      have hgrown' := aliases_conclude s v named'
      rw [hconclude] at hgrown
      rw [hconclude'] at hgrown'
      dsimp only at hgrown hgrown'
      rw [hgrown, ← hnamed.names] at hhides
      rw [hgrown', ← hnamed.names] at hhides'
      rw [← hnamed.names] at hform
      have hvalue := value_agree hnamed.alike hform hhides hhides'
      have hagree := conclude_agree hnamed.alike hnamed.pairs hvalue
      rw [hconclude, hconclude'] at hagree
      cases hagree with
      | error hcode => exact .both (.error hcode)
      | ok halike => exact .both (.ok ⟨halike, by rw [hgrown, hnamed.names]⟩)

/-! ## All equations -/

/-- The marks of the right sides of equations that run in order, when some names have aliases. -/
def allMarks (names : List String) : List Step → List (List Mark)
  | [] => []
  | s :: ss => s.marks (s.namesAfter names) :: allMarks (s.namesAfter names) ss

omit [Random.WordSource σ'] in
/-- What is known after the first equation stays known up to the end. -/
theorem within_last {ss : List Step} {result : Except Fault Float} {r : Except Fault Unit}
    {last : Progress} {after : σ}
    (hrun : (s.run q : Run σ Float).outcome p source = ((result, b), after))
    (h : (runAll q (s :: ss) : Run σ Unit).outcome p source = ((r, last), rest)) :
    b.Within last := by
  rw [runAll, Run.outcome_bind, hrun] at h
  cases result with
  | error fault =>
    cases h
    exact .refl _
  | ok x =>
    have hwithin := within_runAll q ss b after
    dsimp only at h
    rwa [h] at hwithin

/-- Two runs of equations in which the aliases are hidden agree. -/
theorem runAll_alongside {ss : List Step} {last last' : Progress} (h : p.Alike p')
    {r r' : Except Fault Unit}
    (ho : (runAll q ss : Run σ Unit).outcome p source = ((r, last), rest))
    (ho' : (runAll q ss : Run σ' Unit).outcome p' source' = ((r', last'), rest'))
    (hforms : ∀ ms ∈ allMarks p.aliases.names ss, Mark.IsFormula ms)
    (hhides : last.aliases.Hides (allMarks p.aliases.names ss))
    (hhides' : last'.aliases.Hides (allMarks p.aliases.names ss)) :
    Alongside (fun _ _ ↦ last.Alike last') r r' := by
  induction ss generalizing p p' source source' with
  | nil =>
    cases ho
    cases ho'
    exact .both (.ok h)
  | cons s ss ih =>
    rw [allMarks] at hforms hhides hhides'
    obtain ⟨hform, hforms⟩ := List.forall_mem_cons.mp hforms
    rcases hrun : (s.run q : Run σ Float).outcome p source with ⟨⟨result, between⟩, after⟩
    rcases hrun' : (s.run q : Run σ' Float).outcome p' source' with ⟨⟨result', between'⟩, after'⟩
    have hwithin := within_last hrun ho
    have hwithin' := within_last hrun' ho'
    rw [runAll, Run.outcome_bind, hrun] at ho
    rw [runAll, Run.outcome_bind, hrun'] at ho'
    have hhead : ∀ ms ∈ [s.marks (s.namesAfter p.aliases.names)], ms ∈
        s.marks (s.namesAfter p.aliases.names) :: allMarks (s.namesAfter p.aliases.names) ss :=
      fun ms hms ↦ List.mem_cons.mpr (.inl (List.mem_singleton.mp hms))
    have hagree := run_alongside h hrun hrun' hform (hhides.of_within hwithin.aliases hhead)
      (hhides'.of_within hwithin'.aliases hhead)
    cases hagree with
    | left name attempts =>
      cases ho
      exact .left _ _ r'
    | right name attempts =>
      cases ho'
      exact .right _ _ r
    | both hagree =>
      cases hagree with
      | error hcode =>
        cases ho
        cases ho'
        exact .both (.error hcode)
      | ok hbetween =>
        rw [← hbetween.names] at hforms hhides hhides'
        refine ih hbetween.alike ho ho' hforms ?_ ?_
        · exact hhides.of_within (.refl _) fun _ ↦ List.mem_cons_of_mem _
        · exact hhides'.of_within (.refl _) fun _ ↦ List.mem_cons_of_mem _

end Runs

end Step

end FormulaQuiz
