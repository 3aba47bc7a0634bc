import FormulaQuiz.Proofs.Preview

/-!
# What solved equations leave

An equation that is solved adds one value at the end of the bindings, under a word that was not
bound.  So the bindings after some equations are a beginning of those after all of them, and the
place of a value tells to which equation it belongs.
-/

namespace FormulaQuiz

open Formula (Bindings)

namespace Formula.Bindings

/-- Binding adds one word, and a new one. -/
theorem words_of_bind {b b' : Bindings} {word : String} {x : Float} (h : b.bind word x = .ok b') :
    b'.words = b.words ++ [word] ∧ word ∉ b.words := by
  obtain ⟨hnone, rfl⟩ := bind_eq_ok_iff.mp h
  exact ⟨List.map_append, get?_eq_none_iff.mp hnone⟩

theorem words_within {b b' : Bindings} (h : b.entries <+: b'.entries) : b.words <+: b'.words :=
  h.map Prod.fst

/-- A word that was not bound is bound to the value that is added for it. -/
theorem get?_of_notMem_words {b : Bindings} {word : String} {x : Float} (h : word ∉ b.words) :
    (⟨b.entries ++ [(word, x)]⟩ : Bindings).get? word = some x :=
  get?_of_bind (bind_eq_ok_iff.mpr ⟨get?_eq_none_iff.mpr h, rfl⟩)

end Formula.Bindings

variable {σ : Type} [Random.WordSource σ] {q : Question}

/-- As many values are bound as there are inputs, each under its own word. -/
theorem words_resolveAll {aliases : AliasTable} {randomize : Bool} {b b' : Bindings}
    {vs : List Variable} {source rest : σ} (hnodup : b.words.Nodup)
    (h : (resolveAll aliases randomize b vs).Gives source b' rest) :
    b'.words.Nodup ∧ b'.words.length = b.words.length + vs.length := by
  induction vs generalizing b source with
  | nil =>
    rw [resolveAll, Trial.gives_pure_iff] at h
    obtain ⟨rfl, -⟩ := h
    exact ⟨hnodup, rfl⟩
  | cons v vs ih =>
    obtain ⟨x, word, between, -, -, hnew, h⟩ := exists_of_resolveAll_cons h
    have hgrown : (b.words ++ [word]).Nodup :=
      hnodup.append (List.nodup_singleton word) (List.disjoint_singleton.mpr hnew)
    obtain ⟨hnodup', hlength⟩ := ih (by rwa [Bindings.words, List.map_append]) h
    refine ⟨hnodup', hlength.trans ?_⟩
    rw [Bindings.words, List.map_append, List.length_append, List.length_cons]
    exact Nat.succ_add_eq_add_succ _ _

/-- The inputs of a question are bound, each under its own word, and nothing else is. -/
theorem words_resolveInputs {aliases : AliasTable} {randomize : Bool} {b : Bindings}
    {source rest : σ} (h : (q.resolveInputs aliases randomize).Gives source b rest) :
    b.words.Nodup ∧ b.words.length = q.inputs.length ∧
      ∀ v ∈ q.inputs, ∃ word ∈ b.words, aliases.alias? v.name = some word := by
  obtain ⟨hnodup, hlength⟩ := words_resolveAll (b := .empty) List.nodup_nil h
  refine ⟨hnodup, ?_, fun v hv ↦ ?_⟩
  · rw [hlength, List.length_mergeSort]
    exact Nat.zero_add _
  · have hbound := (resolveAll_gives h).2 v (List.mem_mergeSort.mpr hv)
    obtain ⟨x, hx⟩ := Option.isSome_iff_exists.mp hbound
    obtain ⟨word, hword, hget⟩ := Option.bind_eq_some_iff.mp hx
    exact ⟨word, Bindings.mem_words_of_get? hget, hword⟩

namespace Step

variable {s : Step} {start before later last : Progress} {source reached rest : σ}

/-! ## One equation -/

/-- An equation has been solved: its left side had or got the alias `word`, with the table that
there was then, and the alias got the value of the right side. -/
structure Solves (q : Question) (s : Step) (before : Progress) (table : AliasTable) (word : String)
    (x : Float) (source rest : σ) : Prop where
  target : (s.target q).outcome before source = ((.ok word, { before with aliases := table }), rest)
  named : table.alias? s.lhs = some word
  value : Formula.evaluate before.bindings (s.formula table) = .ok x

theorem evaluate_of_value {progress : Progress} {x : Float} (h : s.value progress = .ok x) :
    Formula.evaluate progress.bindings (s.formula progress.aliases) = .ok x := by
  obtain ⟨_, -, hvalue⟩ := Except.bind_eq_ok_iff.mp h
  exact hvalue

/-- Looking for the alias of a left side leaves the bindings as they are, and finds it. -/
theorem Target.eq_of_ok {word : String} (h : s.Target before (.ok word) later) :
    later = { before with aliases := later.aliases } ∧ later.aliases.alias? s.lhs = some word := by
  cases h with
  | known hword => exact ⟨rfl, hword⟩
  | new hname _ => exact ⟨rfl, AliasTable.alias?_push hname⟩

/-- An equation without a fault finds the alias of its left side, which was not bound, and binds it
to the value of its right side. -/
theorem exists_target_of_run_eq_ok {x : Float}
    (h : (s.run q).outcome before source = ((.ok x, later), rest)) :
    ∃ table word, s.Target before (.ok word) { before with aliases := table } ∧
      (s.target q).outcome before source = ((.ok word, { before with aliases := table }), rest) ∧
      word ∉ before.bindings.words ∧ s.value { before with aliases := table } = .ok x ∧
      later = ⟨table, ⟨before.bindings.entries ++ [(word, x)]⟩⟩ := by
  have htarget := target_outcome q s before source
  rw [outcome_run] at h
  rcases ho : (s.target q : Run σ String).outcome before source with ⟨⟨result, named⟩, between⟩
  rw [ho] at htarget h
  cases result with
  | error fault => simp at h
  | ok word =>
    change s.Target before (.ok word) named at htarget
    obtain ⟨hconclude, rfl⟩ := Prod.mk.inj h
    have hnamed := htarget.eq_of_ok.1
    generalize named.aliases = table at hnamed
    subst hnamed
    rw [conclude] at hconclude
    split at hconclude
    · simp at hconclude
    · cases hvalue : s.value { before with aliases := table } with
      | error fault => simp [hvalue] at hconclude
      | ok y =>
        simp only [hvalue] at hconclude
        cases hbind : before.bindings.bind word y with
        | error _ => simp [hbind] at hconclude
        | ok bindings =>
          simp only [hbind, Prod.mk.injEq, Except.ok.injEq] at hconclude
          obtain ⟨rfl, rfl⟩ := hconclude
          refine ⟨table, word, htarget, rfl, (Bindings.words_of_bind hbind).2, hvalue, ?_⟩
          rw [(Bindings.bind_eq_ok_iff.mp hbind).2]

/-- An equation without a fault is solved, and binds one word that was not bound. -/
theorem exists_of_run_eq_ok {x : Float}
    (h : (s.run q).outcome before source = ((.ok x, later), rest)) :
    ∃ table word, s.Solves q before table word x source rest ∧ word ∉ before.bindings.words ∧
      later = ⟨table, ⟨before.bindings.entries ++ [(word, x)]⟩⟩ := by
  obtain ⟨table, word, htarget, houtcome, hnew, hvalue, hlater⟩ := exists_target_of_run_eq_ok h
  have hevaluate := evaluate_of_value hvalue
  exact ⟨table, word, ⟨houtcome, htarget.eq_of_ok.2, hevaluate⟩, hnew, hlater⟩

/-! ## All equations -/

/-- Equations that run to their end have run the first one, and then the others. -/
theorem exists_of_runAll_cons {ss : List Step}
    (h : (runAll q (s :: ss)).outcome start source = ((.ok (), last), rest)) :
    ∃ x between middle, (s.run q).outcome start source = ((.ok x, between), middle) ∧
      (runAll q ss).outcome between middle = ((.ok (), last), rest) := by
  rw [runAll, Run.outcome_bind] at h
  rcases hrun : (s.run q : Run σ Float).outcome start source with ⟨⟨result, between⟩, middle⟩
  rw [hrun] at h
  cases result with
  | error fault => simp at h
  | ok x => exact ⟨x, between, middle, rfl, h⟩

/-- Equations that run to their end have done so up to each of them. -/
theorem exists_of_runAll_append {front : List Step} {back : List Step}
    (h : (runAll q (front ++ back)).outcome start source = ((.ok (), last), rest)) :
    ∃ before reached, (runAll q front).outcome start source = ((.ok (), before), reached) ∧
      (runAll q back).outcome before reached = ((.ok (), last), rest) := by
  induction front generalizing start source with
  | nil => exact ⟨start, source, rfl, h⟩
  | cons s front ih =>
    obtain ⟨x, between, middle, hrun, h⟩ := exists_of_runAll_cons h
    obtain ⟨before, reached, hfront, hback⟩ := ih h
    refine ⟨before, reached, ?_, hback⟩
    rw [runAll, Run.outcome_bind, hrun]
    exact hfront

/-- Each equation binds one word that was not bound. -/
theorem words_runAll {ss : List Step} (hnodup : start.bindings.words.Nodup)
    (h : (runAll q ss).outcome start source = ((.ok (), last), rest)) :
    last.bindings.words.Nodup ∧
      last.bindings.entries.length = start.bindings.entries.length + ss.length := by
  induction ss generalizing start source with
  | nil =>
    obtain ⟨⟨-, rfl⟩, -⟩ := by simpa [runAll] using h
    exact ⟨hnodup, rfl⟩
  | cons s ss ih =>
    obtain ⟨x, between, middle, hrun, h⟩ := exists_of_runAll_cons h
    obtain ⟨table, word, -, hnew, rfl⟩ := exists_of_run_eq_ok hrun
    have hgrown : (start.bindings.words ++ [word]).Nodup :=
      hnodup.append (List.nodup_singleton word) (List.disjoint_singleton.mpr hnew)
    obtain ⟨hnodup', hlength⟩ := ih (by rwa [Bindings.words, List.map_append]) h
    refine ⟨hnodup', hlength.trans ?_⟩
    rw [List.length_append, List.length_cons, List.length_cons, List.length_nil]
    omega

/-- The run up to an equation, what it does, and where its value stands after all equations. -/
theorem exists_solves {ss : List Step} {k : Nat} (hnodup : start.bindings.words.Nodup)
    (h : (runAll q ss).outcome start source = ((.ok (), last), rest)) (hk : ss[k]? = some s) :
    ∃ before reached middle table word x,
      (runAll q (ss.take k)).outcome start source = ((.ok (), before), reached) ∧
        s.Solves q before table word x reached middle ∧
        before.bindings.entries = last.bindings.entries.take (start.bindings.entries.length + k) ∧
        last.aliases.alias? s.lhs = some word ∧
        last.bindings.entries[start.bindings.entries.length + k]? = some (word, x) ∧
        last.bindings.get? word = some x := by
  obtain ⟨hlt, rfl⟩ := List.getElem?_eq_some_iff.mp hk
  have hsplit : ss = ss.take k ++ ss[k] :: ss.drop (k + 1) := by
    rw [← List.drop_eq_getElem_cons hlt, List.take_append_drop]
  rw [hsplit] at h
  obtain ⟨before, reached, hbefore, h⟩ := exists_of_runAll_append h
  obtain ⟨x, _, middle, hrun, h⟩ := exists_of_runAll_cons h
  obtain ⟨table, word, hsolves, hnew, rfl⟩ := exists_of_run_eq_ok hrun
  set later : Progress := ⟨table, ⟨before.bindings.entries ++ [(word, x)]⟩⟩
  have hwithin := within_runAll q (ss.drop (k + 1)) later middle
  rw [h] at hwithin
  have hlength := (words_runAll hnodup hbefore).2
  rw [List.length_take_of_le hlt.le] at hlength
  obtain ⟨more, hmore⟩ := hwithin.bindings
  change before.bindings.entries ++ [(word, x)] ++ more = last.bindings.entries at hmore
  refine ⟨before, reached, middle, table, word, x, hbefore, hsolves, ?_,
    hwithin.aliases.alias?_eq hsolves.named, ?_, ?_⟩
  · rw [← hmore, ← hlength, List.append_assoc, List.take_left]
  · rw [← hmore, ← hlength, List.append_assoc, List.getElem?_append_right (Nat.le_refl _),
      Nat.sub_self]
    rfl
  · exact Bindings.get?_of_prefix hwithin.bindings (Bindings.get?_of_notMem_words hnew)

end Step

/-- What is known after all equations of a question, if it was known before them what the inputs
are. -/
structure Question.Solved (q : Question) (start last : Progress) (source : σ) : Prop where
  /-- No name stands on two left sides. -/
  nodup : (q.steps.map (·.lhs)).Nodup
  /-- No left side is an input. -/
  fresh : ∀ s ∈ q.steps, ∀ v ∈ q.inputs, s.lhs ≠ v.name
  /-- The bindings of before stay. -/
  keeps : ∀ word x, start.bindings.get? word = some x → last.bindings.get? word = some x
  /-- One word is bound for each input and each equation. -/
  size : last.bindings.words.Nodup ∧ last.bindings.size = q.inputs.length + q.steps.length
  /-- The equation with the number `k` is solved where the inputs and the equations before it are
  bound, and its value stays under the alias of its left side. -/
  solves : ∀ k s, q.steps[k]? = some s → ∃ before reached rest table word x,
    (Step.runAll q (q.steps.take k)).outcome start source = ((.ok (), before), reached) ∧
      s.Solves q before table word x reached rest ∧
      before.bindings.entries = last.bindings.entries.take (q.inputs.length + k) ∧
      last.aliases.alias? s.lhs = some word ∧
      last.bindings.entries[q.inputs.length + k]? = some (word, x) ∧
      last.bindings.get? word = some x

/-- Equations that follow the inputs of a question, and in which no fault is found, are solved one
after the other. -/
theorem Question.solved_of_runAll {aliases : AliasTable} {bindings : Bindings} {randomize : Bool}
    {source between rest : σ} {last : Progress}
    (hinputs : (q.resolveInputs aliases randomize).Gives source bindings between)
    (hrun : (Step.runAll q q.steps).outcome ⟨aliases, bindings⟩ between = ((.ok (), last), rest)) :
    q.Solved ⟨aliases, bindings⟩ last between := by
  obtain ⟨hwords, hlength, hbound⟩ := words_resolveInputs hinputs
  obtain ⟨hlast, hsize⟩ := Step.words_runAll hwords hrun
  have hwithin := Step.within_runAll q q.steps ⟨aliases, bindings⟩ between
  rw [hrun] at hwithin
  have hcount : bindings.entries.length = q.inputs.length := by
    rw [← hlength, Bindings.words, List.length_map]
  have hsolves := fun k s hk ↦ @Step.exists_solves σ _ q s _ last between rest q.steps k hwords hrun hk
  simp only [hcount] at hsolves
  have hplace : ∀ k s, q.steps[k]? = some s → ∃ word, last.aliases.alias? s.lhs = some word ∧
      last.bindings.words[q.inputs.length + k]? = some word := by
    intro k s hk
    obtain ⟨_, _, _, _, word, x, -, -, -, hword, hentry, -⟩ := hsolves k s hk
    exact ⟨word, hword, by rw [Bindings.words, List.getElem?_map, hentry, Option.map_some]⟩
  -- a word is bound at one place only, so the place of its value tells two left sides apart
  have honce : ∀ {i j : Nat} {word : String}, last.bindings.words[i]? = some word →
      last.bindings.words[j]? = some word → i = j := fun hi hj ↦
    (List.getElem?_inj (List.getElem?_eq_some_iff.mp hi).1 hlast).mp (hi.trans hj.symm)
  refine ⟨?_, ?_, ?_, ⟨hlast, hsize.trans (by rw [hcount])⟩, hsolves⟩
  · rw [List.nodup_iff_getElem?_ne_getElem?]
    intro i j hij hj heq
    rw [List.length_map] at hj
    rw [List.getElem?_map, List.getElem?_map, List.getElem?_eq_getElem hj,
      List.getElem?_eq_getElem (hij.trans hj), Option.map_some, Option.map_some,
      Option.some.injEq] at heq
    obtain ⟨word, hword, hi'⟩ := hplace i _ (List.getElem?_eq_getElem (hij.trans hj))
    obtain ⟨word', hword', hj'⟩ := hplace j _ (List.getElem?_eq_getElem hj)
    rw [heq, hword'] at hword
    obtain rfl := Option.some.inj hword
    have hsame := honce hi' hj'
    omega
  · intro s hs v hv heq
    obtain ⟨k, hk⟩ := List.getElem?_of_mem hs
    obtain ⟨word, hword, hk'⟩ := hplace k s hk
    obtain ⟨own, hown, hname⟩ := hbound v hv
    rw [heq, hwithin.aliases.alias?_eq hname] at hword
    obtain rfl := Option.some.inj hword
    obtain ⟨i, hi⟩ := List.getElem?_of_mem hown
    have hlt := (List.getElem?_eq_some_iff.mp hi).1
    obtain ⟨more, hmore⟩ := Bindings.words_within hwithin.bindings
    change bindings.words ++ more = last.bindings.words at hmore
    have hi' : last.bindings.words[i]? = some own := by
      rw [← hmore, List.getElem?_append_left hlt, hi]
    have hsame := honce hi' hk'
    omega
  · exact fun word x hx ↦ Bindings.get?_of_prefix hwithin.bindings hx

set_option maxRecDepth 4000 in
theorem Question.solved_triple : ∃ aliases bindings between last rest,
    (triple.resolveInputs aliases false).Gives
        (((AliasTable.ofNames ⟨8, 1000⟩ ["a", "F"]).outcome (Random.ChaCha.ofSeed 0)).2)
        bindings between ∧
      (Step.runAll triple triple.steps).outcome ⟨aliases, bindings⟩ between =
        ((.ok (), last), rest) ∧
      triple.Solved ⟨aliases, bindings⟩ last between := by
  obtain ⟨progress, rest, hsolve, -⟩ : ∃ progress rest,
      (Settings.solve {} triple false).Gives (Random.ChaCha.ofSeed 0) progress rest ∧
        (fun _ ↦ true) progress = true := by
    refine Trial.exists_gives_of_any ?_
    simp only [Settings.solve, triple, Step.runAll, Step.run, Step.value, Step.formula, Step.fail,
      Step.report, AliasTable.substitute_eq_foldl]
    decide +kernel
  rw [Settings.solve] at hsolve
  simp only [Trial.gives_bind_iff, Trial.gives_lift_iff] at hsolve
  obtain ⟨aliases, after, hnames, bindings, between, hinputs, ⟨result, last⟩, final, hrun, h⟩ := hsolve
  cases result with
  | error fault => simp at h
  | ok _ =>
    have hafter : ((AliasTable.ofNames ⟨8, 1000⟩ ["a", "F"]).outcome (Random.ChaCha.ofSeed 0)).2 =
        after := congrArg Prod.snd hnames
    rw [← hafter] at hinputs
    exact ⟨aliases, bindings, between, last, final, hinputs, hrun, solved_of_runAll hinputs hrun⟩

end FormulaQuiz
