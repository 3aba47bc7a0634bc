import FormulaQuiz.Proofs.Hiding
import FormulaQuiz.Proofs.Identifiers
import FormulaQuiz.Proofs.Solutions

/-!
# Identifiers that stand for nothing

An author may write an identifier that is no name, no constant and no function that is called.  An
equation with such a stray is solved only if the stray is the alias of a name that has a value: names
are told from aliases, but what stands beside the names in an equation is not.
-/

namespace FormulaQuiz

open Formula (Bindings)

/-! ## What the table and the bindings hold -/

section Holds

variable {σ : Type} [Random.WordSource σ] {q : Question} {names valued : List String}

/-- Of a table and bindings it is known which names may have aliases, and that only the aliases of
some names are bound. -/
structure Progress.Holds (p : Progress) (names valued : List String) : Prop where
  sound : p.aliases.Sound
  names : ∀ n ∈ p.aliases.names, n ∈ names
  bound : ∀ word ∈ p.bindings.words, ∃ n ∈ valued, p.aliases.alias? n = some word

/-- Only the aliases of the inputs that are gone through become bound. -/
theorem exists_of_mem_words_resolveAll {aliases : AliasTable} {randomize : Bool} {b b' : Bindings}
    {vs : List Variable} {source rest : σ}
    (h : (resolveAll aliases randomize b vs).Gives source b' rest) {word : String}
    (hword : word ∈ b'.words) :
    word ∈ b.words ∨ ∃ v ∈ vs, aliases.alias? v.name = some word := by
  induction vs generalizing b source with
  | nil =>
    rw [resolveAll, Trial.gives_pure_iff] at h
    exact .inl (h.1 ▸ hword)
  | cons v vs ih =>
    obtain ⟨x, own, between, -, halias, -, h⟩ := exists_of_resolveAll_cons h
    rcases ih h with hgrown | ⟨w, hw, hname⟩
    · rw [Bindings.words, List.map_append, List.mem_append] at hgrown
      rcases hgrown with hold | hown
      · exact .inl hold
      · obtain rfl : word = own := List.mem_singleton.mp hown
        exact .inr ⟨v, List.mem_cons_self, halias⟩
    · exact .inr ⟨w, List.mem_cons_of_mem v hw, hname⟩

/-- Before the equations the variables have aliases and the inputs have values. -/
theorem Question.holds_resolveInputs {policy : AliasPolicy} {aliases : AliasTable}
    {randomize : Bool} {bindings : Bindings} {source between rest : σ}
    (hnames : (AliasTable.ofNames policy (q.variables.map (·.name))).Gives source aliases between)
    (hinputs : (q.resolveInputs aliases randomize).Gives between bindings rest) :
    Progress.Holds ⟨aliases, bindings⟩ (q.variables.map (·.name)) (q.inputs.map (·.name)) := by
  obtain ⟨sound, -, -, names⟩ := AliasTable.sound_ofNames hnames
  refine ⟨sound, fun n ↦ (names n).mp, fun word hword ↦ ?_⟩
  rcases exists_of_mem_words_resolveAll hinputs hword with nil | ⟨v, hv, halias⟩
  · exact absurd nil List.not_mem_nil
  · exact ⟨v.name, List.mem_map_of_mem (List.mem_mergeSort.mp hv), halias⟩

namespace Step

variable {s : Step} {before later last : Progress} {source rest : σ}

/-- The table stays as it was, or has a fresh alias for the left side. -/
theorem Target.table_eq {word : String} {table : AliasTable}
    (h : s.Target before (.ok word) { before with aliases := table }) :
    table = before.aliases ∨ before.aliases.alias? s.lhs = none ∧
      table = before.aliases.push s.lhs word ∧
      IsFresh before.aliases.policy.length (s.lhs :: before.aliases.names) before.aliases.aliases
        word := by
  generalize hnamed : ({ before with aliases := table } : Progress) = named at h
  cases h with
  | known _ => exact .inl (congrArg Progress.aliases hnamed)
  | new hname hfresh => exact .inr ⟨hname, congrArg Progress.aliases hnamed, hfresh⟩

/-- Looking for the alias of a left side adds no other name. -/
theorem Target.holds {word : String} {table : AliasTable}
    (h : s.Target before (.ok word) { before with aliases := table })
    (hbefore : before.Holds names valued) :
    Progress.Holds { before with aliases := table } (names ++ [s.lhs]) valued := by
  have kept : ∀ w ∈ before.bindings.words, ∃ n ∈ valued, table.alias? n = some w := by
    intro w hw
    obtain ⟨n, hn, halias⟩ := hbefore.bound w hw
    exact ⟨n, hn, h.within.aliases.alias?_eq halias⟩
  rcases h.table_eq with rfl | ⟨hname, rfl, hfresh⟩
  · exact ⟨hbefore.sound, fun n hn ↦ List.mem_append_left _ (hbefore.names n hn), kept⟩
  · refine ⟨hbefore.sound.push hname hfresh fun n hn ↦ hn, fun n hn ↦ ?_, kept⟩
    rw [AliasTable.names_push] at hn
    rcases List.mem_append.mp hn with hold | hnew
    · exact List.mem_append_left _ (hbefore.names n hold)
    · exact List.mem_append_right _ hnew

/-- An equation that is solved gives its left side a value, and no other name. -/
theorem holds_run {x : Float} (hbefore : before.Holds names valued)
    (h : (s.run q).outcome before source = ((.ok x, later), rest)) :
    later.Holds (names ++ [s.lhs]) (valued ++ [s.lhs]) := by
  obtain ⟨table, word, htarget, -, -, -, rfl⟩ := exists_target_of_run_eq_ok h
  obtain ⟨sound, hnames, hbound⟩ := htarget.holds hbefore
  refine ⟨sound, hnames, fun w hw ↦ ?_⟩
  rw [Bindings.words, List.map_append, List.mem_append] at hw
  rcases hw with hold | hnew
  · obtain ⟨n, hn, halias⟩ := hbound w hold
    exact ⟨n, List.mem_append_left _ hn, halias⟩
  · obtain rfl : w = word := List.mem_singleton.mp hnew
    exact ⟨s.lhs, List.mem_append_right _ List.mem_cons_self, htarget.eq_of_ok.2⟩

/-- After some equations their left sides have values, and no other names. -/
theorem holds_runAll {ss : List Step} (hbefore : before.Holds names valued)
    (h : (runAll q ss).outcome before source = ((.ok (), last), rest)) :
    last.Holds (names ++ ss.map (·.lhs)) (valued ++ ss.map (·.lhs)) := by
  induction ss generalizing before source names valued with
  | nil =>
    obtain ⟨⟨-, rfl⟩, -⟩ := by simpa [runAll] using h
    rwa [List.map_nil, List.append_nil, List.append_nil]
  | cons s ss ih =>
    obtain ⟨x, between, middle, hrun, h⟩ := exists_of_runAll_cons h
    have grown := ih (holds_run hbefore hrun) h
    rwa [List.append_assoc, List.append_assoc] at grown

end Step

end Holds

/-! ## An equation with a stray -/

namespace Step

open Text (IsWord HasWord isIdentifierChar isIdentifierStart)

variable {q : Question} {s : Step} {front : List Step} {u word : String} {opened : Bool}

/-- The right side of an equation after some others has an identifier that stands for nothing: it is
no variable, no left side of those others, no constant, and no function after which a bracket
opens. -/
structure Strays (q : Question) (front : List Step) (s : Step) (u : String) : Prop where
  /-- There are no typesetting commands in the right side. -/
  plain : '\\' ∉ s.rhs.toList
  isWord : IsWord u.toList
  start : u.toList.head?.any isIdentifierStart = true
  stands : ∃ opened, HasWord u.toList opened s.rhs.toList ∧
    (opened = true → u ∉ Formula.functionNames)
  undeclared : u ∉ q.variables.map (·.name)
  unsolved : u ∉ front.map (·.lhs)
  unknown : u ∉ Formula.constantNames

/-- What an identifier of a right side becomes is a symbol of the formula. -/
theorem mem_symbols_formula {t : AliasTable} (sound : t.Sound)
    (hnames : ∀ n ∈ t.names, ∀ c ∈ n.toList, isIdentifierChar c = true)
    (hplain : '\\' ∉ s.rhs.toList) (hu : IsWord u.toList)
    (h : HasWord u.toList opened s.rhs.toList)
    (hword : AliasTable.follow (t.entries.mergeSort AliasTable.before) u = word)
    (hstart : word.toList.head?.any isIdentifierStart = true) :
    ⟨word, opened⟩ ∈ Formula.symbols (s.formula t) := by
  subst hword
  have plain : AliasTable.Plain (t.entries.mergeSort AliasTable.before) := fun e he ↦
    sound.plain hnames e (List.mem_mergeSort.mp he)
  obtain ⟨isWord, stands, hplain⟩ := AliasTable.hasWord_foldl plain hu h hplain
  have found := stands.mem_symbols hplain isWord hstart
  rwa [String.ofList_toList, String.ofList_toList] at found

/-- A stray that is allowed as a symbol becomes a constant, if it becomes nothing that is bound, and
no function but itself. -/
theorem Strays.mem_constantNames {t : AliasTable} {bindings : Bindings} {checked : Unit}
    (h : s.Strays q front u) (sound : t.Sound)
    (hchars : ∀ n ∈ t.names, ∀ c ∈ n.toList, isIdentifierChar c = true)
    (hsymbols : Formula.checkSymbols t bindings (Formula.symbols (s.formula t)) = .ok checked)
    (hword : AliasTable.follow (t.entries.mergeSort AliasTable.before) u = word)
    (hstart : word.toList.head?.any isIdentifierStart = true) (hunbound : word ∉ bindings.words)
    (huncalled : word = u ∨ word ∉ Formula.functionNames) : word ∈ Formula.constantNames := by
  obtain ⟨opened, stands, uncalled⟩ := h.stands
  have hmem := mem_symbols_formula sound hchars h.plain h.isWord stands hword hstart
  have hknown := Formula.isKnown_of_checkSymbols hsymbols hmem
    (by rw [Bindings.contains, Bindings.get?_eq_none_iff.mpr hunbound]; rfl)
  rw [Formula.Symbol.isKnown] at hknown
  cases opened with
  | true =>
    refine absurd (List.contains_iff_mem.mp hknown) ?_
    rcases huncalled with heq | huncalled
    · exact heq ▸ uncalled rfl
    · exact huncalled
  | false => exact List.contains_iff_mem.mp hknown

/-- A name that was added becomes its alias, if this is no name. -/
theorem follow_push_self {t : AliasTable} {name : String} (sound : (t.push name word).Sound)
    (untold : word ∉ (t.push name word).names) :
    AliasTable.follow ((t.push name word).entries.mergeSort AliasTable.before) name = word := by
  have sorted := List.mergeSort_perm (t.push name word).entries AliasTable.before
  have entry : (name, word) ∈ (t.push name word).entries :=
    List.mem_append_right _ List.mem_cons_self
  exact AliasTable.follow_of_mem ((sorted.map _).nodup_iff.mpr sound.nodup)
    (sorted.mem_iff.mpr entry) (mt (sorted.map _).mem_iff.mp untold)

/-- An equation with a stray is solved only if the stray was bound before. -/
theorem Strays.mem_words {σ : Type} [Random.WordSource σ] {names valued : List String}
    {before later : Progress} {source rest : σ} {x : Float} (h : s.Strays q front u)
    (hbefore : before.Holds names valued) (hnames : ∀ n ∈ names, n ∈ q.variables.map (·.name) ∨
      n ∈ front.map (·.lhs))
    (hchars : ∀ n ∈ names ++ [s.lhs], ∀ c ∈ n.toList, isIdentifierChar c = true)
    (hrun : (s.run q).outcome before source = ((.ok x, later), rest)) :
    u ∈ before.bindings.words := by
  obtain ⟨table, word, htarget, -, hword, hvalue, -⟩ := exists_target_of_run_eq_ok hrun
  obtain ⟨sound, htable, -⟩ := htarget.holds hbefore
  have chars : ∀ n ∈ table.names, ∀ c ∈ n.toList, isIdentifierChar c = true := fun n hn ↦
    hchars n (htable n hn)
  obtain ⟨_, hsymbols, -⟩ := Except.bind_eq_ok_iff.mp hvalue
  by_contra unbound
  have unnamed : u ∉ before.aliases.names := fun hmem ↦
    (hnames u (hbefore.names u hmem)).elim h.undeclared h.unsolved
  by_cases named : u ∈ table.names
  · -- the stray is the left side itself, and becomes its fresh alias
    rcases htarget.table_eq with rfl | ⟨-, rfl, hfresh⟩
    · exact unnamed named
    · rw [AliasTable.names_push, List.mem_append, List.mem_singleton] at named
      obtain rfl := named.resolve_left unnamed
      have untold : word ∉ (before.aliases.push s.lhs word).names := by
        intro hmem
        rw [AliasTable.names_push, List.mem_append, List.mem_singleton, or_comm,
          ← List.mem_cons] at hmem
        exact (isFree_iff.mp hfresh.free).2.2 word hmem List.infix_rfl
      have isAlias : word ∈ (before.aliases.push s.lhs word).aliases :=
        List.mem_map_of_mem (List.mem_append_right _ List.mem_cons_self)
      obtain ⟨-, hfunction, hconstant⟩ := sound.meaningless word isAlias
      obtain ⟨c, cs, hcons, hc, -⟩ := (sound.form word isAlias).exists_cons
      exact hconstant (h.mem_constantNames sound chars hsymbols (follow_push_self sound untold)
        (by rw [hcons]; exact hc) hword (.inr hfunction))
  · have sorted := List.mergeSort_perm table.entries AliasTable.before
    have stays := AliasTable.follow_of_notMem (mt (sorted.map _).mem_iff.mp named)
    exact h.unknown (h.mem_constantNames sound chars hsymbols stays h.start unbound (.inl rfl))

/-- Equations with a stray are solved only if the stray is the alias of an input or of the left side
of an earlier equation. -/
theorem exists_alias_of_strays {σ : Type} [Random.WordSource σ] {policy : AliasPolicy}
    {aliases : AliasTable} {randomize : Bool} {bindings : Bindings} {back : List Step}
    {last : Progress} {source between middle rest : σ}
    (hchars : ∀ n ∈ q.variables.map (·.name) ++ q.steps.map (·.lhs),
      ∀ c ∈ n.toList, isIdentifierChar c = true)
    (hsteps : q.steps = front ++ s :: back) (hstray : s.Strays q front u)
    (hnames : (AliasTable.ofNames policy (q.variables.map (·.name))).Gives source aliases between)
    (hinputs : (q.resolveInputs aliases randomize).Gives between bindings middle)
    (hrun : (runAll q q.steps).outcome ⟨aliases, bindings⟩ middle = ((.ok (), last), rest)) :
    ∃ n ∈ q.inputs.map (·.name) ++ front.map (·.lhs), last.aliases.alias? n = some u := by
  have hstart := q.holds_resolveInputs hnames hinputs
  rw [hsteps] at hrun
  obtain ⟨before, reached, hfront, hrun⟩ := exists_of_runAll_append hrun
  have hbefore := holds_runAll hstart hfront
  have hwithin := within_runAll q (s :: back) before reached
  rw [hrun] at hwithin
  obtain ⟨x, later, after, hs, -⟩ := exists_of_runAll_cons hrun
  have chars : ∀ n ∈ q.variables.map (·.name) ++ front.map (·.lhs) ++ [s.lhs],
      ∀ c ∈ n.toList, isIdentifierChar c = true := by
    intro n hn
    apply hchars
    rw [hsteps, List.map_append, List.map_cons, ← List.append_assoc]
    rw [List.mem_append, List.mem_singleton] at hn
    rcases hn with hn | rfl
    · exact List.mem_append_left _ hn
    · exact List.mem_append_right _ List.mem_cons_self
  have bound := hstray.mem_words hbefore (fun n ↦ List.mem_append.mp) chars hs
  obtain ⟨n, hn, halias⟩ := hbefore.bound u bound
  exact ⟨n, hn, hwithin.aliases.alias?_eq halias⟩

end Step

/-! ## A stray that is an alias -/

/-- A draft with an identifier for which there is no variable. -/
def Draft.misspelt : Draft :=
  ⟨[{ name := "x", default := some (.number 3) },
    { name := "F", isFinalAnswer := true, decimalPlaces := some 2 }], [{ expr := "F = q * 2" }]⟩

/-- The question that the draft is. -/
def Question.misspelt : Question :=
  ⟨[⟨"x", none, none, .input (some (.number 3)) none⟩,
    ⟨"F", none, some 2, .finalAnswer 2 defaultDecoys⟩], [⟨1, "F = q * 2", "F", "q * 2", none⟩]⟩

/-- The identifier stands for nothing. -/
theorem Question.strays_misspelt :
    Step.Strays .misspelt [] ⟨1, "F = q * 2", "F", "q * 2", none⟩ "q" where
  plain := by decide
  isWord := by
    rw [show "q".toList = ['q'] from rfl]
    exact ⟨List.cons_ne_nil _ _, List.forall_mem_singleton.mpr (by decide)⟩
  start := by decide
  stands := by
    refine ⟨false, ⟨[], [' ', '*', ' ', '2'], by decide, nofun, ?_, by decide⟩, nofun⟩
    intro d hd
    obtain rfl := Option.some.inj hd
    decide
  undeclared := by decide
  unsolved := List.not_mem_nil
  unknown := by decide

theorem Question.chars_misspelt :
    ∀ n ∈ misspelt.variables.map (·.name) ++ misspelt.steps.map (·.lhs),
      ∀ c ∈ n.toList, Text.isIdentifierChar c = true := by
  have x : ∀ c ∈ "x".toList, Text.isIdentifierChar c = true := by
    rw [show "x".toList = ['x'] from rfl]
    exact List.forall_mem_singleton.mpr (by decide)
  have F : ∀ c ∈ "F".toList, Text.isIdentifierChar c = true := by
    rw [show "F".toList = ['F'] from rfl]
    exact List.forall_mem_singleton.mpr (by decide)
  intro n hn
  rcases (by simpa [misspelt] using hn : n = "x" ∨ n = "F") with rfl | rfl
  · exact x
  · exact F

set_option maxRecDepth 4000 in
/-- With some aliases the equation is solved. -/
theorem Question.exists_runAll_misspelt : ∃ aliases between bindings middle last rest,
    (AliasTable.ofNames ⟨1, 1000⟩ (misspelt.variables.map (·.name))).Gives (Random.ChaCha.ofSeed 13)
        aliases between ∧
      (misspelt.resolveInputs aliases false).Gives between bindings middle ∧
      (Step.runAll misspelt misspelt.steps).outcome ⟨aliases, bindings⟩ middle =
        ((.ok (), last), rest) := by
  obtain ⟨last, rest, hsolve, -⟩ : ∃ last rest,
      (Settings.solve { aliasLength := 1 } misspelt false).Gives (Random.ChaCha.ofSeed 13) last
        rest ∧ (fun _ ↦ true) last = true := by
    refine Trial.exists_gives_of_any ?_
    simp only [Settings.solve, misspelt, Step.runAll, Step.run, Step.value, Step.formula, Step.fail,
      Step.report, AliasTable.substitute_eq_foldl]
    decide +kernel
  obtain ⟨aliases, between, bindings, middle, h⟩ := Settings.solve_gives_iff.mp hsolve
  exact ⟨aliases, between, bindings, middle, last, rest, h⟩

/-- The stray is taken for the input, the alias of which it is. -/
theorem Question.alias_misspelt : ∃ aliases between bindings middle last rest,
    (AliasTable.ofNames ⟨1, 1000⟩ (misspelt.variables.map (·.name))).Gives (Random.ChaCha.ofSeed 13)
        aliases between ∧
      (misspelt.resolveInputs aliases false).Gives between bindings middle ∧
      (Step.runAll misspelt misspelt.steps).outcome ⟨aliases, bindings⟩ middle =
        ((.ok (), last), rest) ∧
      ∃ n ∈ ["x"], last.aliases.alias? n = some "q" := by
  obtain ⟨aliases, between, bindings, middle, last, rest, hnames, hinputs, hrun⟩ :=
    exists_runAll_misspelt
  exact ⟨aliases, between, bindings, middle, last, rest, hnames, hinputs, hrun,
    Step.exists_alias_of_strays chars_misspelt rfl strays_misspelt hnames hinputs hrun⟩

/-- An accepted question with a stray may have all its equations solved. -/
theorem Question.runAll_misspelt : Question.ofDraft .misspelt = .ok misspelt ∧
    ({ aliasLength := 1 } : Settings).check = .ok () ∧
    (∀ n ∈ misspelt.variables.map (·.name) ++ misspelt.steps.map (·.lhs),
      ∀ c ∈ n.toList, Text.isIdentifierChar c = true) ∧
    (∃ front s back, misspelt.steps = front ++ s :: back ∧ s.Strays misspelt front "q") ∧
    ∃ aliases between bindings middle last rest,
      (AliasTable.ofNames ⟨1, 1000⟩ (misspelt.variables.map (·.name))).Gives
          (Random.ChaCha.ofSeed 13) aliases between ∧
        (misspelt.resolveInputs aliases false).Gives between bindings middle ∧
        (Step.runAll misspelt misspelt.steps).outcome ⟨aliases, bindings⟩ middle =
          ((.ok (), last), rest) :=
  ⟨by with_unfolding_all rfl, rfl, chars_misspelt, ⟨[], _, [], rfl, strays_misspelt⟩,
    exists_runAll_misspelt⟩

end FormulaQuiz
