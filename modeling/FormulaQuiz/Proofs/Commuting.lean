import FormulaQuiz.Proofs.Beside
import FormulaQuiz.Proofs.Scanning
import FormulaQuiz.Proofs.Strays

/-!
# Equations in either order

The value of an equation depends on the bindings of the identifiers in it and on no others.  So two
equations that give values to different final answers, and in which the other's alias is no
identifier, come to the same in either order.
-/

namespace FormulaQuiz

open Formula (Bindings)

/-! ## One binding more -/

namespace Formula

variable {t : AliasTable} {b : Bindings} {word : String} {ss : List Symbol}

theorem Bindings.get?_append {name : String} (hne : name ≠ word) (x : Float) :
    (⟨b.entries ++ [(word, x)]⟩ : Bindings).get? name = b.get? name := by
  rw [get?, get?, List.lookup_append, List.lookup_cons, beq_eq_false_iff_ne.mpr hne]
  exact Option.or_none

theorem checkSymbol_append {s : Symbol} (hne : s.name ≠ word) (x : Float) :
    checkSymbol t ⟨b.entries ++ [(word, x)]⟩ s = checkSymbol t b s := by
  rw [checkSymbol, checkSymbol, Bindings.contains, Bindings.contains, Bindings.get?_append hne]

/-- Identifiers are checked without those bindings that are not among them. -/
theorem checkSymbols_append (hne : ∀ s ∈ ss, s.name ≠ word) (x : Float) :
    checkSymbols t ⟨b.entries ++ [(word, x)]⟩ ss = checkSymbols t b ss := by
  induction ss with
  | nil => rfl
  | cons s ss ih =>
    obtain ⟨hs, hss⟩ := List.forall_mem_cons.mp hne
    rw [checkSymbols, checkSymbols, checkSymbol_append hs, ih hss]

theorem isName_of_isKnown {s : Symbol} (h : s.isKnown = true) : isName s.name = true := by
  have hfunctions : ∀ name ∈ functionNames, isName name = true := by decide
  have hconstants : ∀ name ∈ constantNames, isName name = true := by decide
  rw [Symbol.isKnown] at h
  split at h
  · exact hfunctions _ (List.contains_iff_mem.mp h)
  · exact hconstants _ (List.contains_iff_mem.mp h)

/-- Where only names are bound, identifiers that are found right are names. -/
theorem isName_of_checkSymbols (hb : ∀ w ∈ b.words, isName w = true)
    (h : checkSymbols t b ss = .ok ()) : ∀ s ∈ ss, isName s.name = true := by
  intro s hs
  cases hbound : b.contains s.name with
  | false => exact isName_of_isKnown (isKnown_of_checkSymbols h hs hbound)
  | true =>
    obtain ⟨x, hx⟩ := Option.isSome_iff_exists.mp hbound
    exact hb _ (Bindings.mem_words_of_get? hx)

theorem infix_of_mem_symbolsFrom {skip : ℕ} {before : Option Char} {cs : List Char} {s : Symbol}
    (h : s ∈ symbolsFrom skip before cs) : s.name.toList <:+: cs := by
  fun_induction symbolsFrom skip before cs with
  | case1 => exact absurd h List.not_mem_nil
  | case2 skip before c cs ih | case5 before c cs _ ih => exact List.infix_cons (ih h)
  | case3 before c cs _ tail later _ ih => exact List.infix_cons (ih h)
  | case4 before c cs _ tail later _ next ih =>
    rcases List.mem_cons.mp h with rfl | h
    · rw [String.toList_ofList]
      exact (List.cons_prefix_cons.mpr ⟨rfl, List.takeWhile_prefix _⟩).isInfix
    · exact List.infix_cons (ih h)

end Formula

/-- What is known once a word is bound to a value. -/
def Progress.push (p : Progress) (word : String) (x : Float) : Progress :=
  ⟨p.aliases, ⟨p.bindings.entries ++ [(word, x)]⟩⟩

@[simp] theorem Progress.aliases_push {p : Progress} {word : String} {x : Float} :
    (p.push word x).aliases = p.aliases := rfl

theorem Progress.mem_words_push {p : Progress} {word word' : String} {x : Float} :
    word' ∈ (p.push word x).bindings.words ↔ word' ∈ p.bindings.words ∨ word' = word := by
  rw [push, Bindings.words, Bindings.words, List.map_append, List.mem_append]
  exact or_congr_right List.mem_singleton

namespace Step

variable {s s' : Step} {p : Progress} {word word' : String}

/-- A word is an identifier of the right side of an equation, as it is evaluated. -/
def Mentions (s : Step) (aliases : AliasTable) (word : String) : Prop :=
  word ∈ (Formula.symbols (s.formula aliases)).map (·.name)

/-- The value of an equation does not depend on a word that it does not mention. -/
theorem value_append (hnames : ∀ w ∈ p.bindings.words, Formula.isName w = true)
    (hfree : ¬ s.Mentions p.aliases word) (x : Float) :
    s.value (p.push word x) = s.value p := by
  have hne : ∀ symbol ∈ Formula.symbols (s.formula p.aliases), symbol.name ≠ word :=
    fun symbol hmem heq ↦ hfree (List.mem_map.mpr ⟨symbol, hmem, heq⟩)
  rw [value, value, Progress.push]
  dsimp only
  rw [Formula.checkSymbols_append hne]
  cases hcheck : Formula.checkSymbols p.aliases p.bindings
    (Formula.symbols (s.formula p.aliases)) with
  | error fault => rfl
  | ok _ =>
    refine Formula.evaluate_append x fun t ht name hname hmem ↦ ?_
    have hsymbols := Formula.isName_of_checkSymbols hnames hcheck
    obtain ⟨symbol, hsymbol, rfl⟩ :=
      List.mem_map.mp (Formula.Term.mem_symbols_of_mem_names ht name hname)
    have hkept : ∀ kept ∈ ["eval", "is_def_var"], Formula.isName kept = false := by decide
    rcases List.mem_cons.mp hmem with heq | hmem
    · exact hne symbol hsymbol heq
    · exact Bool.noConfusion ((hsymbols symbol hsymbol).symm.trans (hkept _ hmem))

/-- An identifier of the right side stands in it. -/
theorem Mentions.standsIn {aliases : AliasTable} (h : s.Mentions aliases word) :
    standsIn word (s.formula aliases) = true := by
  obtain ⟨symbol, hsymbol, rfl⟩ := List.mem_map.mp h
  exact standsIn_iff.mpr (Formula.infix_of_mem_symbolsFrom hsymbol)

/-! ## Two equations -/

variable {σ : Type} [Random.WordSource σ] {q : Question} {later : Progress} {source rest : σ}

/-- The left side of an equation is a final answer that has an alias. -/
structure Answers (q : Question) (s : Step) (aliases : AliasTable) (word : String) : Prop where
  declared : ∃ v, q.declared? s.lhs = some v ∧ v.isFinalAnswer = true
  named : aliases.alias? s.lhs = some word

theorem Answers.target_eq (h : s.Answers q p.aliases word) :
    (s.target q : Run σ String).outcome p source = ((.ok word, p), source) := by
  obtain ⟨v, hv, hfinal⟩ := h.declared
  rw [target, hv]
  dsimp only
  rw [if_pos hfinal, Run.outcome_bind, Run.outcome_get]
  dsimp only
  rw [declared?_name hv, h.named]
  rfl

/-- An equation for a final answer is solved just if its alias is not bound and its right side has a
value. -/
theorem Answers.run_eq_ok_iff (h : s.Answers q p.aliases word) {x : Float} :
    (s.run q).outcome p source = ((.ok x, later), rest) ↔
      (word ∉ p.bindings.words ∧ s.value p = .ok x) ∧ later = p.push word x ∧ rest = source := by
  rw [outcome_run, h.target_eq]
  dsimp only
  rw [conclude, Bindings.contains, ← Bindings.get?_eq_none_iff]
  cases hget : p.bindings.get? word with
  | some y => simp
  | none =>
    cases hvalue : s.value p with
    | error fault => simp
    | ok y =>
      have hbind : p.bindings.bind word y = .ok (p.push word y).bindings :=
        Bindings.bind_eq_ok_iff.mpr ⟨hget, rfl⟩
      simp only [hbind]
      constructor
      · rintro ⟨⟩
        exact ⟨⟨trivial, rfl⟩, rfl, rfl⟩
      · rintro ⟨⟨-, ⟨⟩⟩, rfl, rfl⟩
        rfl

/-- Two equations for different final answers are solved just if each is solved alone, if the second
does not mention the alias of the first. -/
theorem Answers.runAll_pair_iff (hnames : ∀ w ∈ p.bindings.words, Formula.isName w = true)
    (h : s.Answers q p.aliases word) (h' : s'.Answers q p.aliases word') (hne : word ≠ word')
    (hfree : ¬ s'.Mentions p.aliases word) :
    (runAll q [s, s']).outcome p source = ((.ok (), later), rest) ↔
      ∃ x y, (word ∉ p.bindings.words ∧ s.value p = .ok x) ∧
        (word' ∉ p.bindings.words ∧ s'.value p = .ok y) ∧
        later = (p.push word x).push word' y ∧ rest = source := by
  constructor
  · intro hrun
    obtain ⟨x, between, middle, hfirst, hthen⟩ := exists_of_runAll_cons hrun
    obtain ⟨hx, rfl, rfl⟩ := h.run_eq_ok_iff.mp hfirst
    obtain ⟨y, last, reached, hsecond, hend⟩ := exists_of_runAll_cons hthen
    obtain ⟨⟨hnew, hy⟩, rfl, rfl⟩ := (Answers.run_eq_ok_iff (p := p.push word x) h').mp hsecond
    cases hend
    rw [value_append hnames hfree] at hy
    exact ⟨x, y, hx, ⟨fun hmem ↦ hnew (Progress.mem_words_push.mpr (.inl hmem)), hy⟩, rfl, rfl⟩
  · rintro ⟨x, y, hx, ⟨hnew, hy⟩, rfl, rfl⟩
    have hfirst : (s.run q).outcome p rest = ((.ok x, p.push word x), rest) :=
      h.run_eq_ok_iff.mpr ⟨hx, rfl, rfl⟩
    have hunbound : word' ∉ (p.push word x).bindings.words := fun hmem ↦
      (Progress.mem_words_push.mp hmem).elim hnew hne.symm
    have hsecond : (s'.run q).outcome (p.push word x) rest =
        ((.ok y, (p.push word x).push word' y), rest) :=
      (Answers.run_eq_ok_iff (p := p.push word x) h').mpr
        ⟨⟨hunbound, (value_append hnames hfree x).trans hy⟩, rfl, rfl⟩
    rw [runAll, Run.outcome_bind, hfirst]
    dsimp only
    rw [runAll, Run.outcome_bind, hsecond]
    rfl

end Step

/-- The same is known: at most the order differs in which words were bound. -/
structure Progress.Same (p p' : Progress) : Prop where
  aliases : p.aliases = p'.aliases
  entries : p.bindings.entries.Perm p'.bindings.entries
  get? : ∀ word, p.bindings.get? word = p'.bindings.get? word

theorem Progress.same_push_push {p : Progress} {word word' : String} (hne : word ≠ word')
    (x y : Float) : ((p.push word x).push word' y).Same ((p.push word' y).push word x) := by
  have hentries : ∀ {u v : String} {x y : Float}, ((p.push u x).push v y).bindings.entries =
      p.bindings.entries ++ [(u, x), (v, y)] := fun {u v x y} ↦ List.append_assoc ..
  refine ⟨rfl, ?_, fun w ↦ ?_⟩
  · rw [hentries, hentries]
    exact (List.Perm.swap ..).append_left _
  · rw [Bindings.get?, Bindings.get?, hentries, hentries, List.lookup_append, List.lookup_append]
    congr 1
    by_cases hw : w = word
    · subst hw
      simp [List.lookup_cons, beq_eq_false_iff_ne.mpr hne]
    · cases hw' : w == word' <;> simp [List.lookup_cons, beq_eq_false_iff_ne.mpr hw, hw']

/-- Two equations come to the same in either order. -/
structure Step.Commute (σ : Type) [Random.WordSource σ] (q : Question) (s s' : Step) (p : Progress) :
    Prop where
  /-- They are solved in one order just if they are solved in the other. -/
  solved_iff : ∀ source : σ,
    (∃ later rest, (runAll q [s, s']).outcome p source = ((.ok (), later), rest)) ↔
      ∃ later rest, (runAll q [s', s]).outcome p source = ((.ok (), later), rest)
  /-- If they are, the same is known in the end, and as much has been drawn. -/
  same : ∀ {source : σ} {later later' rest rest'},
    (runAll q [s, s']).outcome p source = ((.ok (), later), rest) →
      (runAll q [s', s]).outcome p source = ((.ok (), later'), rest') →
        later.Same later' ∧ rest = rest'

namespace Step

variable {σ : Type} [Random.WordSource σ] {q : Question} {s s' : Step} {p : Progress}
  {word word' : String}

theorem Answers.commute (hnames : ∀ w ∈ p.bindings.words, Formula.isName w = true)
    (h : s.Answers q p.aliases word) (h' : s'.Answers q p.aliases word') (hne : word ≠ word')
    (hfree : ¬ s.Mentions p.aliases word') (hfree' : ¬ s'.Mentions p.aliases word) :
    Commute σ q s s' p := by
  refine ⟨fun source ↦ ?_, fun hrun hrun' ↦ ?_⟩
  · constructor
    · rintro ⟨later, rest, hrun⟩
      obtain ⟨x, y, hx, hy, rfl, rfl⟩ := (h.runAll_pair_iff hnames h' hne hfree').mp hrun
      exact ⟨_, _, (h'.runAll_pair_iff hnames h hne.symm hfree).mpr ⟨y, x, hy, hx, rfl, rfl⟩⟩
    · rintro ⟨later, rest, hrun⟩
      obtain ⟨y, x, hy, hx, rfl, rfl⟩ := (h'.runAll_pair_iff hnames h hne.symm hfree).mp hrun
      exact ⟨_, _, (h.runAll_pair_iff hnames h' hne hfree').mpr ⟨x, y, hx, hy, rfl, rfl⟩⟩
  · obtain ⟨x, y, hx, hy, rfl, rfl⟩ := (h.runAll_pair_iff hnames h' hne hfree').mp hrun
    obtain ⟨y', x', hy', hx', rfl, rfl⟩ := (h'.runAll_pair_iff hnames h hne.symm hfree).mp hrun'
    obtain rfl := Except.ok.inj (hx.2.symm.trans hx'.2)
    obtain rfl := Except.ok.inj (hy.2.symm.trans hy'.2)
    exact ⟨Progress.same_push_push hne x y, rfl⟩

/-- Whatever equations have run before, two equations for different final answers come to the same
in either order, if the alias of neither is an identifier in the other, so in particular if neither
stands in the right side of the other, as it is evaluated. -/
theorem commute_of_runAll {policy : AliasPolicy} {aliases : AliasTable} {randomize : Bool}
    {bindings : Bindings} {front : List Step} {source between middle rest : σ}
    (hnames : (AliasTable.ofNames policy (q.variables.map (·.name))).Gives source aliases between)
    (hinputs : (q.resolveInputs aliases randomize).Gives between bindings middle)
    (hfront : (runAll q front).outcome ⟨aliases, bindings⟩ middle = ((.ok (), p), rest))
    (h : s.Answers q p.aliases word) (h' : s'.Answers q p.aliases word') (hne : s.lhs ≠ s'.lhs)
    (hfree : ¬ s.Mentions p.aliases word') (hfree' : ¬ s'.Mentions p.aliases word) :
    Commute σ q s s' p := by
  have hholds := holds_runAll (q.holds_resolveInputs hnames hinputs) hfront
  refine h.commute (fun w hw ↦ ?_) h' (fun heq ↦ hne ?_) hfree hfree'
  · obtain ⟨n, -, halias⟩ := hholds.bound w hw
    exact hholds.sound.isName (AliasTable.mem_aliases halias)
  · exact hholds.sound.name_unique h.named (heq ▸ h'.named)

end Step

/-- A draft with two final answers that are found from one input. -/
def Draft.forked : Draft :=
  ⟨[{ name := "a", default := some (.number 3) },
    { name := "F", isFinalAnswer := true, decimalPlaces := some 2 },
    { name := "G", isFinalAnswer := true, decimalPlaces := some 2 }],
    [{ expr := "F = a * 2" }, { expr := "G = a + 1" }]⟩

/-- The equation for the first answer. -/
def Step.doubled : Step := ⟨1, "F = a * 2", "F", "a * 2", none⟩

/-- The equation for the second answer. -/
def Step.increased : Step := ⟨2, "G = a + 1", "G", "a + 1", none⟩

/-- The question that the draft is. -/
def Question.forked : Question :=
  ⟨[⟨"a", none, none, .input (some (.number 3)) none⟩,
    ⟨"F", none, some 2, .finalAnswer 2 defaultDecoys⟩,
    ⟨"G", none, some 2, .finalAnswer 2 defaultDecoys⟩], [.doubled, .increased]⟩

theorem Question.ofDraft_forked : ofDraft .forked = .ok .forked := by with_unfolding_all rfl

set_option maxRecDepth 4000 in
/-- With some aliases neither answer's stands in the other's equation, and the equations are solved
in their order. -/
theorem Question.exists_runAll_forked : ∃ aliases between bindings middle f g later rest,
    (AliasTable.ofNames ⟨8, 1000⟩ (forked.variables.map (·.name))).Gives (Random.ChaCha.ofSeed 0)
        aliases between ∧
      (forked.resolveInputs aliases false).Gives between bindings middle ∧
      aliases.alias? "F" = some f ∧ aliases.alias? "G" = some g ∧
      standsIn g (Step.doubled.formula aliases) = false ∧
      standsIn f (Step.increased.formula aliases) = false ∧
      (Step.runAll forked forked.steps).outcome ⟨aliases, bindings⟩ (Random.ChaCha.ofSeed 0) =
        ((.ok (), later), rest) := by
  obtain ⟨known, last, hgives, htest⟩ : ∃ known last,
      ((do
        let aliases ← AliasTable.ofNames ⟨8, 1000⟩ (forked.variables.map (·.name))
        let bindings ← forked.resolveInputs aliases false
        return ⟨aliases, bindings⟩) : Trial Random.ChaCha Progress).Gives (Random.ChaCha.ofSeed 0)
          known last ∧
      (((known.aliases.alias? "F").any fun f ↦ (known.aliases.alias? "G").any fun g ↦
        !standsIn g (Step.doubled.formula known.aliases) &&
          !standsIn f (Step.increased.formula known.aliases)) &&
        ((Step.runAll forked forked.steps).outcome known
            (Random.ChaCha.ofSeed 0)).1.1.toBool) = true := by
    refine Trial.exists_gives_of_any ?_
    simp only [forked, Step.doubled, Step.increased, Step.runAll, Step.run, Step.value,
      Step.formula, Step.fail, Step.report, AliasTable.substitute_eq_foldl]
    decide +kernel
  obtain ⟨aliases, between, hnames, hgives⟩ := Trial.gives_bind_iff.mp hgives
  obtain ⟨bindings, middle, hinputs, hgives⟩ := Trial.gives_bind_iff.mp hgives
  obtain ⟨rfl, -⟩ := Trial.gives_pure_iff.mp hgives
  simp only [Bool.and_eq_true, Option.any_eq_true, Bool.not_eq_true'] at htest
  obtain ⟨⟨f, hf, g, hg, hdoubled, hincreased⟩, hsolved⟩ := htest
  rcases hrun : (Step.runAll forked forked.steps).outcome ⟨aliases, bindings⟩
    (Random.ChaCha.ofSeed 0) with ⟨⟨result, later⟩, rest⟩
  rw [hrun] at hsolved
  cases result with
  | error fault => exact absurd hsolved Bool.false_ne_true
  | ok _ =>
    exact ⟨aliases, between, bindings, middle, f, g, later, rest, hnames, hinputs, hf, hg, hdoubled,
      hincreased, hrun⟩

/-- The second answer may be found before the first. -/
theorem Question.commute_forked : ∃ aliases between bindings middle,
    (AliasTable.ofNames ⟨8, 1000⟩ (forked.variables.map (·.name))).Gives (Random.ChaCha.ofSeed 0)
        aliases between ∧
      (forked.resolveInputs aliases false).Gives between bindings middle ∧
      Step.Commute Random.ChaCha forked .doubled .increased ⟨aliases, bindings⟩ ∧
      ∃ later rest, (Step.runAll forked [.increased, .doubled]).outcome ⟨aliases, bindings⟩
        (Random.ChaCha.ofSeed 0) = ((.ok (), later), rest) := by
  obtain ⟨aliases, between, bindings, middle, f, g, later, rest, hnames, hinputs, hf, hg, hdoubled,
    hincreased, hrun⟩ := exists_runAll_forked
  have hfront : (Step.runAll forked []).outcome ⟨aliases, bindings⟩ middle =
      ((.ok (), ⟨aliases, bindings⟩), middle) := rfl
  have hcommute : Step.Commute Random.ChaCha forked .doubled .increased ⟨aliases, bindings⟩ :=
    Step.commute_of_runAll hnames hinputs hfront ⟨⟨_, rfl, rfl⟩, hf⟩ ⟨⟨_, rfl, rfl⟩, hg⟩
      (by decide) (fun h ↦ Bool.noConfusion (hdoubled.symm.trans h.standsIn))
      fun h ↦ Bool.noConfusion (hincreased.symm.trans h.standsIn)
  exact ⟨aliases, between, bindings, middle, hnames, hinputs, hcommute,
    (hcommute.solved_iff _).mp ⟨later, rest, hrun⟩⟩

end FormulaQuiz
