import FormulaQuiz.Proofs.Agreement
import FormulaQuiz.Proofs.Apart
import FormulaQuiz.Proofs.Progress
import FormulaQuiz.Proofs.Questions

/-!
# Equations in which aliases are hidden

Two tables with aliases for the same names give two texts of an equation.  Where each alias stands
for itself only, the texts are alike, and the values that they have do not depend on the table.
`AliasTable.Hides` and `Mark.IsFormula` say when this is so.
-/

namespace FormulaQuiz

open Formula (Lexeme Symbol Bindings)

/-! ## Two tables -/

namespace AliasTable

variable {t t' : AliasTable} {u v u' v' word : String}

/-- Two words are the aliases of one name in two tables. -/
def Pairs (t t' : AliasTable) (u v : String) : Prop :=
  ∃ name, t.alias? name = some u ∧ t'.alias? name = some v

theorem Pairs.mem (h : t.Pairs t' u v) : u ∈ t.aliases ∧ v ∈ t'.aliases := by
  obtain ⟨name, hu, hv⟩ := h
  exact ⟨mem_aliases hu, mem_aliases hv⟩

/-- Aliases are the same if they have the same name. -/
theorem Pairs.eq_iff (ht : t.Sound) (ht' : t'.Sound) (h : t.Pairs t' u v)
    (h' : t.Pairs t' u' v') : u = u' ↔ v = v' := by
  obtain ⟨name, hu, hv⟩ := h
  obtain ⟨name', hu', hv'⟩ := h'
  constructor
  · rintro rfl
    obtain rfl := ht.name_unique hu hu'
    exact Option.some.inj (hv.symm.trans hv')
  · rintro rfl
    obtain rfl := ht'.name_unique hv hv'
    exact Option.some.inj (hu.symm.trans hu')

/-- An alias may name a variable. -/
theorem Sound.isName (h : t.Sound) (hword : word ∈ t.aliases) : Formula.isName word = true := by
  have hform := h.form _ hword
  have hkept : Formula.isKept word = false := by
    rw [Formula.isKept, ← Bool.not_eq_true, ← List.contains_append, ← List.contains_append,
      List.contains_iff_mem]
    intro hmem
    have hall : ∀ k ∈ Formula.barredWords ++ Formula.callableWords ++ Formula.valueWords,
        k ∈ reservedWords ∨ ¬ k.toList.all fun c ↦ c.isLower || c.isDigit := by decide
    exact (hall _ hmem).elim (h.meaningless _ hword).1 fun hnot ↦
      hnot (List.all_eq_true.mpr hform.all)
  rw [Formula.isName, hkept, Formula.hasLeadingLetter, hform.hasLeadingLetter]
  rfl

/-- An alias names no variable or function of evaluation, if it is not the one function that
authors are not told of. -/
theorem Sound.isAlias (h : t.Sound) (hword : word ∈ t.aliases) (hsign : word ≠ "sign") :
    Formula.IsAlias word := by
  have hform := h.form _ hword
  obtain ⟨-, hfunction, hconstant⟩ := h.meaningless _ hword
  refine ⟨hform.exists_cons, h.isName hword, ?_, ?_⟩
  · rw [Formula.hasMeaning, Bool.or_eq_false_iff, ← Bool.not_eq_true, ← Bool.not_eq_true,
      List.contains_iff_mem, List.contains_iff_mem]
    exact ⟨hfunction, hconstant⟩
  · intro hmem
    have hall : ∀ k ∈ ["is_zero", "is_odd", "is_even"],
        ¬ k.toList.all fun c ↦ c.isLower || c.isDigit := by decide
    rcases List.mem_cons.mp hmem with rfl | hmem
    · exact hsign rfl
    · exact hall _ hmem (List.all_eq_true.mpr hform.all)

/-- In some formulas each alias of a table stands for its name only: it does not stand in a name, it
is no identifier that is written between names, and evaluation does not know it.  The last matters
because a name in parentheses may be called: for the alias `sign`, `(a)(2)` is `sign(2)`. -/
structure Hides (t : AliasTable) (formulas : List (List Mark)) : Prop where
  told : t.Told t.names
  unread : ∀ ms ∈ formulas, ∀ w ∈ t.aliases, .word w ∉ Mark.ownLexemes ms
  unnamed : ∀ ms ∈ formulas, ∀ w ∈ t.aliases, w ∉ (Mark.ownSymbols ms).map (·.name)
  sign : "sign" ∉ t.aliases

instance (t : AliasTable) (formulas : List (List Mark)) : Decidable (t.Hides formulas) :=
  decidable_of_iff
    ((∀ w ∈ t.aliases, ∀ name ∈ t.names, ¬ standsIn w name = true) ∧
      (∀ ms ∈ formulas, ∀ w ∈ t.aliases, .word w ∉ Mark.ownLexemes ms) ∧
      (∀ ms ∈ formulas, ∀ w ∈ t.aliases, w ∉ (Mark.ownSymbols ms).map (·.name)) ∧
      "sign" ∉ t.aliases)
    ⟨fun h ↦ ⟨fun w hw n hn hin ↦ h.1 w hw n hn (standsIn_iff.mpr hin), h.2.1, h.2.2.1, h.2.2.2⟩,
      fun h ↦ ⟨fun w hw n hn hin ↦ h.told w hw n hn (standsIn_iff.mp hin), h.unread, h.unnamed,
        h.sign⟩⟩

theorem Hides.of_within {formulas formulas' : List (List Mark)} (h : t'.Hides formulas')
    (ht : t.Within t') (hformulas : ∀ ms ∈ formulas, ms ∈ formulas') : t.Hides formulas := by
  have haliases := ht.aliases_subset
  exact ⟨fun w hw n hn ↦ h.told w (haliases hw) n (ht.names_subset hn),
    fun ms hms w hw ↦ h.unread ms (hformulas ms hms) w (haliases hw),
    fun ms hms w hw ↦ h.unnamed ms (hformulas ms hms) w (haliases hw),
    fun hw ↦ h.sign (haliases hw)⟩

/-- An identifier that is written between names is no alias. -/
theorem Hides.notMem {formulas : List (List Mark)} (h : t.Hides formulas) {ms : List Mark}
    (hms : ms ∈ formulas) {s : Symbol} (hs : s ∈ Mark.ownSymbols ms) : s.name ∉ t.aliases :=
  fun hw ↦ h.unnamed ms hms s.name hw (List.mem_map_of_mem hs)

/-- The correspondence of the aliases of two tables. -/
def correspondence (ht : t.Sound) (ht' : t'.Sound) (hsign : "sign" ∉ t.aliases)
    (hsign' : "sign" ∉ t'.aliases) : Formula.Renaming where
  Pairs := t.Pairs t'
  injective := Pairs.eq_iff ht ht'
  isAlias h := ⟨ht.isAlias h.mem.1 (ne_of_mem_of_not_mem h.mem.1 hsign),
    ht'.isAlias h.mem.2 (ne_of_mem_of_not_mem h.mem.2 hsign')⟩

end AliasTable

/-! ## Identifiers -/

namespace Formula

variable {t t' : AliasTable} {b b' : Bindings} {s s' : Symbol} {ss ss' : List Symbol}

/-- Whether an identifier is a function that is called, or a constant that is not. -/
def Symbol.isKnown (s : Symbol) : Bool :=
  if s.isCalled then functionNames.contains s.name else constantNames.contains s.name

/-- Identifiers that are aliases of one name, or the same identifier and no alias. -/
inductive Symbol.Alike (t t' : AliasTable) : Symbol → Symbol → Prop where
  | own {s : Symbol} (h : s.name ∉ t.aliases) (h' : s.name ∉ t'.aliases) : Alike t t' s s
  | name {u v : String} (h : t.Pairs t' u v) (isCalled : Bool) :
      Alike t t' ⟨u, isCalled⟩ ⟨v, isCalled⟩

/-- Only aliases are bound. -/
theorem Bindings.Alike.words_subset (hb : b.Alike (t.Pairs t') b') :
    b.words ⊆ t.aliases ∧ b'.words ⊆ t'.aliases := by
  rw [Bindings.Alike] at hb
  rw [Bindings.words, Bindings.words]
  generalize b.entries = l, b'.entries = l' at hb ⊢
  induction hb with
  | nil => exact ⟨List.nil_subset _, List.nil_subset _⟩
  | cons h _ ih =>
    exact ⟨List.cons_subset.mpr ⟨h.1.mem.1, ih.1⟩, List.cons_subset.mpr ⟨h.1.mem.2, ih.2⟩⟩

theorem Bindings.Alike.get?_eq (hb : b.Alike (t.Pairs t') b') (ht : t.Sound) (ht' : t'.Sound)
    {u v : String} (h : t.Pairs t' u v) : b.get? u = b'.get? v :=
  lookup_congr hb fun _ _ ↦ h.eq_iff ht ht'

theorem Bindings.Alike.contains_eq_false (hb : b.Alike (t.Pairs t') b') {word : String}
    (h : word ∉ t.aliases) : b.contains word = false := by
  rw [Bindings.contains, Bindings.get?_eq_none_iff.mpr fun hw ↦ h (hb.words_subset.1 hw),
    Option.isSome_none]

/-- Checking identifiers that are alike finds nothing, or faults with the same code. -/
theorem checkSymbol_agree (hb : b.Alike (t.Pairs t') b') (ht : t.Sound) (ht' : t'.Sound)
    (h : s.Alike t t' s') : Agree Fault.code Eq (checkSymbol t b s) (checkSymbol t' b' s') := by
  rw [checkSymbol, checkSymbol]
  cases h with
  | own h h' =>
    have hb' : b'.contains s.name = false := by
      rw [Bindings.contains, Bindings.get?_eq_none_iff.mpr fun hw ↦ h' (hb.words_subset.2 hw),
        Option.isSome_none]
    rw [hb.contains_eq_false h, hb']
    -- a name that is missing and one that comes too late have the same code
    split
    · exact .refl _
    · split
      · exact .refl _
      · cases t.name? s.name <;> cases t'.name? s.name <;> exact .error rfl
  | @name u v h isCalled =>
    have hcontains : b.contains u = b'.contains v := congrArg Option.isSome (hb.get?_eq ht ht' h)
    obtain ⟨-, hfunction, hconstant⟩ := ht.meaningless u h.mem.1
    obtain ⟨-, hfunction', hconstant'⟩ := ht'.meaningless v h.mem.2
    rw [← List.contains_iff_mem, Bool.not_eq_true] at hfunction hconstant hfunction' hconstant'
    dsimp only
    rw [hfunction, hconstant, hfunction', hconstant', hcontains]
    split
    · exact .error rfl
    · split
      · exact .refl _
      · cases t.name? u <;> cases t'.name? v <;> exact .error rfl

theorem checkSymbols_agree (hb : b.Alike (t.Pairs t') b') (ht : t.Sound) (ht' : t'.Sound)
    (h : List.Forall₂ (Symbol.Alike t t') ss ss') :
    Agree Fault.code Eq (checkSymbols t b ss) (checkSymbols t' b' ss') := by
  induction h with
  | nil => exact .refl _
  | cons h _ ih => exact (checkSymbol_agree hb ht ht' h).bind fun _ _ _ _ _ ↦ ih

/-- If nothing is wrong with some identifiers, then nothing is with any of them. -/
theorem checkSymbol_of_checkSymbols (h : checkSymbols t b ss = .ok ()) (hs : s ∈ ss) :
    checkSymbol t b s = .ok () := by
  induction ss with
  | nil => exact absurd hs List.not_mem_nil
  | cons s' ss ih =>
    obtain ⟨_, hcheck, h⟩ := Except.bind_eq_ok_iff.mp h
    rcases List.mem_cons.mp hs with rfl | hs
    · exact hcheck
    · exact ih h hs

/-- If nothing is wrong with some identifiers, those that are not bound are known. -/
theorem isKnown_of_checkSymbols (h : checkSymbols t b ss = .ok ()) (hs : s ∈ ss)
    (hb : b.contains s.name = false) : s.isKnown = true := by
  have hcheck := checkSymbol_of_checkSymbols h hs
  rw [checkSymbol, hb, Bool.or_false] at hcheck
  rw [Symbol.isKnown]
  split at hcheck
  next hcalled =>
    rw [if_pos hcalled]
    split at hcheck
    next hknown => exact hknown
    next => exact nomatch hcheck
  next hcalled =>
    rw [if_neg hcalled]
    split at hcheck
    next hknown => exact hknown
    next => split at hcheck <;> exact nomatch hcheck

end Formula

/-! ## Formulas -/

/-- The names of a formula stand apart in it; and if the other identifiers are all known, what
stands between the names belongs to the language that authors are told of.  Outside of it aliases
show: quotes around a name make its alias a text, and texts are compared. -/
structure Mark.IsFormula (ms : List Mark) : Prop where
  apart : Mark.apart false ms = true
  own : (∀ s ∈ Mark.ownSymbols ms, s.isKnown = true) →
    ∀ a ∈ Mark.ownLexemes ms, a.IsProper ∧ ∀ w, a = .word w → Formula.isKept w = false

namespace AliasTable

variable {t t' : AliasTable} {ms : List Mark} {name : String}

theorem identifies (h : t.Sound) (hms : ∀ n, .name n ∈ ms → n ∈ t.names) :
    Mark.Identifies t.word ms := by
  intro n hn
  obtain ⟨w, hw⟩ := Option.isSome_iff_exists.mp (isSome_alias?_iff.mpr (hms n hn))
  rw [word, hw]
  exact (h.form w (mem_aliases hw)).exists_cons

/-- A name has an alias in each of two tables with the same names. -/
theorem pairs_word (hnames : t.names = t'.names) (hname : name ∈ t.names) :
    t.Pairs t' (String.ofList (t.word name)) (String.ofList (t'.word name)) := by
  obtain ⟨u, hu⟩ := Option.isSome_iff_exists.mp (isSome_alias?_iff.mpr hname)
  obtain ⟨v, hv⟩ := Option.isSome_iff_exists.mp (isSome_alias?_iff.mpr (hnames ▸ hname))
  refine ⟨name, ?_, ?_⟩
  · rw [word, hu, Option.getD_some, String.ofList_toList]
  · rw [word, hv, Option.getD_some, String.ofList_toList]

end AliasTable

/-- The same names have aliases at two times, and the same values are bound to them. -/
structure Progress.Alike (p p' : Progress) : Prop where
  names : p.aliases.names = p'.aliases.names
  sound : p.aliases.Sound
  sound' : p'.aliases.Sound
  bindings : p.bindings.Alike (p.aliases.Pairs p'.aliases) p'.bindings

namespace Step

variable {s : Step} {t : AliasTable} {p p' : Progress}

/-- The marks of the right side in plain text, where some names have aliases. -/
def marks (s : Step) (names : List String) : List Mark := Mark.plain (Mark.ofText names s.rhs)

theorem mem_names_of_mem_marks {names : List String} {n : String} (h : .name n ∈ s.marks names) :
    n ∈ names :=
  Mark.mem_of_mem_ofText (Mark.mem_of_mem_plain h)

/-- The right side as it is evaluated is made of its marks. -/
theorem formula_eq (h : t.Sound) (htold : t.Told t.names) :
    s.formula t = String.ofList (Mark.text t.word (s.marks t.names)) := by
  rw [formula, AliasTable.substitute_eq (h.distinct htold)]
  exact Mark.plainText_text (AliasTable.identifies h fun _ ↦ Mark.mem_of_mem_ofText)

/-- The value of an equation does not depend on the aliases. -/
theorem value_agree (h : p.Alike p') (hform : Mark.IsFormula (s.marks p.aliases.names))
    (hhides : p.aliases.Hides [s.marks p.aliases.names])
    (hhides' : p'.aliases.Hides [s.marks p.aliases.names]) :
    Agree Formula.Fault.code Eq (s.value p) (s.value p') := by
  have hsource := formula_eq (s := s) h.sound hhides.told
  have hsource' := formula_eq (s := s) h.sound' hhides'.told
  rw [← h.names] at hsource'
  set ms := s.marks p.aliases.names
  have hself : ms ∈ [ms] := List.mem_singleton_self ms
  have hnames : ∀ n, .name n ∈ ms → n ∈ p.aliases.names := fun _ ↦ mem_names_of_mem_marks
  have hidentifies := AliasTable.identifies h.sound hnames
  have hidentifies' := AliasTable.identifies h.sound' (h.names ▸ hnames)
  have hsymbols : List.Forall₂ (Symbol.Alike p.aliases p'.aliases)
      (Formula.symbols (s.formula p.aliases)) (Formula.symbols (s.formula p'.aliases)) := by
    rw [Formula.symbols, Formula.symbols, hsource, hsource', String.toList_ofList,
      String.toList_ofList, Mark.symbolsFrom_text hidentifies hform.apart,
      Mark.symbolsFrom_text hidentifies' hform.apart]
    exact Mark.readPieces_alike
      (fun a ha ↦ .own (hhides.notMem hself ha) (hhides'.notMem hself ha))
      fun n hn ms' ↦ .name (AliasTable.pairs_word h.names (hnames n hn)) (Mark.opens ms')
  rw [value, value]
  refine (Formula.checkSymbols_agree h.bindings h.sound h.sound' hsymbols).bind
    fun _ _ hcheck _ _ ↦ ?_
  have hown := hform.own fun a ha ↦ Formula.isKnown_of_checkSymbols hcheck
    (by
      rw [Formula.symbols, hsource, String.toList_ofList,
        Mark.symbolsFrom_text hidentifies hform.apart]
      exact Mark.mem_readPieces ha)
    (h.bindings.contains_eq_false (hhides.notMem hself ha))
  refine @Formula.evaluate_agree
    (AliasTable.correspondence h.sound h.sound' hhides.sign hhides'.sign) _ _ _ _ h.bindings ?_
  rw [Formula.lexemes, Formula.lexemes, hsource, hsource', String.toList_ofList,
    String.toList_ofList, Mark.lexemesFrom_text hidentifies hform.apart,
    Mark.lexemesFrom_text hidentifies' hform.apart]
  refine Mark.readPieces_alike (fun a ha ↦ .same ⟨(hown a ha).1, fun w hw ↦ ?_⟩)
    fun n hn _ ↦ .name (AliasTable.pairs_word h.names (hnames n hn))
  subst hw
  refine ⟨(hown _ ha).2 w rfl, fun v ↦ ⟨fun hpair ↦ ?_, fun hpair ↦ ?_⟩⟩
  · exact hhides.unread ms hself w hpair.mem.1 ha
  · exact hhides'.unread ms hself w hpair.mem.2 ha

end Step

end FormulaQuiz
