import FormulaQuiz.Proofs.Marks

/-!
# Substitution leaves no name behind

A name that has been replaced stands nowhere in the text, and replacing other names does not bring
it back: a mark sticks to what is beside it, and no symbol goes on into a mark.  So the text that
comes out has none of the names, and substituting once more finds nothing to do.
-/

namespace FormulaQuiz

open Text (isIdentifierChar glued)

namespace Text

/-- A symbol stands somewhere in a text, glued on neither side. -/
def Stands (symbol cs : List Char) : Prop :=
  ∃ left right, cs = left ++ symbol ++ right ∧ glued symbol.head? left.getLast? = false ∧
    glued symbol.getLast? right.head? = false

/-- Whether a symbol stands at no place of a text; `before` is the character to the left. -/
def lacks (symbol : List Char) : (before : Option Char) → List Char → Bool
  | _, [] => true
  | before, c :: cs => !standsAt symbol before (c :: cs) && lacks symbol (some c) cs

variable {symbol replacement cs : List Char} {before : Option Char}

theorem lacks_cons {c : Char} : lacks symbol before (c :: cs) = true ↔
    standsAt symbol before (c :: cs) = false ∧ lacks symbol (some c) cs = true := by
  rw [lacks, Bool.and_eq_true, Bool.not_eq_true']

/-- What is not glued where a symbol is found would stand there. -/
theorem glued_of_lacks (hne : symbol ≠ []) {left right : List Char}
    (h : lacks symbol before (left ++ symbol ++ right) = true)
    (hleft : glued symbol.head? (left.getLast?.or before) = false) :
    glued symbol.getLast? right.head? = true := by
  induction left generalizing before with
  | nil =>
    obtain ⟨a, symbol, rfl⟩ := List.exists_cons_of_ne_nil hne
    rw [List.nil_append, List.cons_append, lacks_cons, ← List.cons_append, standsAt,
      List.drop_left] at h
    have hfront : (a :: symbol).isPrefixOf (a :: symbol ++ right) = true :=
      List.isPrefixOf_iff_prefix.mpr (List.prefix_append _ _)
    rw [List.getLast?_nil, Option.none_or] at hleft
    rw [hfront, hleft, Bool.not_false, Bool.true_and, Bool.true_and, Bool.not_eq_false'] at h
    exact h.1
  | cons c left ih =>
    rw [List.cons_append, List.cons_append, lacks_cons] at h
    refine ih h.2 ?_
    have hlast : (c :: left).getLast?.or before = left.getLast?.or (some c) := by
      rw [List.getLast?_cons]
      cases left.getLast? <;> rfl
    rwa [hlast] at hleft

theorem not_stands_of_lacks (hne : symbol ≠ []) (h : lacks symbol none cs = true) :
    ¬ Stands symbol cs := by
  rintro ⟨left, right, rfl, hleft, hright⟩
  have hglued := glued_of_lacks hne h (by rwa [Option.or_none])
  rw [hright] at hglued
  exact Bool.false_ne_true hglued

/-- Where a symbol stands nowhere, nothing is replaced. -/
theorem replaceFrom_of_lacks (h : lacks symbol before cs = true) :
    replaceFrom symbol replacement 0 before cs = cs := by
  induction cs generalizing before with
  | nil => rfl
  | cons c cs ih =>
    obtain ⟨hhere, hlater⟩ := lacks_cons.mp h
    rw [replaceFrom, hhere, if_neg Bool.false_ne_true, ih hlater]

end Text

namespace Mark

variable {symbol s : List Char} {new : String} {ms : List Mark} {before outer : Bool}

/-- Whether a symbol stands at no place of some marks; `before` tells whether the mark to the left
sticks. -/
def lacks (symbol : List Char) : (before : Bool) → List Mark → Bool
  | _, [] => true
  | before, m :: ms => !standsAt symbol before (m :: ms) && lacks symbol m.sticks ms

theorem lacks_cons {m : Mark} : lacks symbol before (m :: ms) = true ↔
    standsAt symbol before (m :: ms) = false ∧ lacks symbol m.sticks ms = true := by
  rw [lacks, Bool.and_eq_true, Bool.not_eq_true']

theorem standsAt_name (hne : s ≠ []) {n : String} : standsAt s before (name n :: ms) = false := by
  obtain ⟨a, s, rfl⟩ := List.exists_cons_of_ne_nil hne
  rfl

/-! ## Marking a symbol -/

/-- Characters in front of marked text were copied. -/
theorem exists_of_markFrom_eq {p : List Char} {out : List Mark}
    (h : markFrom symbol new 0 before ms = p.map char ++ out) :
    ∃ rest before', ms = p.map char ++ rest ∧ out = markFrom symbol new 0 before' rest := by
  induction p generalizing before ms with
  | nil => exact ⟨ms, before, rfl, h.symm⟩
  | cons c p ih =>
    cases ms with
    | nil => cases h
    | cons m ms =>
      rw [markFrom] at h
      split at h
      · cases h
      · obtain ⟨rfl, h⟩ := List.cons.inj h
        obtain ⟨rest, before', rfl, hout⟩ := ih h
        exact ⟨rest, before', rfl, hout⟩

/-- Marking lets what is in front go on sticking. -/
theorem sticks_head?_markFrom (h : ms.head?.any sticks = true) :
    (markFrom symbol new 0 before ms).head?.any sticks = true := by
  cases ms with
  | nil => exact nomatch h
  | cons m ms =>
    rw [markFrom]
    split
    · rfl
    · exact h

/-- What stands in front of marked text stood there before. -/
theorem standsAt_of_markFrom (hbefore : before = true → outer = true)
    (h : standsAt s outer (markFrom symbol new 0 before ms) = true) :
    standsAt s before ms = true := by
  simp only [standsAt, Bool.and_eq_true, Bool.not_eq_true', List.isPrefixOf_iff_prefix] at h ⊢
  obtain ⟨⟨⟨out, hout⟩, hleft⟩, hright⟩ := h
  obtain ⟨rest, before', rfl, rfl⟩ := exists_of_markFrom_eq hout.symm
  have hlength : s.length = (s.map char).length := (List.length_map _).symm
  rw [← hout, hlength, List.drop_left] at hright
  rw [hlength, List.drop_left]
  refine ⟨⟨List.prefix_append _ _, ?_⟩, ?_⟩
  · cases before with
    | false => rw [Bool.and_false]
    | true => rwa [hbefore rfl] at hleft
  · by_contra hrest
    rw [Bool.not_eq_false, Bool.and_eq_true] at hrest
    rw [hrest.1, sticks_head?_markFrom hrest.2] at hright
    exact Bool.false_ne_true hright.symm

/-- A symbol that is marked, or that stands nowhere, stands nowhere afterwards. -/
theorem lacks_markFrom (hne : s ≠ []) {skip : Nat} (hbefore : before = true → outer = true)
    (hskip : skip ≠ 0 → outer = true) (h : s = symbol ∨ lacks s before ms = true) :
    lacks s outer (markFrom symbol new skip before ms) = true := by
  induction ms generalizing skip before outer with
  | nil => cases skip <;> rfl
  | cons m ms ih =>
    have hlater : s = symbol ∨ lacks s m.sticks ms = true := h.imp_right fun h ↦ (lacks_cons.mp h).2
    cases skip with
    | succ skip =>
      have houter := hskip (Nat.succ_ne_zero skip)
      exact ih (fun _ ↦ houter) (fun _ ↦ houter) hlater
    | zero =>
      have hcopied := @standsAt_of_markFrom symbol s new (m :: ms) before outer hbefore
      rw [markFrom] at hcopied ⊢
      split
      next => exact lacks_cons.mpr ⟨standsAt_name hne, ih (fun _ ↦ rfl) (fun _ ↦ rfl) hlater⟩
      next hnot =>
        rw [if_neg hnot] at hcopied
        refine lacks_cons.mpr ⟨?_, ih id (fun hzero ↦ absurd rfl hzero) hlater⟩
        by_contra hstands
        have hhere := hcopied (Bool.not_eq_false _ |>.mp hstands)
        rcases h with rfl | h
        · exact hnot hhere
        · rw [(lacks_cons.mp h).1] at hhere
          exact Bool.false_ne_true hhere

theorem lacks_mark {n : String} (hne : n ≠ "") (h : n = new ∨ lacks n.toList false ms = true) :
    lacks n.toList false (mark ms new) = true := by
  have hchars : n.toList ≠ [] := fun hnil ↦ hne (by simpa using hnil)
  rw [mark]
  split
  next hempty =>
    refine h.resolve_left ?_
    rintro rfl
    exact hne (String.isEmpty_iff.mp hempty)
  next => exact lacks_markFrom hchars id (fun hzero ↦ absurd rfl hzero) (h.imp_left (congrArg _))

/-- Marking names one after the other leaves none of them. -/
theorem lacks_foldl_mark {names : List String} {n : String} (hne : n ≠ "")
    (h : n ∈ names ∨ lacks n.toList false ms = true) :
    lacks n.toList false (names.foldl mark ms) = true := by
  induction names generalizing ms with
  | nil => exact h.resolve_left List.not_mem_nil
  | cons new names ih =>
    refine ih ?_
    rcases h with h | h
    · rcases List.mem_cons.mp h with rfl | h
      · exact .inr (lacks_mark hne (.inl rfl))
      · exact .inl h
    · exact .inr (lacks_mark hne (.inr h))

/-! ## Words in place of marks -/

/-- A symbol begins nowhere in a word behind its first character. -/
theorem lacks_chars {u cs : List Char} (hne : symbol ≠ []) {b : Char}
    (hb : isIdentifierChar b = true) (hu : ∀ c ∈ u, isIdentifierChar c = true)
    (h : ∀ last, isIdentifierChar last = true → Text.lacks symbol (some last) cs = true) :
    Text.lacks symbol (some b) (u ++ cs) = true := by
  induction u generalizing b with
  | nil => exact h b hb
  | cons c u ih =>
    obtain ⟨hc, hu⟩ := List.forall_mem_cons.mp hu
    exact Text.lacks_cons.mpr ⟨not_standsAt_of_glued hne hb hc, ih hc hu⟩

/-- A symbol that stands nowhere in some marks stands nowhere in the text that they are. -/
theorem lacks_text {word : String → List Char} (hne : symbol ≠ []) {b : Option Char}
    (hbefore : b.any isIdentifierChar = before) (hsolid : ∀ n, name n ∈ ms → Solid symbol (word n))
    (h : lacks symbol before ms = true) : Text.lacks symbol b (text word ms) = true := by
  induction ms generalizing b before with
  | nil => rfl
  | cons m ms ih =>
    have hms : ∀ n, name n ∈ ms → Solid symbol (word n) := fun n hn ↦
      hsolid n (List.mem_cons_of_mem _ hn)
    obtain ⟨hhere, hlater⟩ := lacks_cons.mp h
    cases m with
    | char c =>
      refine Text.lacks_cons.mpr ⟨?_, ih rfl hms hlater⟩
      exact (standsAt_text hbefore hsolid).trans hhere
    | name n =>
      have hword := hsolid n List.mem_cons_self
      obtain ⟨c, u, hcons, hc, hu⟩ := hword.exists_cons
      have hnot : Text.standsAt symbol b (word n ++ text word ms) = false :=
        hword.not_standsAt hne b
      rw [text]
      rw [hcons, List.cons_append] at hnot ⊢
      exact Text.lacks_cons.mpr ⟨hnot, lacks_chars hne hc hu fun last hlast ↦ ih hlast hms hlater⟩

end Mark

namespace AliasTable

section Distinct

variable {t : AliasTable}

/-- A text in which no name stands is left as it is. -/
theorem substitute_of_lacks {source : String}
    (h : ∀ n ∈ t.names, n ≠ "" → Text.lacks n.toList none source.toList = true) :
    t.substitute source = source := by
  have hfold : ∀ entries : List (String × String), (∀ e ∈ entries, e ∈ t.entries) →
      entries.foldl (fun text e ↦ Text.replaceSymbol text e.1 e.2) source = source := by
    intro entries hentries
    induction entries with
    | nil => rfl
    | cons e entries ih =>
      obtain ⟨he, hentries⟩ := List.forall_mem_cons.mp hentries
      have hsame : Text.replaceSymbol source e.1 e.2 = source := by
        rw [Text.replaceSymbol]
        split
        · rfl
        next hempty =>
          have hne : e.1 ≠ "" := fun h0 ↦ hempty (String.isEmpty_iff.mpr h0)
          rw [Text.replaceFrom_of_lacks (h e.1 (List.mem_map_of_mem he) hne), String.ofList_toList]
      rw [List.foldl_cons, hsame]
      exact ih hentries
  exact hfold _ fun e he ↦ List.mem_mergeSort.mp he

/-- No name stands in a text that comes out. -/
theorem lacks_substitute (h : t.Distinct) (source : String) {n : String} (hn : n ∈ t.names)
    (hne : n ≠ "") : Text.lacks n.toList none (t.substitute source).toList = true := by
  have hchars : n.toList ≠ [] := fun hnil ↦ hne (by simpa using hnil)
  rw [substitute_eq h, String.toList_ofList]
  refine Mark.lacks_text hchars rfl (fun m hm ↦ h.solid m (Mark.mem_of_mem_ofText hm) n hn) ?_
  exact Mark.lacks_foldl_mark hne (.inl (List.mem_mergeSort.mpr hn))

end Distinct

/-- With the aliases of the beginning, no name stands in a text that comes out, so that nothing is
left to be replaced. -/
theorem substitute_complete {σ : Type} [Random.WordSource σ] {policy : AliasPolicy}
    {names : List String} {t : AliasTable} {source rest : σ}
    (h : (ofNames policy names).Gives source t rest) (text : String) :
    (∀ name ∈ names, name ≠ "" → ¬ Text.Stands name.toList (t.substitute text).toList) ∧
      t.substitute (t.substitute text) = t.substitute text := by
  obtain ⟨hsound, -, htold, hnames⟩ := sound_ofNames h
  have hdistinct : t.Distinct := hsound.distinct fun word hword n hn ↦
    htold word hword n ((hnames n).mp hn)
  refine ⟨fun name hname hne ↦ ?_, ?_⟩
  · have hchars : name.toList ≠ [] := fun hnil ↦ hne (by simpa using hnil)
    exact Text.not_stands_of_lacks hchars
      (lacks_substitute hdistinct text ((hnames name).mpr hname) hne)
  · exact substitute_of_lacks fun n hn hne ↦ lacks_substitute hdistinct text hn hne

/-- Names that begin with backslashes and stand in one another. -/
theorem substitute_complete_nested : ∃ t rest,
    (ofNames ⟨8, 1000⟩ ["V", "V_\x7b\\alpha\x7d"]).Gives (Random.ChaCha.ofSeed 3) t rest ∧
      ¬ Text.Stands "V".toList (t.substitute "V_\x7b\\alpha\x7d / V").toList := by
  obtain ⟨t, rest, hgives, -⟩ : ∃ t rest,
      (ofNames ⟨8, 1000⟩ ["V", "V_\x7b\\alpha\x7d"]).Gives (Random.ChaCha.ofSeed 3) t rest ∧
        (fun _ ↦ true) t = true := Trial.exists_gives_of_any (by decide +kernel)
  exact ⟨t, rest, hgives,
    (substitute_complete hgives "V_\x7b\\alpha\x7d / V").1 "V" (by simp) (by simp)⟩

end AliasTable

end FormulaQuiz
