import FormulaQuiz.Proofs.Apart
import FormulaQuiz.Proofs.Substitution

/-!
# Whole identifiers under substitution

A name of identifier characters is replaced only where it is a whole identifier.  So a substitution
of such names takes each identifier of a text to one identifier, and leaves all that stands between
identifiers as it is.
-/

namespace FormulaQuiz

namespace Text

open Formula (Detached lastOf joins isCalledBy plainChar?)

/-- A text of identifier characters, and of at least one. -/
structure IsWord (u : List Char) : Prop where
  ne : u ≠ []
  chars : ∀ c ∈ u, isIdentifierChar c = true

section Replacing

variable {n w p q u cs : List Char} {b : Option Char} {d : Char}

theorem IsWord.exists_cons (h : IsWord u) :
    ∃ c cs, u = c :: cs ∧ isIdentifierChar c = true ∧ ∀ d ∈ cs, isIdentifierChar d = true := by
  obtain ⟨c, cs, rfl⟩ := List.exists_cons_of_ne_nil h.ne
  obtain ⟨hc, hcs⟩ := List.forall_mem_cons.mp h.chars
  exact ⟨c, cs, rfl, hc, hcs⟩

theorem IsWord.getLast? (h : IsWord u) : u.getLast?.any isIdentifierChar = true := by
  rw [List.getLast?_eq_getLast_of_ne_nil h.ne]
  exact h.chars _ (List.getLast_mem h.ne)

theorem glued_none (inner : Option Char) : glued inner none = false := Bool.and_false _

/-- A word does not reach over a place between two characters that are not glued. -/
theorem IsWord.prefix_append_iff (hn : IsWord n) (h : glued p.getLast? q.head? = false)
    (hne : p ≠ []) : n <+: p ++ q ↔ n <+: p := by
  refine ⟨fun front ↦ ?_, fun front ↦ front.trans (List.prefix_append p q)⟩
  rcases List.prefix_or_prefix_of_prefix front (List.prefix_append p q) with within | ⟨r, rfl⟩
  · exact within
  · cases r with
    | nil => exact (List.append_nil p).symm ▸ List.prefix_refl p
    | cons d r =>
      obtain ⟨rest, rfl⟩ := (List.prefix_append_right_inj p).mp front
      have last : p.getLast?.any isIdentifierChar = true := by
        rw [List.getLast?_eq_getLast_of_ne_nil hne]
        exact hn.chars _ (List.mem_append_left _ (List.getLast_mem hne))
      have next : isIdentifierChar d = true :=
        hn.chars d (List.mem_append_right _ List.mem_cons_self)
      rw [glued, last, List.cons_append, List.head?_cons, Option.any_some, next] at h
      exact absurd h (by decide)

/-- Whether a word stands at the front of a text does not depend on what is not glued to the end of
the text. -/
theorem IsWord.standsAt_append (hn : IsWord n) (h : glued p.getLast? q.head? = false)
    (hne : p ≠ []) : standsAt n b (p ++ q) = standsAt n b p := by
  have front : n.isPrefixOf (p ++ q) = n.isPrefixOf p := by
    rw [Bool.eq_iff_iff, List.isPrefixOf_iff_prefix, List.isPrefixOf_iff_prefix]
    exact hn.prefix_append_iff h hne
  rw [standsAt, standsAt, front]
  cases here : n.isPrefixOf p with
  | false => rfl
  | true =>
    obtain ⟨r, rfl⟩ := List.isPrefixOf_iff_prefix.mp here
    rw [List.append_assoc, List.drop_left, List.drop_left]
    cases r with
    | cons d r => rfl
    | nil =>
      rw [List.append_nil] at h
      rw [List.nil_append, h, List.head?_nil, glued_none]

/-- A text is replaced in two parts where its characters are not glued. -/
theorem IsWord.replaceFrom_append (hn : IsWord n) (h : glued p.getLast? q.head? = false)
    {skip : ℕ} (hskip : skip ≤ p.length) :
    replaceFrom n w skip b (p ++ q) =
      replaceFrom n w skip b p ++ replaceFrom n w 0 (lastOf b p) q := by
  induction p generalizing skip b with
  | nil =>
    obtain rfl : skip = 0 := Nat.le_zero.mp hskip
    rfl
  | cons c p ih =>
    have hp : glued p.getLast? q.head? = false := by
      cases p with
      | nil => rfl
      | cons d p => rwa [List.getLast?_cons_cons] at h
    rw [Formula.lastOf_cons]
    cases skip with
    | succ skip =>
      rw [List.cons_append, replaceFrom, replaceFrom]
      exact ih hp (Nat.le_of_succ_le_succ hskip)
    | zero =>
      have stands := hn.standsAt_append (b := b) h (List.cons_ne_nil c p)
      rw [List.cons_append] at stands ⊢
      rw [replaceFrom, replaceFrom, stands]
      split
      next here =>
        have fits : n.length ≤ p.length + 1 := by
          rw [standsAt, Bool.and_eq_true, Bool.and_eq_true, List.isPrefixOf_iff_prefix] at here
          exact here.1.1.length_le
        rw [ih hp (by omega), List.append_assoc]
      next => rw [ih hp (Nat.zero_le _), List.cons_append]

/-- What is passed over is left out. -/
theorem replaceFrom_length (u : List Char) : replaceFrom n w u.length b u = [] := by
  induction u generalizing b with
  | nil => rfl
  | cons c u ih => exact ih

/-- A word that follows no identifier character stands at the front of another if it is that
word. -/
theorem IsWord.standsAt_iff (hn : IsWord n) (hu : IsWord u) (hb : b.any isIdentifierChar = false) :
    standsAt n b u = true ↔ u = n := by
  have free : glued n.head? b = false := by rw [glued, hb, Bool.and_false]
  rw [standsAt, free, Bool.not_false, Bool.and_true, Bool.and_eq_true, Bool.not_eq_true',
    List.isPrefixOf_iff_prefix]
  constructor
  · rintro ⟨⟨r, rfl⟩, hr⟩
    cases r with
    | nil => exact List.append_nil n
    | cons d r =>
      rw [List.drop_left, glued, hn.getLast?, List.head?_cons, Option.any_some,
        hu.chars d (List.mem_append_right _ List.mem_cons_self)] at hr
      exact absurd hr (by decide)
  · rintro rfl
    refine ⟨List.prefix_refl u, ?_⟩
    rw [List.drop_length, List.head?_nil, glued_none]

/-- A word is replaced as a whole, and only by its own replacement. -/
theorem IsWord.replaceFrom_word (hn : IsWord n) (hu : IsWord u)
    (hb : b.any isIdentifierChar = false) :
    replaceFrom n w 0 b u = if u = n then w else u := by
  have stands := hn.standsAt_iff hu hb
  obtain ⟨c, cs, rfl, hc, hcs⟩ := hu.exists_cons
  rw [replaceFrom]
  split
  next here =>
    obtain rfl := stands.mp here
    rw [if_pos rfl, List.length_cons, Nat.add_sub_cancel, replaceFrom_length, List.append_nil]
  next here =>
    obtain ⟨last, -, eq⟩ : ∃ last, isIdentifierChar last = true ∧
        replaceFrom n w 0 (some c) (cs ++ []) = cs ++ replaceFrom n w 0 (some last) [] :=
      Mark.replaceFrom_chars hn.ne hc hcs
    rw [List.append_nil, replaceFrom, List.append_nil] at eq
    rw [if_neg (mt stands.mpr here), eq]

/-- What is no identifier character is left as it is. -/
theorem IsWord.replaceFrom_cons (hn : IsWord n) (hd : isIdentifierChar d = false) :
    replaceFrom n w 0 b (d :: q) = d :: replaceFrom n w 0 (some d) q := by
  obtain ⟨c, cs, rfl, hc, -⟩ := hn.exists_cons
  have here : standsAt (c :: cs) b (d :: q) = false := by
    have ne : (c == d) = false := by
      rw [beq_eq_false_iff_ne]
      rintro rfl
      rw [hc] at hd
      exact absurd hd (by decide)
    rw [standsAt, List.isPrefixOf, ne, Bool.false_and, Bool.false_and, Bool.false_and]
  rw [replaceFrom, here, if_neg Bool.false_ne_true]

/-- Every character after a replacement is of the text or of what replaces. -/
theorem mem_of_mem_replaceFrom {skip : ℕ} (h : d ∈ replaceFrom n w skip b cs) :
    d ∈ w ∨ d ∈ cs := by
  induction cs generalizing skip b with
  | nil => cases skip <;> exact absurd h List.not_mem_nil
  | cons c cs ih =>
    cases skip with
    | succ skip => exact (ih h).imp_right (List.mem_cons_of_mem c)
    | zero =>
      rw [replaceFrom] at h
      split at h
      · rcases List.mem_append.mp h with hw | hcs
        · exact .inl hw
        · exact (ih hcs).imp_right (List.mem_cons_of_mem c)
      · rcases List.mem_cons.mp h with rfl | hcs
        · exact .inr List.mem_cons_self
        · exact (ih hcs).imp_right (List.mem_cons_of_mem c)

end Replacing

/-! ## What follows an identifier -/

section Opens

variable {n w q u cs : List Char} {b : Option Char} {c : Char}

/-- Whether a bracket opens after some blanks. -/
def opens (cs : List Char) : Bool :=
  (trimLeft cs).head?.any fun c ↦ c = '(' || c = '[' || c = '\x7b'

theorem isBlank_of_isIdentifierChar (h : isIdentifierChar c = true) : isBlank c = false := by
  rcases Bool.or_eq_true_iff.mp h with start | digit
  · exact (Formula.begins_of_isIdentifierStart start).blank
  · exact (Formula.begins_of_isDigit digit).blank

theorem opens_cons_of_isBlank (h : isBlank c = true) : opens (c :: cs) = opens cs := by
  rw [opens, opens, trimLeft, List.dropWhile_cons_of_pos h, trimLeft]

theorem opens_cons (h : isBlank c = false) :
    opens (c :: cs) = (c = '(' || c = '[' || c = '\x7b' : Bool) := by
  rw [opens, trimLeft, List.dropWhile_cons_of_neg (by rw [h]; decide), List.head?_cons,
    Option.any_some]

/-- No bracket opens where an identifier begins. -/
theorem opens_of_isIdentifierChar (h : isIdentifierChar c = true) : opens (c :: cs) = false := by
  rw [opens_cons (isBlank_of_isIdentifierChar h)]
  have ne : ∀ d, isIdentifierChar d = false → c ≠ d := by
    rintro d hd rfl
    rw [h] at hd
    exact absurd hd (by decide)
  simp [ne '(' (by decide), ne '[' (by decide), ne '\x7b' (by decide)]

/-- A replacement opens no bracket and removes none. -/
theorem opens_replaceFrom (hn : IsWord n) (hw : IsWord w) :
    opens (replaceFrom n w 0 b q) = opens q := by
  induction q generalizing b with
  | nil => rfl
  | cons c q ih =>
    by_cases hc : isIdentifierChar c = true
    · rw [opens_of_isIdentifierChar hc, replaceFrom]
      obtain ⟨d, ds, rfl, hd, -⟩ := hw.exists_cons
      split
      · exact opens_of_isIdentifierChar hd
      · exact opens_of_isIdentifierChar hc
    · rw [hn.replaceFrom_cons (Bool.eq_false_iff.mpr hc)]
      cases blank : isBlank c with
      | true => rw [opens_cons_of_isBlank blank, opens_cons_of_isBlank blank, ih]
      | false => rw [opens_cons blank, opens_cons blank]

end Opens

/-! ## One identifier -/

section HasWord

variable {n w p q u cs : List Char} {opened : Bool}

/-- A word is an identifier of a text: no identifier character stands beside it, and no point in
front of it; `opened` tells whether a bracket opens after it. -/
def HasWord (u : List Char) (opened : Bool) (cs : List Char) : Prop :=
  ∃ p q, cs = p ++ u ++ q ∧ Detached p ∧ (∀ d ∈ q.head?, isIdentifierChar d = false) ∧
    opens q = opened

/-- The end of a text that joins nothing stays, as does its beginning. -/
theorem detached_replaceFrom (hn : IsWord n) (h : Detached p) :
    Detached (replaceFrom n w 0 none p) := by
  rcases List.eq_nil_or_concat p with rfl | ⟨front, d, rfl⟩
  · exact h
  · rw [List.concat_eq_append] at h ⊢
    have last : joins d = false := h d (by rw [List.getLast?_concat]; rfl)
    have ends : isIdentifierChar d = false := Formula.isIdentifierChar_of_joins last
    have boundary : glued front.getLast? [d].head? = false := by
      rw [glued, List.head?_cons, Option.any_some, ends, Bool.and_false]
    rw [hn.replaceFrom_append boundary (Nat.zero_le _), hn.replaceFrom_cons ends]
    intro e he
    rw [Text.replaceFrom, List.getLast?_concat] at he
    obtain rfl := Option.some.inj he
    exact last

/-- A replacement takes an identifier to an identifier. -/
theorem HasWord.replaceFrom (hn : IsWord n) (hw : IsWord w) (hu : IsWord u)
    (h : HasWord u opened cs) :
    HasWord (if u = n then w else u) opened (replaceFrom n w 0 none cs) := by
  obtain ⟨p, q, rfl, hp, hq, hopened⟩ := h
  have left : (lastOf none p).any isIdentifierChar = false := by
    rw [lastOf, Option.or_none]
    cases last : p.getLast? with
    | none => rfl
    | some d => exact Formula.isIdentifierChar_of_joins (hp d last)
  have right : q.head?.any isIdentifierChar = false := by
    cases head : q.head? with
    | none => rfl
    | some d => exact hq d head
  have before : glued p.getLast? u.head? = false := by
    rw [lastOf, Option.or_none] at left
    rw [glued, left, Bool.false_and]
  have behind : glued (p ++ u).getLast? q.head? = false := by
    rw [glued, right, Bool.and_false]
  refine ⟨Text.replaceFrom n w 0 none p, Text.replaceFrom n w 0 (lastOf none (p ++ u)) q, ?_,
    detached_replaceFrom hn hp, ?_, ?_⟩
  · rw [hn.replaceFrom_append behind (Nat.zero_le _),
      hn.replaceFrom_append before (Nat.zero_le _), hn.replaceFrom_word hu left]
  · cases q with
    | nil =>
      intro d hd
      cases hd
    | cons d q =>
      have hd : isIdentifierChar d = false := hq d rfl
      rw [hn.replaceFrom_cons hd]
      exact hq
  · rw [opens_replaceFrom hn hw, hopened]

end HasWord

/-! ## Plain text -/

section Plain

variable {p q u cs : List Char} {c : Char} {opened : Bool}

/-- What a character that is no backslash is in plain text. -/
theorem exists_plainChar? (h : c ≠ '\\') : ∃ d, plainChar? c = some d ∧
    isIdentifierChar d = isIdentifierChar c ∧ joins d = joins c ∧ isBlank d = isBlank c ∧
      (d = '(' ↔ c = '(' ∨ c = '[' ∨ c = '\x7b') := by
  unfold plainChar?
  split_ifs with opening closing
  · refine ⟨'(', rfl, ?_⟩
    rcases opening with rfl | rfl <;> decide
  · refine ⟨')', rfl, ?_⟩
    rcases closing with rfl | rfl <;> decide
  · rw [not_or] at opening
    exact ⟨c, rfl, rfl, rfl, rfl, by simp [opening]⟩

theorem detached_plain (h : '\\' ∉ p) (hp : Detached p) : Detached (p.filterMap plainChar?) := by
  rcases List.eq_nil_or_concat p with rfl | ⟨front, c, rfl⟩
  · exact hp
  · rw [List.concat_eq_append] at h hp ⊢
    obtain ⟨d, plain, -, joined, -⟩ := exists_plainChar? fun eq : c = '\\' ↦
      h (eq ▸ List.mem_append_right _ List.mem_cons_self)
    intro e he
    rw [List.filterMap_append, List.filterMap_cons_some plain, List.filterMap_nil,
      List.getLast?_concat] at he
    obtain rfl := Option.some.inj he
    rw [joined]
    exact hp c (by rw [List.getLast?_concat]; rfl)

/-- Whether an identifier is called in plain text is whether a bracket of any kind opens after
it. -/
theorem isCalledBy_plain (h : '\\' ∉ q) : isCalledBy (q.filterMap plainChar?) = opens q := by
  induction q with
  | nil => rfl
  | cons c q ih =>
    rw [List.mem_cons, not_or] at h
    obtain ⟨d, plain, -, -, blank, opening⟩ := exists_plainChar? (Ne.symm h.1)
    rw [List.filterMap_cons_some plain]
    cases hc : isBlank c with
    | true =>
      rw [hc] at blank
      rw [opens_cons_of_isBlank hc, ← ih h.2, isCalledBy, trimLeft,
        List.dropWhile_cons_of_pos blank]
      rfl
    | false =>
      rw [hc] at blank
      rw [opens_cons hc, isCalledBy, trimLeft, List.dropWhile_cons_of_neg (by rw [blank]; decide),
        List.head?_cons, Bool.eq_iff_iff, beq_iff_eq, Option.some.injEq, opening]
      simp [or_assoc]

/-- An identifier of a text without backslashes is one of its symbols in plain text. -/
theorem HasWord.mem_symbols (h : HasWord u opened cs) (hplain : '\\' ∉ cs) (hu : IsWord u)
    (hstart : u.head?.any isIdentifierStart = true) :
    ⟨String.ofList u, opened⟩ ∈ Formula.symbols (Formula.plainText (String.ofList cs)) := by
  obtain ⟨p, q, rfl, hp, hq, rfl⟩ := h
  rw [List.mem_append, List.mem_append, not_or, not_or] at hplain
  have own : u.filterMap plainChar? = u := by
    rw [List.filterMap_congr fun c hc ↦ Mark.plainChar?_of_isIdentifierChar (hu.chars c hc),
      List.filterMap_some]
  have behind : ∀ d ∈ (q.filterMap plainChar?).head?, isIdentifierChar d = false := by
    cases q with
    | nil => exact nofun
    | cons c q =>
      obtain ⟨d, plain, ident, -⟩ := exists_plainChar? fun eq : c = '\\' ↦
        hplain.2 (eq ▸ List.mem_cons_self)
      intro e he
      rw [List.filterMap_cons_some plain, List.head?_cons] at he
      obtain rfl := Option.some.inj he
      rw [ident]
      exact hq c rfl
  have before : (lastOf none (p.filterMap plainChar?)).any joins = false := by
    rw [lastOf, Option.or_none]
    cases last : (p.filterMap plainChar?).getLast? with
    | none => rfl
    | some d => exact detached_plain hplain.1.1 hp d last
  obtain ⟨c, rest, rfl, -, hrest⟩ := hu.exists_cons
  rw [Formula.symbols, Formula.plainText, String.toList_ofList, String.toList_ofList,
    List.filterMap_append, List.filterMap_append, own, List.append_assoc, List.cons_append,
    Formula.symbolsFrom_append hstart before, ← List.cons_append,
    Formula.symbolsFrom_word hstart hrest behind, isCalledBy_plain hplain.2]
  exact List.mem_append_right _ List.mem_cons_self

end Plain

end Text

/-! ## All names of a table -/

namespace AliasTable

open Text (IsWord HasWord isIdentifierChar)

/-- What an identifier is after some names have been replaced. -/
def follow (entries : List (String × String)) (u : String) : String :=
  entries.foldl (fun u entry ↦ if u = entry.1 then entry.2 else u) u

variable {entries : List (String × String)} {u w source : String} {opened : Bool}

/-- An identifier that is no name stays. -/
theorem follow_of_notMem (h : u ∉ entries.map (·.1)) : follow entries u = u := by
  induction entries with
  | nil => rfl
  | cons e entries ih =>
    rw [List.map_cons, List.mem_cons, not_or] at h
    rw [follow, List.foldl_cons, if_neg h.1]
    exact ih h.2

/-- A name becomes its alias, if that is no name. -/
theorem follow_of_mem (h : (entries.map (·.1)).Nodup) (hmem : (u, w) ∈ entries)
    (hw : w ∉ entries.map (·.1)) : follow entries u = w := by
  induction entries with
  | nil => exact absurd hmem List.not_mem_nil
  | cons e entries ih =>
    rw [List.map_cons, List.mem_cons, not_or] at hw
    rw [List.map_cons, List.nodup_cons] at h
    rw [follow, List.foldl_cons]
    rcases List.mem_cons.mp hmem with rfl | hmem
    · rw [if_pos rfl]
      exact follow_of_notMem hw.2
    · have other : u ≠ e.1 := fun eq ↦ h.1 (eq ▸ List.mem_map_of_mem hmem)
      rw [if_neg other]
      exact ih h.2 hmem hw.2

/-- Names and aliases of identifier characters. -/
def Plain (entries : List (String × String)) : Prop :=
  ∀ e ∈ entries, (∀ c ∈ e.1.toList, isIdentifierChar c = true) ∧ IsWord e.2.toList

/-- The entries of a table with names of identifier characters are of identifier characters. -/
theorem Sound.plain {t : AliasTable} (sound : t.Sound)
    (hnames : ∀ n ∈ t.names, ∀ c ∈ n.toList, isIdentifierChar c = true) : Plain t.entries := by
  intro e he
  obtain ⟨c, cs, hword, hc, hcs⟩ := (sound.form e.2 (List.mem_map_of_mem he)).exists_cons
  refine ⟨hnames e.1 (List.mem_map_of_mem he), ?_⟩
  rw [hword]
  exact ⟨List.cons_ne_nil c cs, List.forall_mem_cons.mpr
    ⟨Formula.isIdentifierChar_of_isIdentifierStart hc, hcs⟩⟩

/-- After names of identifier characters have been replaced, an identifier is what it became, and
no backslash has come. -/
theorem hasWord_foldl (hentries : Plain entries) (hu : IsWord u.toList)
    (h : HasWord u.toList opened source.toList) (hplain : '\\' ∉ source.toList) :
    let text := entries.foldl (fun text (name, word) ↦ Text.replaceSymbol text name word) source
    IsWord (follow entries u).toList ∧ HasWord (follow entries u).toList opened text.toList ∧
      '\\' ∉ text.toList := by
  induction entries generalizing u source with
  | nil => exact ⟨hu, h, hplain⟩
  | cons e entries ih =>
    obtain ⟨⟨hname, hword⟩, hothers⟩ := List.forall_mem_cons.mp hentries
    obtain ⟨name, word⟩ := e
    rw [follow, List.foldl_cons, List.foldl_cons]
    dsimp only
    by_cases empty : name.isEmpty = true
    · have other : u ≠ name := by
        rintro rfl
        exact hu.ne (by rw [String.isEmpty_iff.mp empty]; rfl)
      rw [Text.replaceSymbol, if_pos empty, if_neg other]
      exact ih hothers hu h hplain
    · have hn : IsWord name.toList := ⟨fun nil ↦ empty (by simpa using nil), hname⟩
      have replaced := h.replaceFrom hn hword hu
      rw [Text.replaceSymbol, if_neg empty]
      refine ih hothers ?_ ?_ ?_
      · split
        · exact hword
        · exact hu
      · rw [String.toList_ofList]
        simp only [String.toList_inj] at replaced
        rw [apply_ite String.toList]
        exact replaced
      · rw [String.toList_ofList]
        intro backslash
        rcases Text.mem_of_mem_replaceFrom backslash with hw | hs
        · exact absurd (hword.chars _ hw) (by decide)
        · exact hplain hs

end AliasTable

end FormulaQuiz
