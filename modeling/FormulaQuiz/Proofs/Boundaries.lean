import FormulaQuiz.Proofs.Numerals
import FormulaQuiz.Proofs.Rereading
import FormulaQuiz.Variation.Steps

/-!
# Where a word begins and ends

A formula is read in parts where an identifier stands behind a character that joins nothing: the
lexemes and the symbols of the whole are those of the part in front, and then those of the rest.
-/

namespace FormulaQuiz.Formula

open Text (isIdentifierChar isIdentifierStart isBlank trimLeft)

/-- The last character of a text, if there is one, joins nothing to what follows. -/
def Detached (p : List Char) : Prop := ∀ c ∈ p.getLast?, joins c = false

section Characters

variable {c y : Char} {p cs q : List Char}

theorem isIdentifierChar_of_isIdentifierStart (h : isIdentifierStart y = true) :
    isIdentifierChar y = true := by
  rw [isIdentifierChar, h, Bool.true_or]

theorem isDigit_of_isIdentifierStart (h : isIdentifierStart y = true) :
    Decimal.isDigit y = false := by
  by_contra hd
  rw [isIdentifierStart_of_isDigit (Bool.eq_true_of_not_eq_false hd)] at h
  exact Bool.false_ne_true h

theorem ne_of_isIdentifierStart (h : isIdentifierStart y = true) (hc : isIdentifierStart c = false) :
    y ≠ c := by
  rintro rfl
  rw [hc] at h
  exact Bool.false_ne_true h

theorem isOther_of_isIdentifierStart (h : isIdentifierStart y = true) :
    Lexeme.isOther y = false := by
  rw [Lexeme.isOther, isIdentifierChar_of_isIdentifierStart h, Bool.or_true, Bool.true_or]
  rfl

theorem isIdentifierChar_of_joins (h : joins c = false) : isIdentifierChar c = false := by
  rw [joins, Bool.or_eq_false_iff] at h
  exact h.1

theorem joins_of_isDigit (h : Decimal.isDigit c = true) : joins c = true := by
  have hc : isIdentifierChar c = true := by
    rw [isIdentifierChar, Bool.or_eq_true]
    exact .inr h
  rw [joins, hc, Bool.true_or]

theorem Detached.of_suffix (h : Detached p) (hcs : cs <:+ p) : Detached cs := by
  obtain ⟨front, rfl⟩ := hcs
  cases cs with
  | nil => exact nofun
  | cons c cs =>
    rw [Detached, List.getLast?_append_of_ne_nil _ (List.cons_ne_nil c cs)] at h
    exact h

/-- In a detached text some character ends an identifier. -/
theorem Detached.exists_mem (h : Detached p) (hne : p ≠ []) : ∃ d ∈ p, joins d = false :=
  ⟨p.getLast hne, List.getLast_mem hne, h _ (List.getLast?_eq_getLast_of_ne_nil hne)⟩

theorem Detached.exists_mem_tail (h : Detached (c :: cs)) (hc : joins c = true) :
    ∃ d ∈ cs, joins d = false := by
  obtain ⟨d, hd, hdj⟩ := h.exists_mem (List.cons_ne_nil c cs)
  rcases List.mem_cons.mp hd with rfl | hd
  · rw [hc] at hdj
    exact absurd hdj.symm Bool.false_ne_true
  · exact ⟨d, hd, hdj⟩

/-- What is taken from the front of a text stays in it, if it ends there or at what follows. -/
theorem takeWhile_append_of_ends {f : Char → Bool}
    (h : (∀ d ∈ cs, f d = true) → ∀ d ∈ q.head?, f d = false) :
    (cs ++ q).takeWhile f = cs.takeWhile f ∧ (cs ++ q).dropWhile f = cs.dropWhile f ++ q := by
  induction cs with
  | nil =>
    cases q with
    | nil => exact ⟨rfl, rfl⟩
    | cons d q =>
      have hd : f d = false := h nofun d rfl
      rw [List.nil_append, List.takeWhile_cons, List.dropWhile_cons, hd]
      exact ⟨rfl, rfl⟩
  | cons d cs ih =>
    rw [List.cons_append, List.takeWhile_cons, List.takeWhile_cons, List.dropWhile_cons,
      List.dropWhile_cons]
    cases hd : f d with
    | false => exact ⟨rfl, rfl⟩
    | true =>
      obtain ⟨htake, hdrop⟩ := ih fun hcs ↦ h (List.forall_mem_cons.mpr ⟨hd, hcs⟩)
      exact ⟨congrArg (d :: ·) htake, hdrop⟩

theorem drop_length_takeWhile (f : Char → Bool) (cs : List Char) :
    cs.drop (cs.takeWhile f).length = cs.dropWhile f := by
  have hleft : ∀ a b : List Char, a ++ b = cs → cs.drop a.length = b := by
    rintro a b rfl
    exact List.drop_left
  exact hleft _ _ List.takeWhile_append_dropWhile

/-- An identifier that begins in a detached text ends in it. -/
theorem takeWhile_isIdentifierChar (h : Detached (c :: cs)) (hc : isIdentifierStart c = true) :
    (cs ++ q).takeWhile isIdentifierChar = cs.takeWhile isIdentifierChar ∧
      (cs ++ q).dropWhile isIdentifierChar = cs.dropWhile isIdentifierChar ++ q := by
  have hjoins : joins c = true := by rw [joins, isIdentifierChar_of_isIdentifierStart hc, Bool.true_or]
  obtain ⟨d, hd, hdj⟩ := h.exists_mem_tail hjoins
  refine takeWhile_append_of_ends fun hall ↦ ?_
  have hchar := hall d hd
  rw [isIdentifierChar_of_joins hdj] at hchar
  exact absurd hchar Bool.false_ne_true

end Characters

/-! ## Lexemes -/

section Lexemes

variable {c y : Char} {p cs q : List Char}

theorem splitDigits_append_start (hy : isIdentifierStart y = true) :
    Decimal.splitDigits (p ++ y :: q) =
      ((Decimal.splitDigits p).1, (Decimal.splitDigits p).2 ++ y :: q) := by
  obtain ⟨htake, hdrop⟩ := @takeWhile_append_of_ends p (y :: q) Decimal.isDigit
    fun _ d hd ↦ by
      obtain rfl := Option.some.inj hd
      exact isDigit_of_isIdentifierStart hy
  rw [Decimal.splitDigits, htake, hdrop, Decimal.splitDigits]

theorem splitFraction_append (hy : isIdentifierStart y = true) :
    Decimal.splitFraction (p ++ y :: q) =
      ((Decimal.splitFraction p).1, (Decimal.splitFraction p).2 ++ y :: q) := by
  cases p with
  | nil =>
    have hne := ne_of_isIdentifierStart (c := '.') hy (by decide)
    rw [List.nil_append, Decimal.splitFraction.eq_def]
    split
    next heq => exact absurd (List.cons.inj heq).1 hne
    next => rfl
  | cons c p =>
    by_cases hc : c = '.'
    · subst hc
      rw [List.cons_append, Decimal.splitFraction, splitDigits_append_start hy, Decimal.splitFraction]
    · have hsplit : ∀ cs, Decimal.splitFraction (c :: cs) = ([], c :: cs) := by
        intro cs
        rw [Decimal.splitFraction.eq_def]
        split
        next heq => exact absurd (List.cons.inj heq).1 hc
        next => rfl
      rw [List.cons_append, hsplit, hsplit, List.cons_append]

theorem splitExponent_append (hy : isIdentifierStart y = true) (h : Detached p) (hne : p ≠ []) :
    Decimal.splitExponent (p ++ y :: q) =
      ((Decimal.splitExponent p).1, (Decimal.splitExponent p).2 ++ y :: q) := by
  obtain ⟨c, p, rfl⟩ := List.exists_cons_of_ne_nil hne
  rw [List.cons_append, Decimal.splitExponent, Decimal.splitExponent]
  by_cases hc : c = 'e' ∨ c = 'E'
  · rw [if_pos hc, if_pos hc]
    have hjoins : joins c = true := by rcases hc with rfl | rfl <;> decide
    obtain ⟨d, p, rfl⟩ : ∃ d p', p = d :: p' := by
      obtain ⟨d, hd, -⟩ := h.exists_mem_tail hjoins
      exact List.exists_cons_of_ne_nil (List.ne_nil_of_mem hd)
    have hsign : Decimal.splitSign (d :: (p ++ y :: q)) =
        ((Decimal.splitSign (d :: p)).1, (Decimal.splitSign (d :: p)).2 ++ y :: q) := by
      rw [Decimal.splitSign, Decimal.splitSign]
      split <;> rfl
    rw [List.cons_append, hsign]
    dsimp only
    rw [splitDigits_append_start hy]
    dsimp only
    split <;> rfl
  · rw [if_neg hc, if_neg hc, List.cons_append]

/-- The digits, the point and the digits in front of a detached text leave something of it. -/
theorem splitFraction_ne_nil (h : Detached p) (hne : p ≠ []) :
    (Decimal.splitFraction (Decimal.splitDigits p).2).2 ≠ [] ∧
      Detached (Decimal.splitFraction (Decimal.splitDigits p).2).2 := by
  have hdigits : ∀ cs : List Char, Detached cs → cs ≠ [] → (Decimal.splitDigits cs).2 ≠ [] ∧
      Detached (Decimal.splitDigits cs).2 := by
    intro cs hcs hcne
    refine ⟨fun hnil ↦ ?_, hcs.of_suffix (List.dropWhile_suffix _)⟩
    obtain ⟨d, hd, hdj⟩ := hcs.exists_mem hcne
    rw [joins_of_isDigit (List.dropWhile_eq_nil_iff.mp hnil d hd)] at hdj
    exact Bool.false_ne_true hdj.symm
  obtain ⟨hwhole, hdetached⟩ := hdigits p h hne
  obtain ⟨c, rest, hrest⟩ := List.exists_cons_of_ne_nil hwhole
  rw [hrest] at hdetached ⊢
  rw [Decimal.splitFraction.eq_def]
  split
  next cs heq =>
    obtain ⟨rfl, rfl⟩ := List.cons.inj heq
    obtain ⟨d, hd, -⟩ := hdetached.exists_mem_tail (by decide)
    exact hdigits _ (hdetached.of_suffix (List.suffix_cons _ _)) (List.ne_nil_of_mem hd)
  next => exact ⟨List.cons_ne_nil _ _, hdetached⟩

theorem splitNumeral_prefix (p : List Char) : (Decimal.splitNumeral p).1 <+: p :=
  ⟨_, (Decimal.splitsLongest_splitNumeral p).append⟩

/-- A numeral that begins in a detached text ends in it. -/
theorem splitNumeral_append (hy : isIdentifierStart y = true) (h : Detached p) (hne : p ≠ []) :
    (Decimal.splitNumeral (p ++ y :: q)).1 = (Decimal.splitNumeral p).1 := by
  obtain ⟨hrest, hdetached⟩ := splitFraction_ne_nil h hne
  rw [Decimal.splitNumeral, splitDigits_append_start hy]
  dsimp only
  rw [splitFraction_append hy]
  dsimp only
  rw [splitExponent_append hy hdetached hrest]
  rfl

/-- A lexeme that begins in a detached text ends in it. -/
theorem read_append (hy : isIdentifierStart y = true) (h : Detached (c :: cs)) :
    Lexeme.read c (cs ++ y :: q) = Lexeme.read c cs := by
  have hhead : (cs ++ y :: q).head?.any Decimal.isDigit = cs.head?.any Decimal.isDigit := by
    cases cs with
    | nil => exact isDigit_of_isIdentifierStart hy
    | cons d cs => rfl
  have hstar : ((cs ++ y :: q).head? = some '*') ↔ cs.head? = some '*' := by
    cases cs with
    | nil =>
      refine ⟨fun heq ↦ ?_, nofun⟩
      exact absurd (Option.some.inj heq) (ne_of_isIdentifierStart hy (by decide))
    | cons d cs => exact Iff.rfl
  have hother : (cs ++ y :: q).takeWhile Lexeme.isOther = cs.takeWhile Lexeme.isOther :=
    (takeWhile_append_of_ends fun _ d hd ↦ by
      obtain rfl := Option.some.inj hd
      exact isOther_of_isIdentifierStart hy).1
  unfold Lexeme.read
  by_cases hstart : isIdentifierStart c = true
  · rw [if_pos hstart, if_pos hstart, (takeWhile_isIdentifierChar h hstart).1]
  · rw [if_neg hstart, if_neg hstart, hhead]
    split
    · rw [← List.cons_append, splitNumeral_append hy h (List.cons_ne_nil c cs)]
    · simp only [hstar, hother]

/-- A lexeme stands as it is spelled. -/
theorem spelling_of_read (c : Char) (cs : List Char) :
    (Lexeme.read c cs).spelling <+: c :: cs := by
  have hsingle : [c] <+: c :: cs := ⟨cs, rfl⟩
  unfold Lexeme.read
  split
  · rw [Lexeme.spelling, String.toList_ofList, List.cons_prefix_cons]
    exact ⟨rfl, List.takeWhile_prefix _⟩
  · split
    · rw [Lexeme.spelling, String.toList_ofList]
      exact splitNumeral_prefix _
    · split
      case h_2 =>
        split
        next hstar =>
          obtain ⟨cs, rfl⟩ : ∃ rest, cs = '*' :: rest := by
            cases cs with
            | nil => exact nomatch hstar
            | cons d cs => exact ⟨cs, by rw [Option.some.inj hstar]⟩
          exact ⟨cs, rfl⟩
        next => exact hsingle
      case h_10 =>
        rw [Lexeme.spelling, String.toList_ofList, List.cons_prefix_cons]
        exact ⟨rfl, List.takeWhile_prefix _⟩
      all_goals exact hsingle

theorem lexemesFrom_eq_drop (skip : ℕ) (cs : List Char) :
    lexemesFrom skip cs = lexemesFrom 0 (cs.drop skip) := by
  induction skip generalizing cs with
  | zero => rfl
  | succ skip ih =>
    cases cs with
    | nil => rfl
    | cons c cs =>
      rw [lexemesFrom, List.drop_succ_cons]
      exact ih cs

/-- The lexemes of a detached text come before those of what follows. -/
theorem lexemesFrom_append (hy : isIdentifierStart y = true) (h : Detached p) :
    lexemesFrom 0 (p ++ y :: q) = lexemesFrom 0 p ++ lexemesFrom 0 (y :: q) := by
  induction hlength : p.length using Nat.strong_induction_on generalizing p with
  | _ n ih =>
    cases p with
    | nil => rfl
    | cons c cs =>
      rw [List.length_cons] at hlength
      rw [List.cons_append]
      conv => lhs; rw [lexemesFrom]
      conv => rhs; rw [lexemesFrom]
      by_cases hblank : isBlank c = true
      · rw [if_pos hblank, if_pos hblank]
        exact ih cs.length (by omega) (h.of_suffix (List.suffix_cons c cs)) rfl
      · rw [if_neg hblank, if_neg hblank, read_append hy h]
        dsimp only
        have hle := (spelling_of_read c cs).length_le
        set skip := (Lexeme.read c cs).spelling.length - 1 with hskip
        rw [List.length_cons] at hle
        rw [lexemesFrom_eq_drop, lexemesFrom_eq_drop skip cs, List.drop_append_of_le_length (by omega)]
        refine congrArg (Lexeme.read c cs :: ·) (ih (cs.drop skip).length ?_ ?_ rfl)
        · rw [List.length_drop]
          omega
        · exact h.of_suffix ((List.drop_suffix _ _).trans (List.suffix_cons c cs))

/-- Reading goes on behind the lexeme that is read. -/
theorem lexemesFrom_of_read {l : Lexeme} (hblank : isBlank c = false)
    (hread : Lexeme.read c (p ++ q) = l) (hspelling : l.spelling = c :: p) :
    lexemesFrom 0 (c :: p ++ q) = l :: lexemesFrom 0 q := by
  rw [List.cons_append, lexemesFrom, hblank, if_neg Bool.false_ne_true, hread]
  dsimp only
  rw [hspelling, lexemesFrom_eq_drop, List.length_cons, Nat.add_sub_cancel, List.drop_left]

/-- A word is read up to where no identifier character follows. -/
theorem lexemesFrom_word (hy : isIdentifierStart y = true) (hp : ∀ d ∈ p, isIdentifierChar d = true)
    (hq : ∀ d ∈ q.head?, isIdentifierChar d = false) :
    lexemesFrom 0 (y :: p ++ q) = .word (String.ofList (y :: p)) :: lexemesFrom 0 q := by
  have htake : (p ++ q).takeWhile isIdentifierChar = p := by
    rw [(takeWhile_append_of_ends fun _ ↦ hq).1]
    exact List.takeWhile_eq_self_iff.mpr hp
  have hblank := (begins_of_isIdentifierStart hy).blank
  have hread : Lexeme.read y (p ++ q) = .word (String.ofList (y :: p)) := by
    unfold Lexeme.read
    rw [if_pos hy, htake]
  exact lexemesFrom_of_read hblank hread String.toList_ofList

end Lexemes

/-! ## Symbols -/

section Symbols

variable {c y : Char} {p cs q : List Char} {before : Option Char}

/-- Only whether the character to the left joins makes a difference. -/
theorem symbolsFrom_congr {before' : Option Char} (h : before.any joins = before'.any joins) :
    symbolsFrom 0 before cs = symbolsFrom 0 before' cs := by
  cases cs with
  | nil => rfl
  | cons c cs =>
    rw [symbolsFrom, symbolsFrom]
    simp only [h]

/-- The character to the left of a text, after passing over some of it. -/
def lastOf (before : Option Char) (p : List Char) : Option Char := p.getLast?.or before

theorem lastOf_cons (c : Char) (p : List Char) : lastOf before (c :: p) = lastOf (some c) p := by
  cases p with
  | nil => rfl
  | cons d p =>
    rw [lastOf, lastOf, List.getLast?_cons_cons,
      List.getLast?_eq_some_getLast (List.cons_ne_nil d p), Option.some_or, Option.some_or]

theorem lastOf_append (p q : List Char) : lastOf before (p ++ q) = lastOf (lastOf before p) q := by
  rw [lastOf, lastOf, lastOf, List.getLast?_append, Option.or_assoc]

theorem symbolsFrom_length (p cs : List Char) :
    symbolsFrom p.length before (p ++ cs) = symbolsFrom 0 (lastOf before p) cs := by
  induction p generalizing before with
  | nil => rfl
  | cons c p ih => rw [List.length_cons, List.cons_append, symbolsFrom, ih, lastOf_cons]

/-- Whether a parenthesis opens after some blanks. -/
def isCalledBy (cs : List Char) : Bool := (trimLeft cs).head? == some '('

theorem isCalledBy_append (hy : isIdentifierStart y = true) :
    isCalledBy (cs ++ y :: q) = isCalledBy cs := by
  have hblank := (begins_of_isIdentifierStart hy).blank
  have htrim : trimLeft (cs ++ y :: q) = trimLeft cs ++ y :: q :=
    (takeWhile_append_of_ends fun _ d hd ↦ by
      obtain rfl := Option.some.inj hd
      exact hblank).2
  rw [isCalledBy, isCalledBy, htrim]
  cases trimLeft cs with
  | nil =>
    rw [List.nil_append, List.head?_cons]
    exact beq_eq_false_iff_ne.mpr fun heq ↦
      ne_of_isIdentifierStart hy (by decide) (Option.some.inj heq)
  | cons d ds => rfl

/-- An identifier in front of a text, and what follows it. -/
theorem symbolsFrom_start (hc : isIdentifierStart c = true) :
    symbolsFrom 0 before (c :: cs) =
      (if before.any joins then []
        else [⟨String.ofList (c :: cs.takeWhile isIdentifierChar),
          isCalledBy (cs.dropWhile isIdentifierChar)⟩]) ++
        symbolsFrom 0 (lastOf (some c) (cs.takeWhile isIdentifierChar))
          (cs.dropWhile isIdentifierChar) := by
  have hsplit : cs.takeWhile isIdentifierChar ++ cs.dropWhile isIdentifierChar = cs :=
    List.takeWhile_append_dropWhile
  have hlater := @symbolsFrom_length (some c) (cs.takeWhile isIdentifierChar)
    (cs.dropWhile isIdentifierChar)
  rw [hsplit] at hlater
  rw [symbolsFrom, if_pos hc]
  dsimp only
  rw [hlater, drop_length_takeWhile]
  split <;> rfl

/-- The symbols of a detached text come before those of what follows. -/
theorem symbolsFrom_append (hy : isIdentifierStart y = true)
    (h : (lastOf before p).any joins = false) :
    symbolsFrom 0 before (p ++ y :: q) = symbolsFrom 0 before p ++ symbolsFrom 0 none (y :: q) := by
  induction hlength : p.length using Nat.strong_induction_on generalizing p before with
  | _ n ih =>
    cases p with
    | nil => exact symbolsFrom_congr h
    | cons c cs =>
      rw [List.length_cons] at hlength
      rw [lastOf_cons] at h
      rw [List.cons_append]
      by_cases hc : isIdentifierStart c = true
      · have hdetached : Detached (c :: cs) := by
          intro d hd
          have hlast : lastOf (some c) cs = some d := by
            rw [← @lastOf_cons none, lastOf, hd]
            rfl
          rw [hlast] at h
          exact h
        obtain ⟨htake, hdrop⟩ := takeWhile_isIdentifierChar (q := y :: q) hdetached hc
        have hsplit : cs.takeWhile isIdentifierChar ++ cs.dropWhile isIdentifierChar = cs :=
          List.takeWhile_append_dropWhile
        have hrest : (lastOf (lastOf (some c) (cs.takeWhile isIdentifierChar))
            (cs.dropWhile isIdentifierChar)).any joins = false := by
          rw [← lastOf_append, hsplit]
          exact h
        have hle := (List.dropWhile_suffix (l := cs) isIdentifierChar).length_le
        rw [symbolsFrom_start hc, symbolsFrom_start hc, htake, hdrop, isCalledBy_append hy,
          ih _ (by omega) hrest rfl, List.append_assoc]
      · rw [symbolsFrom, if_neg hc, symbolsFrom, if_neg hc]
        exact ih cs.length (by omega) h rfl

/-- A word is a symbol, if nothing joins it on either side. -/
theorem symbolsFrom_word (hy : isIdentifierStart y = true)
    (hp : ∀ d ∈ p, isIdentifierChar d = true) (hq : ∀ d ∈ q.head?, isIdentifierChar d = false) :
    symbolsFrom 0 none (y :: p ++ q) =
      ⟨String.ofList (y :: p), isCalledBy q⟩ :: symbolsFrom 0 none q := by
  obtain ⟨htake, hdrop⟩ := @takeWhile_append_of_ends p q isIdentifierChar fun _ ↦ hq
  rw [List.takeWhile_eq_self_iff.mpr hp] at htake
  rw [List.dropWhile_eq_nil_iff.mpr hp, List.nil_append] at hdrop
  rw [List.cons_append, symbolsFrom_start hy, htake, hdrop]
  refine congrArg (Symbol.mk (String.ofList (y :: p)) (isCalledBy q) :: ·) ?_
  cases q with
  | nil => rfl
  | cons d q =>
    have hd : ¬isIdentifierStart d = true := fun hd ↦ by
      have hd' : isIdentifierChar d = false := hq d rfl
      rw [isIdentifierChar_of_isIdentifierStart hd] at hd'
      exact Bool.false_ne_true hd'.symm
    rw [symbolsFrom, if_neg hd, symbolsFrom, if_neg hd]
    rfl

end Symbols

end FormulaQuiz.Formula
