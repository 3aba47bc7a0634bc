import FormulaQuiz.Proofs.Limits
import FormulaQuiz.Proofs.Numerals
import FormulaQuiz.Proofs.Scanning

/-!
# Numerals of a formula

The longest numeral is read where one may begin, and it is written for evaluation as a float
literal.  A literal is read again as one numeral of the same value, whatever is written beside it, if
a float can hold that value.  A numeral that is too great is written `inf.0` instead, which is no
numeral but a word and another numeral.
-/

namespace FormulaQuiz.Formula

open Decimal
open Text (isIdentifierChar)

section Lexemes

variable {c e : Char} {cs q : List Char}

/-- Where a numeral may begin one is read, and reading goes on behind it. -/
theorem lexemesFrom_numeral (h : StartsNumeral c cs) :
    lexemesFrom 0 (c :: cs) = .numeral (String.ofList (splitNumeral (c :: cs)).1) ::
      lexemesFrom 0 (splitNumeral (c :: cs)).2 := by
  have hblank : Text.isBlank c = false := by
    rcases h with hc | ⟨rfl, -⟩
    · exact (begins_of_isDigit hc).blank
    · decide
  have hstart : Text.isIdentifierStart c = false := by
    rcases h with hc | ⟨rfl, -⟩
    · exact isIdentifierStart_of_isDigit hc
    · decide
  have hstarts : (isDigit c || c == '.' && cs.head?.any isDigit) = true := by
    rw [Bool.or_eq_true, Bool.and_eq_true, beq_iff_eq]
    exact h
  have hne : (splitNumeral (c :: cs)).1 ≠ [] := splitNumeral_ne_nil (h.imp_right And.left)
  obtain ⟨d, p, hp⟩ := List.exists_cons_of_ne_nil hne
  have happend := h.splitsLongest.append
  rw [hp, List.cons_append] at happend
  obtain ⟨rfl, hcs⟩ := List.cons.inj happend
  have hread : Lexeme.read d (p ++ (splitNumeral (d :: cs)).2) =
      .numeral (String.ofList (d :: p)) := by
    unfold Lexeme.read
    rw [hcs, hstart, if_neg Bool.false_ne_true, if_pos hstarts, hp]
  have hlexemes := lexemesFrom_of_read hblank hread String.toList_ofList
  rw [List.cons_append, hcs] at hlexemes
  rw [hp]
  exact hlexemes

/-- A letter that begins no exponent begins a word. -/
theorem lexemesFrom_letter (he : IsExponentLetter e) :
    lexemesFrom 0 (e :: q) = .word (String.ofList (e :: q.takeWhile isIdentifierChar)) ::
      lexemesFrom 0 (q.dropWhile isIdentifierChar) := by
  have hstart : Text.isIdentifierStart e = true := by rcases he with rfl | rfl <;> decide
  have hhead : ∀ d ∈ (q.dropWhile isIdentifierChar).head?, isIdentifierChar d = false := by
    intro d hd
    have hnot := List.head?_dropWhile_not isIdentifierChar q
    rw [Option.mem_def.mp hd] at hnot
    exact hnot
  have hword := lexemesFrom_word (p := q.takeWhile isIdentifierChar) hstart
    (fun _ ↦ List.mem_takeWhile_imp) hhead
  rw [List.cons_append, List.takeWhile_append_dropWhile] at hword
  exact hword

/-- Where a numeral may begin the longest one is read.  A letter behind a numeral that begins no
exponent is left to the word that is read next. -/
theorem reads_longest_numeral (h : StartsNumeral c cs) :
    SplitsLongest IsNumeral (c :: cs) (splitNumeral (c :: cs)) ∧
      lexemesFrom 0 (c :: cs) = .numeral (String.ofList (splitNumeral (c :: cs)).1) ::
        lexemesFrom 0 (splitNumeral (c :: cs)).2 ∧
      ∀ p e q, c :: cs = p ++ e :: q → IsNumeral p → IsExponentLetter e →
        (∀ x, IsExponent x → ¬x <+: e :: q) →
          splitNumeral (c :: cs) = (p, e :: q) ∧
            lexemesFrom 0 (e :: q) =
              .word (String.ofList (e :: q.takeWhile isIdentifierChar)) ::
                lexemesFrom 0 (q.dropWhile isIdentifierChar) := by
  refine ⟨h.splitsLongest, lexemesFrom_numeral h, fun p e q hcs hp he hnot ↦ ?_⟩
  rw [hcs]
  exact ⟨splitNumeral_of_not_isExponent hp he hnot, lexemesFrom_letter he⟩

/-- In `2.5e+x` the letter is given back together with the sign behind it. -/
theorem reads_longest_numeral_before_letter :
    StartsNumeral '2' ['.', '5', 'e', '+', 'x'] ∧
      SplitsLongest IsNumeral ['2', '.', '5', 'e', '+', 'x'] (['2', '.', '5'], ['e', '+', 'x']) ∧
      lexemesFrom 0 ['2', '.', '5', 'e', '+', 'x'] =
        [.numeral "2.5", .word "e", .sign false, .word "x"] := by
  have hstarts : StartsNumeral '2' ['.', '5', 'e', '+', 'x'] := .inl (by decide)
  have hmantissa : IsNumeral (['2'] ++ '.' :: ['5']) :=
    .plain (.pointed ⟨by decide, List.forall_mem_singleton.mpr (by decide)⟩
      (List.forall_mem_singleton.mpr (by decide)))
  have hnot : ∀ x, IsExponent x → ¬x <+: ['e', '+', 'x'] := by
    intro x hx hprefix
    have hnil : x <+: [] :=
      (splitsLongest_splitExponent ['e', '+', 'x']).longest x (.inr hx) hprefix
    rw [List.prefix_nil] at hnil
    subst hnil
    exact nomatch hx
  obtain ⟨hlongest, hread, hletter⟩ := reads_longest_numeral hstarts
  obtain ⟨hsplit, hword⟩ := hletter _ 'e' ['+', 'x'] rfl hmantissa (.inl rfl) hnot
  rw [hsplit] at hlongest hread
  refine ⟨hstarts, hlongest, hread.trans ?_⟩
  rw [hword]
  rfl

end Lexemes

/-! ## Lexemes that are read again -/

/-- What a lexeme is read as, when it is written for evaluation. -/
def Lexeme.rescanned : Lexeme → List Lexeme
  | .numeral text =>
    if (numeralValue text.toList).isFinite then
      [.numeral (String.ofList (floatLiteral (numeralValue text.toList)))]
    else [.word "inf", .numeral ".0"]
  | .power _ => [.power true]
  | l => [l]

section Rescanned

variable {rest : List Char} {l : Lexeme} {ls : List Lexeme} {text : String}

theorem lexemesFrom_blank (rest : List Char) : lexemesFrom 0 (' ' :: rest) = lexemesFrom 0 rest := by
  rw [lexemesFrom, if_pos (by decide)]

theorem Separates.ends {f : Char → Bool} (hrest : Separates rest) (hf : f ' ' = false) :
    ∀ d ∈ rest.head?, f d = false := by
  intro d hd
  rw [hrest d hd]
  exact hf

/-- A literal of a number is one numeral. -/
theorem lexemesFrom_literal (h : (numeralValue text.toList).isFinite = true)
    (hrest : Separates rest) :
    lexemesFrom 0 (Lexeme.floatLiteral (numeralValue text.toList) ++ rest) =
      .numeral (String.ofList (Lexeme.floatLiteral (numeralValue text.toList))) ::
        lexemesFrom 0 rest := by
  obtain ⟨whole, fraction, hpoint, -⟩ := exists_hasPoint_of_isFinite h
  generalize Lexeme.floatLiteral (numeralValue text.toList) = literal at *
  have hsplit := hpoint.splitNumeral_of_separates hrest
  obtain ⟨c, whole, rfl⟩ := List.exists_cons_of_ne_nil hpoint.ne
  have hstarts : StartsNumeral c (whole ++ '.' :: fraction ++ rest) :=
    .inl (hpoint.whole c List.mem_cons_self)
  rw [hpoint.eq] at hsplit ⊢
  rw [List.cons_append, List.cons_append] at hsplit ⊢
  rw [lexemesFrom_numeral hstarts, hsplit]

/-- A numeral that no float can hold is written as a word, and a numeral that begins with a point. -/
theorem lexemesFrom_overflow (h : (numeralValue text.toList).isFinite = false)
    (hrest : Separates rest) :
    lexemesFrom 0 (Lexeme.floatLiteral (numeralValue text.toList) ++ rest) =
      .word "inf" :: .numeral ".0" :: lexemesFrom 0 rest := by
  have hchars : ∀ d ∈ ['n', 'f'], isIdentifierChar d = true :=
    List.forall_mem_cons.mpr ⟨by decide, List.forall_mem_singleton.mpr (by decide)⟩
  have hword := @lexemesFrom_word 'i' ['n', 'f'] ('.' :: '0' :: rest) (by decide) hchars
    (by rintro d ⟨⟩; decide)
  have hstarts : StartsNumeral '.' ('0' :: rest) := .inr ⟨rfl, rfl⟩
  have hsplit : splitNumeral ('.' :: '0' :: rest) = (['.', '0'], rest) := by
    cases rest with
    | nil => rfl
    | cons d rest =>
      obtain rfl := hrest d rfl
      rfl
  rw [floatLiteral_of_isFinite h]
  refine hword.trans ?_
  rw [lexemesFrom_numeral hstarts, hsplit]

/-- What belongs to no other class is read up to what separates it. -/
theorem read_other {c : Char} {cs : List Char} (hc : c = '.' ∨ Lexeme.isOther c = true)
    (hcs : ∀ d ∈ cs, Lexeme.isOther d = true) (hrest : Separates rest) :
    Lexeme.read c (cs ++ rest) = .other (String.ofList (c :: cs)) := by
  have htake : (cs ++ rest).takeWhile Lexeme.isOther = cs := by
    rw [(takeWhile_append_of_ends fun _ ↦ hrest.ends (by decide)).1]
    exact List.takeWhile_eq_self_iff.mpr hcs
  have hdigit : (cs ++ rest).head?.any isDigit = false := by
    cases cs with
    | nil =>
      cases rest with
      | nil => rfl
      | cons d rest => exact hrest.ends (f := isDigit) (by decide) d rfl
    | cons d cs =>
      exact (Bool.or_eq_false_iff.mp (isIdentifierChar_of_isOther (hcs d List.mem_cons_self))).2
  unfold Lexeme.read
  rcases hc with rfl | hc
  · rw [if_neg (by decide), hdigit, if_neg (by decide)]
    change Lexeme.other (String.ofList ('.' :: (cs ++ rest).takeWhile Lexeme.isOther)) = _
    rw [htake]
  · obtain ⟨hstart, hnot⟩ : Text.isIdentifierStart c = false ∧ isDigit c = false :=
      Bool.or_eq_false_iff.mp (isIdentifierChar_of_isOther hc)
    rw [hstart, if_neg Bool.false_ne_true, hdigit, hnot, Bool.and_false, Bool.or_false,
      if_neg Bool.false_ne_true]
    split
    case h_10 => rw [htake]
    all_goals exact absurd hc (by decide)

theorem lexemesFrom_other (hl : (Lexeme.other text).IsScanned) (hrest : Separates rest) :
    lexemesFrom 0 (text.toList ++ rest) = .other text :: lexemesFrom 0 rest := by
  obtain ⟨c, cs, htext, hc, hcs⟩ := hl
  have hblank : Text.isBlank c = false := by
    rcases hc with rfl | hc
    · decide
    · exact isBlank_of_isOther hc
  have hread := read_other hc hcs hrest
  rw [← htext, String.ofList_toList] at hread
  rw [htext]
  exact lexemesFrom_of_read hblank hread htext

/-- A lexeme is read again in front of what separates it. -/
theorem lexemesFrom_render (hl : l.IsScanned) (hrest : Separates rest) :
    lexemesFrom 0 (l.render ++ rest) = l.rescanned ++ lexemesFrom 0 rest := by
  cases l with
  | numeral text =>
    change lexemesFrom 0 (Lexeme.floatLiteral (numeralValue text.toList) ++ rest) = _
    rw [Lexeme.rescanned]
    split
    next h => exact lexemesFrom_literal h hrest
    next h => exact lexemesFrom_overflow (Bool.eq_false_iff.mpr h) hrest
  | word text =>
    obtain ⟨c, cs, htext, hc, hcs⟩ := hl
    have hword := lexemesFrom_word hc hcs (hrest.ends (by decide))
    rw [← htext, String.ofList_toList] at hword
    exact hword
  | other text => exact lexemesFrom_other hl hrest
  | power stars => rfl
  | sign minus => cases minus <;> rfl
  | operator symbol =>
    obtain ⟨op, hop⟩ := Option.isSome_iff_exists.mp hl
    unfold productOperator? at hop
    split at hop
    · cases rest with
      | nil => rfl
      | cons d rest =>
        obtain rfl := hrest d rfl
        rfl
    · rfl
    · rfl
    · exact nomatch hop
  | opening | closing | comma => rfl

/-- Lexemes that are written with spaces between them are read again one by one. -/
theorem lexemesFrom_spaced (hls : ∀ l ∈ ls, l.IsScanned) :
    lexemesFrom 0 (spaced ls) = ls.flatMap Lexeme.rescanned := by
  induction ls with
  | nil => rfl
  | cons l ls ih =>
    obtain ⟨hl, hls⟩ := List.forall_mem_cons.mp hls
    rw [spaced_cons, lexemesFrom_blank, lexemesFrom_render hl (separates_spaced ls), ih hls,
      List.flatMap_cons]

end Rescanned

/-- The lexemes of a formula as it is evaluated are those of its parts. -/
theorem lexemes_evaluationText (source : String) :
    lexemes (evaluationText source) = (grouped (lexemes source)).flatMap Lexeme.rescanned := by
  have hscanned : ∀ l ∈ grouped (lexemes source), l.IsScanned := fun _ ↦ isScanned_of_mem_grouped
  rw [lexemes, evaluationText, String.toList_ofList, ← lexemesFrom_spaced hscanned]
  cases grouped (lexemes source) with
  | nil => rfl
  | cons l ls => rw [intercalate_render, spaced_cons, lexemesFrom_blank]

/-! ## Values that are kept -/

section Values

variable {literal text : String}

/-- The exact value of a numeral. -/
def numeralAmount (cs : List Char) : ℚ :=
  let (whole, afterWhole) := splitDigits cs
  let (fraction, afterFraction) := splitFraction afterWhole
  let places := fraction.drop 1
  value (whole ++ places) * 10 ^ (exponentValue afterFraction - places.length)

/-- A text is one numeral with a point, of the same value as another numeral. -/
structure Respells (literal text : String) : Prop where
  lexemes : lexemes literal = [.numeral literal]
  point : '.' ∈ literal.toList
  value : numeralValue literal.toList = numeralValue text.toList

/-- A float can hold a numeral just if its exact value lies below the limit. -/
theorem isFinite_numeralValue_iff (cs : List Char) :
    (numeralValue cs).isFinite = true ↔ numeralAmount cs < Rounding.overflow :=
  Rounding.isFinite_nearestFloat_iff

theorem respells_of_isFinite (h : (numeralValue text.toList).isFinite = true) :
    Respells (String.ofList (Lexeme.numeral text).render) text := by
  obtain ⟨whole, fraction, hpoint, hvalue⟩ := exists_hasPoint_of_isFinite h
  have hread := lexemesFrom_literal h (show Separates [] from nofun)
  rw [List.append_nil] at hread
  refine ⟨?_, ?_, ?_⟩
  · rw [Formula.lexemes, String.toList_ofList]
    exact hread
  · rw [String.toList_ofList, Lexeme.render, hpoint.eq]
    exact List.mem_append_right whole List.mem_cons_self
  · rw [String.toList_ofList]
    exact hvalue

theorem render_of_isFinite (h : (numeralValue text.toList).isFinite = false) :
    String.ofList (Lexeme.numeral text).render = "inf.0" := by
  rw [Lexeme.render, floatLiteral_of_isFinite h]
  rfl

theorem not_respells_inf (text : String) : ¬Respells "inf.0" text := fun h ↦
  absurd h.lexemes (by decide)

/-- A formula that is written for evaluation has the lexemes of its parts: no two of them are read
as one.  A numeral of it is read again as one numeral, with a point, of the same value, just if its
exact value lies below the limit of the floats, and all others are written `inf.0`. -/
theorem respells_iff (source : String) :
    lexemes (evaluationText source) = (grouped (lexemes source)).flatMap Lexeme.rescanned ∧
      ∀ text, Lexeme.numeral text ∈ lexemes source →
        let literal := String.ofList (Lexeme.numeral text).render
        (Respells literal text ∧ (Lexeme.numeral text).rescanned = [.numeral literal] ↔
          numeralAmount text.toList < Rounding.overflow) ∧
        (literal = "inf.0" ∧ (Lexeme.numeral text).rescanned = [.word "inf", .numeral ".0"] ↔
          Rounding.overflow ≤ numeralAmount text.toList) := by
  refine ⟨lexemes_evaluationText source, fun text _ ↦ ?_⟩
  dsimp only
  rw [← not_lt, ← isFinite_numeralValue_iff]
  cases h : (numeralValue text.toList).isFinite with
  | true =>
    have hkept := respells_of_isFinite h
    refine ⟨iff_of_true ⟨hkept, if_pos h⟩ rfl, iff_of_false ?_ (not_not_intro rfl)⟩
    rintro ⟨hinf, -⟩
    rw [hinf] at hkept
    exact not_respells_inf text hkept
  | false =>
    have hinf := render_of_isFinite h
    refine ⟨iff_of_false ?_ Bool.false_ne_true, iff_of_true ⟨hinf, ?_⟩ Bool.false_ne_true⟩
    · rintro ⟨hkept, -⟩
      rw [hinf] at hkept
      exact not_respells_inf text hkept
    · rw [Lexeme.rescanned, h, if_neg Bool.false_ne_true]

/-- A numeral that is too small for a float is read again as the zero that it stands for. -/
theorem respells_difference :
    lexemes ".5e3 - 1e-400" = [.numeral ".5e3", .sign true, .numeral "1e-400"] ∧
      Respells "500.0" ".5e3" ∧ Respells "0.0" "1e-400" ∧
      lexemes (evaluationText ".5e3 - 1e-400") =
        [.numeral "500.0", .sign true, .numeral "0.0"] := by
  have hlexemes : lexemes ".5e3 - 1e-400" = [.numeral ".5e3", .sign true, .numeral "1e-400"] := rfl
  have hgreat : String.ofList (Lexeme.numeral ".5e3").render = "500.0" := rfl
  have hsmall : String.ofList (Lexeme.numeral "1e-400").render = "0.0" := by decide +kernel
  obtain ⟨hread, hkept⟩ := respells_iff ".5e3 - 1e-400"
  rw [hlexemes] at hread hkept
  have hgreatKept := (hkept ".5e3" (by decide)).1.mpr
    ((isFinite_numeralValue_iff _).mp rfl)
  have hsmallKept := (hkept "1e-400" (by decide)).1.mpr
    ((isFinite_numeralValue_iff _).mp (by decide +kernel))
  rw [hgreat] at hgreatKept
  rw [hsmall] at hsmallKept
  refine ⟨hlexemes, hgreatKept.1, hsmallKept.1, hread.trans ?_⟩
  have hgrouped : grouped [.numeral ".5e3", .sign true, .numeral "1e-400"] =
      [.numeral ".5e3", .sign true, .numeral "1e-400"] := by decide +kernel
  rw [hgrouped, List.flatMap_cons, List.flatMap_cons, List.flatMap_cons, hgreatKept.2,
    hsmallKept.2]
  rfl

/-- A numeral that is too great for a float does not stay one numeral. -/
theorem not_respells_overflow :
    lexemes "1.0e400" = [.numeral "1.0e400"] ∧ evaluationText "1.0e400" = "inf.0" ∧
      lexemes (evaluationText "1.0e400") = [.word "inf", .numeral ".0"] ∧
      ¬Respells (evaluationText "1.0e400") "1.0e400" := by
  have hlexemes : lexemes "1.0e400" = [.numeral "1.0e400"] := rfl
  have htext : evaluationText "1.0e400" = "inf.0" := by decide +kernel
  rw [htext]
  exact ⟨hlexemes, rfl, rfl, not_respells_inf _⟩

end Values

end FormulaQuiz.Formula
