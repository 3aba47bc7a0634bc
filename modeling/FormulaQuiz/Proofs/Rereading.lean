import FormulaQuiz.Formula.Token
import FormulaQuiz.Proofs.Literals
import FormulaQuiz.Proofs.Regrouping

/-!
# Reading a rewritten formula again

The lexemes of a formula are written for evaluation with spaces between them, and each is read again
as one token.  So evaluation reads from the text of a formula what its authors mean by it.
-/

namespace FormulaQuiz.Formula

/-- What a token is to the grammar. -/
def Token.piece : Token → Piece
  | .number x => .number x
  | .word name => .name name
  | .sign minus => .sign minus
  | .operator .power => .power
  | .operator .multiply => .times .multiply
  | .operator .divide => .times .divide
  | .operator .modulo => .times .modulo
  | .opening => .opening
  | .closing => .closing
  | .comma => .comma
  | _ => .other

namespace Lexeme

/-- The token that is read from a lexeme as it is written for evaluation. -/
def token : Lexeme → Token
  | .numeral text => .number (Decimal.numeralValue text.toList)
  | .word text => .word text
  | .power _ => .operator .power
  | .sign minus => .sign minus
  | .operator symbol => .operator ((productOperator? symbol).getD .multiply)
  | .opening => .opening
  | .closing => .closing
  | .comma => .comma
  | .other text => .text text

/-- A lexeme that an author's formula may have: a numeral in the range of floats, an identifier, or
an operator. -/
def IsProper : Lexeme → Prop
  | .numeral text => (Decimal.numeralValue text.toList).isFinite = true
  | .word text => ∃ c cs, text.toList = c :: cs ∧ Text.isIdentifierStart c = true ∧
    ∀ d ∈ cs, Text.isIdentifierChar d = true
  | .operator symbol => (productOperator? symbol).isSome = true
  | .other _ => False
  | _ => True

theorem piece_token {a : Lexeme} (h : a.IsProper) : a.token.piece = a.piece := by
  cases a with
  | operator symbol =>
    obtain ⟨op, hop⟩ := Option.isSome_iff_exists.mp h
    rw [token, piece, hop, Option.getD_some, Option.elim_some]
    unfold productOperator? at hop
    split at hop <;> cases hop <;> rfl
  | other text => exact h.elim
  | _ => rfl

end Lexeme

/-! ## Reading one lexeme -/

/-- A text that a lexeme may stand in front of: nothing, or a space and more. -/
def Separates (rest : List Char) : Prop := ∀ c ∈ rest.head?, c = ' '

theorem HasPoint.splitNumeral_of_separates {cs whole fraction rest : List Char}
    (h : HasPoint cs whole fraction) (hrest : Separates rest) :
    Decimal.splitNumeral (cs ++ rest) = (cs, rest) :=
  h.splitNumeral fun d hd ↦ by
    rw [hrest d hd]
    decide

/-- A character begins a token, and no part of a template. -/
structure Begins (c : Char) : Prop where
  blank : Text.isBlank c = false
  template : c ≠ '\x60'
  block : c ≠ '\x7d'

/-- A text is read as a token up to where a space follows. -/
structure IsRead (c : Char) (tail : List Char) (token : Token) : Prop where
  begins : Begins c
  read : ∀ rest, Separates rest → Token.read? c (tail ++ rest) = some (token, tail.length + 1)
  blocks : Token.blocksAfter token [] = []

section Characters

variable {c : Char}

theorem begins_of_le (h : '!' ≤ c) (h' : c ≤ 'z') (hne : c ≠ '\x60') : Begins c := by
  change 33 ≤ c.toNat at h
  change c.toNat ≤ 122 at h'
  refine ⟨?_, hne, ?_⟩
  · rw [Text.isBlank, Text.blankRanges, List.any_eq_false]
    simp only [List.forall_mem_cons, Bool.and_eq_true, decide_eq_true_eq, List.not_mem_nil,
      false_imp_iff, implies_true, and_true]
    omega
  · rintro rfl
    exact absurd h' (by decide)

theorem begins_of_isIdentifierStart (h : Text.isIdentifierStart c = true) : Begins c := by
  have hne : c ≠ '\x60' := by
    rintro rfl
    exact absurd h (by decide)
  rw [Text.isIdentifierStart, Text.isLetter, Bool.or_eq_true, Bool.or_eq_true, Bool.and_eq_true,
    Bool.and_eq_true, decide_eq_true_eq, decide_eq_true_eq, decide_eq_true_eq, decide_eq_true_eq,
    beq_iff_eq] at h
  rcases h with (⟨h, h'⟩ | ⟨h, h'⟩) | rfl
  · exact begins_of_le (Char.le_trans (show '!' ≤ 'a' by decide) h) h' hne
  · exact begins_of_le (Char.le_trans (show '!' ≤ 'A' by decide) h)
      (Char.le_trans h' (show 'Z' ≤ 'z' by decide)) hne
  · exact begins_of_le (by decide) (by decide) hne

theorem begins_of_isDigit (h : Decimal.isDigit c = true) : Begins c := by
  have hne : c ≠ '\x60' := by
    rintro rfl
    exact absurd h (by decide)
  rw [Decimal.isDigit, Bool.and_eq_true, decide_eq_true_eq, decide_eq_true_eq] at h
  exact begins_of_le (Char.le_trans (show '!' ≤ '0' by decide) h.1)
    (Char.le_trans h.2 (show '9' ≤ 'z' by decide)) hne

theorem isIdentifierStart_of_isDigit (h : Decimal.isDigit c = true) :
    Text.isIdentifierStart c = false := by
  rw [Decimal.isDigit, Bool.and_eq_true, decide_eq_true_eq, decide_eq_true_eq] at h
  have h9 : c.toNat ≤ 57 := h.2
  have hne : c ≠ '_' := by
    rintro rfl
    exact absurd h9 (by decide)
  have hsmall : ¬ 'a' ≤ c := fun ha ↦ by
    change 97 ≤ c.toNat at ha
    omega
  have hlarge : ¬ 'A' ≤ c := fun ha ↦ by
    change 65 ≤ c.toNat at ha
    omega
  rw [Text.isIdentifierStart, Text.isLetter, decide_eq_false hsmall, decide_eq_false hlarge,
    beq_eq_false_iff_ne.mpr hne]
  rfl

end Characters

/-- A symbol is read if it is in front of nothing and in front of a space. -/
theorem isRead_symbol {c : Char} {tail : List Char} {token : Token} (hc : '!' ≤ c ∧ c ≤ '/')
    (hend : Token.read? c (tail ++ []) = some (token, tail.length + 1))
    (hspace : ∀ rest, Token.read? c (tail ++ ' ' :: rest) = some (token, tail.length + 1))
    (hblocks : Token.blocksAfter token [] = []) : IsRead c tail token := by
  have hne : c ≠ '\x60' := by
    rintro rfl
    exact absurd hc.2 (by decide)
  refine ⟨begins_of_le hc.1 (Char.le_trans hc.2 (show '/' ≤ 'z' by decide)) hne,
    fun rest hrest ↦ ?_, hblocks⟩
  cases rest with
  | nil => exact hend
  | cons d rest =>
    obtain rfl := hrest d rfl
    exact hspace rest

theorem isRead_word {c : Char} {cs : List Char} (hc : Text.isIdentifierStart c = true)
    (hcs : ∀ d ∈ cs, Text.isIdentifierChar d = true) :
    IsRead c cs (.word (String.ofList (c :: cs))) := by
  refine ⟨begins_of_isIdentifierStart hc, fun rest hrest ↦ ?_, rfl⟩
  have htail : (cs ++ rest).takeWhile Text.isIdentifierChar = cs := by
    rw [List.takeWhile_append_of_pos hcs]
    cases rest with
    | nil => rw [List.takeWhile_nil, List.append_nil]
    | cons d rest =>
      obtain rfl := hrest d rfl
      exact List.append_nil _
  rw [Token.read?, if_pos hc]
  simp only [htail]

theorem isRead_literal {x : Float} (hx : ∃ a, Rounding.Exactly x .positive a) :
    ∃ c tail, Lexeme.floatLiteral x = c :: tail ∧ IsRead c tail (.number x) := by
  obtain ⟨a, ha⟩ := hx
  obtain ⟨whole, fraction, hpoint, hvalue⟩ := exists_hasPoint_floatLiteral ha
  obtain ⟨c, whole, rfl⟩ := List.exists_cons_of_ne_nil hpoint.ne
  have hc := hpoint.whole c List.mem_cons_self
  refine ⟨c, whole ++ '.' :: fraction, hpoint.eq, begins_of_isDigit hc, fun rest hrest ↦ ?_, rfl⟩
  have hstart : ¬Text.isIdentifierStart c = true :=
    Bool.eq_false_iff.mp (isIdentifierStart_of_isDigit hc)
  have hsplit := hpoint.splitNumeral_of_separates hrest
  have heq : c :: (whole ++ '.' :: fraction) = Lexeme.floatLiteral x := hpoint.eq.symm
  have hmem : '.' ∈ Lexeme.floatLiteral x := by
    rw [hpoint.eq]
    exact List.mem_append_right _ List.mem_cons_self
  have hall : (Lexeme.floatLiteral x).all Decimal.isDigit = false :=
    List.all_eq_false.mpr ⟨'.', hmem, by decide⟩
  rw [Token.read?, if_neg hstart, if_pos hc, ← List.cons_append, heq, Token.numeral, hsplit]
  simp only [hall, Bool.false_and, Bool.false_eq_true, if_false, hvalue]
  rw [← heq]
  rfl

/-- A lexeme of an author's formula is read as its token. -/
theorem exists_isRead {a : Lexeme} (h : a.IsProper) :
    ∃ c tail, a.render = c :: tail ∧ IsRead c tail a.token := by
  cases a with
  | numeral text => exact isRead_literal (Rounding.exactly_nearestFloat h)
  | word text =>
    obtain ⟨c, cs, htext, hc, hcs⟩ := h
    refine ⟨c, cs, htext, ?_⟩
    rw [Lexeme.token, ← String.ofList_toList (s := text), htext]
    exact isRead_word hc hcs
  | power stars =>
    exact ⟨'*', ['*'], rfl, isRead_symbol (by decide) rfl (fun _ ↦ rfl) rfl⟩
  | sign minus =>
    cases minus with
    | false => exact ⟨'+', [], rfl, isRead_symbol (by decide) rfl (fun _ ↦ rfl) rfl⟩
    | true => exact ⟨'-', [], rfl, isRead_symbol (by decide) rfl (fun _ ↦ rfl) rfl⟩
  | operator symbol =>
    refine ⟨symbol, [], rfl, ?_⟩
    obtain ⟨op, hop⟩ := Option.isSome_iff_exists.mp h
    unfold productOperator? at hop
    split at hop
    · exact isRead_symbol (by decide) rfl (fun _ ↦ rfl) rfl
    · exact isRead_symbol (by decide) rfl (fun _ ↦ rfl) rfl
    · exact isRead_symbol (by decide) rfl (fun _ ↦ rfl) rfl
    · exact nomatch hop
  | opening => exact ⟨'(', [], rfl, isRead_symbol (by decide) rfl (fun _ ↦ rfl) rfl⟩
  | closing => exact ⟨')', [], rfl, isRead_symbol (by decide) rfl (fun _ ↦ rfl) rfl⟩
  | comma => exact ⟨',', [], rfl, isRead_symbol (by decide) rfl (fun _ ↦ rfl) rfl⟩
  | other text => exact h.elim

/-! ## Reading a whole formula -/

section Whole

variable {a : Lexeme} {ls : List Lexeme}

theorem readFrom?_append (p cs : List Char) (blocks : List ℕ) :
    Token.readFrom? p.length blocks (p ++ cs) = Token.readFrom? 0 blocks cs := by
  induction p with
  | nil => rfl
  | cons c p ih => rw [List.cons_append, List.length_cons, Token.readFrom?, ih]

/-- What is read in front is a token of its own. -/
theorem IsRead.readFrom? {c : Char} {tail rest : List Char} {token : Token} {tokens : List Token}
    (h : IsRead c tail token) (hrest : Separates rest)
    (htokens : Token.readFrom? 0 [] rest = some tokens) :
    Token.readFrom? 0 [] (c :: tail ++ rest) = some (token :: tokens) := by
  have hblock : ¬(c = '\x7d' ∧ ([] : List ℕ).head? = some 1) := fun hc ↦ h.begins.block hc.1
  rw [List.cons_append, Token.readFrom?, if_neg (Bool.eq_false_iff.mp h.begins.blank),
    if_neg h.begins.template, if_neg hblock, h.read rest hrest]
  change (Token.readFrom? tail.length (Token.blocksAfter token []) (tail ++ rest)).bind _ = _
  rw [h.blocks, readFrom?_append, htokens]
  rfl

/-- Lexemes with spaces between them are read as their tokens. -/
theorem readFrom?_intercalate (h : ∀ a ∈ ls, a.IsProper) :
    Token.readFrom? 0 [] ([' '].intercalate (ls.map Lexeme.render)) = some (ls.map Lexeme.token) := by
  induction ls with
  | nil => rfl
  | cons a ls ih =>
    obtain ⟨ha, hls⟩ := List.forall_mem_cons.mp h
    obtain ⟨c, tail, hrender, hread⟩ := exists_isRead ha
    cases ls with
    | nil =>
      have hone : Token.readFrom? 0 [] (c :: tail ++ []) = some [a.token] := hread.readFrom? nofun rfl
      rw [List.append_nil, ← hrender] at hone
      rw [List.map_singleton, List.intercalate_singleton]
      exact hone
    | cons b ls =>
      have hspace : Separates (' ' :: [' '].intercalate ((b :: ls).map Lexeme.render)) := by
        rintro d ⟨⟩
        rfl
      have hmore := hread.readFrom? hspace (ih hls)
      rw [← hrender] at hmore
      exact hmore

/-- A word that is read is an identifier. -/
theorem eq_of_read_eq_word {c : Char} {cs : List Char} {text : String}
    (h : Lexeme.read c cs = .word text) : Text.isIdentifierStart c = true ∧
      String.ofList (c :: cs.takeWhile Text.isIdentifierChar) = text := by
  unfold Lexeme.read at h
  split at h
  next hc => exact ⟨hc, Lexeme.word.inj h⟩
  next =>
    split at h
    · exact nomatch h
    · split at h
      case h_2 => split at h <;> exact nomatch h
      all_goals exact nomatch h

/-- The lexemes of a text are proper, if they are in the range of floats and belong to the grammar. -/
theorem isProper_of_mem_lexemesFrom {skip : ℕ} {cs : List Char} (h : a ∈ lexemesFrom skip cs)
    (ha : a.piece ≠ .other)
    (hfinite : ∀ text, a = .numeral text → (Decimal.numeralValue text.toList).isFinite = true) :
    a.IsProper := by
  fun_induction lexemesFrom skip cs with
  | case1 => exact absurd h List.not_mem_nil
  | case2 skip c cs ih => exact ih h
  | case3 c cs _ ih => exact ih h
  | case4 c cs _ lexeme ih =>
    rcases List.mem_cons.mp h with heq | h
    · cases a with
      | numeral text => exact hfinite text rfl
      | word text =>
        obtain ⟨hc, rfl⟩ := eq_of_read_eq_word heq.symm
        exact ⟨c, _, String.toList_ofList, hc, fun d hd ↦ List.mem_takeWhile_imp hd⟩
      | operator symbol =>
        rw [Lexeme.piece] at ha
        exact Option.isSome_iff_ne_none.mpr fun hnone ↦ ha (by rw [hnone]; rfl)
      | other text => exact ha rfl
      | _ => trivial
    · exact ih h

/-- Grouping adds only parentheses. -/
theorem mem_groupFrom {afterOperand : Bool} (h : a ∈ groupFrom afterOperand ls) :
    a ∈ ls ∨ a = .opening ∨ a = .closing := by
  fun_induction groupFrom afterOperand ls with
  | case1 => exact .inl h
  | case2 _ minus ls n _ ih ih' =>
    rcases List.mem_append.mp h with h | h
    · rcases List.mem_cons.mp h with rfl | h
      · exact .inl List.mem_cons_self
      · rcases List.mem_cons.mp h with rfl | h
        · exact .inr (.inl rfl)
        · exact (ih h).imp_left fun h ↦ List.mem_cons_of_mem _ (List.mem_of_mem_take h)
    · rcases List.mem_cons.mp h with rfl | h
      · exact .inr (.inr rfl)
      · exact (ih' h).imp_left fun h ↦ List.mem_cons_of_mem _ (List.mem_of_mem_drop h)
  | case3 _ minus ls _ ih | case4 _ l ls _ ih =>
    rcases List.mem_cons.mp h with rfl | h
    · exact .inl List.mem_cons_self
    · exact (ih h).imp_left (List.mem_cons_of_mem _)

theorem isProper_of_mem_grouped (h : ∀ a ∈ ls, a.IsProper) : ∀ a ∈ grouped ls, a.IsProper := by
  intro a ha
  rcases mem_groupFrom ha with hmem | rfl | rfl
  · exact h a hmem
  · trivial
  · trivial

end Whole

/-- Evaluation reads the lexemes of a formula, once they are grouped, as their tokens. -/
theorem ofText?_evaluationText {source : String} (h : ∀ a ∈ lexemes source, a.IsProper) :
    Token.ofText? (evaluationText source) = some ((grouped (lexemes source)).map Lexeme.token) := by
  rw [Token.ofText?, evaluationText, String.toList_ofList]
  exact readFrom?_intercalate (isProper_of_mem_grouped h)

/-- What the authors of a formula mean by it. -/
def Term.IsMeantBy (t : Term) (source : String) : Prop :=
  Derives Lexeme.piece .author (.level .sum) t (lexemes source)

/-- What evaluation reads from a text. -/
def Term.IsReadFrom (t : Term) (text : String) : Prop :=
  ∃ tokens, Token.ofText? text = some tokens ∧
    Derives Token.piece .evaluation (.level .sum) t tokens

/-- The numerals of a formula are in the range of floats. -/
def HasFiniteNumerals (source : String) : Prop :=
  ∀ text, .numeral text ∈ lexemes source → (Decimal.numeralValue text.toList).isFinite = true

/-- Evaluation reads from the text that a formula is rewritten to the one term that authors mean. -/
theorem Term.isReadFrom_evaluationText {source : String} {t : Term} (h : t.IsMeantBy source)
    (hfinite : HasFiniteNumerals source) (t' : Term) :
    (t'.IsReadFrom (evaluationText source) ↔ t' = t) ∧ (t'.IsMeantBy source ↔ t' = t) := by
  have hproper : ∀ a ∈ lexemes source, a.IsProper := fun a ha ↦
    isProper_of_mem_lexemesFrom ha (h.ne_other a ha) (by rintro text rfl; exact hfinite text ha)
  have htokens := ofText?_evaluationText hproper
  have hread : Derives Token.piece .evaluation (.level .sum) t
      ((grouped (lexemes source)).map Lexeme.token) :=
    h.grouped.map Lexeme.token fun a ha ↦
      Lexeme.piece_token (isProper_of_mem_grouped hproper a ha)
  refine ⟨⟨?_, ?_⟩, fun h' ↦ h'.eq_of_whole h, ?_⟩
  · rintro ⟨tokens, htokens', hread'⟩
    obtain rfl := Option.some.inj (htokens'.symm.trans htokens)
    exact hread'.eq_of_whole hread
  · rintro rfl
    exact ⟨_, htokens, hread⟩
  · rintro rfl
    exact h

/-- A sign in front of a power after a sign between operands. -/
theorem Term.isReadFrom_negated_square :
    (Term.binary .subtract (.number (Decimal.numeralValue ['2']))
      (.signed true (.binary .power (.variable "x") (.number (Decimal.numeralValue ['3']))))).IsReadFrom
      (evaluationText "2 - -x^3") := by
  have hlexemes : lexemes "2 - -x^3" = [.numeral "2", .sign true, .sign true, .word "x",
    .power false, .numeral "3"] := by rfl
  have hnumber : ∀ text, Derives Lexeme.piece .author (.level .signed)
      (.number (Decimal.numeralValue text.toList)) [.numeral text] :=
    fun _ ↦ .unsigned (.noPower (.number rfl))
  have hname : Derives Lexeme.piece .author (.level .primary) (.variable "x") [.word "x"] := .name rfl
  have hpower : Derives Lexeme.piece .author (.level .power) _
      ([.word "x"] ++ .power false :: [.numeral "3"]) := .power rfl hname (hnumber "3")
  have hsigned : Derives Lexeme.piece .author (.level .product) _
      (.sign true :: ([.word "x"] ++ .power false :: [.numeral "3"]) ++ []) :=
    .product (.sign rfl (.unsigned hpower)) .endProduct
  have hsum : Derives Lexeme.piece .author (.level .sum) _
      ([.numeral "2"] ++ [] ++ (.sign true :: (.sign true :: ([.word "x"] ++
        .power false :: [.numeral "3"]) ++ []) ++ [])) :=
    .sum (.product (hnumber "2") .endProduct) (.addend rfl hsigned .endSum)
  have hmeant := Eq.mpr (congrArg (Derives Lexeme.piece .author (.level .sum) _) hlexemes) hsum
  have hfinite : HasFiniteNumerals "2 - -x^3" := by
    intro text htext
    rw [hlexemes] at htext
    have htext' : text = "2" ∨ text = "3" := by simpa using htext
    rcases htext' with rfl | rfl
    · rfl
    · rfl
  exact (Term.isReadFrom_evaluationText hmeant hfinite _).1.mpr rfl

end FormulaQuiz.Formula
