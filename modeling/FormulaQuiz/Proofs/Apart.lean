import FormulaQuiz.Proofs.Boundaries
import FormulaQuiz.Proofs.Marks

/-!
# Formulas in which names stand apart

Where the names of a formula stand apart from what is around them, each alias is a lexeme and a
symbol of its own, and all else is read as if the aliases were not there.
-/

namespace FormulaQuiz.Mark

open Text (isIdentifierChar isIdentifierStart isBlank trimLeft)
open Formula (Lexeme Symbol lexemesFrom symbolsFrom isCalledBy Detached joins)

/-- What a mark of typeset text is in plain text. -/
def plain? : Mark → Option Mark
  | char c => (Formula.plainChar? c).map char
  | name n => some (name n)

/-- The marks of a typeset text in plain text. -/
def plain (ms : List Mark) : List Mark := ms.filterMap plain?

/-- Whether no name has a character to its left that joins, or anything to its right that sticks;
`before` tells whether a character that joins is to the left of the marks. -/
def apart : (before : Bool) → List Mark → Bool
  | _, [] => true
  | _, char c :: ms => apart (joins c) ms
  | before, name _ :: ms => !before && !ms.head?.any sticks && apart false ms

/-- Whether a parenthesis opens after some blanks. -/
def opens : List Mark → Bool
  | [] => false
  | char c :: ms => if isBlank c then opens ms else c == '('
  | name _ :: _ => false

/-- The texts between names, after some characters behind the last one. -/
def pieces : (passed : List Char) → List Mark → List (List Char)
  | passed, [] => [passed]
  | passed, char c :: ms => pieces (passed ++ [c]) ms
  | passed, name _ :: ms => passed :: pieces [] ms

/-- Marks that are read piece by piece, after some characters behind the last name; what a name is
read as may depend on the marks after it. -/
def readPieces {α : Type} (read : List Char → List α) (readName : String → List Mark → α) :
    (passed : List Char) → List Mark → List α
  | passed, [] => read passed
  | passed, char c :: ms => readPieces read readName (passed ++ [c]) ms
  | passed, name n :: ms => read passed ++ readName n ms :: readPieces read readName [] ms

section Pieces

variable {α : Type} {read : List Char → List α} {f f' : String → List Mark → α}
  {passed : List Char} {ms : List Mark}

/-- What is read from a piece is read from the whole. -/
theorem mem_readPieces {a : α} (h : a ∈ (pieces passed ms).flatMap read) :
    a ∈ readPieces read f passed ms := by
  induction ms generalizing passed with
  | nil => rwa [pieces, List.flatMap_cons, List.flatMap_nil, List.append_nil] at h
  | cons m ms ih =>
    cases m with
    | char c => exact ih h
    | name n =>
      rw [pieces, List.flatMap_cons, List.mem_append] at h
      exact List.mem_append.mpr (h.imp_right fun h ↦ List.mem_cons_of_mem _ (ih h))

/-- Two readings differ in the names only. -/
theorem readPieces_alike {R : α → α → Prop} (hown : ∀ a ∈ (pieces passed ms).flatMap read, R a a)
    (hname : ∀ n, name n ∈ ms → ∀ ms', R (f n ms') (f' n ms')) :
    List.Forall₂ R (readPieces read f passed ms) (readPieces read f' passed ms) := by
  induction ms generalizing passed with
  | nil =>
    rw [pieces, List.flatMap_cons, List.flatMap_nil, List.append_nil] at hown
    exact List.forall₂_same.mpr hown
  | cons m ms ih =>
    have hms : ∀ n, name n ∈ ms → ∀ ms', R (f n ms') (f' n ms') := fun n hn ↦
      hname n (List.mem_cons_of_mem _ hn)
    cases m with
    | char c => exact ih hown hms
    | name n =>
      rw [pieces, List.flatMap_cons, List.forall_mem_append] at hown
      exact List.rel_append (List.forall₂_same.mpr hown.1)
        (.cons (hname n List.mem_cons_self ms) (ih hown.2 hms))

end Pieces

/-- The lexemes between names. -/
def ownLexemes (ms : List Mark) : List Lexeme := (pieces [] ms).flatMap (lexemesFrom 0)

/-- The symbols between names. -/
def ownSymbols (ms : List Mark) : List Symbol := (pieces [] ms).flatMap (symbolsFrom 0 none)

section Words

variable (word : String → List Char)

/-- The lexemes of marks. -/
def lexemes (ms : List Mark) : List Lexeme :=
  readPieces (lexemesFrom 0) (fun n _ ↦ .word (String.ofList (word n))) [] ms

/-- The symbols of marks. -/
def symbols (ms : List Mark) : List Symbol :=
  readPieces (symbolsFrom 0 none) (fun n ms ↦ ⟨String.ofList (word n), opens ms⟩) [] ms

/-- Each name in some marks has an identifier as its word. -/
def Identifies (ms : List Mark) : Prop :=
  ∀ n, name n ∈ ms → ∃ c cs, word n = c :: cs ∧ isIdentifierStart c = true ∧
    ∀ d ∈ cs, isIdentifierChar d = true

end Words

section Identifies

variable {word : String → List Char} {m : Mark} {ms : List Mark} {passed : List Char}

theorem Identifies.tail (h : Identifies word (m :: ms)) : Identifies word ms := fun n hn ↦
  h n (List.mem_cons_of_mem _ hn)

theorem mem_of_mem_plain {n : String} (h : name n ∈ plain ms) : name n ∈ ms := by
  obtain ⟨m, hm, hplain⟩ := List.mem_filterMap.mp h
  cases m with
  | char c =>
    obtain ⟨d, -, hd⟩ := Option.map_eq_some_iff.mp hplain
    exact nomatch hd
  | name n' =>
    obtain rfl := name.inj (Option.some.inj hplain)
    exact hm

theorem plainChar?_of_isIdentifierChar {c : Char} (h : isIdentifierChar c = true) :
    Formula.plainChar? c = some c := by
  have hne : ∀ d, isIdentifierChar d = false → c ≠ d := by
    rintro d hd rfl
    rw [hd] at h
    exact Bool.false_ne_true h
  rw [Formula.plainChar?, if_neg (not_or.mpr ⟨hne _ (by decide), hne _ (by decide)⟩),
    if_neg (not_or.mpr ⟨hne _ (by decide), hne _ (by decide)⟩), if_neg (hne _ (by decide))]

/-- A text in plain is its marks in plain. -/
theorem plainText_text (h : Identifies word ms) :
    Formula.plainText (String.ofList (text word ms)) = String.ofList (text word (plain ms)) := by
  rw [Formula.plainText, String.toList_ofList]
  refine congrArg String.ofList ?_
  induction ms with
  | nil => rfl
  | cons m ms ih =>
    cases m with
    | char c =>
      rw [text, List.filterMap_cons, Mark.plain, List.filterMap_cons, plain?, ih h.tail]
      cases Formula.plainChar? c with
      | none => rfl
      | some d => rfl
    | name n =>
      obtain ⟨c, cs, hword, hc, hcs⟩ := h n List.mem_cons_self
      have hsome : ∀ d ∈ c :: cs, Formula.plainChar? d = some d :=
        List.forall_mem_cons.mpr
          ⟨plainChar?_of_isIdentifierChar (Formula.isIdentifierChar_of_isIdentifierStart hc),
            fun d hd ↦ plainChar?_of_isIdentifierChar (hcs d hd)⟩
      have hall : (word n).filterMap Formula.plainChar? = word n := by
        rw [hword, List.filterMap_congr hsome, List.filterMap_some]
      rw [text, List.filterMap_append, hall, ih h.tail]
      rfl

theorem isIdentifierChar_head (h : Identifies word ms) (hms : ms.head?.any sticks = false) :
    ∀ d ∈ (text word ms).head?, isIdentifierChar d = false := by
  have hhead : (text word ms).head?.any isIdentifierChar = ms.head?.any sticks :=
    any_head?_text fun n hn ↦ by
      obtain ⟨c, cs, hword, hc, -⟩ := h n hn
      exact ⟨c, cs, hword, Formula.isIdentifierChar_of_isIdentifierStart hc⟩
  intro d hd
  rw [hms, Option.mem_def.mp hd] at hhead
  exact hhead

/-- A text is read piece by piece, if what is read breaks where an identifier stands behind a
character that does not join, and behind an identifier. -/
theorem read_text {α : Type} {read : List Char → List α} {readName : String → List Mark → α}
    (hbreak : ∀ p y q, isIdentifierStart y = true → p.getLast?.any joins = false →
      read (p ++ y :: q) = read p ++ read (y :: q))
    (hword : ∀ n y p ms, word n = y :: p → isIdentifierStart y = true →
      (∀ d ∈ p, isIdentifierChar d = true) →
      (∀ d ∈ (text word ms).head?, isIdentifierChar d = false) → Identifies word ms →
      read (y :: p ++ text word ms) = readName n ms :: read (text word ms))
    (h : Identifies word ms) (hapart : apart (passed.getLast?.any joins) ms = true) :
    read (passed ++ text word ms) = readPieces read readName passed ms := by
  induction ms generalizing passed with
  | nil => rw [text, List.append_nil, readPieces]
  | cons m ms ih =>
    cases m with
    | char c =>
      have hlast : (passed ++ [c]).getLast?.any joins = joins c := by
        rw [List.getLast?_append]
        rfl
      rw [apart, ← hlast] at hapart
      rw [text, readPieces, ← ih h.tail hapart, List.append_assoc]
      rfl
    | name n =>
      rw [apart, Bool.and_eq_true, Bool.and_eq_true, Bool.not_eq_true', Bool.not_eq_true'] at hapart
      obtain ⟨⟨hpassed, hnext⟩, hapart⟩ := hapart
      obtain ⟨c, cs, hcons, hc, hcs⟩ := h n List.mem_cons_self
      have hhead := isIdentifierChar_head h.tail hnext
      rw [text, hcons, List.cons_append, hbreak _ _ _ hc hpassed, ← List.cons_append,
        hword n c cs ms hcons hc hcs hhead h.tail, readPieces]
      exact congrArg (read passed ++ readName n ms :: ·) (@ih [] h.tail hapart)

/-- The lexemes of a text are those of its marks. -/
theorem lexemesFrom_text (h : Identifies word ms) (hapart : apart false ms = true) :
    lexemesFrom 0 (text word ms) = lexemes word ms := by
  rw [← List.nil_append (text word ms)]
  refine read_text ?_ ?_ h hapart
  · refine fun p y q hy hp ↦ Formula.lexemesFrom_append hy fun c hc ↦ ?_
    rw [hc] at hp
    exact hp
  · intro n y p ms hcons hy hp hhead _
    rw [hcons]
    exact Formula.lexemesFrom_word hy hp hhead

theorem isCalledBy_text (h : Identifies word ms) : isCalledBy (text word ms) = opens ms := by
  induction ms with
  | nil => rfl
  | cons m ms ih =>
    cases m with
    | char c =>
      rw [text, opens, isCalledBy, trimLeft, List.dropWhile_cons]
      split
      · exact ih h.tail
      · rfl
    | name n =>
      obtain ⟨c, cs, hword, hc, -⟩ := h n List.mem_cons_self
      rw [text, hword, opens]
      exact @Formula.isCalledBy_append c [] (cs ++ text word ms) hc

/-- The symbols of a text are those of its marks. -/
theorem symbolsFrom_text (h : Identifies word ms) (hapart : apart false ms = true) :
    symbolsFrom 0 none (text word ms) = symbols word ms := by
  rw [← List.nil_append (text word ms)]
  refine read_text ?_ ?_ h hapart
  · intro p y q hy hp
    refine Formula.symbolsFrom_append hy ?_
    rwa [Formula.lastOf, Option.or_none]
  · intro n y p ms hcons hy hp hhead hms
    rw [hcons, ← isCalledBy_text hms]
    exact Formula.symbolsFrom_word hy hp hhead

end Identifies

end FormulaQuiz.Mark
