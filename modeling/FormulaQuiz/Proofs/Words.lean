import FormulaQuiz.Proofs.Boundaries
import FormulaQuiz.Proofs.Usage

/-!
# Where the words of a formula stand

The symbols of a formula are found beside its lexemes, and by other rules: a word that is glued to a
numeral or stands after a point is none.  But where an operand may begin every word is a symbol, and
the parentheses that grouping adds change nothing of that, nor of which words are called.
-/

namespace FormulaQuiz.Formula

open Text (isIdentifierChar isIdentifierStart isBlank)

namespace Lexeme

/-- Whether no operand begins after a lexeme: after a numeral, a point, or a closing parenthesis. -/
def bars : Lexeme → Bool
  | .numeral _ | .closing => true
  | .other text => text == "."
  | _ => false

theorem bars_other {text : String} {c : Char} {cs : List Char} (h : text.toList = c :: cs)
    (hne : c = '.' → cs ≠ []) : (other text).bars = false := by
  refine beq_eq_false_iff_ne.mpr ?_
  rintro rfl
  obtain ⟨rfl, rfl⟩ := List.cons.inj (show ['.'] = c :: cs from h)
  exact hne rfl rfl

/-- Where an operand may begin (`free` tells whether one may begin in front) the words are known,
and so are those that are called after a point. -/
def Orderly (v : Vocabulary) : (free : Bool) → List Lexeme → Prop
  | _, [] => True
  | free, l :: ls =>
    (∀ w, l = .word w → free = true → v.value w ∨ v.function w ∧ ls.head? = some .opening) ∧
      (l = .other "." → ∀ w ls', ls = .word w :: .opening :: ls' → v.method w) ∧
      Orderly v (!l.bars) ls

section Orderly

variable {v : Vocabulary} {free : Bool} {l : Lexeme} {ls ms : List Lexeme} {n : ℕ}

theorem Orderly.mono (h : Orderly v free ls) : Orderly v false ls := by
  cases ls with
  | nil => trivial
  | cons l ls => exact ⟨fun _ _ ↦ nofun, h.2⟩

/-! ### Cutting -/

/-- The first lexemes do not end in a word that a parenthesis behind it calls. -/
def KeepsCalls (n : ℕ) (ls : List Lexeme) : Prop :=
  ∀ w, (ls.take n).getLast? = some (.word w) → (ls.drop n).head? ≠ some .opening

theorem getLast?_of_cons {a : Lexeme} (h : ls.getLast? = some a) : (l :: ls).getLast? = some a := by
  rw [List.getLast?_cons, h, Option.getD_some]

theorem keepsCalls_of_getLast? {a : Lexeme} (h : (ls.take n).getLast? = some a)
    (ha : ∀ w, a ≠ .word w) : KeepsCalls n ls := fun w hw ↦
  absurd (Option.some.inj (h.symm.trans hw)) (ha w)

theorem keepsCalls_zero (ls : List Lexeme) : KeepsCalls 0 ls := fun _ hw ↦ nomatch hw

theorem KeepsCalls.cons (h : KeepsCalls n ls)
    (hl : n = 0 → ∀ w, l = .word w → ls.head? ≠ some .opening) : KeepsCalls (n + 1) (l :: ls) := by
  intro w hw
  rw [List.take_succ_cons, List.getLast?_cons] at hw
  rw [List.drop_succ_cons]
  cases hlast : (ls.take n).getLast? with
  | some a =>
    rw [hlast, Option.getD_some] at hw
    exact h w (hlast.trans hw)
  | none =>
    rw [hlast, Option.getD_none] at hw
    rcases List.take_eq_nil_iff.mp (List.getLast?_eq_none_iff.mp hlast) with rfl | rfl
    · exact hl rfl w (Option.some.inj hw)
    · rw [List.drop_nil]
      exact nofun

theorem KeepsCalls.tail (h : KeepsCalls (n + 1) (l :: ls)) : KeepsCalls n ls := fun w hw ↦
  h w (by rw [List.take_succ_cons, getLast?_of_cons hw])

theorem getLast?_closingLength {depth : ℕ} (h : closingLength depth ls = some n) :
    (ls.take n).getLast? = some .closing := by
  fun_induction closingLength depth ls generalizing n with
  | case1 => exact nomatch h
  | case2 depth ls ih | case4 depth ls _ ih | case5 depth l ls _ _ ih =>
    obtain ⟨n, hn, rfl⟩ := Option.map_eq_some_iff.mp h
    exact getLast?_of_cons (ih hn)
  | case3 depth ls =>
    cases h
    rfl

/-- An operand does not end before its call. -/
theorem keepsCalls_operandLength (h : operandLength ls = some n) : KeepsCalls n ls := by
  fun_induction operandLength ls generalizing n with
  | case1 minus ls ih =>
    obtain ⟨n, hn, rfl⟩ := Option.map_eq_some_iff.mp h
    exact (ih hn).cons fun _ _ ↦ nofun
  | case2 text ls =>
    cases h
    exact (keepsCalls_zero ls).cons fun _ _ ↦ nofun
  | case3 text ls =>
    obtain ⟨n, hn, rfl⟩ := Option.map_eq_some_iff.mp h
    exact keepsCalls_of_getLast? (getLast?_of_cons (getLast?_of_cons (getLast?_closingLength hn)))
      fun _ ↦ nofun
  | case4 text ls hnot =>
    cases h
    refine (keepsCalls_zero ls).cons fun _ _ _ hhead ↦ ?_
    cases ls with
    | nil => exact nomatch hhead
    | cons l ls => exact hnot ls (by rw [Option.some.inj hhead])
  | case5 ls =>
    obtain ⟨n, hn, rfl⟩ := Option.map_eq_some_iff.mp h
    exact keepsCalls_of_getLast? (getLast?_of_cons (getLast?_closingLength hn)) fun _ ↦ nofun
  | case6 => exact nomatch h

/-- Nor do the powers after an operand. -/
theorem keepsCalls_powersLength {skip : ℕ} (h : powersLength skip ls = some n)
    (hskip : KeepsCalls skip ls) : KeepsCalls n ls := by
  fun_induction powersLength skip ls generalizing n with
  | case1 skip l ls ih =>
    obtain ⟨n, hn, rfl⟩ := Option.map_eq_some_iff.mp h
    refine (ih hn hskip.tail).cons fun hzero w hl ↦ ?_
    subst hzero hl
    cases skip with
    | zero => exact hskip w rfl
    | succ skip =>
      cases ls with
      | nil => exact nofun
      | cons l ls =>
        obtain ⟨m, -, hm⟩ := Option.map_eq_some_iff.mp hn
        exact nomatch hm
  | case2 stars ls ih =>
    obtain ⟨operand, hoperand, h⟩ := Option.bind_eq_some_iff.mp h
    obtain ⟨rest, hrest, h⟩ := Option.bind_eq_some_iff.mp h
    cases h
    exact (ih operand hrest (keepsCalls_operandLength hoperand)).cons fun _ _ ↦ nofun
  | case3 =>
    cases h
    exact keepsCalls_zero _

theorem keepsCalls_chainLength (h : chainLength ls = some n) : KeepsCalls n ls := by
  obtain ⟨operand, hoperand, h⟩ := Option.bind_eq_some_iff.mp h
  obtain ⟨all, hall, h⟩ := Option.bind_eq_some_iff.mp h
  split at h
  · exact nomatch h
  · cases h
    exact keepsCalls_powersLength hall (keepsCalls_operandLength hoperand)

/-! ### Grouping -/

theorem Orderly.take_drop (h : Orderly v free ls) (hcut : KeepsCalls n ls) :
    Orderly v free (ls.take n) ∧ Orderly v false (ls.drop n) := by
  induction ls generalizing free n with
  | nil =>
    rw [List.take_nil, List.drop_nil]
    exact ⟨trivial, trivial⟩
  | cons l ls ih =>
    cases n with
    | zero => exact ⟨trivial, h.mono⟩
    | succ n =>
      obtain ⟨htake, hdrop⟩ := ih h.2.2 hcut.tail
      refine ⟨⟨fun w hw hfree ↦ ?_, fun hpoint w ls' hls ↦ ?_, htake⟩, hdrop⟩
      · refine (h.1 w hw hfree).imp_right fun ⟨hfunction, hhead⟩ ↦ ⟨hfunction, ?_⟩
        cases n with
        | zero => exact absurd hhead (hcut w (by rw [hw]; rfl))
        | succ n => rw [List.head?_take, if_neg (Nat.succ_ne_zero n), hhead]
      · refine h.2.1 hpoint w (ls' ++ ls.drop n) ?_
        rw [← List.cons_append, ← List.cons_append, ← hls, List.take_append_drop]

theorem Orderly.sign_cons {minus : Bool} (h : Orderly v true ls) :
    Orderly v free (.sign minus :: ls) := ⟨nofun, nofun, h⟩

theorem Orderly.opening_cons (h : Orderly v true ls) : Orderly v free (.opening :: ls) :=
  ⟨nofun, nofun, h⟩

theorem Orderly.append_closing (h : Orderly v free ls) (h' : Orderly v false ms) :
    Orderly v free (ls ++ .closing :: ms) := by
  induction ls generalizing free with
  | nil => exact ⟨nofun, nofun, h'⟩
  | cons l ls ih =>
    refine ⟨fun w hw hfree ↦ ?_, fun hpoint w ls' hls ↦ ?_, ih h.2.2⟩
    · refine (h.1 w hw hfree).imp_right fun ⟨hfunction, hhead⟩ ↦ ⟨hfunction, ?_⟩
      change (ls ++ .closing :: ms).head? = some .opening
      rw [List.head?_append, hhead, Option.some_or]
    · cases ls with
      | nil => exact nomatch hls
      | cons a ls =>
        cases ls with
        | nil => exact nomatch (List.cons.inj hls).2
        | cons b ls =>
          obtain ⟨ha, hls⟩ := List.cons.inj hls
          obtain ⟨hb, -⟩ := List.cons.inj hls
          exact h.2.1 hpoint w ls (by rw [ha, hb])

theorem head?_groupFrom (afterOperand : Bool) (ls : List Lexeme) :
    (Formula.groupFrom afterOperand ls).head? = ls.head? := by
  fun_cases Formula.groupFrom afterOperand ls <;> rfl

theorem tail_of_groupFrom {afterOperand : Bool} {w : String} {gs : List Lexeme}
    (h : Formula.groupFrom afterOperand ls = .word w :: gs) :
    ∃ ls', ls = .word w :: ls' ∧ gs.head? = ls'.head? := by
  have hhead := head?_groupFrom afterOperand ls
  rw [h] at hhead
  cases ls with
  | nil => exact nomatch hhead
  | cons l ls =>
    obtain rfl := Option.some.inj hhead
    rw [groupFrom_word] at h
    obtain ⟨-, rfl⟩ := List.cons.inj h
    exact ⟨ls, rfl, head?_groupFrom _ ls⟩

/-- Nothing changes where an operand may begin, when chains of powers get parentheses. -/
theorem Orderly.groupFrom (h : Orderly v free ls) (afterOperand : Bool) :
    Orderly v free (groupFrom afterOperand ls) := by
  fun_induction Formula.groupFrom afterOperand ls generalizing free with
  | case1 => trivial
  | case2 afterOperand minus ls n hn ih ih' =>
    have hcut : KeepsCalls n ls := by
      split at hn
      · cases hn
      · exact keepsCalls_chainLength hn
    obtain ⟨htake, hdrop⟩ := Orderly.take_drop h.2.2 hcut
    exact (ih htake).opening_cons.sign_cons.append_closing (ih' hdrop)
  | case3 _ minus ls _ ih => exact (ih h.2.2).sign_cons
  | case4 _ l ls _ ih =>
    refine ⟨fun w hw hfree ↦ ?_, fun hpoint w gs hgs ↦ ?_, ih h.2.2⟩
    · rw [head?_groupFrom]
      exact h.1 w hw hfree
    · obtain ⟨ls', rfl, hhead⟩ := tail_of_groupFrom hgs
      cases ls' with
      | nil => cases hhead
      | cons a ls' =>
        obtain rfl := Option.some.inj hhead
        exact h.2.1 hpoint w ls' rfl

end Orderly

/-- A lexeme as it is found in a text. -/
def IsScanned : Lexeme → Prop
  | .numeral _ => True
  | .other text => ∃ c cs, text.toList = c :: cs ∧ (c = '.' ∨ isOther c = true) ∧
    ∀ d ∈ cs, isOther d = true
  | l => l.IsProper

end Lexeme

/-! ## From the text of a formula -/

section Source

variable {c y : Char} {p cs q : List Char} {free : Bool}

theorem isBlank_of_isOther (h : Lexeme.isOther c = true) : isBlank c = false := by
  rw [Lexeme.isOther, Bool.not_eq_true', Bool.or_eq_false_iff, Bool.or_eq_false_iff] at h
  exact h.1.1

theorem isIdentifierChar_of_isOther (h : Lexeme.isOther c = true) : isIdentifierChar c = false := by
  rw [Lexeme.isOther, Bool.not_eq_true', Bool.or_eq_false_iff, Bool.or_eq_false_iff] at h
  exact h.1.2

theorem joins_of_isOther (h : Lexeme.isOther c = true) : joins c = false := by
  rw [joins, isIdentifierChar_of_isOther h, Bool.false_or]
  refine beq_eq_false_iff_ne.mpr ?_
  rintro rfl
  exact absurd h (by decide)

theorem joins_of_isBlank (h : isBlank c = true) : joins c = false := by
  rw [joins, isIdentifierChar, Bool.or_eq_false_iff, Bool.or_eq_false_iff]
  refine ⟨⟨?_, ?_⟩, ?_⟩
  · by_contra hc
    rw [(begins_of_isIdentifierStart (Bool.eq_true_of_not_eq_false hc)).blank] at h
    exact Bool.false_ne_true h
  · by_contra hc
    rw [(begins_of_isDigit (Bool.eq_true_of_not_eq_false hc)).blank] at h
    exact Bool.false_ne_true h
  · refine beq_eq_false_iff_ne.mpr ?_
    rintro rfl
    exact absurd h (by decide)

/-- A word is a symbol where nothing joins it. -/
theorem mem_symbolsFrom (hp : Detached p) (hy : isIdentifierStart y = true) (cs : List Char) :
    ⟨String.ofList (y :: cs.takeWhile isIdentifierChar),
      isCalledBy (cs.dropWhile isIdentifierChar)⟩ ∈ symbolsFrom 0 none (p ++ y :: cs) := by
  have hlast : (lastOf none p).any joins = false := by
    rw [lastOf, Option.or_none]
    cases hd : p.getLast? with
    | none => rfl
    | some d => exact hp d hd
  rw [symbolsFrom_append hy hlast, symbolsFrom_start hy, Option.any_none, if_neg Bool.false_ne_true]
  exact List.mem_append_right _ List.mem_cons_self

/-- A parenthesis is the first lexeme just if one opens after some blanks. -/
theorem head?_lexemesFrom_iff (cs : List Char) :
    (lexemesFrom 0 cs).head? = some .opening ↔ isCalledBy cs = true := by
  induction cs with
  | nil => exact ⟨nofun, nofun⟩
  | cons c cs ih =>
    rw [lexemesFrom, isCalledBy, Text.trimLeft, List.dropWhile_cons]
    by_cases hblank : isBlank c = true
    · rw [if_pos hblank, if_pos hblank]
      exact ih
    · rw [if_neg hblank, if_neg hblank, List.head?_cons, List.head?_cons]
      constructor
      · intro h
        have hread := Option.some.inj h
        unfold Lexeme.read at hread
        split at hread
        · cases hread
        · split at hread
          · cases hread
          · split at hread
            case h_2 => split at hread <;> cases hread
            case h_7 => rfl
            all_goals cases hread
      · intro h
        obtain rfl : c = '(' := by simpa using h
        rfl

/-- A word in front of some lexemes stands in front of the text, after some blanks. -/
theorem exists_of_lexemesFrom_eq_word {w : String} {ls : List Lexeme}
    (h : lexemesFrom 0 cs = .word w :: ls) : ∃ blanks y rest, cs = blanks ++ y :: rest ∧
      (∀ d ∈ blanks, isBlank d = true) ∧ isIdentifierStart y = true ∧
      w = String.ofList (y :: rest.takeWhile isIdentifierChar) ∧
      ls = lexemesFrom 0 (rest.dropWhile isIdentifierChar) := by
  induction cs with
  | nil => cases h
  | cons c cs ih =>
    rw [lexemesFrom] at h
    by_cases hblank : isBlank c = true
    · rw [if_pos hblank] at h
      obtain ⟨blanks, y, rest, rfl, hblanks, hword⟩ := ih h
      exact ⟨c :: blanks, y, rest, rfl, List.forall_mem_cons.mpr ⟨hblank, hblanks⟩, hword⟩
    · rw [if_neg hblank] at h
      obtain ⟨hread, rfl⟩ := List.cons.inj h
      obtain ⟨hc, rfl⟩ := eq_of_read_eq_word hread
      refine ⟨[], c, cs, rfl, List.forall_mem_nil _, hc, rfl, ?_⟩
      rw [hread, Lexeme.spelling, String.toList_ofList, lexemesFrom_eq_drop, List.length_cons,
        Nat.add_sub_cancel, drop_length_takeWhile]

/-- What begins a lexeme of no other class is a point or another character of the class. -/
theorem isOther_of_read {text : String} (hblank : isBlank c = false)
    (h : Lexeme.read c cs = .other text) :
    (c = '.' ∨ Lexeme.isOther c = true) ∧ text.toList = c :: cs.takeWhile Lexeme.isOther := by
  unfold Lexeme.read at h
  split at h
  · cases h
  next hstart =>
    split at h
    · cases h
    next hdigit =>
      rw [Bool.or_eq_true, not_or] at hdigit
      split at h
      case h_2 => split at h <;> cases h
      case h_10 =>
        cases h
        refine ⟨or_iff_not_imp_left.mpr fun hpoint ↦ ?_, String.toList_ofList⟩
        have hchar : isIdentifierChar c = false := Bool.or_eq_false_iff.mpr
          ⟨Bool.eq_false_iff.mpr hstart, Bool.eq_false_iff.mpr hdigit.1⟩
        have hmem : c ∉ ['.', '^', '*', '+', '-', '/', '%', '(', ')', ','] := by
          simp only [List.mem_cons, List.not_mem_nil, or_false, not_or]
          and_intros <;> assumption
        rw [Lexeme.isOther, hblank, hchar]
        exact congrArg (!·) (Bool.eq_false_iff.mpr (mt List.contains_iff_mem.mp hmem))
      all_goals cases h

theorem isScanned_read (hblank : isBlank c = false) (cs : List Char) :
    (Lexeme.read c cs).IsScanned := by
  cases hread : Lexeme.read c cs with
  | numeral text => trivial
  | word text =>
    obtain ⟨hc, rfl⟩ := eq_of_read_eq_word hread
    exact ⟨c, _, String.toList_ofList, hc, fun d hd ↦ List.mem_takeWhile_imp hd⟩
  | operator symbol =>
    unfold Lexeme.read at hread
    split at hread
    · exact nomatch hread
    · split at hread
      · exact nomatch hread
      · split at hread
        case h_2 =>
          split at hread <;> cases hread
          rfl
        all_goals cases hread <;> rfl
  | other text =>
    obtain ⟨hc, htext⟩ := isOther_of_read hblank hread
    exact ⟨c, _, htext, hc, fun d hd ↦ List.mem_takeWhile_imp hd⟩
  | _ => trivial

/-- A lexeme after which an operand may begin joins nothing that does. -/
theorem detached_of_read (hblank : isBlank c = false) (hbars : (Lexeme.read c cs).bars = false)
    (hrest : c :: cs = (Lexeme.read c cs).spelling ++ y :: q) (hy : isIdentifierStart y = true) :
    Detached (Lexeme.read c cs).spelling := by
  have hscanned := isScanned_read hblank cs
  cases hread : Lexeme.read c cs with
  | numeral text | closing =>
    rw [hread] at hbars
    exact Bool.noConfusion hbars
  | word text =>
    obtain ⟨-, rfl⟩ := eq_of_read_eq_word hread
    rw [hread, Lexeme.spelling, String.toList_ofList, List.cons_append] at hrest
    have hsplit : cs.takeWhile isIdentifierChar ++ cs.dropWhile isIdentifierChar = cs :=
      List.takeWhile_append_dropWhile
    have hdrop : cs.dropWhile isIdentifierChar = y :: q :=
      List.append_cancel_left (hsplit.trans (List.cons.inj hrest).2)
    have hstops := List.head?_dropWhile_not isIdentifierChar cs
    rw [hdrop] at hstops
    exact absurd (isIdentifierChar_of_isIdentifierStart hy) (Bool.eq_false_iff.mp hstops)
  | other text =>
    obtain ⟨hc, htext⟩ := isOther_of_read hblank hread
    rw [Lexeme.spelling, htext]
    intro d hd
    cases htail : cs.takeWhile Lexeme.isOther with
    | nil =>
      rw [htail] at htext hd
      obtain rfl := Option.some.inj hd
      refine joins_of_isOther (hc.resolve_left ?_)
      rintro rfl
      rw [hread, Lexeme.bars, ← String.ofList_toList (s := text), htext] at hbars
      exact Bool.noConfusion hbars
    | cons e es =>
      rw [htail, List.getLast?_cons_cons, ← htail] at hd
      exact joins_of_isOther (List.mem_takeWhile_imp (List.mem_of_getLast? hd))
  | power stars => cases stars <;> exact fun d hd ↦ Option.some.inj hd ▸ by decide
  | sign minus => cases minus <;> exact fun d hd ↦ Option.some.inj hd ▸ by decide
  | operator symbol =>
    rw [hread] at hscanned
    obtain ⟨op, hop⟩ := Option.isSome_iff_exists.mp hscanned
    unfold productOperator? at hop
    split at hop <;> first | exact fun d hd ↦ Option.some.inj hd ▸ by decide | cases hop
  | opening | comma => exact fun d hd ↦ Option.some.inj hd ▸ by decide

/-- A numeral has the character that it begins with. -/
theorem splitNumeral_ne_nil (h : Decimal.isDigit c = true ∨ c = '.') :
    (Decimal.splitNumeral (c :: cs)).1 ≠ [] := by
  rw [Decimal.splitNumeral]
  dsimp only
  rw [Decimal.splitDigits]
  rcases h with h | rfl
  · rw [List.takeWhile_cons_of_pos h]
    exact List.cons_ne_nil _ _
  · rw [List.takeWhile_cons_of_neg (by decide), List.dropWhile_cons_of_neg (by decide)]
    exact List.cons_ne_nil _ _

/-- What is read as a numeral is the longest one, and begins with a digit or a point. -/
theorem eq_of_read_eq_numeral {text : String} (h : Lexeme.read c cs = .numeral text) :
    (Decimal.isDigit c = true ∨ c = '.') ∧
      text = String.ofList (Decimal.splitNumeral (c :: cs)).1 := by
  unfold Lexeme.read at h
  split at h
  · cases h
  · split at h
    next hdigit =>
      cases h
      rw [Bool.or_eq_true, Bool.and_eq_true, beq_iff_eq] at hdigit
      exact ⟨hdigit.imp_right And.left, rfl⟩
    next =>
      split at h
      case h_2 => split at h <;> cases h
      all_goals cases h

/-- A lexeme begins with the character that it is read from. -/
theorem exists_spelling_cons (hblank : isBlank c = false) (cs : List Char) :
    ∃ xs, (Lexeme.read c cs).spelling = c :: xs := by
  have hne : (Lexeme.read c cs).spelling ≠ [] := by
    cases hread : Lexeme.read c cs with
    | numeral text =>
      obtain ⟨hc, rfl⟩ := eq_of_read_eq_numeral hread
      rw [Lexeme.spelling, String.toList_ofList]
      exact splitNumeral_ne_nil hc
    | word text =>
      obtain ⟨-, rfl⟩ := eq_of_read_eq_word hread
      rw [Lexeme.spelling, String.toList_ofList]
      exact List.cons_ne_nil _ _
    | other text =>
      rw [Lexeme.spelling, (isOther_of_read hblank hread).2]
      exact List.cons_ne_nil _ _
    | power stars => cases stars <;> exact List.cons_ne_nil _ _
    | sign minus => cases minus <;> exact List.cons_ne_nil _ _
    | operator symbol | opening | closing | comma => exact List.cons_ne_nil _ _
  obtain ⟨d, xs, hspelling⟩ := List.exists_cons_of_ne_nil hne
  have hprefix := spelling_of_read c cs
  rw [hspelling, List.cons_prefix_cons] at hprefix
  exact ⟨xs, hprefix.1 ▸ hspelling⟩

/-- Nothing that ends in such a lexeme joins an operand that begins behind it. -/
theorem detached_append_take (hblank : isBlank c = false)
    (hbars : (Lexeme.read c cs).bars = false)
    (hdrop : cs.drop ((Lexeme.read c cs).spelling.length - 1) = y :: q)
    (hy : isIdentifierStart y = true) :
    Detached (p ++ c :: cs.take ((Lexeme.read c cs).spelling.length - 1)) := by
  obtain ⟨xs, hspelling⟩ := exists_spelling_cons hblank cs
  have hprefix := spelling_of_read c cs
  rw [hspelling, List.cons_prefix_cons] at hprefix
  have hskip : (Lexeme.read c cs).spelling.length - 1 = xs.length := by
    rw [hspelling, List.length_cons, Nat.add_sub_cancel]
  have htake : cs.take xs.length = xs := (List.prefix_iff_eq_take.mp hprefix.2).symm
  rw [hskip] at hdrop ⊢
  have hcs : xs ++ cs.drop xs.length = cs :=
    (congrArg (· ++ cs.drop xs.length) htake.symm).trans (List.take_append_drop ..)
  have hrest : c :: cs = (Lexeme.read c cs).spelling ++ y :: q := by
    rw [hspelling, ← hdrop, List.cons_append, hcs]
  have hdetached := detached_of_read hblank hbars hrest hy
  rw [hspelling] at hdetached
  rw [htake, Detached, List.getLast?_append_of_ne_nil _ (List.cons_ne_nil c xs)]
  exact hdetached

/-- A word that is called behind a point; blanks may be between. -/
def IsMethod (cs : List Char) (w : String) : Prop :=
  ∃ p blanks y rest, cs = p ++ '.' :: (blanks ++ y :: rest) ∧ (∀ d ∈ blanks, isBlank d = true) ∧
    isIdentifierStart y = true ∧ w = String.ofList (y :: rest.takeWhile isIdentifierChar) ∧
      isCalledBy (rest.dropWhile isIdentifierChar) = true

/-- What the symbols of a text tell of its words; methods need not be symbols. -/
def Vocabulary.ofChars (cs : List Char) : Vocabulary where
  value w := ⟨w, false⟩ ∈ symbolsFrom 0 none cs
  function w := ⟨w, true⟩ ∈ symbolsFrom 0 none cs
  method := IsMethod cs
  forms := ∃ s ∈ symbolsFrom 0 none cs, s.name ∈ formWords

/-- A word is a method if it is called after a point. -/
theorem isMethod_of_lexemesFrom {w : String} {ls : List Lexeme}
    (h : lexemesFrom 0 cs = .word w :: .opening :: ls) : IsMethod (p ++ '.' :: cs) w := by
  obtain ⟨blanks, y, rest, rfl, hblanks, hy, rfl, hls⟩ := exists_of_lexemesFrom_eq_word h
  refine ⟨p, blanks, y, rest, rfl, hblanks, hy, rfl, ?_⟩
  rw [← head?_lexemesFrom_iff, ← hls, List.head?_cons]

/-- Every word is a symbol, where an operand may begin. -/
theorem orderly_lexemesFrom (p cs : List Char)
    (h : free = true → ∀ y q, cs = y :: q → isIdentifierStart y = true → Detached p) :
    Lexeme.Orderly (.ofChars (p ++ cs)) free (lexemesFrom 0 cs) := by
  induction hlength : cs.length using Nat.strong_induction_on generalizing p cs free with
  | _ n ih =>
    cases cs with
    | nil => trivial
    | cons c cs =>
      rw [List.length_cons] at hlength
      rw [lexemesFrom]
      by_cases hblank : isBlank c = true
      · rw [if_pos hblank]
        have hlater : Lexeme.Orderly (.ofChars (p ++ [c] ++ cs)) true (lexemesFrom 0 cs) := by
          refine ih cs.length (by omega) (p ++ [c]) cs (fun _ _ _ _ _ d hd ↦ ?_) rfl
          rw [List.getLast?_append, List.getLast?_singleton, Option.some_or] at hd
          obtain rfl := Option.some.inj hd
          exact joins_of_isBlank hblank
        rw [List.append_assoc] at hlater
        cases free with
        | true => exact hlater
        | false => exact hlater.mono
      · rw [if_neg hblank]
        have hblank := Bool.eq_false_iff.mpr hblank
        dsimp only
        refine ⟨fun w hw hfree ↦ ?_, fun hpoint w ls hls ↦ ?_, ?_⟩
        · obtain ⟨hc, rfl⟩ := eq_of_read_eq_word hw
          have hmem := mem_symbolsFrom (h hfree c cs rfl hc) hc cs
          rw [hw, Lexeme.spelling, String.toList_ofList, lexemesFrom_eq_drop, List.length_cons,
            Nat.add_sub_cancel, drop_length_takeWhile, head?_lexemesFrom_iff]
          cases hcalled : isCalledBy (cs.dropWhile isIdentifierChar) <;> rw [hcalled] at hmem
          · exact .inl hmem
          · exact .inr ⟨hmem, rfl⟩
        · obtain ⟨-, htext⟩ := isOther_of_read hblank hpoint
          obtain ⟨rfl, -⟩ := List.cons.inj (show ['.'] = _ from htext)
          rw [hpoint] at hls
          exact isMethod_of_lexemesFrom hls
        · rw [lexemesFrom_eq_drop]
          have hwhole : ∀ skip, p ++ c :: cs = p ++ c :: cs.take skip ++ cs.drop skip := by
            intro skip
            rw [List.append_assoc, List.cons_append, List.take_append_drop]
          rw [hwhole ((Lexeme.read c cs).spelling.length - 1)]
          refine ih _ ?_ _ _ (fun hbars y q hq hy ↦ ?_) rfl
          · rw [List.length_drop]
            omega
          · exact detached_append_take hblank ((Bool.not_eq_true' _).mp hbars) hq hy

theorem isScanned_of_mem_lexemesFrom {skip : ℕ} {a : Lexeme} (h : a ∈ lexemesFrom skip cs) :
    a.IsScanned := by
  fun_induction lexemesFrom skip cs with
  | case1 => exact absurd h List.not_mem_nil
  | case2 skip c cs ih => exact ih h
  | case3 c cs _ ih => exact ih h
  | case4 c cs hblank lexeme ih =>
    rcases List.mem_cons.mp h with rfl | h
    · exact isScanned_read (Bool.eq_false_iff.mpr hblank) cs
    · exact ih h

/-- Also when it is grouped, a formula has only its symbols where an operand may begin. -/
theorem orderly_grouped (source : String) :
    Lexeme.Orderly (.ofChars source.toList) true (grouped (lexemes source)) :=
  (orderly_lexemesFrom [] source.toList fun _ _ _ _ _ ↦ nofun).groupFrom false

theorem isScanned_of_mem_grouped {source : String} {a : Lexeme}
    (h : a ∈ grouped (lexemes source)) : a.IsScanned := by
  rcases mem_groupFrom h with h | rfl | rfl
  · exact isScanned_of_mem_lexemesFrom h
  · trivial
  · trivial

end Source

end FormulaQuiz.Formula
