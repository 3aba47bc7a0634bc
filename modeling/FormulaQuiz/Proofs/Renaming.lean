import FormulaQuiz.Formula.Vocabulary
import FormulaQuiz.Proofs.Rereading

/-!
# Formulas that differ in their aliases

Two formulas are alike if each alias of the one is an alias of the other, in a fixed correspondence,
and all else is the same.  Grouping and writing for evaluation keep them alike.
-/

namespace FormulaQuiz.Formula

/-- Whether a word names a function or a constant. -/
def hasMeaning (word : String) : Bool := functionNames.contains word || constantNames.contains word

/-- A word that may be an alias: an identifier without a meaning of its own. -/
structure IsAlias (word : String) : Prop where
  identifier : ∃ c cs, word.toList = c :: cs ∧ Text.isIdentifierStart c = true ∧
    ∀ d ∈ cs, Text.isIdentifierChar d = true
  isName : isName word = true
  meaningless : hasMeaning word = false
  unknown : word ∉ ["sign", "is_zero", "is_odd", "is_even"]

/-- A correspondence of aliases. -/
structure Renaming where
  Pairs : String → String → Prop
  injective : ∀ {u v u' v'}, Pairs u v → Pairs u' v' → (u = u' ↔ v = v')
  isAlias : ∀ {u v}, Pairs u v → IsAlias u ∧ IsAlias v

variable {ρ : Renaming}

/-! ## Words -/

/-- A word has no part in a correspondence. -/
def Renaming.Avoids (ρ : Renaming) (w : String) : Prop := ∀ v, ¬ρ.Pairs w v ∧ ¬ρ.Pairs v w

/-- Two words are an alias and the one that it corresponds to, or the same word of an author. -/
inductive Renaming.Corresponds (ρ : Renaming) : String → String → Prop where
  | name {u v : String} (h : ρ.Pairs u v) : Corresponds ρ u v
  | own {w : String} (hkept : isKept w = false) (havoids : ρ.Avoids w) : Corresponds ρ w w

theorem isKept_of_hasMeaning {w : String} (h : hasMeaning w = true) : isKept w = false := by
  rw [hasMeaning, Bool.or_eq_true, List.contains_iff_mem, List.contains_iff_mem,
    ← List.mem_append] at h
  have hall : ∀ w ∈ functionNames ++ constantNames, isKept w = false := by decide
  exact hall w h

theorem IsAlias.isKept {w : String} (h : IsAlias w) : isKept w = false := by
  have hname := h.isName
  rw [Formula.isName, Bool.and_eq_true, Bool.not_eq_true'] at hname
  exact hname.2

theorem IsAlias.ne {w w' : String} (h : IsAlias w) (h' : hasMeaning w' = true) : w ≠ w' := by
  rintro rfl
  exact Bool.false_ne_true (h.meaningless.symm.trans h')

namespace Renaming.Corresponds

variable {u v u' v' : String}

/-- A word with a meaning corresponds to itself. -/
theorem of_hasMeaning {w : String} (h : hasMeaning w = true) : ρ.Corresponds w w :=
  .own (isKept_of_hasMeaning h) fun _ ↦
    ⟨fun hp ↦ (ρ.isAlias hp).1.ne h rfl, fun hp ↦ (ρ.isAlias hp).2.ne h rfl⟩

theorem isKept (h : ρ.Corresponds u v) : Formula.isKept u = false ∧ Formula.isKept v = false := by
  cases h with
  | name h => exact ⟨(ρ.isAlias h).1.isKept, (ρ.isAlias h).2.isKept⟩
  | own h => exact ⟨h, h⟩

theorem isName_eq (h : ρ.Corresponds u v) : isName u = isName v := by
  cases h with
  | name h => rw [(ρ.isAlias h).1.isName, (ρ.isAlias h).2.isName]
  | own => rfl

/-- Two words are the same where those that they correspond to are. -/
theorem eq_iff (h : ρ.Corresponds u v) (h' : ρ.Corresponds u' v') : u = u' ↔ v = v' := by
  cases h with
  | name h =>
    cases h' with
    | name h' => exact ρ.injective h h'
    | own _ havoids =>
      constructor
      · rintro rfl
        exact absurd h (havoids _).1
      · rintro rfl
        exact absurd h (havoids _).2
  | own _ havoids =>
    cases h' with
    | name h' =>
      constructor
      · rintro rfl
        exact absurd h' (havoids _).1
      · rintro rfl
        exact absurd h' (havoids _).2
    | own => exact Iff.rfl

end Renaming.Corresponds

/-! ## Lexemes -/

/-- A lexeme of an author's formula, which may be a word that is no alias. -/
structure Lexeme.IsOwn (ρ : Renaming) (a : Lexeme) : Prop where
  isProper : a.IsProper
  word : ∀ w, a = .word w → isKept w = false ∧ ρ.Avoids w

/-- Lexemes that differ in an alias, if at all. -/
inductive Lexeme.Alike (ρ : Renaming) : Lexeme → Lexeme → Prop where
  | name {u v : String} (h : ρ.Pairs u v) : Alike ρ (.word u) (.word v)
  | same {a : Lexeme} (ha : a.IsOwn ρ) : Alike ρ a a

open Lexeme (Alike)

section Lexemes

variable {a : Lexeme} {ls ls' : List Lexeme}

theorem Lexeme.Alike.isProper {a' : Lexeme} (h : Alike ρ a a') : a.IsProper ∧ a'.IsProper := by
  cases h with
  | name huv => exact ⟨(ρ.isAlias huv).1.identifier, (ρ.isAlias huv).2.identifier⟩
  | same ha => exact ⟨ha.isProper, ha.isProper⟩

theorem isProper_of_alike (h : List.Forall₂ (Alike ρ) ls ls') :
    (∀ a ∈ ls, a.IsProper) ∧ ∀ a ∈ ls', a.IsProper := by
  induction h with
  | nil => exact ⟨nofun, nofun⟩
  | cons ha _ ih =>
    exact ⟨List.forall_mem_cons.mpr ⟨ha.isProper.1, ih.1⟩,
      List.forall_mem_cons.mpr ⟨ha.isProper.2, ih.2⟩⟩

/-! ## Lengths -/

theorem closingLength_congr (h : List.Forall₂ (Alike ρ) ls ls') (depth : ℕ) :
    closingLength depth ls = closingLength depth ls' := by
  induction h generalizing depth with
  | nil => rfl
  | @cons a _ ls ls' ha _ ih =>
    cases ha with
    | name =>
      change (closingLength depth ls).map _ = (closingLength depth ls').map _
      rw [ih]
    | same => cases a <;> simp only [closingLength, ih]

/-- A word is an operand by itself, or is called. -/
theorem operandLength_word (w : String) (ls : List Lexeme) :
    operandLength (.word w :: ls) =
      if ls.head? = some .opening then (closingLength 1 ls.tail).map (· + 2) else some 1 := by
  cases ls with
  | nil => rfl
  | cons a ls =>
    by_cases ha : a = .opening
    · subst ha
      rfl
    · have hhead : (a :: ls).head? ≠ some .opening := fun h ↦ ha (Option.some.inj h)
      rw [if_neg hhead, operandLength]
      rintro ls ⟨⟩
      exact ha rfl

theorem head?_eq_opening_iff (h : List.Forall₂ (Alike ρ) ls ls') :
    ls.head? = some .opening ↔ ls'.head? = some .opening := by
  cases h with
  | nil => exact Iff.rfl
  | cons ha _ =>
    cases ha with
    | name => exact ⟨nofun, nofun⟩
    | same => exact Iff.rfl

theorem tail_alike (h : List.Forall₂ (Alike ρ) ls ls') :
    List.Forall₂ (Alike ρ) ls.tail ls'.tail := by
  cases h with
  | nil => exact .nil
  | cons _ hls => exact hls

theorem operandLength_congr (h : List.Forall₂ (Alike ρ) ls ls') :
    operandLength ls = operandLength ls' := by
  have hword : ∀ {u v ls ls'}, List.Forall₂ (Alike ρ) ls ls' →
      operandLength (.word u :: ls) = operandLength (.word v :: ls') := by
    intro u v ls ls' hls
    rw [operandLength_word, operandLength_word, closingLength_congr (tail_alike hls)]
    exact if_congr (head?_eq_opening_iff hls) rfl rfl
  induction h with
  | nil => rfl
  | @cons a _ ls ls' ha hls ih =>
    cases ha with
    | name => exact hword hls
    | same =>
      cases a with
      | word w => exact hword hls
      | sign minus =>
        change (operandLength ls).map _ = (operandLength ls').map _
        rw [ih]
      | opening =>
        change (closingLength 1 ls).map _ = (closingLength 1 ls').map _
        rw [closingLength_congr hls]
      | _ => rfl

theorem powersLength_congr (h : List.Forall₂ (Alike ρ) ls ls') (skip : ℕ) :
    powersLength skip ls = powersLength skip ls' := by
  induction h generalizing skip with
  | nil => cases skip <;> rfl
  | @cons a _ ls ls' ha hls ih =>
    cases skip with
    | succ skip =>
      change (powersLength skip ls).map _ = (powersLength skip ls').map _
      rw [ih]
    | zero =>
      cases ha with
      | name => rfl
      | same =>
        cases a with
        | power stars =>
          change (operandLength ls >>= _) = (operandLength ls' >>= _)
          simp only [operandLength_congr hls, ih]
        | _ => rfl

theorem chainLength_congr (h : List.Forall₂ (Alike ρ) ls ls') : chainLength ls = chainLength ls' := by
  simp only [chainLength, operandLength_congr h, powersLength_congr h]

/-! ## Grouping -/

/-- Parentheses under signs are put in the same places. -/
theorem groupFrom_alike (h : List.Forall₂ (Alike ρ) ls ls') (afterOperand : Bool) :
    List.Forall₂ (Alike ρ) (groupFrom afterOperand ls) (groupFrom afterOperand ls') := by
  have hopening : Alike ρ .opening .opening := .same ⟨trivial, nofun⟩
  have hclosing : Alike ρ .closing .closing := .same ⟨trivial, nofun⟩
  induction hlength : ls.length using Nat.strong_induction_on generalizing ls ls' afterOperand with
  | _ n ih =>
    cases h with
    | nil =>
      rw [groupFrom_nil]
      exact .nil
    | @cons a a' ls ls' ha hls =>
      rw [List.length_cons] at hlength
      cases ha with
      | name huv =>
        rw [groupFrom_word, groupFrom_word]
        exact .cons (.name huv) (ih _ (by omega) hls true rfl)
      | same ha =>
        by_cases hsign : ∃ minus, a = .sign minus
        · obtain ⟨minus, rfl⟩ := hsign
          cases afterOperand with
          | true =>
            rw [groupFrom_sign_true, groupFrom_sign_true]
            exact .cons (.same ha) (ih _ (by omega) hls false rfl)
          | false =>
            have hchain := chainLength_congr hls
            cases hn : chainLength ls with
            | none =>
              rw [groupFrom_sign_none minus hn, groupFrom_sign_none minus (hchain.symm.trans hn)]
              exact .cons (.same ha) (ih _ (by omega) hls false rfl)
            | some n =>
              have htake := ih _ (by rw [List.length_take]; omega) (List.forall₂_take n hls) false rfl
              have hdrop := ih _ (by rw [List.length_drop]; omega) (List.forall₂_drop n hls) true rfl
              rw [groupFrom, groupFrom]
              simp only [Bool.false_eq_true, if_false, ← hchain, hn]
              exact .cons (.same ha) (.cons hopening (List.rel_append htake (.cons hclosing hdrop)))
        · rw [groupFrom_cons fun minus h ↦ hsign ⟨minus, h⟩,
            groupFrom_cons fun minus h ↦ hsign ⟨minus, h⟩]
          exact .cons (.same ha) (ih _ (by omega) hls _ rfl)

end Lexemes

end FormulaQuiz.Formula
