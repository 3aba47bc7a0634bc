import FormulaQuiz.Proofs.Identifiers
import FormulaQuiz.Proofs.Numerals
import FormulaQuiz.Proofs.Words

/-!
# What grouping adds to a formula

A formula is printed for evaluation as it was scanned, each lexeme once and in order, and no
character but a blank is lost on the way.  This holds of every text, whether or not it is a formula:
where the lexemes under a sign make no chain of powers, they are printed as they stand.  All that
grouping adds is pairs of parentheses, each behind a sign in front of an operand, around lexemes
whose own parentheses are closed among themselves.
-/

namespace FormulaQuiz.Formula

open Text (isBlank)

/-! ## No character is lost -/

section Spelling

variable {c d : Char} {cs : List Char}

theorem isBlank_of_mem_exponent {x : List Char} (hx : Decimal.IsExponent x) (h : d ∈ x) :
    isBlank d = false := by
  have hletter : ∀ {e}, Decimal.IsExponentLetter e → isBlank e = false := by
    rintro e (rfl | rfl) <;> decide
  cases hx with
  | unsigned he hds =>
    rcases List.mem_cons.mp h with rfl | h
    · exact hletter he
    · exact (begins_of_isDigit (hds.2 d h)).blank
  | signed he hsign hds =>
    rw [List.mem_cons, List.mem_cons] at h
    rcases h with rfl | rfl | h
    · exact hletter he
    · rcases hsign with rfl | rfl <;> decide
    · exact (begins_of_isDigit (hds.2 d h)).blank

theorem isBlank_of_mem_splitNumeral (h : d ∈ (Decimal.splitNumeral cs).1) : isBlank d = false := by
  obtain ⟨m, x, hm, hx, heq⟩ := (Decimal.splitsLongest_splitNumeral cs).holds
  rw [heq, List.mem_append] at h
  rcases h with h | h
  · rcases hm.isDigit_or_eq_point h with hdigit | rfl
    · exact (begins_of_isDigit hdigit).blank
    · decide
  · rcases hx with rfl | hx
    · exact absurd h List.not_mem_nil
    · exact isBlank_of_mem_exponent hx h

/-- Blanks only separate lexemes. -/
theorem isBlank_of_mem_spelling (hblank : isBlank c = false)
    (h : d ∈ (Lexeme.read c cs).spelling) : isBlank d = false := by
  have hscanned := isScanned_read hblank cs
  cases hread : Lexeme.read c cs with
  | numeral text =>
    obtain ⟨-, rfl⟩ := eq_of_read_eq_numeral hread
    rw [hread, Lexeme.spelling, String.toList_ofList] at h
    exact isBlank_of_mem_splitNumeral h
  | word text =>
    obtain ⟨hc, rfl⟩ := eq_of_read_eq_word hread
    rw [hread, Lexeme.spelling, String.toList_ofList] at h
    rcases List.mem_cons.mp h with rfl | hd
    · exact hblank
    · exact Text.isBlank_of_isIdentifierChar (List.mem_takeWhile_imp hd)
  | other text =>
    rw [hread, Lexeme.spelling, (isOther_of_read hblank hread).2] at h
    rcases List.mem_cons.mp h with rfl | hd
    · exact hblank
    · exact isBlank_of_isOther (List.mem_takeWhile_imp hd)
  | operator symbol =>
    rw [hread] at h hscanned
    obtain rfl := List.mem_singleton.mp h
    obtain ⟨op, hop⟩ := Option.isSome_iff_exists.mp hscanned
    unfold productOperator? at hop
    split at hop <;> first | decide | cases hop
  | power stars =>
    rw [hread] at h
    cases stars with
    | false =>
      obtain rfl := List.mem_singleton.mp h
      decide
    | true =>
      obtain rfl := List.eq_of_mem_replicate (show d ∈ List.replicate 2 '*' from h)
      decide
  | sign minus =>
    rw [hread] at h
    cases minus <;> (obtain rfl := List.mem_singleton.mp h; decide)
  | opening | closing | comma =>
    rw [hread] at h
    obtain rfl := List.mem_singleton.mp h
    decide

theorem spelling_ne_nil_of_mem {skip : ℕ} {l : Lexeme} (h : l ∈ lexemesFrom skip cs) :
    l.spelling ≠ [] := by
  fun_induction lexemesFrom skip cs with
  | case1 => exact absurd h List.not_mem_nil
  | case2 skip c cs ih | case3 c cs _ ih => exact ih h
  | case4 c cs hblank lexeme ih =>
    rcases List.mem_cons.mp h with rfl | h
    · obtain ⟨xs, hxs⟩ := exists_spelling_cons (Bool.eq_false_iff.mpr hblank) cs
      exact hxs ▸ List.cons_ne_nil c xs
    · exact ih h

/-- The lexemes of a text spell the text without its blanks. -/
theorem flatMap_spelling (skip : ℕ) (cs : List Char) :
    (lexemesFrom skip cs).flatMap Lexeme.spelling = (cs.drop skip).filter (!isBlank ·) := by
  fun_induction lexemesFrom skip cs with
  | case1 skip =>
    rw [List.drop_nil]
    rfl
  | case2 skip c cs ih => rw [ih, List.drop_succ_cons]
  | case3 c cs hblank ih =>
    rw [ih, List.drop_zero, List.drop_zero, List.filter_cons_of_neg]
    rw [hblank]
    exact Bool.false_ne_true
  | case4 c cs hblank lexeme ih =>
    rw [Bool.not_eq_true] at hblank
    obtain ⟨xs, hxs⟩ := exists_spelling_cons hblank cs
    obtain ⟨q, hq⟩ := spelling_of_read c cs
    have hkept : (Lexeme.read c cs).spelling.filter (!isBlank ·) = (Lexeme.read c cs).spelling :=
      List.filter_eq_self.mpr fun d hd ↦
        Bool.not_eq_true' _ ▸ isBlank_of_mem_spelling hblank hd
    have hrest : cs.drop (lexeme.spelling.length - 1) = q := by
      rw [hxs, List.cons_append] at hq
      rw [show lexeme.spelling = c :: xs from hxs, ← (List.cons.inj hq).2, List.length_cons,
        Nat.add_sub_cancel, List.drop_left]
    rw [List.flatMap_cons, ih, hrest, List.drop_zero, ← hq, List.filter_append, hkept]

end Spelling

/-! ## Printed parentheses -/

/-- A lexeme of a formula as it is printed for evaluation: the author's own, or a parenthesis that
grouping adds. -/
inductive Printed where
  | own (l : Lexeme)
  | opening
  | closing
deriving DecidableEq, Repr

namespace Printed

def lexeme : Printed → Lexeme
  | .own l => l
  | .opening => .opening
  | .closing => .closing

def own? : Printed → Option Lexeme
  | .own l => some l
  | _ => none

/-- The parentheses that are open behind a printed lexeme, the innermost first, where those of `s`
are open in front of it; `true` stands for an author's own.  None, if the lexeme closes one that is
not of its sort, or where none is open. -/
def meets : (s : List Bool) → Printed → Option (List Bool)
  | s, .own .opening => some (true :: s)
  | true :: s, .own .closing => some s
  | _, .own .closing => none
  | s, .own _ => some s
  | s, .opening => some (false :: s)
  | false :: s, .closing => some s
  | _, .closing => none

end Printed

/-- The parentheses that are open behind some printed lexemes. -/
def openAfter (s : List Bool) (ps : List Printed) : Option (List Bool) := ps.foldlM Printed.meets s

/-- All parentheses of a list are closed in it, the author's by the author's and added ones by added
ones, and no other is closed in it. -/
def Balanced (ps : List Printed) : Prop := openAfter [] ps = some []

section Open

variable {s : List Bool} {p : Printed} {ps qs : List Printed}

@[simp] theorem openAfter_nil : openAfter s [] = some s := rfl

@[simp] theorem openAfter_cons :
    openAfter s (p :: ps) = (Printed.meets s p).bind (openAfter · ps) := rfl

@[simp] theorem openAfter_append :
    openAfter s (ps ++ qs) = (openAfter s ps).bind (openAfter · qs) := List.foldlM_append

end Open

/-! ## Operands and chains -/

/-- Whether an operand ends with the last of some lexemes; `b`, if there are none. -/
def endsAfter (b : Bool) (ls : List Lexeme) : Bool := ls.getLast?.elim b Lexeme.endsOperand

section Segments

variable {b : Bool} {l : Lexeme} {ls ms : List Lexeme} {n : ℕ}

@[simp] theorem endsAfter_nil : endsAfter b [] = b := rfl

@[simp] theorem endsAfter_cons : endsAfter b (l :: ls) = endsAfter l.endsOperand ls := by
  rw [endsAfter, endsAfter, List.getLast?_cons]
  cases ls.getLast? <;> rfl

@[simp] theorem endsAfter_append : endsAfter b (ls ++ ms) = endsAfter (endsAfter b ls) ms := by
  induction ls generalizing b with
  | nil => rfl
  | cons l ls ih => rw [List.cons_append, endsAfter_cons, endsAfter_cons, ih]

/-- The first `n` lexemes of a list are there, close all parentheses that they open and no others,
and end an operand. -/
structure Completes (n : ℕ) (ls : List Lexeme) : Prop where
  le : n ≤ ls.length
  closed : ∀ s, openAfter s ((ls.take n).map .own) = some s
  ends : ∀ b, endsAfter b (ls.take n) = true

theorem Completes.cons (h : Completes n ls) (hl : ∀ s, Printed.meets s (.own l) = some s) :
    Completes (n + 1) (l :: ls) where
  le := Nat.succ_le_succ h.le
  closed s := by
    rw [List.take_succ_cons, List.map_cons, openAfter_cons, hl, Option.bind_some, h.closed]
  ends b := by rw [List.take_succ_cons, endsAfter_cons, h.ends]

theorem completes_one (hl : ∀ s, Printed.meets s (.own l) = some s) (hend : l.endsOperand = true) :
    Completes 1 (l :: ls) where
  le := Nat.le_add_left 1 ls.length
  closed s := by simp [hl]
  ends b := by simp [hend]

/-- What is passed over up to a closing parenthesis closes the parentheses that are open. -/
theorem openAfter_of_closingLength {depth : ℕ} (h : closingLength depth ls = some n)
    (hdepth : depth ≠ 0) : n ≤ ls.length ∧ (∀ b, endsAfter b (ls.take n) = true) ∧
      ∀ s, openAfter (List.replicate depth true ++ s) ((ls.take n).map .own) = some s := by
  fun_induction closingLength depth ls generalizing n with
  | case1 => cases h
  | case2 depth ls ih =>
    obtain ⟨n, hn, rfl⟩ := Option.map_eq_some_iff.mp h
    obtain ⟨hle, hends, hopen⟩ := ih hn (Nat.succ_ne_zero depth)
    exact ⟨Nat.succ_le_succ hle, fun b ↦ by simp [hends], hopen⟩
  | case3 depth ls hlast =>
    cases h
    obtain rfl : depth = 1 := by omega
    exact ⟨Nat.le_add_left 1 ls.length, fun b ↦ rfl, fun s ↦ rfl⟩
  | case4 depth ls hmore ih =>
    obtain ⟨n, hn, rfl⟩ := Option.map_eq_some_iff.mp h
    obtain ⟨depth, rfl⟩ := Nat.exists_eq_succ_of_ne_zero hdepth
    obtain ⟨hle, hends, hopen⟩ := ih hn hmore
    exact ⟨Nat.succ_le_succ hle, fun b ↦ by simp [hends], hopen⟩
  | case5 depth l ls hopening hclosing ih =>
    obtain ⟨n, hn, rfl⟩ := Option.map_eq_some_iff.mp h
    obtain ⟨hle, hends, hopen⟩ := ih hn hdepth
    refine ⟨Nat.succ_le_succ hle, fun b ↦ by simp [hends], fun s ↦ ?_⟩
    cases l with
    | opening => exact (hopening rfl).elim
    | closing => exact (hclosing rfl).elim
    | _ => exact hopen s

/-- A parenthesis and what is passed over up to the one that closes it. -/
theorem Completes.of_closingLength (h : closingLength 1 ls = some n) :
    Completes (n + 1) (.opening :: ls) := by
  obtain ⟨hle, hends, hopen⟩ := openAfter_of_closingLength h one_ne_zero
  exact ⟨Nat.succ_le_succ hle, hopen, fun b ↦ by simp [hends]⟩

theorem Completes.of_operandLength (h : operandLength ls = some n) : Completes n ls := by
  fun_induction operandLength ls generalizing n with
  | case1 minus ls ih =>
    obtain ⟨n, hn, rfl⟩ := Option.map_eq_some_iff.mp h
    exact (ih hn).cons fun _ ↦ rfl
  | case2 text ls | case4 text ls _ =>
    cases h
    exact completes_one (fun _ ↦ rfl) rfl
  | case3 text ls =>
    obtain ⟨n, hn, rfl⟩ := Option.map_eq_some_iff.mp h
    exact (of_closingLength hn).cons fun _ ↦ rfl
  | case5 ls =>
    obtain ⟨n, hn, rfl⟩ := Option.map_eq_some_iff.mp h
    exact of_closingLength hn
  | case6 => cases h

/-- Powers add whole operands to what is passed over. -/
theorem openAfter_of_powersLength {skip : ℕ} (h : powersLength skip ls = some n)
    (hskip : skip ≤ ls.length) : n ≤ ls.length ∧ (n = skip ∨ ∀ b, endsAfter b (ls.take n) = true) ∧
      ∀ s, openAfter s ((ls.take n).map .own) = openAfter s ((ls.take skip).map .own) := by
  fun_induction powersLength skip ls generalizing n with
  | case1 skip l ls ih =>
    obtain ⟨n, hn, rfl⟩ := Option.map_eq_some_iff.mp h
    obtain ⟨hle, hends, hopen⟩ := ih hn (Nat.le_of_succ_le_succ hskip)
    refine ⟨Nat.succ_le_succ hle, ?_, fun s ↦ ?_⟩
    · exact hends.imp (congrArg (· + 1)) fun hends b ↦ by simp [hends]
    · rw [List.take_succ_cons, List.take_succ_cons, List.map_cons, List.map_cons, openAfter_cons,
        openAfter_cons]
      exact congrArg _ (funext hopen)
  | case2 stars ls ih =>
    obtain ⟨operand, hoperand, h⟩ := Option.bind_eq_some_iff.mp h
    obtain ⟨rest, hrest, h⟩ := Option.bind_eq_some_iff.mp h
    cases h
    have hcomplete := Completes.of_operandLength hoperand
    obtain ⟨hle, hends, hopen⟩ := ih operand hrest hcomplete.le
    have hends' : ∀ b, endsAfter b (ls.take rest) = true := by
      rcases hends with rfl | hends
      · exact hcomplete.ends
      · exact hends
    exact ⟨Nat.succ_le_succ hle, .inr fun b ↦ by simp [hends'],
      fun s ↦ (hopen s).trans (hcomplete.closed s)⟩
  | case3 ls skip hcons _ =>
    cases h
    cases skip with
    | zero => exact ⟨Nat.zero_le _, .inl rfl, fun s ↦ rfl⟩
    | succ skip =>
      cases ls with
      | nil => exact absurd hskip (Nat.not_succ_le_zero skip)
      | cons l ls => exact (hcons skip l ls rfl rfl).elim

theorem Completes.of_chainLength (h : chainLength ls = some n) : Completes n ls := by
  obtain ⟨operand, hoperand, h⟩ := Option.bind_eq_some_iff.mp h
  obtain ⟨all, hall, h⟩ := Option.bind_eq_some_iff.mp h
  split at h
  · cases h
  next hne =>
    cases h
    have hcomplete := of_operandLength hoperand
    obtain ⟨hle, hends, hopen⟩ := openAfter_of_powersLength hall hcomplete.le
    exact ⟨hle, fun s ↦ (hopen s).trans (hcomplete.closed s), hends.resolve_left hne⟩

/-- A chain of powers is not empty. -/
theorem Completes.pos (h : Completes n ls) : 0 < n := by
  refine Nat.pos_of_ne_zero ?_
  rintro rfl
  exact Bool.false_ne_true (h.ends false)

end Segments

/-! ## Added parentheses -/

/-- Some printed lexemes end with a sign of the author's that stands in front of an operand. -/
def FollowsSign (afterOperand : Bool) (front : List Printed) : Prop :=
  ∃ before minus, front = before ++ [.own (.sign minus)] ∧
    endsAfter afterOperand (before.filterMap Printed.own?) = false

/-- Some lexemes are printed with pairs of parentheses added, where `afterOperand` tells whether an
operand ends in front of them. -/
structure Encloses (afterOperand : Bool) (ls : List Lexeme) (ps : List Printed) : Prop where
  /-- Each lexeme is printed once, in order, and nothing else but the added parentheses. -/
  own : ps.filterMap Printed.own? = ls
  /-- Added parentheses are closed where they open. -/
  stack : ∀ s, openAfter s ps = openAfter s (ls.map .own)
  /-- Every parenthesis that is added to open something follows a sign in front of an operand, and
  one closes it. -/
  opening : ∀ front rest, ps = front ++ .opening :: rest → FollowsSign afterOperand front ∧
    ∃ inner back, rest = inner ++ .closing :: back ∧ Balanced inner
  /-- Every parenthesis that is added to close something closes one that is added. -/
  closing : ∀ front rest, ps = front ++ .closing :: rest →
    ∃ before inner, front = before ++ .opening :: inner ∧ Balanced inner

/-! ### Places -/

/-- A place in a list that is put together is a place in one of its parts. -/
theorem append_eq_append_cons {α : Type} {ps qs front rest : List α} {x : α}
    (h : ps ++ qs = front ++ x :: rest) :
    (∃ mid, ps = front ++ x :: mid ∧ rest = mid ++ qs) ∨
      ∃ mid, front = ps ++ mid ∧ qs = mid ++ x :: rest := by
  rcases List.append_eq_append_iff.mp h with ⟨mid, rfl, hmid⟩ | ⟨mid, rfl, hmid⟩
  · exact .inr ⟨mid, rfl, hmid⟩
  · cases mid with
    | nil => exact .inr ⟨[], by rw [List.append_nil, List.append_nil], hmid.symm⟩
    | cons y mid =>
      obtain ⟨rfl, rfl⟩ := List.cons.inj hmid
      exact .inl ⟨mid, rfl, rfl⟩

theorem singleton_eq_append_cons {α : Type} {front rest : List α} {x y : α}
    (h : [y] = front ++ x :: rest) : front = [] ∧ y = x ∧ rest = [] := by
  cases front with
  | nil =>
    obtain ⟨hx, hrest⟩ := List.cons.inj h
    exact ⟨rfl, hx, hrest.symm⟩
  | cons z front =>
    exact absurd (List.cons.inj h).2.symm
      (List.append_ne_nil_of_right_ne_nil front (List.cons_ne_nil x rest))

/-- A place in a pair of parentheses behind a lexeme. -/
theorem pair_eq_append_cons {l : Lexeme} {x : Printed} {front inner rest : List Printed}
    (h : .own l :: .opening :: (inner ++ [.closing]) = front ++ x :: rest) :
    x = .own l ∨ (front = [.own l] ∧ x = .opening ∧ rest = inner ++ [.closing]) ∨
      (∃ front' mid, front = .own l :: .opening :: front' ∧ inner = front' ++ x :: mid ∧
        rest = mid ++ [.closing]) ∨ front = .own l :: .opening :: inner ∧ x = .closing := by
  cases front with
  | nil => exact .inl (List.cons.inj h).1.symm
  | cons y front =>
    obtain ⟨rfl, htail⟩ := List.cons.inj h
    cases front with
    | nil =>
      obtain ⟨rfl, rfl⟩ := List.cons.inj htail
      exact .inr (.inl ⟨rfl, rfl, rfl⟩)
    | cons z front =>
      obtain ⟨rfl, htail'⟩ := List.cons.inj htail
      rcases append_eq_append_cons htail' with ⟨mid, hinner, hrest⟩ | ⟨mid, rfl, hmid⟩
      · exact .inr (.inr (.inl ⟨front, mid, rfl, hinner, hrest⟩))
      · obtain ⟨rfl, rfl, -⟩ := singleton_eq_append_cons hmid
        exact .inr (.inr (.inr ⟨by rw [List.append_nil], rfl⟩))

/-! ### Pairs -/

section Encloses

variable {afterOperand : Bool} {p q : List Lexeme} {front inner ps qs : List Printed}

theorem FollowsSign.append (ps : List Printed)
    (h : FollowsSign (endsAfter afterOperand (ps.filterMap Printed.own?)) front) :
    FollowsSign afterOperand (ps ++ front) := by
  obtain ⟨before, minus, rfl, hends⟩ := h
  refine ⟨ps ++ before, minus, (List.append_assoc ..).symm, ?_⟩
  rw [List.filterMap_append, endsAfter_append, hends]

theorem encloses_nil : Encloses afterOperand [] [] where
  own := rfl
  stack _ := rfl
  opening _ _ h := absurd h.symm (List.append_ne_nil_of_right_ne_nil _ (List.cons_ne_nil _ _))
  closing _ _ h := absurd h.symm (List.append_ne_nil_of_right_ne_nil _ (List.cons_ne_nil _ _))

/-- A lexeme is kept. -/
theorem encloses_single (l : Lexeme) : Encloses afterOperand [l] [.own l] where
  own := rfl
  stack _ := rfl
  opening _ _ h := Printed.noConfusion (singleton_eq_append_cons h).2.1
  closing _ _ h := Printed.noConfusion (singleton_eq_append_cons h).2.1

/-- Lexemes that stand one behind the other are printed one behind the other. -/
theorem Encloses.append (hp : Encloses afterOperand p ps)
    (hq : Encloses (endsAfter afterOperand p) q qs) :
    Encloses afterOperand (p ++ q) (ps ++ qs) where
  own := by rw [List.filterMap_append, hp.own, hq.own]
  stack s := by
    rw [List.map_append, openAfter_append, openAfter_append, hp.stack]
    exact congrArg _ (funext hq.stack)
  opening front rest h := by
    rcases append_eq_append_cons h with ⟨mid, rfl, rfl⟩ | ⟨mid, rfl, rfl⟩
    · obtain ⟨hsign, inner, back, rfl, hinner⟩ := hp.opening front mid rfl
      exact ⟨hsign, inner, back ++ qs, List.append_assoc .., hinner⟩
    · obtain ⟨hsign, hrest⟩ := hq.opening mid rest rfl
      exact ⟨FollowsSign.append ps (hp.own.symm ▸ hsign), hrest⟩
  closing front rest h := by
    rcases append_eq_append_cons h with ⟨mid, rfl, rfl⟩ | ⟨mid, rfl, rfl⟩
    · exact hp.closing front mid rfl
    · obtain ⟨before, inner, rfl, hinner⟩ := hq.closing mid rest rfl
      exact ⟨ps ++ before, inner, (List.append_assoc ..).symm, hinner⟩

/-- A pair of parentheses is added behind a sign, around lexemes that close their own. -/
theorem Encloses.enclose (minus : Bool) (hp : Encloses false p inner)
    (hclosed : ∀ s, openAfter s (p.map .own) = some s) :
    Encloses false (.sign minus :: p)
      (.own (.sign minus) :: .opening :: (inner ++ [.closing])) where
  own := by
    change Lexeme.sign minus :: (inner ++ [Printed.closing]).filterMap Printed.own? = _
    rw [List.filterMap_append, hp.own]
    exact congrArg _ (List.append_nil p)
  stack s := by
    change openAfter (false :: s) (inner ++ [.closing]) = openAfter s (p.map .own)
    rw [openAfter_append, hp.stack, hclosed, hclosed]
    rfl
  opening front rest h := by
    have hinner : Balanced inner := (hp.stack []).trans (hclosed [])
    rcases pair_eq_append_cons h with h | ⟨rfl, -, rfl⟩ | ⟨front, mid, rfl, rfl, rfl⟩ | ⟨-, h⟩
    · exact Printed.noConfusion h
    · exact ⟨⟨[], minus, rfl, rfl⟩, inner, [], rfl, hinner⟩
    · obtain ⟨hsign, inner', back, rfl, hinner'⟩ := hp.opening front mid rfl
      exact ⟨FollowsSign.append [.own (.sign minus), .opening] hsign, inner', back ++ [.closing],
        List.append_assoc .., hinner'⟩
    · exact Printed.noConfusion h
  closing front rest h := by
    have hinner : Balanced inner := (hp.stack []).trans (hclosed [])
    rcases pair_eq_append_cons h with h | ⟨-, h, -⟩ | ⟨front, mid, rfl, rfl, -⟩ | ⟨rfl, -⟩
    · exact Printed.noConfusion h
    · exact Printed.noConfusion h
    · obtain ⟨before, inner', rfl, hinner'⟩ := hp.closing front mid rfl
      exact ⟨.own (.sign minus) :: .opening :: before, inner', rfl, hinner'⟩
    · exact ⟨[.own (.sign minus)], inner, rfl, hinner⟩

/-- Whatever the lexemes are, grouping adds pairs of parentheses to them. -/
theorem exists_encloses_groupFrom (afterOperand : Bool) (ls : List Lexeme) :
    ∃ ps, groupFrom afterOperand ls = ps.map Printed.lexeme ∧ Encloses afterOperand ls ps := by
  fun_induction groupFrom afterOperand ls with
  | case1 => exact ⟨[], rfl, encloses_nil⟩
  | case2 afterOperand minus ls n hn ih ih' =>
    obtain ⟨inner, hinner, hp⟩ := ih
    obtain ⟨back, hback, hq⟩ := ih'
    cases afterOperand with
    | true => cases hn
    | false =>
      have hchain := Completes.of_chainLength hn
      have hpair := hp.enclose minus hchain.closed
      rw [← hchain.ends (Lexeme.sign minus).endsOperand, ← endsAfter_cons] at hq
      have hall := hpair.append hq
      rw [List.cons_append, List.take_append_drop] at hall
      refine ⟨_, ?_, hall⟩
      rw [hinner, hback]
      simp [Printed.lexeme]
  | case3 _ minus ls _ ih =>
    obtain ⟨ps, hps, hls⟩ := ih
    exact ⟨.own (.sign minus) :: ps, congrArg (.sign minus :: ·) hps,
      (encloses_single (.sign minus)).append hls⟩
  | case4 _ l ls _ ih =>
    obtain ⟨ps, hps, hls⟩ := ih
    exact ⟨.own l :: ps, congrArg (l :: ·) hps, (encloses_single l).append hls⟩

/-- No text is lost, repeated or moved when it is written for evaluation: the lexemes spell it
without its blanks and have a character each, and they are printed in order, each once, with single
spaces between them and pairs of parentheses added, each behind a sign in front of an operand and
around lexemes that close their own parentheses.  What is passed over behind a sign is some of the
lexemes that are there, so what is left to group gets shorter. -/
theorem evaluationText_encloses (source : String) :
    ((lexemes source).flatMap Lexeme.spelling = source.toList.filter (!isBlank ·) ∧
      ∀ l ∈ lexemes source, l.spelling ≠ []) ∧
    (∃ ps : List Printed, evaluationText source =
        String.ofList ([' '].intercalate (ps.map fun p ↦ p.lexeme.render)) ∧
      Encloses false (lexemes source) ps) ∧
    ∀ ls n, chainLength ls = some n → 0 < n ∧ n ≤ ls.length := by
  refine ⟨⟨flatMap_spelling 0 source.toList, fun l ↦ spelling_ne_nil_of_mem⟩, ?_, fun ls n hn ↦ ?_⟩
  · obtain ⟨ps, hps, hencloses⟩ := exists_encloses_groupFrom false (lexemes source)
    refine ⟨ps, ?_, hencloses⟩
    rw [evaluationText, grouped, hps, List.map_map]
    rfl
  · have hchain := Completes.of_chainLength hn
    exact ⟨hchain.pos, hchain.le⟩

end Encloses

end FormulaQuiz.Formula
