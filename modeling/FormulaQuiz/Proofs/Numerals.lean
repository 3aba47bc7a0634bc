import FormulaQuiz.Decimal.Numeral
import Mathlib.Data.List.TakeWhile

/-!
# The longest numeral

A numeral is split off in parts, each of which takes as much as it can, and an exponent without
digits is given back.  No part begins with a character that the part in front of it may go on with,
so what is taken by parts is the longest numeral that stands in front of the text.
-/

namespace FormulaQuiz.Decimal

/-! ## Splitting by longest match -/

/-- A text is split behind the longest part in front that belongs to a class. -/
structure SplitsLongest (P : List Char → Prop) (cs : List Char) (split : List Char × List Char) :
    Prop where
  append : split.1 ++ split.2 = cs
  holds : P split.1
  longest : ∀ p, P p → p <+: cs → p <+: split.1

/-- A text of one class and a text of another one after it. -/
def Joined (P Q : List Char → Prop) (cs : List Char) : Prop := ∃ p q, P p ∧ Q q ∧ cs = p ++ q

section SplitsLongest

variable {P P' Q : List Char → Prop} {cs p rest q rest' : List Char} {a b : List Char × List Char}

theorem SplitsLongest.unique (ha : SplitsLongest P cs a) (hb : SplitsLongest P cs b) : a = b := by
  have hfst : a.1 = b.1 := by
    refine List.IsPrefix.eq_of_length_le (hb.longest _ ha.holds ⟨_, ha.append⟩) ?_
    exact (ha.longest _ hb.holds ⟨_, hb.append⟩).length_le
  have hsnd : a.2 = b.2 := by
    have happend : a.1 ++ a.2 = a.1 ++ b.2 := by rw [ha.append, hfst, hb.append]
    exact List.append_cancel_left happend
  exact Prod.ext hfst hsnd

/-- A text is the longest in front of what it does not go on with. -/
theorem SplitsLongest.of_stops (hp : P p) (hstops : ∀ t, t <+: rest → t ≠ [] → ¬P (p ++ t)) :
    SplitsLongest P (p ++ rest) (p, rest) := by
  refine ⟨rfl, hp, fun p' hp' hprefix ↦ ?_⟩
  rcases List.prefix_or_prefix_of_prefix hprefix (List.prefix_append p rest) with hle | ⟨t, rfl⟩
  · exact hle
  · by_cases hnil : t = []
    · have heq : p ++ t ++ [] = p := by rw [hnil, List.append_nil, List.append_nil]
      exact ⟨[], heq⟩
    · exact absurd hp' (hstops t ((List.prefix_append_right_inj p).mp hprefix) hnil)

/-- A narrower class has the same longest text, if that text belongs to it. -/
theorem SplitsLongest.of_imp (h : SplitsLongest P cs a) (hle : ∀ p, P' p → P p) (ha : P' a.1) :
    SplitsLongest P' cs a :=
  ⟨h.append, ha, fun p hp ↦ h.longest p (hle p hp)⟩

/-- Longest texts one after the other are the longest together, if no text of the second class
begins with a character of a text of the first one. -/
theorem SplitsLongest.join (hp : SplitsLongest P cs (p, rest)) (hq : SplitsLongest Q rest (q, rest'))
    (hapart : ∀ p c q, P p → Q (c :: q) → c ∉ p) :
    SplitsLongest (Joined P Q) cs (p ++ q, rest') := by
  have hcs : p ++ rest = cs := hp.append
  have hrest : q ++ rest' = rest := hq.append
  refine ⟨?_, ⟨p, q, hp.holds, hq.holds, rfl⟩, ?_⟩
  · rw [List.append_assoc, hrest, hcs]
  · rintro _ ⟨p', q', hp', hq', rfl⟩ hprefix
    obtain ⟨d, rfl⟩ := hp.longest p' hp' ((List.prefix_append p' q').trans hprefix)
    dsimp only
    rw [← hcs, List.append_assoc, List.prefix_append_right_inj] at hprefix
    rw [List.append_assoc, List.prefix_append_right_inj]
    cases d with
    | nil => exact hq.longest q' hq' hprefix
    | cons c d =>
      cases q' with
      | nil => exact List.nil_prefix
      | cons c' q' =>
        obtain ⟨rfl, -⟩ := List.cons_prefix_cons.mp hprefix
        refine absurd ?_ (hapart _ c' q' hp.holds hq')
        exact List.mem_append_right p' List.mem_cons_self

end SplitsLongest

/-! ## The parts of a numeral -/

/-- A text of digits, with at least one. -/
def IsDigits (ds : List Char) : Prop := ds ≠ [] ∧ ∀ c ∈ ds, isDigit c = true

/-- The part of a numeral in front of its exponent. -/
inductive IsMantissa : List Char → Prop
  | whole {ds : List Char} : IsDigits ds → IsMantissa ds
  | pointed {ds es : List Char} : IsDigits ds → (∀ c ∈ es, isDigit c = true) →
    IsMantissa (ds ++ '.' :: es)
  | fraction {ds : List Char} : IsDigits ds → IsMantissa ('.' :: ds)

/-- The letter of an exponent. -/
def IsExponentLetter (c : Char) : Prop := c = 'e' ∨ c = 'E'

/-- An exponent: its letter, an optional sign and digits. -/
inductive IsExponent : List Char → Prop
  | unsigned {e : Char} {ds : List Char} : IsExponentLetter e → IsDigits ds → IsExponent (e :: ds)
  | signed {e sign : Char} {ds : List Char} : IsExponentLetter e → sign = '+' ∨ sign = '-' →
    IsDigits ds → IsExponent (e :: sign :: ds)

/-- A numeral: digits, a point among or around them, and an optional exponent. -/
inductive IsNumeral : List Char → Prop
  | plain {m : List Char} : IsMantissa m → IsNumeral m
  | scaled {m x : List Char} : IsMantissa m → IsExponent x → IsNumeral (m ++ x)

section Parts

variable {cs : List Char} {c e : Char}

/-- A text of digits, which may be empty. -/
def AllDigits (cs : List Char) : Prop := ∀ c ∈ cs, isDigit c = true

/-- Nothing, or a point and what digits there are behind it. -/
def IsFraction (cs : List Char) : Prop := cs = [] ∨ ∃ ds, AllDigits ds ∧ cs = '.' :: ds

/-- Nothing, or an exponent. -/
def MayScale (cs : List Char) : Prop := cs = [] ∨ IsExponent cs

/-- Nothing, or a sign. -/
def IsSign (cs : List Char) : Prop := cs = [] ∨ cs = ['+'] ∨ cs = ['-']

theorem not_isDigit_sign (h : IsSign cs) (hc : c ∈ cs) : isDigit c = false := by
  rcases h with rfl | rfl | rfl
  · exact nomatch hc
  · rw [List.mem_singleton.mp hc]
    decide
  · rw [List.mem_singleton.mp hc]
    decide

theorem not_isDigit_letter (h : IsExponentLetter c) : isDigit c = false := by
  rcases h with rfl | rfl <;> decide

theorem isExponent_iff : IsExponent (e :: cs) ↔
    IsExponentLetter e ∧ Joined IsSign IsDigits cs := by
  constructor
  · rintro (⟨he, hds⟩ | ⟨he, hsign, hds⟩)
    · exact ⟨he, [], _, .inl rfl, hds, rfl⟩
    · refine ⟨he, [_], _, ?_, hds, rfl⟩
      rcases hsign with rfl | rfl
      · exact .inr (.inl rfl)
      · exact .inr (.inr rfl)
  · rintro ⟨he, sign, ds, hsign, hds, rfl⟩
    rcases hsign with rfl | rfl | rfl
    · exact .unsigned he hds
    · exact .signed he (.inl rfl) hds
    · exact .signed he (.inr rfl) hds

/-! ## What each part takes -/

theorem splitsLongest_splitDigits (cs : List Char) :
    SplitsLongest AllDigits cs (splitDigits cs) := by
  refine ⟨List.takeWhile_append_dropWhile, fun _ ↦ List.mem_takeWhile_imp, ?_⟩
  rintro p hp ⟨rest, rfl⟩
  rw [splitDigits, List.takeWhile_append_of_pos hp]
  exact List.prefix_append p _

theorem splitsLongest_splitFraction (cs : List Char) :
    SplitsLongest IsFraction cs (splitFraction cs) := by
  rw [splitFraction.eq_def]
  split
  next cs =>
    have hdigits := splitsLongest_splitDigits cs
    refine ⟨congrArg ('.' :: ·) hdigits.append, .inr ⟨_, hdigits.holds, rfl⟩, ?_⟩
    rintro p (rfl | ⟨ds, hds, rfl⟩) hprefix
    · exact List.nil_prefix
    · obtain ⟨-, hprefix⟩ := List.cons_prefix_cons.mp hprefix
      exact List.cons_prefix_cons.mpr ⟨rfl, hdigits.longest ds hds hprefix⟩
  next cs hnot =>
    refine ⟨rfl, .inl rfl, ?_⟩
    rintro p (rfl | ⟨ds, hds, rfl⟩) hprefix
    · exact List.nil_prefix
    · obtain ⟨rest, rfl⟩ := hprefix
      exact absurd rfl (hnot _)

theorem splitsLongest_splitSign (cs : List Char) : SplitsLongest IsSign cs (splitSign cs) := by
  cases cs with
  | nil => exact ⟨rfl, .inl rfl, fun p _ hprefix ↦ hprefix⟩
  | cons c cs =>
    rw [splitSign]
    split
    next hc =>
      refine ⟨rfl, .inr ?_, ?_⟩
      · rcases hc with rfl | rfl
        · exact .inl rfl
        · exact .inr rfl
      · rintro p (rfl | rfl | rfl) hprefix
        · exact List.nil_prefix
        all_goals
          obtain ⟨rfl, -⟩ := List.cons_prefix_cons.mp hprefix
          exact List.prefix_rfl
    next hc =>
      refine ⟨rfl, .inl rfl, ?_⟩
      rintro p (rfl | rfl | rfl) hprefix
      · exact List.nil_prefix
      · exact absurd (.inl (List.cons_prefix_cons.mp hprefix).1.symm) hc
      · exact absurd (.inr (List.cons_prefix_cons.mp hprefix).1.symm) hc

/-- A sign and digits are split off one after the other. -/
theorem splitsLongest_sign_digits (cs : List Char) :
    SplitsLongest (Joined IsSign AllDigits) cs
      ((splitSign cs).1 ++ (splitDigits (splitSign cs).2).1, (splitDigits (splitSign cs).2).2) := by
  refine (splitsLongest_splitSign cs).join (splitsLongest_splitDigits _) ?_
  intro p c q hp hq hc
  have hdigit := hq c List.mem_cons_self
  rw [not_isDigit_sign hp hc] at hdigit
  exact Bool.false_ne_true hdigit

/-- The sign and the digits of an exponent that a text begins with are among those that are split
off. -/
theorem eq_nil_or_of_mayScale {p : List Char} (hp : MayScale p) (hfront : p <+: e :: cs) :
    p = [] ∨ IsExponentLetter e ∧ ∃ p', p = e :: p' ∧ Joined IsSign IsDigits p' ∧
      p' <+: (splitSign cs).1 ++ (splitDigits (splitSign cs).2).1 := by
  rcases hp with rfl | hp
  · exact .inl rfl
  · cases p with
    | nil => exact .inl rfl
    | cons e' p' =>
      obtain ⟨rfl, htail⟩ := List.cons_prefix_cons.mp hfront
      obtain ⟨he, hjoined⟩ := isExponent_iff.mp hp
      obtain ⟨sign, ds, hsign, hds, rfl⟩ := id hjoined
      exact .inr ⟨he, _, rfl, hjoined,
        (splitsLongest_sign_digits cs).longest _ ⟨sign, ds, hsign, hds.2, rfl⟩ htail⟩

theorem splitsLongest_splitExponent (cs : List Char) :
    SplitsLongest MayScale cs (splitExponent cs) := by
  cases cs with
  | nil => exact ⟨rfl, .inl rfl, fun p _ hprefix ↦ hprefix⟩
  | cons e cs =>
    rw [splitExponent]
    split
    next he =>
      dsimp only
      split
      next hnil =>
        refine ⟨rfl, .inl rfl, fun p hp hprefix ↦ ?_⟩
        obtain rfl | ⟨-, p', rfl, ⟨sign, ds, hsign, hds, rfl⟩, hle⟩ :=
          eq_nil_or_of_mayScale hp hprefix
        · exact List.prefix_rfl
        · -- an exponent has a digit, which would be in the sign
          rw [List.isEmpty_iff.mp hnil, List.append_nil] at hle
          obtain ⟨c, ds, rfl⟩ := List.exists_cons_of_ne_nil hds.1
          have hmem : c ∈ (splitSign cs).1 :=
            hle.subset (List.mem_append_right sign List.mem_cons_self)
          have hdigit := hds.2 c List.mem_cons_self
          rw [not_isDigit_sign (splitsLongest_splitSign cs).holds hmem] at hdigit
          exact absurd hdigit Bool.false_ne_true
      next hnil =>
        refine ⟨congrArg (e :: ·) (splitsLongest_sign_digits cs).append,
          .inr (isExponent_iff.mpr ⟨he, ?_⟩), ?_⟩
        · exact ⟨_, _, (splitsLongest_splitSign cs).holds,
            ⟨fun h ↦ hnil (List.isEmpty_iff.mpr h), (splitsLongest_splitDigits _).holds⟩, rfl⟩
        · intro p hp hprefix
          obtain rfl | ⟨-, p', rfl, -, hle⟩ := eq_nil_or_of_mayScale hp hprefix
          · exact List.nil_prefix
          · exact List.cons_prefix_cons.mpr ⟨rfl, hle⟩
    next he =>
      refine ⟨rfl, .inl rfl, fun p hp hprefix ↦ ?_⟩
      obtain rfl | ⟨he', -⟩ := eq_nil_or_of_mayScale hp hprefix
      · exact List.prefix_rfl
      · exact absurd he' he

end Parts

/-! ## The longest numeral in front -/

section Numeral

variable {cs m p q : List Char} {c e : Char}

/-- What is split off as digits and a fraction, whether there is a digit in it or not. -/
def LooseMantissa : List Char → Prop := Joined AllDigits IsFraction

theorem LooseMantissa.isDigit_or_eq_point (h : LooseMantissa m) (hc : c ∈ m) :
    isDigit c = true ∨ c = '.' := by
  obtain ⟨whole, fraction, hwhole, hfraction, rfl⟩ := h
  rcases List.mem_append.mp hc with hc | hc
  · exact .inl (hwhole c hc)
  · rcases hfraction with rfl | ⟨ds, hds, rfl⟩
    · exact nomatch hc
    · exact (List.mem_cons.mp hc).symm.imp_left (hds c)

theorem LooseMantissa.notMem_letter (h : LooseMantissa m) (he : IsExponentLetter e) : e ∉ m := by
  intro hmem
  rcases h.isDigit_or_eq_point hmem with hdigit | rfl
  · rw [not_isDigit_letter he] at hdigit
    exact Bool.false_ne_true hdigit
  · rcases he with he | he <;> exact absurd he (by decide)

theorem IsMantissa.loose (h : IsMantissa m) : LooseMantissa m := by
  cases h with
  | whole hds => exact ⟨m, [], hds.2, .inl rfl, (List.append_nil m).symm⟩
  | pointed hds hes => exact ⟨_, _, hds.2, .inr ⟨_, hes, rfl⟩, rfl⟩
  | fraction hds => exact ⟨[], _, nofun, .inr ⟨_, hds.2, rfl⟩, rfl⟩

theorem IsNumeral.loose (h : IsNumeral p) : Joined LooseMantissa MayScale p := by
  cases h with
  | plain hm => exact ⟨p, [], hm.loose, .inl rfl, (List.append_nil p).symm⟩
  | scaled hm hx => exact ⟨_, _, hm.loose, .inr hx, rfl⟩

theorem splitsLongest_mantissa (cs : List Char) : SplitsLongest LooseMantissa cs
    ((splitDigits cs).1 ++ (splitFraction (splitDigits cs).2).1,
      (splitFraction (splitDigits cs).2).2) := by
  refine (splitsLongest_splitDigits cs).join (splitsLongest_splitFraction _) ?_
  rintro p c q hp (hnil | ⟨ds, -, hpoint⟩) hmem
  · exact nomatch hnil
  · obtain ⟨rfl, -⟩ := List.cons.inj hpoint
    exact absurd (hp _ hmem) (by decide)

theorem MayScale.letter (h : MayScale (e :: q)) : IsExponentLetter e :=
  (isExponent_iff.mp (h.resolve_left nofun)).1

theorem LooseMantissa.notMem (h : LooseMantissa m) (hx : MayScale (e :: q)) : e ∉ m :=
  h.notMem_letter hx.letter

theorem splitsLongest_splitNumeral (cs : List Char) :
    SplitsLongest (Joined LooseMantissa MayScale) cs (splitNumeral cs) :=
  (splitsLongest_mantissa cs).join (splitsLongest_splitExponent _) fun _ _ _ hm hx ↦ hm.notMem hx

/-- A numeral may begin with `c`, followed by `cs`: with a digit, or with a point and a digit. -/
def StartsNumeral (c : Char) (cs : List Char) : Prop :=
  isDigit c = true ∨ c = '.' ∧ cs.head?.any isDigit = true

theorem LooseMantissa.isMantissa (h : LooseMantissa m) (hc : c ∈ m) (hdigit : isDigit c = true) :
    IsMantissa m := by
  obtain ⟨whole, fraction, hwhole, hfraction, rfl⟩ := h
  by_cases hnil : whole = []
  · subst hnil
    rcases hfraction with rfl | ⟨ds, hds, rfl⟩
    · exact nomatch hc
    · rcases List.mem_cons.mp hc with rfl | hc
      · exact absurd hdigit (by decide)
      · exact .fraction ⟨List.ne_nil_of_mem hc, hds⟩
  · rcases hfraction with rfl | ⟨ds, hds, rfl⟩
    · rw [List.append_nil]
      exact .whole ⟨hnil, hwhole⟩
    · exact .pointed ⟨hnil, hwhole⟩ hds

theorem StartsNumeral.exists_mantissa (h : StartsNumeral c cs) :
    ∃ m, IsMantissa m ∧ m <+: c :: cs := by
  rcases h with hc | ⟨rfl, hcs⟩
  · exact ⟨[c], .whole ⟨List.cons_ne_nil _ _, List.forall_mem_singleton.mpr hc⟩, cs, rfl⟩
  · cases cs with
    | nil => exact nomatch hcs
    | cons d cs =>
      have hd : isDigit d = true := hcs
      exact ⟨['.', d], .fraction ⟨List.cons_ne_nil _ _, List.forall_mem_singleton.mpr hd⟩, cs, rfl⟩

theorem IsMantissa.exists_isDigit (h : IsMantissa m) : ∃ d ∈ m, isDigit d = true := by
  cases h with
  | whole hds => exact ⟨_, List.head_mem hds.1, hds.2 _ (List.head_mem hds.1)⟩
  | pointed hds =>
    exact ⟨_, List.mem_append_left _ (List.head_mem hds.1), hds.2 _ (List.head_mem hds.1)⟩
  | fraction hds =>
    exact ⟨_, List.mem_cons_of_mem _ (List.head_mem hds.1), hds.2 _ (List.head_mem hds.1)⟩

/-- Where a numeral may begin, the longest numeral is split off. -/
theorem StartsNumeral.splitsLongest (h : StartsNumeral c cs) :
    SplitsLongest IsNumeral (c :: cs) (splitNumeral (c :: cs)) := by
  refine (splitsLongest_splitNumeral (c :: cs)).of_imp (fun _ ↦ IsNumeral.loose) ?_
  have hmantissa := splitsLongest_mantissa (c :: cs)
  obtain ⟨m, hm, hprefix⟩ := h.exists_mantissa
  obtain ⟨d, hd, hdigit⟩ := hm.exists_isDigit
  have hmem := (hmantissa.longest m hm.loose hprefix).subset hd
  have hstrict := hmantissa.holds.isMantissa hmem hdigit
  rw [splitNumeral]
  dsimp only
  rcases (splitsLongest_splitExponent (splitFraction (splitDigits (c :: cs)).2).2).holds with
    hnil | hx
  · rw [hnil, List.append_nil]
    exact .plain hstrict
  · exact .scaled hstrict hx

/-- The letter of an exponent stands only in front of it. -/
theorem IsExponent.notMem_letter (hx : IsExponent (c :: q)) (he : IsExponentLetter e) : e ∉ q := by
  obtain ⟨-, sign, ds, hsign, hds, rfl⟩ := isExponent_iff.mp hx
  intro hmem
  rcases List.mem_append.mp hmem with hmem | hmem
  · rcases hsign with rfl | rfl | rfl
    · exact nomatch hmem
    all_goals
      rw [List.mem_singleton] at hmem
      subst hmem
      rcases he with he | he <;> exact absurd he (by decide)
  · have hdigit := hds.2 e hmem
    rw [not_isDigit_letter he] at hdigit
    exact Bool.false_ne_true hdigit

theorem splitsLongest_letter (hm : IsMantissa m) (he : IsExponentLetter e) :
    SplitsLongest LooseMantissa (m ++ e :: q) (m, e :: q) := by
  refine .of_stops hm.loose fun t ht hne hloose ↦ ?_
  obtain ⟨c, t, rfl⟩ := List.exists_cons_of_ne_nil hne
  obtain ⟨rfl, -⟩ := List.cons_prefix_cons.mp ht
  exact hloose.notMem_letter he (List.mem_append_right m List.mem_cons_self)

/-- A letter that no exponent begins with is not split off with the numeral in front of it. -/
theorem splitNumeral_of_not_isExponent (hp : IsNumeral p) (he : IsExponentLetter e)
    (hnot : ∀ x, IsExponent x → ¬x <+: e :: q) : splitNumeral (p ++ e :: q) = (p, e :: q) := by
  refine (splitsLongest_splitNumeral _).unique ?_
  cases hp with
  | plain hm =>
    have hexponent : SplitsLongest MayScale ([] ++ e :: q) ([], e :: q) :=
      .of_stops (Or.inl rfl) fun t ht hne ↦ not_or.mpr ⟨hne, fun hx ↦ hnot t hx ht⟩
    have hjoin := (splitsLongest_letter hm he).join hexponent fun _ _ _ hm hx ↦ hm.notMem hx
    rw [List.append_nil] at hjoin
    exact hjoin
  | @scaled m x hm hx =>
    obtain ⟨c, x, rfl⟩ : ∃ c x', x = c :: x' := by cases hx <;> exact ⟨_, _, rfl⟩
    have hexponent : SplitsLongest MayScale (c :: x ++ e :: q) (c :: x, e :: q) := by
      refine .of_stops (Or.inr hx) fun t ht hne hscale ↦ ?_
      obtain ⟨d, t, rfl⟩ := List.exists_cons_of_ne_nil hne
      obtain ⟨rfl, -⟩ := List.cons_prefix_cons.mp ht
      have hlong : IsExponent (c :: (x ++ d :: t)) := hscale.resolve_left nofun
      exact hlong.notMem_letter he (List.mem_append_right x List.mem_cons_self)
    rw [List.append_assoc]
    exact (splitsLongest_letter hm (isExponent_iff.mp hx).1).join hexponent
      fun _ _ _ hm hx ↦ hm.notMem hx

end Numeral

end FormulaQuiz.Decimal
