import FormulaQuiz.Proofs.Failures
import FormulaQuiz.Proofs.Lockstep
import FormulaQuiz.Proofs.Strays

/-!
# Which identifier an author is told of

Before a right side is evaluated its identifiers are checked, and the message on the first one at
fault quotes it.  Only a name that is used too early is quoted as a name.  All other identifiers are
quoted as they stand in the formula, where names have aliases: so an alias is shown if a bracket
opens after a name, or if the identifier has more in it than the name.
-/

namespace FormulaQuiz

open Formula (Bindings Symbol checkSymbol checkSymbols isCalledBy lastOf symbolsFrom)
open Text (isIdentifierChar isIdentifierStart)

/-! ## The identifiers among marks -/

namespace Mark

/-- Whether an identifier may begin with a mark. -/
def starts : Mark → Bool
  | char c => isIdentifierStart c
  | name _ => true

/-- Whether a mark keeps an identifier after it from being one. -/
def joins : Mark → Bool
  | char c => Formula.joins c
  | name _ => true

/-- An identifier among marks. -/
structure Word where
  run : List Mark
  /-- Whether a bracket opens after it. -/
  isCalled : Bool
deriving DecidableEq, Repr

/-- The identifier that a word is in a formula. -/
def Word.symbol (word : String → List Char) (w : Word) : Symbol :=
  ⟨String.ofList (text word w.run), w.isCalled⟩

/-- A word has a name in it, and is called or has something else in it too. -/
def Word.Exposes (w : Word) : Prop :=
  (∃ n, name n ∈ w.run) ∧ (w.isCalled = true ∨ ∀ n, w.run ≠ [name n])

/-- The identifiers of marks in order; `before` tells whether the mark to the left joins. -/
def words (before : Bool) : List Mark → List Word
  | [] => []
  | m :: ms =>
    if m.starts then
      let later := words true (ms.dropWhile sticks)
      if before then later
      else ⟨m :: ms.takeWhile sticks, opens (ms.dropWhile sticks)⟩ :: later
    else words m.joins ms
termination_by ms => ms.length
decreasing_by
  · exact Nat.lt_succ_of_le (List.dropWhile_suffix _).length_le
  · exact Nat.lt_succ_self _

section Words

variable {word : String → List Char} {m : Mark} {ms : List Mark} {w : Word} {before : Bool}

theorem Identifies.of_subset {ms' : List Mark} (h : Identifies word ms) (hms : ms' ⊆ ms) :
    Identifies word ms' := fun n hn ↦ h n (hms hn)

theorem text_append (ms ms' : List Mark) : text word (ms ++ ms') = text word ms ++ text word ms' := by
  induction ms with
  | nil => rfl
  | cons m ms ih =>
    cases m with
    | char c => exact congrArg (c :: ·) ih
    | name n => rw [List.cons_append, text, ih, text, List.append_assoc]

theorem eq_nil_of_text (h : Identifies word ms) (htext : text word ms = []) : ms = [] := by
  cases ms with
  | nil => rfl
  | cons m ms =>
    cases m with
    | char c => cases htext
    | name n =>
      obtain ⟨c, cs, hword, -⟩ := h n List.mem_cons_self
      rw [text, hword] at htext
      cases htext

/-- An identifier that begins among marks goes on as far as they stick. -/
theorem span_text (h : Identifies word ms) :
    (text word ms).takeWhile isIdentifierChar = text word (ms.takeWhile sticks) ∧
      (text word ms).dropWhile isIdentifierChar = text word (ms.dropWhile sticks) := by
  induction ms with
  | nil => exact ⟨rfl, rfl⟩
  | cons m ms ih =>
    obtain ⟨htake, hdrop⟩ := ih h.tail
    cases m with
    | char c =>
      rw [List.takeWhile_cons, List.dropWhile_cons, sticks, text, List.takeWhile_cons,
        List.dropWhile_cons]
      cases isIdentifierChar c with
      | false => exact ⟨rfl, rfl⟩
      | true => exact ⟨congrArg (c :: ·) htake, hdrop⟩
    | name n =>
      obtain ⟨c, cs, hword, hc, hcs⟩ := h n List.mem_cons_self
      have hall : ∀ d ∈ word n, isIdentifierChar d = true := by
        rw [hword]
        exact List.forall_mem_cons.mpr ⟨Formula.isIdentifierChar_of_isIdentifierStart hc, hcs⟩
      rw [text, List.takeWhile_append_of_pos hall, List.dropWhile_append_of_pos hall, htake, hdrop]
      exact ⟨rfl, rfl⟩

/-- A mark that begins an identifier is a character that does, and maybe others. -/
theorem exists_cons_of_starts (h : Identifies word (m :: ms)) (hm : m.starts = true) :
    ∃ c cs, text word (m :: ms) = c :: cs ∧ isIdentifierStart c = true := by
  cases m with
  | char c => exact ⟨c, _, rfl, hm⟩
  | name n =>
    obtain ⟨c, cs, hword, hc, -⟩ := h n List.mem_cons_self
    exact ⟨c, cs ++ text word ms, by rw [text, hword, List.cons_append], hc⟩

theorem sticks_of_starts (hm : m.starts = true) : m.sticks = true := by
  cases m with
  | char c => exact Formula.isIdentifierChar_of_isIdentifierStart hm
  | name n => rfl

/-- An identifier at the front of a text, and what follows it. -/
theorem symbolsFrom_starts (h : Identifies word (m :: ms)) (hm : m.starts = true)
    (left : Option Char) : ∃ last, Formula.joins last = true ∧
      symbolsFrom 0 left (text word (m :: ms)) =
        (if left.any Formula.joins then []
          else [Word.symbol word ⟨m :: ms.takeWhile sticks, opens (ms.dropWhile sticks)⟩]) ++
          symbolsFrom 0 (some last) (text word (ms.dropWhile sticks)) := by
  obtain ⟨c, cs, hcons, hc⟩ := exists_cons_of_starts h hm
  have hchar := Formula.isIdentifierChar_of_isIdentifierStart hc
  obtain ⟨htake, hdrop⟩ := span_text h
  rw [hcons, List.takeWhile_cons_of_pos hchar, List.takeWhile_cons_of_pos (sticks_of_starts hm)]
    at htake
  rw [hcons, List.dropWhile_cons_of_pos hchar, List.dropWhile_cons_of_pos (sticks_of_starts hm)]
    at hdrop
  obtain ⟨last, hlast, hmem⟩ : ∃ last,
      lastOf (some c) (cs.takeWhile isIdentifierChar) = some last ∧
        last ∈ c :: cs.takeWhile isIdentifierChar := by
    rw [← @Formula.lastOf_cons none, lastOf, List.getLast?_eq_some_getLast (List.cons_ne_nil c _)]
    exact ⟨_, rfl, List.getLast_mem _⟩
  have hrest : Identifies word (ms.dropWhile sticks) :=
    h.tail.of_subset (List.dropWhile_suffix _).subset
  refine ⟨last, ?_, ?_⟩
  · have hall : ∀ d ∈ c :: cs.takeWhile isIdentifierChar, isIdentifierChar d = true :=
      List.forall_mem_cons.mpr ⟨hchar, fun _ ↦ List.mem_takeWhile_imp⟩
    rw [Formula.joins, hall last hmem, Bool.true_or]
  · rw [hcons, Formula.symbolsFrom_start hc, hlast, htake, hdrop, isCalledBy_text hrest]
    rfl

/-- The identifiers of a text are those of its marks. -/
theorem symbolsFrom_words (h : Identifies word ms) {left : Option Char}
    (hleft : left.any Formula.joins = before) :
    symbolsFrom 0 left (text word ms) = (words before ms).map (Word.symbol word) := by
  fun_induction words before ms generalizing left with
  | case1 => rfl
  | case2 m ms hm _ ih =>
    obtain ⟨last, hlast, hsymbols⟩ := symbolsFrom_starts h hm left
    rw [hsymbols, hleft, if_pos rfl, List.nil_append]
    exact ih (h.tail.of_subset (List.dropWhile_suffix _).subset) hlast
  | case3 before m ms hm _ hbefore ih =>
    obtain ⟨last, hlast, hsymbols⟩ := symbolsFrom_starts h hm left
    rw [hsymbols, hleft, if_neg hbefore, List.map_cons]
    exact congrArg (_ :: ·) (ih (h.tail.of_subset (List.dropWhile_suffix _).subset) hlast)
  | case4 before m ms hm ih =>
    cases m with
    | char c =>
      rw [text, symbolsFrom, if_neg (show ¬ isIdentifierStart c = true from hm)]
      exact ih h.tail rfl
    | name n => exact absurd rfl hm

/-- A word is made of marks that stand among the others. -/
theorem subset_of_mem_words (hw : w ∈ words before ms) : w.run ⊆ ms := by
  fun_induction words before ms with
  | case1 => exact absurd hw List.not_mem_nil
  | case2 m ms _ _ ih =>
    exact fun a ha ↦ List.mem_cons_of_mem _ ((List.dropWhile_suffix _).subset (ih hw ha))
  | case3 before m ms _ _ _ ih =>
    rcases List.mem_cons.mp hw with rfl | hw
    · exact List.cons_subset_cons m (List.takeWhile_prefix _).subset
    · exact fun a ha ↦ List.mem_cons_of_mem _ ((List.dropWhile_suffix _).subset (ih hw ha))
  | case4 before m ms _ ih => exact fun a ha ↦ List.mem_cons_of_mem _ (ih hw ha)

/-- Marks without a name are the characters of a text. -/
theorem exists_map_char (h : ∀ n, name n ∉ ms) : ∃ cs : List Char, ms = cs.map char := by
  induction ms with
  | nil => exact ⟨[], rfl⟩
  | cons m ms ih =>
    obtain ⟨cs, rfl⟩ := ih fun n hn ↦ h n (List.mem_cons_of_mem _ hn)
    cases m with
    | char c => exact ⟨c :: cs, rfl⟩
    | name n => exact absurd List.mem_cons_self (h n)

end Words

end Mark

/-! ## Aliases in identifiers -/

namespace AliasTable

variable {t : AliasTable} {ms : List Mark} {w : Mark.Word} {name u : String}

/-- Aliases are told from all that an author has written: none stands in a name that has an alias,
or in an identifier that has no name in it. -/
structure Clear (t : AliasTable) (ms : List Mark) : Prop where
  told : t.Told t.names
  written : ∀ w ∈ Mark.words false ms, ∀ cs : List Char, w.run = cs.map .char →
    ∀ u ∈ t.aliases, ¬ u.toList <:+: cs

theorem word_of_alias? (h : t.alias? name = some u) : t.word name = u.toList := by
  rw [word, h, Option.getD_some]

/-- The alias of a name stands in a word that has the name in it. -/
theorem infix_of_mem_run (h : t.alias? name = some u) (hname : .name name ∈ w.run) :
    u.toList <:+: (w.symbol t.word).name.toList := by
  obtain ⟨front, back, hrun⟩ := List.append_of_mem hname
  rw [Mark.Word.symbol, String.toList_ofList, hrun, Mark.text_append, Mark.text, word_of_alias? h]
  exact ⟨_, _, List.append_assoc _ _ _⟩

/-- A word without a name shows no alias. -/
theorem Clear.not_infix (h : t.Clear ms) (hw : w ∈ Mark.words false ms)
    (hnone : ∀ n, .name n ∉ w.run) (hu : u ∈ t.aliases) :
    ¬ u.toList <:+: (w.symbol t.word).name.toList := by
  obtain ⟨cs, hrun⟩ := Mark.exists_map_char hnone
  rw [Mark.Word.symbol, String.toList_ofList, hrun, Mark.text_map_char]
  exact h.written w hw cs hrun u hu

/-- An alias stands in a word just if a name is in it. -/
theorem Clear.infix_iff (h : t.Clear ms) (hw : w ∈ Mark.words false ms)
    (hnames : ∀ n, .name n ∈ ms → n ∈ t.names) :
    (∃ u ∈ t.aliases, u.toList <:+: (w.symbol t.word).name.toList) ↔ ∃ n, .name n ∈ w.run := by
  constructor
  · rintro ⟨u, hu, hin⟩
    by_contra hnone
    exact h.not_infix hw (not_exists.mp hnone) hu hin
  · rintro ⟨n, hn⟩
    have hname := hnames n (Mark.subset_of_mem_words hw hn)
    obtain ⟨u, hu⟩ := Option.isSome_iff_exists.mp (isSome_alias?_iff.mpr hname)
    exact ⟨u, mem_aliases hu, infix_of_mem_run hu hn⟩

/-- A word with a name in it is an alias only if it is nothing but the name. -/
theorem Sound.run_eq (h : t.Sound) (hnames : ∀ n, .name n ∈ w.run → n ∈ t.names)
    (hname : .name name ∈ w.run) (hu : u ∈ t.aliases) (hword : (w.symbol t.word).name = u) :
    w.run = [.name name] := by
  obtain ⟨v, hv⟩ := Option.isSome_iff_exists.mp (isSome_alias?_iff.mpr (hnames name hname))
  have hin := infix_of_mem_run hv hname
  rw [hword] at hin
  -- no alias stands in another one
  have hsame : v = u := by
    by_contra hne
    have hsymm : Std.Symm fun u v : String ↦
        ¬ v.toList <:+: u.toList ∧ ¬ u.toList <:+: v.toList := ⟨fun _ _ hapart ↦ hapart.symm⟩
    exact (h.apart.forall (mem_aliases hv) hu hne).2 hin
  subst hsame
  obtain ⟨front, back, hrun⟩ := List.append_of_mem hname
  have htext := congrArg String.toList hword
  rw [Mark.Word.symbol, String.toList_ofList, hrun, Mark.text_append, Mark.text, word_of_alias? hv]
    at htext
  have hlength := congrArg List.length htext
  rw [List.length_append, List.length_append] at hlength
  have hidentifies := identifies h hnames
  have hfront : front = [] :=
    Mark.eq_nil_of_text (hidentifies.of_subset (hrun ▸ List.subset_append_left _ _))
      (List.length_eq_zero_iff.mp (by omega))
  have hback : back = [] :=
    Mark.eq_nil_of_text
      (hidentifies.of_subset (hrun ▸ fun _ ha ↦ List.mem_append_right _ (List.mem_cons_of_mem _ ha)))
      (List.length_eq_zero_iff.mp (by omega))
  rw [hrun, hfront, hback]
  rfl

end AliasTable

/-! ## What is told -/

namespace Formula

variable {t : AliasTable} {b : Bindings} {ss : List Symbol} {f : Fault} {id : String}

/-- The identifier that is quoted in the message of a fault. -/
def Fault.quoted? : Fault → Option String
  | undefined id | unknown id | early id | unsupported id => some id
  | _ => none

/-- It stands between quotation marks. -/
theorem Fault.exists_message_eq (h : f.quoted? = some id) : ∃ front back,
    f.message = front ++ id ++ back ∧ front.toList.getLast? = some '"' ∧
      back.toList.head? = some '"' := by
  cases f with
  | undefined _ | unknown _ | early _ | unsupported _ =>
    cases h
    exact ⟨_, _, rfl, by decide, by decide⟩
  | _ => exact nomatch h

/-- The first identifier at fault is told of. -/
theorem exists_of_checkSymbols_eq_error (h : checkSymbols t b ss = .error f) :
    ∃ front s back, ss = front ++ s :: back ∧ (∀ a ∈ front, checkSymbol t b a = .ok ()) ∧
      checkSymbol t b s = .error f := by
  induction ss with
  | nil => exact nomatch h
  | cons s ss ih =>
    rcases Except.bind_eq_error_iff.mp h with hhere | ⟨_, hhere, h⟩
    · exact ⟨[], s, ss, rfl, nofun, hhere⟩
    · obtain ⟨front, s', back, rfl, hfront, hfault⟩ := ih h
      exact ⟨s :: front, s', back, rfl, List.forall_mem_cons.mpr ⟨hhere, hfront⟩, hfault⟩

/-- What is told of an identifier quotes it, or the name of which it is the alias. -/
inductive Told (t : AliasTable) (s : Symbol) : Fault → Prop where
  | called (h : s.isCalled = true) : Told t s (.unsupported s.name)
  | name {name : String} (h : s.isCalled = false) (hname : t.name? s.name = some name) :
      Told t s (.early name)
  | other (h : s.isCalled = false) (hname : t.name? s.name = none) : Told t s (.unknown s.name)

theorem told_of_checkSymbol {s : Symbol} (h : checkSymbol t b s = .error f) : Told t s f := by
  rw [checkSymbol] at h
  split at h
  next hcalled =>
    split at h
    · cases h
    · cases h
      exact .called hcalled
  next hcalled =>
    rw [Bool.not_eq_true] at hcalled
    split at h
    · cases h
    · split at h
      next name hname =>
        cases h
        exact .name hcalled hname
      next hname =>
        cases h
        exact .other hcalled hname

end Formula

/-- An alias stands in what is told of a word just if the word exposes one. -/
theorem AliasTable.Clear.exposes_iff {t : AliasTable} {ms : List Mark} {w : Mark.Word}
    {f : Formula.Fault} (h : t.Clear ms) (ht : t.Sound)
    (hnames : ∀ n, .name n ∈ ms → n ∈ t.names) (hw : w ∈ Mark.words false ms)
    (htold : Formula.Told t (w.symbol t.word) f) :
    ∃ id, f.quoted? = some id ∧ ((∃ u ∈ t.aliases, u.toList <:+: id.toList) ↔ w.Exposes) := by
  have hiff := h.infix_iff hw hnames
  have hrun : ∀ n, .name n ∈ w.run → n ∈ t.names := fun n hn ↦
    hnames n (Mark.subset_of_mem_words hw hn)
  cases htold with
  | called hcalled =>
    exact ⟨_, rfl, hiff.trans (and_iff_left (.inl hcalled)).symm⟩
  | @name name hcalled hname =>
    refine ⟨name, rfl, iff_of_false ?_ ?_⟩
    · rintro ⟨u, hu, hin⟩
      have hmem := List.mem_map_of_mem (f := Prod.fst) (ht.name?_eq_some_iff.mp hname)
      exact h.told u hu name hmem hin
    · rintro ⟨⟨n, hn⟩, hcalled' | hmore⟩
      · exact Bool.false_ne_true (hcalled.symm.trans hcalled')
      · have hmem := List.mem_map_of_mem (f := Prod.snd) (ht.name?_eq_some_iff.mp hname)
        exact hmore n (ht.run_eq hrun hn hmem rfl)
  | other hcalled hname =>
    refine ⟨_, rfl, hiff.trans (and_iff_left (.inr ?_)).symm⟩
    intro n hself
    -- the alias of a name is no unknown identifier
    have hn : .name n ∈ w.run := by rw [hself]; exact List.mem_singleton_self _
    obtain ⟨u, hu⟩ := Option.isSome_iff_exists.mp (isSome_alias?_iff.mpr (hrun n hn))
    have hsymbol : (w.symbol t.word).name = u := by
      rw [Mark.Word.symbol, hself, Mark.text, Mark.text, List.append_nil, word_of_alias? hu,
        String.ofList_toList]
    rw [hsymbol, ht.name?_eq_some_iff.mpr ((alias?_eq_some_iff ht.nodup).mp hu)] at hname
    cases hname

namespace Step

variable {σ : Type} [Random.WordSource σ] {q : Question} {s : Step} {before later : Progress}
  {source rest : σ}

theorem Target.sound {result : Except Fault String} {named : Progress}
    (h : s.Target before result named) (hbefore : before.aliases.Sound) : named.aliases.Sound := by
  cases h with
  | fault _ => exact hbefore
  | known _ => exact hbefore
  | new hname hfresh => exact hbefore.push hname hfresh fun _ hn ↦ hn

/-- An equation keeps the table of aliases sound, also one at fault. -/
theorem sound_run {result : Except Fault Float} (hbefore : before.aliases.Sound)
    (h : (s.run q).outcome before source = ((result, later), rest)) : later.aliases.Sound := by
  have htarget := target_outcome q s before source
  rw [outcome_run] at h
  rcases ho : (s.target q : Run σ String).outcome before source with ⟨⟨found, named⟩, between⟩
  rw [ho] at h htarget
  have hnamed := htarget.sound hbefore
  cases found with
  | error fault =>
    cases h
    exact hnamed
  | ok word =>
    have haliases := aliases_conclude s word named
    rw [(Prod.mk.inj h).1] at haliases
    exact haliases ▸ hnamed

/-- An equation that is at fault because of an identifier tells of the first one that is, and an
alias stands in what is quoted of it just if there is a name in it that is called, or beside which
there is more. -/
theorem exposes_of_run {f : Formula.Fault} {report : StepReport} (hbefore : before.aliases.Sound)
    (hrun : (s.run q).outcome before source = ((.error (.step (.formula f) report), later), rest))
    (hsymbols : checkSymbols later.aliases later.bindings
      (Formula.symbols (s.formula later.aliases)) = .error f)
    (hclear : later.aliases.Clear (s.marks later.aliases.names)) :
    ∃ front w back id, Mark.words false (s.marks later.aliases.names) = front ++ w :: back ∧
      (∀ v ∈ front,
        checkSymbol later.aliases later.bindings (v.symbol later.aliases.word) = .ok ()) ∧
      checkSymbol later.aliases later.bindings (w.symbol later.aliases.word) = .error f ∧
      f.quoted? = some id ∧
      ((∃ u ∈ later.aliases.aliases, u.toList <:+: id.toList) ↔ w.Exposes) := by
  have hsound := sound_run hbefore hrun
  have hnames : ∀ n, .name n ∈ s.marks later.aliases.names → n ∈ later.aliases.names := fun _ ↦
    mem_names_of_mem_marks
  have hwords : Formula.symbols (s.formula later.aliases) =
      (Mark.words false (s.marks later.aliases.names)).map (Mark.Word.symbol later.aliases.word) := by
    rw [Formula.symbols, formula_eq hsound hclear.told, String.toList_ofList]
    exact Mark.symbolsFrom_words (AliasTable.identifies hsound hnames) rfl
  obtain ⟨front, symbol, back, hsplit, hfront, hfault⟩ :=
    Formula.exists_of_checkSymbols_eq_error hsymbols
  rw [hwords] at hsplit
  obtain ⟨front, back, hmarks, rfl, hback⟩ := List.map_eq_append_iff.mp hsplit
  obtain ⟨w, back, rfl, rfl, rfl⟩ := List.map_eq_cons_iff.mp hback
  have hw : w ∈ Mark.words false (s.marks later.aliases.names) := by
    rw [hmarks]
    exact List.mem_append_right _ List.mem_cons_self
  obtain ⟨id, hid, hiff⟩ :=
    hclear.exposes_iff hsound hnames hw (Formula.told_of_checkSymbol hfault)
  exact ⟨front, w, back, id, hmarks, fun v hv ↦ hfront _ (List.mem_map_of_mem hv), hfault, hid, hiff⟩

end Step

/-! ## A variable that is called -/

/-- A draft in which a variable is used like a function. -/
def Draft.applied : Draft :=
  ⟨[{ name := "x", default := some (.number 3) },
    { name := "F", isFinalAnswer := true, decimalPlaces := some 2 }], [{ expr := "F = x(2)" }]⟩

/-- Its equation. -/
def Step.applied : Step := ⟨1, "F = x(2)", "F", "x(2)", none⟩

/-- The question that the draft is. -/
def Question.applied : Question :=
  ⟨[⟨"x", none, none, .input (some (.number 3)) none⟩,
    ⟨"F", none, some 2, .finalAnswer 2 defaultDecoys⟩], [.applied]⟩

/-- Whether an equation is at fault because of a function that has the name of an alias, and its
identifiers have been found to be so. -/
def Step.showsAlias (checked : Except Formula.Fault Unit) : Except Fault Float × Progress → Bool
  | (.error (.step (.formula (.unsupported u)) _), last) =>
    last.aliases.aliases.contains u &&
      (match checked with
        | .error (.unsupported v) => u == v
        | _ => false)
  | _ => false

theorem Step.of_showsAlias {checked : Except Formula.Fault Unit} {result : Except Fault Float}
    {last : Progress} (h : showsAlias checked (result, last) = true) :
    ∃ u ∈ last.aliases.aliases, ∃ report,
      result = .error (.step (.formula (.unsupported u)) report) ∧
        checked = .error (.unsupported u) := by
  unfold showsAlias at h
  split at h
  next u report last' heq =>
    obtain ⟨rfl, rfl⟩ := Prod.mk.inj heq
    rw [Bool.and_eq_true, List.contains_iff_mem] at h
    obtain ⟨hu, hchecked⟩ := h
    refine ⟨u, hu, report, rfl, ?_⟩
    split at hchecked
    next v => rw [eq_of_beq hchecked]
    next => exact nomatch hchecked
  next => exact nomatch h

set_option maxRecDepth 4000 in
/-- The message on the equation shows the alias of the variable. -/
theorem Question.exists_run_applied : ∃ aliases between bindings middle last rest report u,
    (AliasTable.ofNames ⟨8, 1000⟩ (applied.variables.map (·.name))).Gives (Random.ChaCha.ofSeed 1)
        aliases between ∧
      (applied.resolveInputs aliases false).Gives between bindings middle ∧
      (Step.run applied .applied).outcome ⟨aliases, bindings⟩ middle =
        ((.error (.step (.formula (.unsupported u)) report), last), rest) ∧
      u ∈ last.aliases.aliases ∧
      checkSymbols last.aliases last.bindings
        (Formula.symbols (Step.applied.formula last.aliases)) = .error (.unsupported u) := by
  obtain ⟨⟨result, last⟩, rest, hgives, htest⟩ : ∃ given rest,
      ((do
        let aliases ← AliasTable.ofNames ⟨8, 1000⟩ (applied.variables.map (·.name))
        let bindings ← applied.resolveInputs aliases false
        let run : Random.Draw Random.ChaCha (Except Fault Float × Progress) :=
          (Step.run applied .applied).run.run ⟨aliases, bindings⟩
        run : Trial Random.ChaCha (Except Fault Float × Progress))).Gives (Random.ChaCha.ofSeed 1)
          given rest ∧
        Step.showsAlias (checkSymbols given.2.aliases given.2.bindings
          (Formula.symbols (Step.applied.formula given.2.aliases))) given = true := by
    refine Trial.exists_gives_of_any ?_
    simp only [applied, Step.run, Step.value, Step.formula, Step.fail, Step.report,
      AliasTable.substitute_eq_foldl]
    decide +kernel
  simp only [Trial.gives_bind_iff, Trial.gives_lift_iff] at hgives
  obtain ⟨aliases, between, hnames, bindings, middle, hinputs, hrun⟩ := hgives
  obtain ⟨u, hu, report, rfl, hcheck⟩ := Step.of_showsAlias htest
  exact ⟨aliases, between, bindings, middle, last, rest, report, u, hnames, hinputs, hrun, hu, hcheck⟩

/-- In the equation the variable is called. -/
theorem Step.words_applied :
    Mark.words false (Step.applied.marks ["x", "F"]) = [⟨[.name "x"], true⟩] := by
  rw [marks, Mark.ofText_eq_foldl]
  decide +kernel

/-- Aliases are told from all that stands in the equation. -/
theorem Step.clear_applied {t : AliasTable} (hnames : t.names = ["x", "F"]) (htold : t.Told t.names) :
    t.Clear (Step.applied.marks t.names) := by
  refine ⟨htold, ?_⟩
  rw [hnames, words_applied]
  intro w hw cs hrun
  obtain rfl := List.mem_singleton.mp hw
  cases cs with
  | nil => exact nomatch hrun
  | cons c cs => exact nomatch hrun

/-- The variable that is called is at fault, and its alias is shown. -/
theorem Step.exposes_applied : ∃ before later source rest f report,
    before.aliases.Sound ∧
      (Step.applied.run .applied).outcome before source =
        ((.error (.step (.formula f) report), later), (rest : Random.ChaCha)) ∧
      checkSymbols later.aliases later.bindings
        (Formula.symbols (Step.applied.formula later.aliases)) = .error f ∧
      later.aliases.Clear (Step.applied.marks later.aliases.names) ∧
      ∃ front w back id,
        Mark.words false (Step.applied.marks later.aliases.names) = front ++ w :: back ∧
        (∀ v ∈ front,
          checkSymbol later.aliases later.bindings (v.symbol later.aliases.word) = .ok ()) ∧
        checkSymbol later.aliases later.bindings (w.symbol later.aliases.word) = .error f ∧
        f.quoted? = some id ∧
        ((∃ u ∈ later.aliases.aliases, u.toList <:+: id.toList) ↔ w.Exposes) := by
  obtain ⟨aliases, between, bindings, middle, last, rest, report, u, hnames, -, hrun, -, hcheck⟩ :=
    Question.exists_run_applied
  obtain ⟨hsound, -, htold, hmem⟩ := AliasTable.sound_ofNames hnames
  have hlist : aliases.names = ["x", "F"] :=
    AliasTable.names_extendAll (t := .empty _) (by decide) hnames
  obtain ⟨-, haliases, -⟩ := finds_run hrun
  have hlast : last.aliases = aliases := haliases.resolve_right fun hnew ↦
    AliasTable.alias?_eq_none_iff.mp hnew.1 ((hmem "F").mpr (by decide))
  have hclear : last.aliases.Clear (Step.applied.marks last.aliases.names) := by
    rw [hlast]
    exact clear_applied hlist fun word hword n hn ↦ htold word hword n ((hmem n).mp hn)
  exact ⟨⟨aliases, bindings⟩, last, middle, rest, _, report, hsound, hrun, hcheck, hclear,
    exposes_of_run hsound hrun hcheck hclear⟩

/-- The message on the first identifier of an accepted question that is at fault may quote an
alias. -/
theorem Question.quotes_alias_applied : Question.ofDraft .applied = .ok applied ∧
    ({} : Settings).check = .ok () ∧
    ∃ aliases between bindings middle last rest report u,
      (AliasTable.ofNames ({} : Settings).aliasPolicy (applied.variables.map (·.name))).Gives
          (Random.ChaCha.ofSeed 1) aliases between ∧
        (applied.resolveInputs aliases false).Gives between bindings middle ∧
        (Step.run applied .applied).outcome ⟨aliases, bindings⟩ middle =
          ((.error (.step (.formula (.unsupported u)) report), last), rest) ∧
        u ∈ last.aliases.aliases ∧
        checkSymbols last.aliases last.bindings
          (Formula.symbols (Step.applied.formula last.aliases)) = .error (.unsupported u) :=
  ⟨by with_unfolding_all rfl, rfl, exists_run_applied⟩

end FormulaQuiz
