import FormulaQuiz.Cli.Report
import FormulaQuiz.Proofs.Digits
import Mathlib.Data.List.Forall2

/-!
# Line breaks of documents

A string literal has no line break, whatever it denotes, and a number literal has none either.  So a
document is printed on one line, or on as many lines as its arrays and objects have parts, and each
line after the first begins with a blank or with a closing bracket.
-/

namespace FormulaQuiz

/-! ## Lines of a text -/

/-- The characters with which a line of a document begins, except for the first line. -/
def margin : List Char := [' ', ']', '\x7d']

/-- Whether what follows a line break is in the margin. -/
def Indented : List Char → Prop
  | [] => True
  | c :: cs => (c = '\n' → ∃ d ∈ cs.head?, d ∈ margin) ∧ Indented cs

/-- A text has a number of line breaks, and each line after the first begins in the margin. -/
structure Spans (cs : List Char) (breaks : ℕ) : Prop where
  count : cs.count '\n' = breaks
  indented : Indented cs

section Texts

variable {cs ds : List Char} {m n : ℕ}

theorem Indented.append (h : Indented cs) (h' : Indented ds) : Indented (cs ++ ds) := by
  induction cs with
  | nil => exact h'
  | cons c cs ih =>
    refine ⟨fun hc ↦ ?_, ih h.2⟩
    obtain ⟨d, hd, hmargin⟩ := h.1 hc
    exact ⟨d, by simp [List.head?_append, Option.mem_def.mp hd], hmargin⟩

theorem Spans.append (h : Spans cs m) (h' : Spans ds n) : Spans (cs ++ ds) (m + n) :=
  ⟨by rw [List.count_append, h.count, h'.count], h.indented.append h'.indented⟩

/-- A text without line breaks is on one line. -/
theorem spans_zero (h : '\n' ∉ cs) : Spans cs 0 := by
  refine ⟨List.count_eq_zero_of_not_mem h, ?_⟩
  induction cs with
  | nil => trivial
  | cons c cs ih =>
    obtain ⟨hc, hcs⟩ := List.ne_and_not_mem_of_not_mem_cons h
    exact ⟨fun heq ↦ absurd heq.symm hc, ih hcs⟩

/-- A line break and the line after it, which begins in the margin. -/
theorem spans_one (h : '\n' ∉ cs) (hmargin : ∃ d ∈ cs.head?, d ∈ margin) :
    Spans ('\n' :: cs) 1 := by
  refine ⟨?_, fun _ ↦ hmargin, (spans_zero h).indented⟩
  rw [List.count_cons_self, (spans_zero h).count]

end Texts

namespace Cli

variable {cs pre first : List Char} {rest : List (List Char)}

theorem splitLines_newline (cs : List Char) : splitLines ('\n' :: cs) = [] :: splitLines cs := rfl

/-- A character that is no line break is on the first line. -/
theorem splitLines_cons {c : Char} (hc : c ≠ '\n') (h : splitLines cs = first :: rest) :
    splitLines (c :: cs) = (c :: first) :: rest := by
  rw [splitLines] at h ⊢
  rw [List.foldr_cons, if_neg hc, h]

theorem splitLines_append (hpre : '\n' ∉ pre) (h : splitLines cs = first :: rest) :
    splitLines (pre ++ cs) = (pre ++ first) :: rest := by
  induction pre with
  | nil => exact h
  | cons c pre ih =>
    obtain ⟨hc, hpre⟩ := List.ne_and_not_mem_of_not_mem_cons hpre
    exact splitLines_cons hc.symm (ih hpre)

theorem exists_splitLines (cs : List Char) : ∃ first rest, splitLines cs = first :: rest := by
  induction cs with
  | nil => exact ⟨[], [], rfl⟩
  | cons c cs ih =>
    obtain ⟨first, rest, h⟩ := ih
    by_cases hc : c = '\n'
    · exact ⟨[], splitLines cs, hc ▸ splitLines_newline cs⟩
    · exact ⟨c :: first, rest, splitLines_cons hc h⟩

/-- A line has no line break. -/
theorem newline_notMem_of_mem_splitLines : ∀ line ∈ splitLines cs, '\n' ∉ line := by
  induction cs with
  | nil => simp [splitLines]
  | cons c cs ih =>
    by_cases hc : c = '\n'
    · rw [hc, splitLines_newline]
      exact List.forall_mem_cons.mpr ⟨List.not_mem_nil, ih⟩
    · obtain ⟨first, rest, h⟩ := exists_splitLines cs
      rw [h, List.forall_mem_cons] at ih
      rw [splitLines_cons hc h]
      exact List.forall_mem_cons.mpr ⟨List.not_mem_cons_of_ne_of_not_mem (Ne.symm hc) ih.1, ih.2⟩

/-- A text has one line more than line breaks, and each line after the first begins in the margin. -/
theorem length_of_splitLines {n : ℕ} (h : Spans cs n) (hsplit : splitLines cs = first :: rest) :
    rest.length = n ∧ ∀ line ∈ rest, ∃ d ∈ line.head?, d ∈ margin := by
  induction cs generalizing n first rest with
  | nil =>
    cases hsplit
    exact ⟨h.count, nofun⟩
  | cons c cs ih =>
    obtain ⟨first', rest', h'⟩ := exists_splitLines cs
    obtain ⟨hlength, hmargin⟩ := ih ⟨rfl, h.indented.2⟩ h'
    by_cases hc : c = '\n'
    · subst hc
      rw [splitLines_newline, h'] at hsplit
      cases hsplit
      refine ⟨?_, List.forall_mem_cons.mpr ⟨?_, hmargin⟩⟩
      · rw [List.length_cons, hlength, ← h.count, List.count_cons_self]
      -- what follows the line break is in the margin, so it begins the next line
      obtain ⟨d, hd, hd'⟩ := h.indented.1 rfl
      cases cs with
      | nil => exact absurd hd (Option.not_mem_none d)
      | cons e cs =>
        obtain rfl : e = d := Option.some.inj hd
        have hne : e ≠ '\n' := by
          rintro rfl
          exact absurd hd' (by decide)
        obtain ⟨first, rest, h⟩ := exists_splitLines cs
        rw [splitLines_cons hne h] at h'
        cases h'
        exact ⟨e, rfl, hd'⟩
    · rw [splitLines_cons hc h'] at hsplit
      cases hsplit
      refine ⟨?_, hmargin⟩
      rw [hlength, ← h.count, List.count_cons_of_ne hc]

end Cli

/-! ## Literals -/

namespace Json

/-- No character is spelt with a line break. -/
theorem newline_notMem_escapeChar (c : Char) : '\n' ∉ escapeChar c := by
  have hdigit : ∀ n, Nat.digitChar (n % 16) ≠ '\n' := by
    intro n
    have hall : ∀ d < 16, Nat.digitChar d ≠ '\n' := by decide
    exact hall _ (Nat.mod_lt n (by decide))
  unfold escapeChar
  split
  case h_8 hnewline _ _ =>
    split
    · simp [hexByte, (hdigit _).symm]
    · simpa using Ne.symm hnewline
  all_goals decide

theorem newline_notMem_escape (text : String) : '\n' ∉ (escape text).toList := by
  rw [escape, String.toList_ofList, List.mem_flatMap]
  rintro ⟨c, -, hc⟩
  exact newline_notMem_escapeChar c hc

end Json

namespace Decimal

theorem newline_notMem_of_isDigit {ds : List Char} (h : ∀ d ∈ ds, isDigit d = true) :
    '\n' ∉ ds := by
  intro hmem
  exact absurd (h _ hmem) (by decide)

theorem newline_notMem_digits (n : ℕ) : '\n' ∉ digits n :=
  newline_notMem_of_isDigit fun _ ↦ isDigit_of_mem_digits

theorem newline_notMem_zeros (n : ℕ) : '\n' ∉ zeros n :=
  newline_notMem_of_isDigit fun _ ↦ isDigit_of_mem_zeros

theorem newline_notMem_natText (n : ℕ) : '\n' ∉ (natText n).toList := by
  rw [natText, String.toList_ofList]
  exact newline_notMem_digits n

theorem newline_notMem_shortest (tie : Tie) (significand : ℕ) (exponent : ℤ) :
    '\n' ∉ (shortest tie significand exponent).digits := by
  obtain ⟨k, h⟩ := exists_dropTrailing_append '0'
    (digits ((surround significand exponent).search tie
      (surround significand exponent).magnitude 17 1).1)
  intro hmem
  refine newline_notMem_digits _ (h.symm ▸ List.mem_append_left _ ?_)
  exact hmem

namespace Layout

variable {l : Layout} {s : Scaled}

theorem newline_notMem_positionalText (h : '\n' ∉ s.digits) : '\n' ∉ l.positionalText s := by
  have htake : '\n' ∉ s.digits.take s.point.toNat := mt List.mem_of_mem_take h
  have hdrop : '\n' ∉ s.digits.drop s.point.toNat := mt List.mem_of_mem_drop h
  rw [positionalText]
  split
  · simp [newline_notMem_zeros, h]
  · split
    · split <;> simp [newline_notMem_zeros, h]
    · simp [htake, hdrop]

theorem newline_notMem_exponentText (h : '\n' ∉ s.digits) : '\n' ∉ l.exponentText s := by
  have hsign : '\n' ∉ (if s.point - 1 < 0 then ['-'] else if l.plusSign then ['+'] else []) := by
    split
    · decide
    · split <;> decide
  rw [exponentText]
  simp only [List.mem_append, List.mem_cons, not_or]
  refine ⟨⟨?_, by decide, hsign⟩, newline_notMem_digits _⟩
  split
  · decide
  next d hd => exact hd ▸ h
  next d ds _ hd =>
    rw [hd] at h
    obtain ⟨hne, hds⟩ := List.ne_and_not_mem_of_not_mem_cons h
    simp [hne, hds]

/-- The text of a float has no line break. -/
theorem newline_notMem_chars (l : Layout) (x : Float) : '\n' ∉ l.chars x := by
  have hzero : '\n' ∉ '0' :: (if l.pointZero then ".0".toList else []) := by
    split <;> decide
  rw [chars]
  split
  · split
    · decide
    · split <;> decide
  next d _ =>
    have hsign : '\n' ∉ (if d.negative then ['-'] else []) := by
      split <;> decide
    have hdigits := newline_notMem_shortest l.tie d.significand d.exponent
    dsimp only
    split
    · exact fun h ↦ (List.mem_append.mp h).elim hsign hzero
    · rw [magnitudeText, List.mem_append, not_or]
      refine ⟨hsign, ?_⟩
      split
      · exact newline_notMem_positionalText hdigits
      · exact newline_notMem_exponentText hdigits

end Layout

end Decimal

/-! ## Documents -/

namespace Json

/-- Whether a literal has no line break. -/
def isUnbroken (literal : String) : Bool := !literal.toList.contains '\n'

theorem isUnbroken_iff {literal : String} : isUnbroken literal = true ↔ '\n' ∉ literal.toList := by
  simp [isUnbroken]

/-- No literal of a document has a line break. -/
def IsPlain (json : Json) : Prop := json.allLiterals isUnbroken isUnbroken = true

theorem allItems_iff {items : List Json} :
    allItems isUnbroken isUnbroken items = true ↔ ∀ item ∈ items, item.IsPlain := by
  induction items with
  | nil => simp [allItems]
  | cons item items ih => rw [allItems, Bool.and_eq_true, ih, List.forall_mem_cons, IsPlain]

theorem allMembers_iff {members : List (String × Json)} :
    allMembers isUnbroken isUnbroken members = true ↔
      ∀ member ∈ members, '\n' ∉ member.1.toList ∧ member.2.IsPlain := by
  induction members with
  | nil => simp [allMembers]
  | cons member members ih =>
    rw [allMembers, Bool.and_eq_true, Bool.and_eq_true, isUnbroken_iff, ih, List.forall_mem_cons,
      IsPlain]

@[simp] theorem isPlain_null : IsPlain .null := rfl

@[simp] theorem isPlain_bool (b : Bool) : IsPlain (.bool b) := rfl

@[simp] theorem isPlain_number {literal : String} :
    IsPlain (.number literal) ↔ '\n' ∉ literal.toList := isUnbroken_iff

@[simp] theorem isPlain_string {literal : String} :
    IsPlain (.string literal) ↔ '\n' ∉ literal.toList := isUnbroken_iff

@[simp] theorem isPlain_array {items : List Json} :
    IsPlain (.array items) ↔ ∀ item ∈ items, item.IsPlain := allItems_iff

@[simp] theorem isPlain_object {members : List (String × Json)} :
    IsPlain (.object members) ↔ ∀ member ∈ members, '\n' ∉ member.1.toList ∧ member.2.IsPlain :=
  allMembers_iff

@[simp] theorem isPlain_text (s : String) : (text s).IsPlain :=
  isPlain_string.mpr (newline_notMem_escape s)

@[simp] theorem isPlain_text? (s : Option String) : (text? s).IsPlain := by
  cases s with
  | none => exact isPlain_null
  | some s => exact isPlain_text s

@[simp] theorem isPlain_nat (n : ℕ) : (nat n).IsPlain :=
  isPlain_number.mpr (Decimal.newline_notMem_natText n)

@[simp] theorem isPlain_float (x : Float) : (float x).IsPlain := by
  rw [float]
  split
  · rw [isPlain_number, Decimal.document, String.toList_ofList]
    exact Decimal.Layout.newline_notMem_chars _ x
  · exact isPlain_null

@[simp] theorem isPlain_ofMembers {members : List (String × Json)} :
    (ofMembers members).IsPlain ↔ ∀ member ∈ members, member.2.IsPlain := by
  simp only [ofMembers, isPlain_object, List.forall_mem_map, newline_notMem_escape,
    not_false_eq_true, true_and]

/-! ## A document on one line -/

theorem newline_notMem_quote {literal : String} (h : '\n' ∉ literal.toList) :
    '\n' ∉ (quote literal).toList := by
  simp [quote, h]

theorem newline_notMem_intercalate {parts : List (List Char)} (h : ∀ part ∈ parts, '\n' ∉ part) :
    '\n' ∉ [','].intercalate parts := by
  induction parts with
  | nil => simp
  | cons part parts ih =>
    obtain ⟨hpart, hparts⟩ := List.forall_mem_cons.mp h
    by_cases hnil : parts = []
    · simpa [hnil] using hpart
    · simp [List.intercalate_cons_of_ne_nil hnil, hpart, ih hparts]

mutual

/-- A document is printed on one line. -/
theorem newline_notMem_compact : (json : Json) → json.IsPlain → '\n' ∉ json.compact.toList
  | .null, _ => by decide
  | .bool b, _ => by cases b <;> decide
  | .number literal, h => isPlain_number.mp h
  | .string literal, h => newline_notMem_quote (isPlain_string.mp h)
  | .array items, h => by
    have hitems := newline_notMem_compactItems items (isPlain_array.mp h)
    simp [compact, newline_notMem_intercalate (List.forall_mem_map.mpr hitems)]
  | .object members, h => by
    have hmembers := newline_notMem_compactMembers members (isPlain_object.mp h)
    simp [compact, newline_notMem_intercalate (List.forall_mem_map.mpr hmembers)]

theorem newline_notMem_compactItems : (items : List Json) → (∀ item ∈ items, item.IsPlain) →
    ∀ part ∈ compactItems items, '\n' ∉ part.toList
  | [], _ => nofun
  | item :: items, h => by
    obtain ⟨hitem, hitems⟩ := List.forall_mem_cons.mp h
    rw [compactItems, List.forall_mem_cons]
    exact ⟨newline_notMem_compact item hitem, newline_notMem_compactItems items hitems⟩

theorem newline_notMem_compactMembers : (members : List (String × Json)) →
    (∀ member ∈ members, '\n' ∉ member.1.toList ∧ member.2.IsPlain) →
      ∀ part ∈ compactMembers members, '\n' ∉ part.toList
  | [], _ => nofun
  | (name, item) :: members, h => by
    obtain ⟨⟨hname, hitem⟩, hmembers⟩ := List.forall_mem_cons.mp h
    rw [compactMembers, List.forall_mem_cons]
    refine ⟨?_, newline_notMem_compactMembers members hmembers⟩
    simp [newline_notMem_quote hname, newline_notMem_compact item hitem]

end

/-! ## A document over several lines -/

/-- The line breaks of parts between brackets, which have line breaks of their own. -/
def blockBreaks (counts : List ℕ) : ℕ := if counts = [] then 0 else counts.length + 1 + counts.sum

mutual

/-- The line breaks of a document over several lines: they depend on how many parts its arrays and
objects have. -/
def breaks : Json → ℕ
  | .array items => blockBreaks (breaksItems items)
  | .object members => blockBreaks (breaksMembers members)
  | _ => 0

/-- The line breaks of each of some items. -/
def breaksItems : List Json → List ℕ
  | [] => []
  | item :: items => item.breaks :: breaksItems items

/-- The line breaks of each of some members. -/
def breaksMembers : List (String × Json) → List ℕ
  | [] => []
  | (_, item) :: members => item.breaks :: breaksMembers members

end

theorem breaksItems_eq (items : List Json) : breaksItems items = items.map breaks := by
  induction items with
  | nil => rfl
  | cons item items ih => rw [breaksItems, ih, List.map_cons]

theorem breaksMembers_eq (members : List (String × Json)) :
    breaksMembers members = members.map fun member ↦ member.2.breaks := by
  induction members with
  | nil => rfl
  | cons member members ih => rw [breaksMembers, ih, List.map_cons]

theorem toList_indentation (level : ℕ) :
    (indentation level).toList = '\n' :: List.replicate (2 * level) ' ' := by
  simp [indentation]

theorem spans_indentation (level : ℕ) : Spans (indentation (level + 1)).toList 1 := by
  rw [toList_indentation]
  refine spans_one (by simp) ⟨' ', ?_, by decide⟩
  rw [Nat.mul_succ, List.replicate_succ, List.head?_cons, Option.mem_def]

theorem spans_closing (level : ℕ) {closing : Char} (h : closing ∈ margin) :
    Spans ((indentation level).toList ++ [closing]) 1 := by
  have hclosing : '\n' ≠ closing := by
    rintro rfl
    exact absurd h (by decide)
  rw [toList_indentation, List.cons_append]
  refine spans_one (by simp [hclosing]) ?_
  cases level with
  | zero => exact ⟨closing, rfl, h⟩
  | succ level =>
    refine ⟨' ', ?_, by decide⟩
    rw [Nat.mul_succ, List.replicate_succ, List.cons_append, List.head?_cons, Option.mem_def]

/-- Parts that are joined have their own line breaks and those of the joints. -/
theorem spans_intercalate {joint : List Char} (hjoint : Spans joint 1) {parts : List (List Char)}
    {counts : List ℕ} (h : List.Forall₂ Spans parts counts) (hne : counts ≠ []) :
    Spans (joint.intercalate parts) (counts.length - 1 + counts.sum) := by
  induction h with
  | nil => exact absurd rfl hne
  | @cons part count parts counts hpart hparts ih =>
    cases hparts with
    | nil => simpa using hpart
    | cons hnext hparts =>
      rw [List.intercalate_cons_cons]
      have hspans := (hpart.append hjoint).append (ih (List.cons_ne_nil _ _))
      convert hspans using 1
      simp only [List.length_cons, List.sum_cons]
      omega

/-- The first part is on a line of its own, and so is the closing bracket. -/
theorem spans_block (level : ℕ) {opening closing : String} (hopening : '\n' ∉ opening.toList)
    {c : Char} (hclosing : closing.toList = [c]) (hc : c ∈ margin) {parts : List String}
    {counts : List ℕ} (h : List.Forall₂ (fun part count ↦ Spans part.toList count) parts counts) :
    Spans (block level opening closing parts).toList (blockBreaks counts) := by
  cases h with
  | nil =>
    rw [block, List.isEmpty_nil, if_pos rfl, blockBreaks, if_pos rfl, String.toList_append, hclosing]
    refine spans_zero fun hmem ↦ ?_
    rcases List.mem_append.mp hmem with hmem | hmem
    · exact hopening hmem
    · exact absurd (List.mem_singleton.mp hmem ▸ hc) (by decide)
  | @cons part count parts counts hpart hparts =>
    have hjoint : Spans (("," : String) ++ indentation (level + 1)).toList 1 := by
      rw [String.toList_append]
      exact (spans_zero (by decide)).append (spans_indentation level)
    have hall : List.Forall₂ Spans ((part :: parts).map String.toList) (count :: counts) :=
      List.forall₂_map_left_iff.mpr (.cons hpart hparts)
    have hspans := (((spans_zero hopening).append (spans_indentation level)).append
      (spans_intercalate hjoint hall (List.cons_ne_nil _ _))).append (spans_closing level hc)
    rw [block, if_neg (by simp), blockBreaks, if_neg (List.cons_ne_nil _ _)]
    convert hspans using 1
    · simp [hclosing]
    · simp only [List.length_cons]
      omega

mutual

/-- The line breaks of a document over several lines are those of its layout. -/
theorem spans_prettyAt (level : ℕ) :
    (json : Json) → json.IsPlain → Spans (json.prettyAt level).toList json.breaks
  | .null, h => spans_zero (newline_notMem_compact _ h)
  | .bool _, h => spans_zero (newline_notMem_compact _ h)
  | .number _, h => spans_zero (newline_notMem_compact _ h)
  | .string _, h => spans_zero (newline_notMem_compact _ h)
  | .array items, h => by
    rw [prettyAt, breaks]
    refine spans_block level (by decide) rfl (by decide) ?_
    exact spans_prettyItems (level + 1) items (isPlain_array.mp h)
  | .object members, h => by
    rw [prettyAt, breaks]
    refine spans_block level (by decide) rfl (by decide) ?_
    exact spans_prettyMembers (level + 1) members (isPlain_object.mp h)

theorem spans_prettyItems (level : ℕ) : (items : List Json) → (∀ item ∈ items, item.IsPlain) →
    List.Forall₂ (fun part count ↦ Spans part.toList count) (prettyItems level items)
      (breaksItems items)
  | [], _ => .nil
  | item :: items, h => by
    obtain ⟨hitem, hitems⟩ := List.forall_mem_cons.mp h
    exact .cons (spans_prettyAt level item hitem) (spans_prettyItems level items hitems)

theorem spans_prettyMembers (level : ℕ) : (members : List (String × Json)) →
    (∀ member ∈ members, '\n' ∉ member.1.toList ∧ member.2.IsPlain) →
      List.Forall₂ (fun part count ↦ Spans part.toList count) (prettyMembers level members)
        (breaksMembers members)
  | [], _ => .nil
  | (name, item) :: members, h => by
    obtain ⟨⟨hname, hitem⟩, hmembers⟩ := List.forall_mem_cons.mp h
    refine .cons ?_ (spans_prettyMembers level members hmembers)
    have hstart : '\n' ∉ (quote name ++ ": ").toList := by
      simp [newline_notMem_quote hname]
    have hspans := (spans_zero hstart).append (spans_prettyAt level item hitem)
    rwa [← String.toList_append, Nat.zero_add] at hspans

end

end Json

end FormulaQuiz
