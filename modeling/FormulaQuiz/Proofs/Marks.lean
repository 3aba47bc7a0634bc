import FormulaQuiz.Proofs.Naming
import FormulaQuiz.Proofs.Substitution
import Mathlib.Data.List.Basic

/-!
# Texts with marks

Where a text has a name, a mark may stand for the alias that will be put there.  Marks know nothing
of aliases, so texts with different aliases are the same marks written with different words.
-/

namespace FormulaQuiz

open Text (isIdentifierChar glued)

/-- A character of a text, or a name in place of which an alias stands. -/
inductive Mark where
  | char (c : Char)
  | name (name : String)
deriving DecidableEq, Repr

namespace Mark

/-- Whether a mark keeps a symbol beside it from being one. -/
def sticks : Mark → Bool
  | char c => isIdentifierChar c
  | name _ => true

/-- The text that marks are with a word in place of each name. -/
def text (word : String → List Char) : List Mark → List Char
  | [] => []
  | char c :: ms => c :: text word ms
  | name n :: ms => word n ++ text word ms

/-- Without names, marks are the text. -/
theorem text_map_char (word : String → List Char) (cs : List Char) :
    text word (cs.map char) = cs := by
  induction cs with
  | nil => rfl
  | cons c cs ih => exact congrArg (c :: ·) ih

/-- Whether a symbol stands at the front of some marks, glued on neither side; `before` tells
whether the mark to the left sticks. -/
def standsAt (symbol : List Char) (before : Bool) (ms : List Mark) : Bool :=
  (symbol.map char).isPrefixOf ms && !(symbol.head?.any isIdentifierChar && before) &&
    !(symbol.getLast?.any isIdentifierChar && (ms.drop symbol.length).head?.any sticks)

/-- Copies marks with the name in place of a symbol, after passing over the first `skip` marks. -/
def markFrom (symbol : List Char) (new : String) :
    (skip : Nat) → (before : Bool) → List Mark → List Mark
  | _, _, [] => []
  | skip + 1, _, m :: ms => markFrom symbol new skip m.sticks ms
  | 0, before, m :: ms =>
    if standsAt symbol before (m :: ms) then
      name new :: markFrom symbol new (symbol.length - 1) m.sticks ms
    else m :: markFrom symbol new 0 m.sticks ms

/-- Marks with a name wherever it stands among the characters. -/
def mark (ms : List Mark) (new : String) : List Mark :=
  if new.isEmpty then ms else markFrom new.toList new 0 false ms

/-- The order in which names are marked. -/
def before (m n : String) : Bool := AliasTable.before (m, "") (n, "")

/-- The marks of a text in which some names have aliases. -/
def ofText (names : List String) (source : String) : List Mark :=
  (names.mergeSort before).foldl mark (source.toList.map char)

/-- Names are marked in the order in which insertion sorts them. -/
theorem ofText_eq_foldl (names : List String) (source : String) :
    ofText names source =
      (names.insertionSort (fun m n ↦ before m n = true)).foldl mark (source.toList.map char) := by
  have htrans : ∀ m n k, before m n = true → before n k = true → before m k = true :=
    fun _ _ _ ↦ AliasTable.before_trans _ _ _
  have htotal : ∀ m n, (before m n || before n m) = true := fun _ _ ↦ AliasTable.before_total _ _
  rw [ofText, List.mergeSort_eq_insertionSort_of_total htrans htotal]

/-- A word that is never taken for a symbol, nor for a part of one. -/
structure Solid (symbol word : List Char) : Prop where
  ne : word ≠ []
  chars : ∀ c ∈ word, isIdentifierChar c = true
  apart : ¬ word <:+: symbol

section Solid

variable {symbol u cs : List Char} {word : String → List Char} {ms : List Mark} {new : String}

theorem Solid.tail {a : Char} (h : Solid (a :: symbol) u) : Solid symbol u :=
  ⟨h.ne, h.chars, fun hin ↦ h.apart (List.infix_cons hin)⟩

/-- A symbol in front of a word goes on in the word. -/
theorem Solid.glued_of_prefix (h : Solid symbol u) (hne : symbol ≠ [])
    (hfront : symbol <+: u ++ cs) :
    glued symbol.getLast? ((u ++ cs).drop symbol.length).head? = true := by
  rcases List.prefix_or_prefix_of_prefix hfront (List.prefix_append u cs) with hsym | hu
  · obtain ⟨r, rfl⟩ := hsym
    cases r with
    | nil => exact (h.apart (by rw [List.append_nil])).elim
    | cons d r =>
      rw [List.append_assoc, List.drop_left, List.getLast?_eq_getLast_of_ne_nil hne]
      have hlast := h.chars _ (List.mem_append_left _ (List.getLast_mem hne))
      have hd := h.chars d (List.mem_append_right _ List.mem_cons_self)
      rw [glued, Option.any_some, hlast, List.cons_append, List.head?_cons, Option.any_some, hd]
      rfl
  · exact (h.apart hu.isInfix).elim

theorem Solid.not_standsAt (h : Solid symbol u) (hne : symbol ≠ []) (outer : Option Char) :
    Text.standsAt symbol outer (u ++ cs) = false := by
  rw [Text.standsAt]
  by_cases hfront : symbol.isPrefixOf (u ++ cs) = true
  · rw [h.glued_of_prefix hne (List.isPrefixOf_iff_prefix.mp hfront), Bool.not_true, Bool.and_false]
  · rw [Bool.eq_false_iff.mpr hfront, Bool.false_and, Bool.false_and]

/-- A symbol does not stand behind an identifier character if it begins with one. -/
theorem not_standsAt_of_glued {b c : Char} (hne : symbol ≠ []) (hb : isIdentifierChar b = true)
    (hc : isIdentifierChar c = true) : Text.standsAt symbol (some b) (c :: cs) = false := by
  obtain ⟨a, symbol, rfl⟩ := List.exists_cons_of_ne_nil hne
  rw [Text.standsAt, List.isPrefixOf]
  by_cases hac : a = c
  · subst hac
    have hglued : glued (a :: symbol).head? (some b) = true := by
      rw [glued, List.head?_cons, Option.any_some, Option.any_some, hb, hc]
      rfl
    rw [hglued, Bool.not_true, Bool.and_false, Bool.false_and]
  · rw [beq_eq_false_iff_ne.mpr hac, Bool.false_and, Bool.false_and, Bool.false_and]

/-- Nothing is replaced behind the first character of a word. -/
theorem replaceFrom_chars {replacement : List Char} (hne : symbol ≠ []) {b : Char}
    (hb : isIdentifierChar b = true) (hu : ∀ c ∈ u, isIdentifierChar c = true) :
    ∃ last, isIdentifierChar last = true ∧
      Text.replaceFrom symbol replacement 0 (some b) (u ++ cs) =
        u ++ Text.replaceFrom symbol replacement 0 (some last) cs := by
  induction u generalizing b with
  | nil => exact ⟨b, hb, rfl⟩
  | cons c u ih =>
    obtain ⟨hc, hu⟩ := List.forall_mem_cons.mp hu
    obtain ⟨last, hlast, heq⟩ := ih hc hu
    refine ⟨last, hlast, ?_⟩
    rw [List.cons_append, Text.replaceFrom, not_standsAt_of_glued hne hb hc, if_neg Bool.false_ne_true,
      heq, List.cons_append]

theorem Solid.exists_cons (h : Solid symbol u) :
    ∃ c cs, u = c :: cs ∧ isIdentifierChar c = true ∧ ∀ d ∈ cs, isIdentifierChar d = true := by
  obtain ⟨c, cs, rfl⟩ := List.exists_cons_of_ne_nil h.ne
  obtain ⟨hc, hcs⟩ := List.forall_mem_cons.mp h.chars
  exact ⟨c, cs, rfl, hc, hcs⟩

theorem any_head?_text
    (h : ∀ n, name n ∈ ms → ∃ c cs, word n = c :: cs ∧ isIdentifierChar c = true) :
    (text word ms).head?.any isIdentifierChar = ms.head?.any sticks := by
  cases ms with
  | nil => rfl
  | cons m ms =>
    cases m with
    | char c => rfl
    | name n =>
      obtain ⟨c, cs, hword, hc⟩ := h n List.mem_cons_self
      rw [text, hword]
      exact hc

/-- Up to its end, a symbol stands in a text just where it stands in the marks. -/
theorem ends_text (h : ∀ n, name n ∈ ms → Solid symbol (word n)) :
    (symbol.isPrefixOf (text word ms) &&
        !glued symbol.getLast? ((text word ms).drop symbol.length).head?) =
      ((symbol.map char).isPrefixOf ms &&
        !(symbol.getLast?.any isIdentifierChar && (ms.drop symbol.length).head?.any sticks)) := by
  induction symbol generalizing ms with
  | nil => simp [glued]
  | cons a symbol ih =>
    cases ms with
    | nil => rfl
    | cons m ms =>
      cases m with
      | char c =>
        have hms : ∀ n, name n ∈ ms → Solid symbol (word n) := fun n hn ↦
          (h n (List.mem_cons_of_mem _ hn)).tail
        have hchar : (char a == char c) = (a == c) := by
          rw [Bool.eq_iff_iff, beq_iff_eq, beq_iff_eq, char.injEq]
        rw [text, List.map_cons, List.isPrefixOf, List.isPrefixOf, List.length_cons, List.drop_succ_cons,
          List.drop_succ_cons, hchar, Bool.and_assoc, Bool.and_assoc]
        cases symbol with
        | nil =>
          have hhead : (text word ms).head?.any isIdentifierChar = ms.head?.any sticks :=
            any_head?_text fun n hn ↦ by
              obtain ⟨c, cs, hword, hc, -⟩ := (hms n hn).exists_cons
              exact ⟨c, cs, hword, hc⟩
          rw [glued, List.length_nil, List.drop_zero, List.drop_zero, hhead]
          rfl
        | cons b symbol => rw [List.getLast?_cons_cons, ih hms]
      | name n =>
        have hsolid := h n List.mem_cons_self
        have hmark : ((a :: symbol).map char).isPrefixOf (name n :: ms) = false := rfl
        rw [hmark, Bool.false_and, text]
        by_cases hfront : (a :: symbol).isPrefixOf (word n ++ text word ms) = true
        · rw [hsolid.glued_of_prefix (List.cons_ne_nil _ _) (List.isPrefixOf_iff_prefix.mp hfront),
            Bool.not_true, Bool.and_false]
        · rw [Bool.eq_false_iff.mpr hfront, Bool.false_and]

theorem standsAt_text {outer : Option Char} {before : Bool}
    (hbefore : outer.any isIdentifierChar = before)
    (h : ∀ n, name n ∈ ms → Solid symbol (word n)) :
    Text.standsAt symbol outer (text word ms) = standsAt symbol before ms := by
  rw [Text.standsAt, standsAt, Bool.and_right_comm, ends_text h, Bool.and_right_comm, glued, hbefore]

/-- The marks that a symbol stands for are characters. -/
theorem exists_char_of_standsAt {m : Mark} {before : Bool} (h : standsAt symbol before (m :: ms) = true)
    {m' : Mark} (hm' : m' ∈ ms.take (symbol.length - 1)) : ∃ c, m' = char c := by
  rw [standsAt, Bool.and_eq_true, Bool.and_eq_true, List.isPrefixOf_iff_prefix] at h
  obtain ⟨rest, hrest⟩ := h.1.1
  cases symbol with
  | nil => exact absurd hm' (by simp)
  | cons a symbol =>
    obtain ⟨-, rfl⟩ := List.cons.inj hrest
    have hlength : (a :: symbol).length - 1 = (symbol.map char).length := by simp
    change m' ∈ List.take _ (_ ++ rest) at hm'
    rw [hlength, List.take_left, List.mem_map] at hm'
    obtain ⟨c, -, rfl⟩ := hm'
    exact ⟨c, rfl⟩

/-- Replacing a symbol in a text is marking it. -/
theorem replaceFrom_text (hne : symbol ≠ []) {skip : ℕ} {outer : Option Char} {before : Bool}
    (hbefore : outer.any isIdentifierChar = before)
    (hskip : ∀ m ∈ ms.take skip, ∃ c, m = char c)
    (h : ∀ n, name n ∈ ms → Solid symbol (word n)) :
    Text.replaceFrom symbol (word new) skip outer (text word ms) =
      text word (markFrom symbol new skip before ms) := by
  induction ms generalizing skip outer before with
  | nil => cases skip <;> rfl
  | cons m ms ih =>
    have hms : ∀ n, name n ∈ ms → Solid symbol (word n) := fun n hn ↦ h n (List.mem_cons_of_mem _ hn)
    cases skip with
    | succ skip =>
      obtain ⟨c, rfl⟩ := hskip m List.mem_cons_self
      rw [text, Text.replaceFrom, markFrom]
      exact ih rfl (fun m hm ↦ hskip m (List.mem_cons_of_mem _ hm)) hms
    | zero =>
      cases m with
      | char c =>
        have hstands := standsAt_text hbefore h
        rw [text] at hstands
        rw [text, Text.replaceFrom, markFrom, hstands]
        by_cases hhere : standsAt symbol before (char c :: ms) = true
        · rw [if_pos hhere, if_pos hhere, text]
          exact congrArg (word new ++ ·) (ih rfl (fun m ↦ exists_char_of_standsAt hhere) hms)
        · rw [if_neg hhere, if_neg hhere, text]
          exact congrArg (c :: ·) (ih rfl (fun m hm ↦ absurd hm (by simp)) hms)
      | name n =>
        have hsolid := h n List.mem_cons_self
        obtain ⟨c, u, hword, hc, hu⟩ := hsolid.exists_cons
        have hmark : standsAt symbol before (name n :: ms) = false := by
          obtain ⟨a, symbol, rfl⟩ := List.exists_cons_of_ne_nil hne
          rfl
        have hnot : Text.standsAt symbol outer (word n ++ text word ms) = false :=
          hsolid.not_standsAt hne outer
        obtain ⟨last, hlast, heq⟩ : ∃ last, isIdentifierChar last = true ∧
            Text.replaceFrom symbol (word new) 0 (some c) (u ++ text word ms) =
              u ++ Text.replaceFrom symbol (word new) 0 (some last) (text word ms) :=
          replaceFrom_chars hne hc hu
        rw [hword, List.cons_append] at hnot
        rw [markFrom, hmark, if_neg Bool.false_ne_true, text, text, hword, List.cons_append,
          Text.replaceFrom, hnot, if_neg Bool.false_ne_true, heq, ← List.cons_append]
        exact congrArg (c :: u ++ ·) (ih hlast (fun m hm ↦ absurd hm (by simp)) hms)

/-- Marking a name puts no other one there. -/
theorem eq_or_mem_of_mem_markFrom {skip : ℕ} {before : Bool} {n : String}
    (h : name n ∈ markFrom symbol new skip before ms) : n = new ∨ name n ∈ ms := by
  fun_induction markFrom symbol new skip before ms with
  | case1 => exact absurd h List.not_mem_nil
  | case2 skip before m ms ih => exact (ih h).imp_right (List.mem_cons_of_mem _)
  | case3 before m ms _ ih =>
    rcases List.mem_cons.mp h with heq | h
    · exact .inl (name.inj heq)
    · exact (ih h).imp_right (List.mem_cons_of_mem _)
  | case4 before m ms _ ih =>
    rcases List.mem_cons.mp h with rfl | h
    · exact .inr List.mem_cons_self
    · exact (ih h).imp_right (List.mem_cons_of_mem _)

theorem eq_or_mem_of_mem_mark {n : String} (h : name n ∈ mark ms new) : n = new ∨ name n ∈ ms := by
  rw [mark] at h
  split at h
  · exact .inr h
  · exact eq_or_mem_of_mem_markFrom h

/-- Marking puts only names there. -/
theorem mem_or_mem_of_mem_foldl_mark {names : List String} {n : String}
    (h : name n ∈ names.foldl mark ms) : n ∈ names ∨ name n ∈ ms := by
  induction names generalizing ms with
  | nil => exact .inr h
  | cons new names ih =>
    rcases ih h with h | h
    · exact .inl (List.mem_cons_of_mem _ h)
    · rcases eq_or_mem_of_mem_mark h with rfl | h
      · exact .inl List.mem_cons_self
      · exact .inr h

theorem mem_of_mem_ofText {names : List String} {source n : String}
    (h : name n ∈ ofText names source) : n ∈ names := by
  rcases mem_or_mem_of_mem_foldl_mark h with h | h
  · exact List.mem_mergeSort.mp h
  · simp at h

/-- Replacing a name in a text is marking it. -/
theorem replaceSymbol_text (h : ∀ n, name n ∈ ms → Solid new.toList (word n)) :
    Text.replaceSymbol (String.ofList (text word ms)) new (String.ofList (word new)) =
      String.ofList (text word (mark ms new)) := by
  rw [Text.replaceSymbol, mark]
  by_cases hempty : new.isEmpty = true
  · rw [if_pos hempty, if_pos hempty]
  · have hne : new.toList ≠ [] := fun h0 ↦ hempty (by simpa using h0)
    rw [if_neg hempty, if_neg hempty, String.toList_ofList, String.toList_ofList]
    exact congrArg String.ofList (replaceFrom_text hne rfl (fun m hm ↦ absurd hm (by simp)) h)

/-- Replacing names one after the other is marking them. -/
theorem foldl_replaceSymbol_text {entries : List (String × String)}
    (hword : ∀ e ∈ entries, word e.1 = e.2.toList)
    (hsolid : ∀ e ∈ entries, ∀ n, name n ∈ ms ∨ n ∈ entries.map (·.1) →
      Solid e.1.toList (word n)) :
    entries.foldl (fun text (n, u) ↦ Text.replaceSymbol text n u)
        (String.ofList (text word ms)) =
      String.ofList (text word ((entries.map (·.1)).foldl mark ms)) := by
  induction entries generalizing ms with
  | nil => rfl
  | cons e entries ih =>
    obtain ⟨heword, hword⟩ := List.forall_mem_cons.mp hword
    obtain ⟨hesolid, hsolid⟩ := List.forall_mem_cons.mp hsolid
    have hstep : Text.replaceSymbol (String.ofList (text word ms)) e.1
        (String.ofList (word e.1)) = String.ofList (text word (mark ms e.1)) :=
      replaceSymbol_text fun n hn ↦ hesolid n (.inl hn)
    rw [heword, String.ofList_toList] at hstep
    rw [List.foldl_cons, List.map_cons, List.foldl_cons]
    change List.foldl _ (Text.replaceSymbol _ e.1 e.2) entries = _
    rw [hstep]
    refine ih hword fun e' he' n hn ↦ hsolid e' he' n ?_
    rcases hn with hn | hn
    · rcases eq_or_mem_of_mem_mark hn with rfl | hn
      · exact .inr List.mem_cons_self
      · exact .inl hn
    · exact .inr (List.mem_cons_of_mem _ hn)

end Solid

end Mark

namespace AliasTable

/-- The characters of the alias of a name. -/
def word (t : AliasTable) (name : String) : List Char := ((t.alias? name).getD "").toList

/-- Each name has one alias, and none stands in a name. -/
structure Distinct (t : AliasTable) : Prop where
  nodup : t.names.Nodup
  solid : ∀ n ∈ t.names, ∀ m ∈ t.names, Mark.Solid m.toList (t.word n)

theorem word_eq {t : AliasTable} (h : t.names.Nodup) {e : String × String} (he : e ∈ t.entries) :
    t.word e.1 = e.2.toList := by
  rw [word, (alias?_eq_some_iff h).mpr he, Option.getD_some]

/-- It is enough that the aliases are told from the names. -/
theorem Sound.distinct {t : AliasTable} (h : t.Sound) (htold : t.Told t.names) : t.Distinct := by
  refine ⟨h.nodup, fun n hn m hm ↦ ?_⟩
  obtain ⟨e, he, rfl⟩ := List.mem_map.mp hn
  have hword : e.2 ∈ t.aliases := List.mem_map_of_mem he
  rw [word_eq h.nodup he]
  obtain ⟨c, cs, hcons, hc, hcs⟩ := (h.form _ hword).exists_cons
  refine ⟨hcons ▸ List.cons_ne_nil c cs, ?_, htold _ hword m hm⟩
  rw [hcons]
  exact List.forall_mem_cons.mpr ⟨by rw [Text.isIdentifierChar, hc, Bool.true_or], hcs⟩

/-- Putting aliases in place of names is writing marks with the aliases. -/
theorem substitute_eq {t : AliasTable} (h : t.Distinct) (source : String) :
    t.substitute source = String.ofList (Mark.text t.word (Mark.ofText t.names source)) := by
  have hperm := List.mergeSort_perm t.entries before
  have hnames : (t.entries.mergeSort before).map (·.1) = t.names.mergeSort Mark.before :=
    List.map_mergeSort fun _ _ _ _ ↦ rfl
  have hwords : ∀ e ∈ t.entries.mergeSort before, t.word e.1 = e.2.toList := fun e he ↦
    word_eq h.nodup (hperm.mem_iff.mp he)
  have hsolid : ∀ e ∈ t.entries.mergeSort before, ∀ n,
      .name n ∈ source.toList.map Mark.char ∨ n ∈ (t.entries.mergeSort before).map (·.1) →
        Mark.Solid e.1.toList (t.word n) := by
    intro e he n hn
    rcases hn with hn | hn
    · simp at hn
    · rw [(hperm.map _).mem_iff] at hn
      exact h.solid n hn e.1 (List.mem_map_of_mem (hperm.mem_iff.mp he))
  have hfold := Mark.foldl_replaceSymbol_text hwords hsolid
  rw [Mark.text_map_char, String.ofList_toList, hnames] at hfold
  rw [substitute, hfold, Mark.ofText]

end AliasTable

end FormulaQuiz
