import FormulaQuiz.Variation.Alias
import Mathlib.Data.List.Sort

/-!
# The order of substitution

Aliases are put in place of names one name after the other.  The order of the names is total and
transitive, but two entries with the same name stand beside each other in the order of the table;
so sorting is shown to be insertion, which keeps them that way, and is easy to run.
-/

/-- A stable sort inserts the first item of a list into the sorted others. -/
theorem List.mergeSort_eq_insertionSort_of_total {α : Type} {le : α → α → Bool}
    (trans : ∀ a b c, le a b = true → le b c = true → le a c = true)
    (total : ∀ a b, (le a b || le b a) = true) (l : List α) :
    l.mergeSort le = l.insertionSort (fun a b ↦ le a b = true) := by
  induction l with
  | nil => exact List.mergeSort_nil
  | cons a l ih =>
    obtain ⟨before, later, hcons, hl, hbefore⟩ := List.mergeSort_cons trans total a l
    have hsorted := List.pairwise_mergeSort trans total (a :: l)
    rw [hcons, List.pairwise_append, List.pairwise_cons] at hsorted
    rw [List.insertionSort_cons, ← ih, hcons, hl, List.orderedInsert_eq_take_drop]
    have hnot : ∀ b ∈ before, decide (¬ le a b = true) = true := fun b hb ↦ by
      simpa using hbefore b hb
    rw [List.takeWhile_append_of_pos hnot, List.dropWhile_append_of_pos hnot]
    cases later with
    | nil => simp
    | cons b later =>
      have hle : le a b = true := hsorted.2.1.1 b List.mem_cons_self
      simp [hle]

namespace FormulaQuiz.AliasTable

theorem before_total (x y : String × String) : (before x y || before y x) = true := by
  rw [before, before]
  by_cases hsize : x.1.utf8ByteSize = y.1.utf8ByteSize
  · rw [if_pos hsize, if_pos hsize.symm]
    simpa using String.le_total x.1 y.1
  · rw [if_neg hsize, if_neg (Ne.symm hsize)]
    simp only [Bool.or_eq_true, decide_eq_true_eq]
    omega

theorem before_trans (x y z : String × String) (hxy : before x y = true)
    (hyz : before y z = true) : before x z = true := by
  rw [before] at hxy hyz ⊢
  split at hxy <;> split at hyz <;> simp only [decide_eq_true_eq] at hxy hyz
  next h h' => simpa [h, h'] using String.le_trans hxy hyz
  next h h' => simp [h, h', hyz]
  all_goals
    rw [if_neg (by omega), decide_eq_true_eq]
    omega

/-- Aliases are put in place of names in the order in which insertion sorts the names. -/
theorem substitute_eq_foldl (t : AliasTable) (source : String) :
    t.substitute source =
      (t.entries.insertionSort (fun x y ↦ before x y = true)).foldl
        (fun text (name, word) ↦ Text.replaceSymbol text name word) source := by
  rw [substitute, List.mergeSort_eq_insertionSort_of_total before_trans before_total]

end FormulaQuiz.AliasTable
