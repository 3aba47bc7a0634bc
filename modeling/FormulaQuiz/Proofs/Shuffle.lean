import FormulaQuiz.Random.Source

/-!
# Shuffling only moves items

Whatever is drawn, a shuffled list has the items of the list that was given, each as often.
-/

namespace FormulaQuiz.Random

variable {σ α : Type} [WordSource σ]

/-- Exchanging two items, or none if a position lies outside, only moves items. -/
theorem swapIfInBounds_perm (items : Array α) (i j : Nat) :
    (items.swapIfInBounds i j).Perm items := by
  rw [Array.swapIfInBounds_def]
  split
  · split
    · exact Array.swap_perm _ _
    · exact .refl items
  · exact .refl items

/-- Each exchange of a shuffle only moves items, so all of them do. -/
theorem shuffleFrom_perm (i : Nat) (items : Array α) (source : σ) :
    ((shuffleFrom i items).run source).1.Perm items := by
  induction i generalizing items source with
  | zero => exact .refl items
  | succ i ih =>
    exact (ih _ _).trans (swapIfInBounds_perm items _ _)

/-- A shuffled list is a permutation of the list. -/
theorem shuffle_perm {items shuffled : List α} {source rest : σ}
    (h : (shuffle items).run source = (shuffled, rest)) : shuffled.Perm items := by
  have hfst : ((shuffle items).run source).1 = shuffled := congrArg Prod.fst h
  rw [← hfst]
  exact (shuffleFrom_perm (items.length - 1) items.toArray source).toList

end FormulaQuiz.Random
