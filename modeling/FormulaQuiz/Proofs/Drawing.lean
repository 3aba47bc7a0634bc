import FormulaQuiz.Proofs.Independence
import Mathlib.Data.List.FinRange
import Mathlib.Data.List.Perm.Basic

/-!
# Rows are drawn without replacement

A pool is shuffled and what comes first is taken, so the wrong values of a column stand at different
places of the pool.  The rows show these columns, and there are none just if some pool is too small:
the first such pool is the one that is complained of.
-/

namespace FormulaQuiz

/-- What is drawn from a list stands at different places of it. -/
theorem exists_places_of_subperm {α : Type} {l l' : List α} (h : l.Subperm l') :
    ∃ places : List (Fin l'.length), places.Nodup ∧ l = places.map l'.get := by
  obtain ⟨drawn, hperm, hsub⟩ := h
  rw [← List.map_get_finRange l', List.sublist_map_iff] at hsub
  obtain ⟨chosen, hchosen, rfl⟩ := hsub
  have hcomp : Relation.Comp (fun l places ↦ l = places.map l'.get) List.Perm l chosen := by
    rw [List.eq_map_comp_perm]
    exact hperm.symm
  obtain ⟨places, hl, hplaces⟩ := hcomp
  exact ⟨places, hplaces.nodup_iff.mpr (hchosen.nodup (List.nodup_finRange _)), hl⟩

/-- Rows that are drawn from pools: there is an item of every pool in each of them, and the items of
a pool stand at different places of its wrong values. -/
structure IsDrawn (count : ℕ) (pools : List DecoyPool) (rows : List (List Decoy)) : Prop where
  length : rows.length = count
  length_row : ∀ row ∈ rows, row.length = pools.length
  column : ∀ (k : ℕ) (pool : DecoyPool), pools[k]? = some pool →
    ∃ places : List (Fin pool.candidates.length), places.Nodup ∧
      rows.map (·[k]?) = places.map fun p ↦ some pool.candidates[p]

variable {σ : Type} [Random.WordSource σ] {count : ℕ} {pools : List DecoyPool} {source rest : σ}

theorem isDrawn_rowsOf {columns : List (List Decoy)}
    (h : (drawColumns count pools).Gives source columns rest) :
    IsDrawn count pools (rowsOf count columns) := by
  have hdrawn := drawColumns_gives h
  have hlength := length_of_mem_drawColumns h
  refine ⟨?_, fun row hrow ↦ ?_, fun k pool hpool ↦ ?_⟩
  · rw [rowsOf, List.length_map, List.length_range]
  · rw [length_of_mem_rowsOf hlength hrow, hdrawn.length_eq]
  · obtain ⟨hk, rfl⟩ := List.getElem?_eq_some_iff.mp hpool
    have hk' : k < columns.length := hdrawn.length_eq ▸ hk
    have hsub := (hdrawn.get hk hk').2
    obtain ⟨places, hnodup, heq⟩ := exists_places_of_subperm hsub
    refine ⟨places, hnodup, ?_⟩
    rw [map_getElem?_rowsOf hlength (List.getElem?_eq_getElem hk')]
    calc columns[k].map some
        = (places.map pools[k].candidates.get).map some := congrArg (List.map some) heq
      _ = places.map fun p ↦ some pools[k].candidates[p] := List.map_map

/-- The first pool that is too small is complained of. -/
theorem exists_fails_drawColumns {pool : DecoyPool}
    (h : pools.find? (fun p ↦ decide (p.candidates.length < count)) = some pool) (source : σ) :
    ∃ rest, (drawColumns count pools).Fails source
      (.insufficientDecoys pool.name pool.percentages) rest := by
  induction pools generalizing source with
  | nil => exact nomatch h
  | cons first pools ih =>
    rw [List.find?_cons] at h
    rw [drawColumns]
    by_cases hcount : first.candidates.length < count
    · rw [decide_eq_true hcount] at h
      obtain rfl := Option.some.inj h
      rw [if_pos hcount]
      exact ⟨source, rfl⟩
    · rw [decide_eq_false hcount] at h
      rcases hshuffle : (Random.shuffle first.candidates).run source with ⟨shuffled, between⟩
      obtain ⟨rest, hrest⟩ := ih h between
      rw [if_neg hcount]
      simp only [Trial.fails_bind_iff, Trial.gives_lift_iff]
      exact ⟨rest, .inr ⟨shuffled, between, hshuffle, .inl hrest⟩⟩

/-- Drawing rows fails just if some pool has too few wrong values, and it is the first such pool
that is complained of; else the rows are drawn from the pools without replacement. -/
theorem drawRows_outcome (count : ℕ) (pools : List DecoyPool) (source : σ) :
    match pools.find? fun pool ↦ decide (pool.candidates.length < count) with
    | some pool => ∃ rest, (drawRows count pools).Fails source
        (.insufficientDecoys pool.name pool.percentages) rest
    | none => ∃ rows rest, (drawRows count pools).Gives source rows rest ∧
        IsDrawn count pools rows := by
  split
  next pool hpool =>
    obtain ⟨rest, h⟩ := exists_fails_drawColumns hpool source
    exact ⟨rest, Trial.fails_bind_iff.mpr (.inl h)⟩
  next hnone =>
    have hcount : ∀ pool ∈ pools, count ≤ pool.candidates.length := by
      simpa using hnone
    obtain ⟨columns, rest, h⟩ := exists_drawColumns hcount source
    refine ⟨_, rest, Trial.gives_bind_iff.mpr ⟨columns, rest, h, ?_⟩, isDrawn_rowsOf h⟩
    exact Trial.gives_pure_iff.mpr ⟨rfl, rfl⟩

end FormulaQuiz
