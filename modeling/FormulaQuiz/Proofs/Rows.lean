import FormulaQuiz.Proofs.Shuffle
import FormulaQuiz.Proofs.Trial
import FormulaQuiz.Variation.Preview
import Mathlib.Data.List.Basic
import Mathlib.Data.List.Forall2
import Mathlib.Data.List.Perm.Subperm

/-!
# Rows and columns of wrong answers

Wrong values are drawn in columns, one for each final answer, and shown in rows.  A column has as
many values as there are rows, so no place of the table is empty and its columns can be read off its
rows again.
-/

namespace FormulaQuiz

section Table

variable {α : Type} {count : Nat} {columns : List (List α)}

/-- Going through all places of a list gives the list. -/
theorem map_getElem?_range (l : List α) : (List.range l.length).map (l[·]?) = l.map some := by
  induction l with
  | nil => rfl
  | cons a l ih =>
    rw [List.length_cons, List.range_succ_eq_map, List.map_cons, List.map_map]
    exact congrArg (some a :: ·) ih

/-- A row of a table without empty places has an item of every column. -/
theorem getElem?_row {r : Nat} (h : ∀ column ∈ columns, r < column.length) (i : Nat) :
    (columns.filterMap (·[r]?))[i]? = columns[i]?.bind (·[r]?) := by
  induction columns generalizing i with
  | nil => rfl
  | cons column columns ih =>
    obtain ⟨hr, hrest⟩ := List.forall_mem_cons.mp h
    rw [List.filterMap_cons, List.getElem?_eq_getElem hr]
    cases i with
    | zero => exact (List.getElem?_eq_getElem hr).symm
    | succ i => exact ih hrest i

/-- Every row of a table without empty places has an item of every column. -/
theorem length_of_mem_rowsOf (h : ∀ column ∈ columns, column.length = count) {row : List α}
    (hrow : row ∈ rowsOf count columns) : row.length = columns.length := by
  obtain ⟨r, hr, rfl⟩ := List.mem_map.mp hrow
  have hall : ∀ column ∈ columns, r < column.length :=
    fun column hcolumn ↦ (h column hcolumn).symm ▸ List.mem_range.mp hr
  clear hrow h
  induction columns with
  | nil => rfl
  | cons column columns ih =>
    obtain ⟨hlt, hall⟩ := List.forall_mem_cons.mp hall
    rw [List.filterMap_cons, List.getElem?_eq_getElem hlt]
    exact congrArg (· + 1) (ih hall)

/-- Every row has at the place of a column an item of it, that of the row. -/
theorem map_getElem?_rowsOf (h : ∀ column ∈ columns, column.length = count) {i : Nat}
    {column : List α} (hi : columns[i]? = some column) :
    (rowsOf count columns).map (·[i]?) = column.map some := by
  have hlength : column.length = count := h column (List.mem_of_getElem? hi)
  rw [rowsOf, List.map_map, ← map_getElem?_range, hlength]
  refine List.map_congr_left fun r hr ↦ ?_
  have hall : ∀ column ∈ columns, r < column.length := fun c hc ↦
    (h c hc).symm ▸ List.mem_range.mp hr
  rw [Function.comp_apply, getElem?_row hall, hi, Option.bind_some]

/-- A column of a table is what stands at its place in the rows. -/
theorem column_rowsOf (h : ∀ column ∈ columns, column.length = count) {i : Nat} {column : List α}
    (hi : columns[i]? = some column) : (rowsOf count columns).filterMap (·[i]?) = column := by
  calc (rowsOf count columns).filterMap (·[i]?)
      = ((rowsOf count columns).map (·[i]?)).filterMap id := by rw [List.filterMap_map]; rfl
    _ = (column.map some).filterMap id := by rw [map_getElem?_rowsOf h hi]
    _ = column := by rw [List.filterMap_map]; exact List.filterMap_some

end Table

variable {σ : Type} [Random.WordSource σ]

/-- Each column holds some of the wrong values of its pool, as many as there are rows. -/
theorem drawColumns_gives {count : Nat} {pools : List DecoyPool} {columns : List (List Decoy)}
    {source rest : σ} (h : (drawColumns count pools).Gives source columns rest) :
    List.Forall₂ (fun pool column ↦ column.length = count ∧ column.Subperm pool.candidates)
      pools columns := by
  induction pools generalizing columns source rest with
  | nil =>
    rw [drawColumns, Trial.gives_pure_iff] at h
    rw [h.1]
    exact .nil
  | cons pool pools ih =>
    rw [drawColumns] at h
    split at h
    · rw [Trial.gives_bind_iff] at h
      obtain ⟨_, _, hthrow, -⟩ := h
      exact absurd hthrow Trial.not_gives_throw
    next hcount =>
      simp only [Trial.gives_bind_iff, Trial.gives_lift_iff, Trial.gives_pure_iff] at h
      obtain ⟨shuffled, between, hshuffle, columns, _, hrest, rfl, -⟩ := h
      have hperm := Random.shuffle_perm hshuffle
      refine .cons ⟨?_, ?_⟩ (ih hrest)
      · rw [List.length_take, hperm.length_eq]
        omega
      · exact (List.take_sublist count shuffled).subperm.trans hperm.subperm

/-- A column is as long as there are rows. -/
theorem length_of_mem_drawColumns {count : Nat} {pools : List DecoyPool}
    {columns : List (List Decoy)} {source rest : σ}
    (h : (drawColumns count pools).Gives source columns rest) :
    ∀ column ∈ columns, column.length = count := by
  have hdrawn := drawColumns_gives h
  clear h
  induction hdrawn with
  | nil => exact nofun
  | cons hcolumn _ ih => exact List.forall_mem_cons.mpr ⟨hcolumn.1, ih⟩

end FormulaQuiz
